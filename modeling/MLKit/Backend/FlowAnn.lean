import MLKit.Backend.FlowExact
import MLKit.Backend.FlowItems

/-!
# The annotated body

Statements that neither use nor define a flow variable are not changed, and every flow variable has
its labels set once.
-/

namespace MLKit.Backend.FlowVars

open List Nat

variable {labels : FreshLabels}

/-- None of the variables is a flow variable. -/
def NoFlow (okSet : Finset Lvar) (lvs : List Lvar) : Prop := ∀ lv ∈ lvs, lv ∉ okSet

variable {V : Type} {okSet : Finset Lvar} {lvs lvs' : List Lvar} {aty arg : Atom}
  {atys args : List Atom} {sma : Sma Atom} {smas : List (Sma Atom)} {elems : Free Atom}
  {se : SimpleExp Atom} {stmt : BasicStmt Unit Atom} {dest : Dest} {b b' : Bool} {name : String}
  {test : Dest × String × List Atom} {code : RegionCode} {lv lv' : Lvar} {K P P' : List Item}
  {lab : Label} {places : List (Label × List Item)} {kind : SwitchKind}
  {sels : List (Selector × List FvStmt)}

section Unchanged

@[simp] theorem noFlow_append :
    NoFlow okSet (lvs ++ lvs') ↔ NoFlow okSet lvs ∧ NoFlow okSet lvs' :=
  forall_mem_append

theorem annAty_of_noFlow (h : NoFlow okSet (getVarAtom aty)) :
    annAty labels okSet aty = aty := by
  cases aty with
  | var lv => exact if_neg (h lv (mem_singleton_self lv))
  | _ => rfl

theorem map_annAty (h : NoFlow okSet (getVarAtoms atys)) :
    atys.map (annAty labels okSet) = atys := by
  refine (map_congr_left fun aty haty => ?_).trans (map_id atys)
  exact annAty_of_noFlow fun lv hlv => h lv (mem_flatMap.2 ⟨aty, haty, hlv⟩)

theorem map_annAty_fst {args : List (Atom × ForeignType)}
    (h : NoFlow okSet (getVarAtoms (args.map Prod.fst))) :
    args.map (fun arg => (annAty labels okSet arg.1, arg.2)) = args := by
  refine (map_congr_left fun arg harg => ?_).trans (map_id args)
  have hfst : NoFlow okSet (getVarAtom arg.1) := fun lv hlv =>
    h lv (mem_flatMap.2 ⟨arg.1, mem_map_of_mem harg, hlv⟩)
  rw [annAty_of_noFlow hfst]
  rfl

theorem map_annAty_option {aty : Option Atom} (h : NoFlow okSet (getVarAtomOpt aty)) :
    aty.map (annAty labels okSet) = aty := by
  cases aty with
  | none => rfl
  | some aty => exact congrArg some (annAty_of_noFlow h)

theorem mapSma_annAty (h : NoFlow okSet (getVarSma' false sma)) :
    mapSma (annAty labels okSet) sma = sma := by
  cases sma with
  | ignore => rfl
  | mode kind aty pp => exact congrArg (Sma.mode kind · pp) (annAty_of_noFlow h)

theorem map_mapSma_annAty (h : NoFlow okSet (getVarSmas' false smas)) :
    smas.map (mapSma (annAty labels okSet)) = smas := by
  refine (map_congr_left fun sma hsma => ?_).trans (map_id smas)
  exact mapSma_annAty fun lv hlv => h lv (mem_flatMap.2 ⟨sma, hsma, hlv⟩)

@[simp] theorem getVarAtoms_append (atys atys' : List Atom) :
    getVarAtoms (atys ++ atys') = getVarAtoms atys ++ getVarAtoms atys' :=
  flatMap_append

theorem mapFree_annAty (h : NoFlow okSet (getVarAtoms (smashFree' false elems))) :
    mapFree (annAty labels okSet) elems = elems := by
  simp only [smashFree', Bool.false_eq_true, if_false, getVarAtoms_append, noFlow_append] at h
  rw [mapFree, map_annAty h.1.1, map_annAty h.1.2, map_annAty h.2]

theorem mapSe_annAty (h : NoFlow okSet (useVarSe' false se)) :
    mapSe (annAty labels okSet) se = se := by
  cases se <;> simp only [useVarSe', noFlow_append] at h <;>
    simp_all [mapSe, annAty_of_noFlow, map_annAty, mapSma_annAty, map_mapSma_annAty, mapFree_annAty]

/-- A statement without flow variables stays as it is. -/
theorem mapBasic_annAty (huse : NoFlow okSet (useVarLs stmt))
    (hdef : NoFlow okSet (defVarLs stmt)) : mapBasic (annAty labels okSet) stmt = stmt := by
  cases stmt <;>
    simp only [useVarLs, useVarLs', usesOf, defVarLs, useVarOnFn, useVarOnFun', noFlow_append,
      Bool.false_eq_true, if_false] at huse hdef <;>
    simp_all [mapBasic, mapFnApp, mapFunApp, annAty_of_noFlow, map_annAty, map_annAty_option,
      map_annAty_fst, mapSe_annAty, map_mapSma_annAty]

end Unchanged

/-! ## Definitions of booleans -/

/-- Where the definitions of a variable deliver their boolean. -/
def annDest (labels : FreshLabels) (okSet : Finset Lvar) (lv : Lvar) : Dest :=
  if lv ∈ okSet then .flow (labels.label lv true) (labels.label lv false) else .var lv

theorem destOf_annAty (lv : Lvar) :
    destOf (annAty labels okSet (.var lv)) = some (annDest labels okSet lv) := by
  rw [annAty, annDest]
  split <;> rfl

theorem destOf_plain (hplain : isFlow aty = false) (h : destOf aty = some dest) :
    ∃ lv, aty = .var lv ∧ dest = .var lv := by
  cases aty with
  | var lv =>
    cases h
    exact ⟨lv, rfl, rfl⟩
  | flowVar => cases hplain
  | _ => cases h

theorem constDef_plain (hplain : plainBasic stmt = true) (h : constDef stmt = some (dest, b)) :
    ∃ lv, dest = .var lv ∧ boolConst stmt = some (lv, b) ∧
      constDef (mapBasic (annAty labels okSet) stmt) = some (annDest labels okSet lv, b) := by
  unfold constDef at h
  split at h
  · next pat con conKind =>
      split at h
      · next dest' b' hdest hcon =>
          cases h
          have hpat : isFlow pat = false := by
            simp only [plainBasic, Bool.and_eq_true, Bool.not_eq_true'] at hplain
            exact hplain.1
          obtain ⟨lv, rfl, rfl⟩ := destOf_plain hpat hdest
          refine ⟨lv, rfl, ?_, ?_⟩
          · simp [boolConst, hcon]
          · simp [mapBasic, mapSe, mapSma, constDef, destOf_annAty, hcon]
      · cases h
  · cases h

theorem testDef_plain (hplain : plainBasic stmt = true)
    (h : testDef stmt = some (dest, name, args)) :
    ∃ lv, dest = .var lv ∧ boolPrim stmt = some lv ∧ useVarLs stmt = getVarAtoms args ∧
      testDef (mapBasic (annAty labels okSet) stmt) =
        some (annDest labels okSet lv, name, args.map (annAty labels okSet)) := by
  unfold testDef at h
  split at h
  · next name' aty1 aty2 res =>
      split at h
      · next hflow =>
          obtain ⟨dest', hdest, heq⟩ := Option.map_eq_some_iff.1 h
          cases heq
          have hres : isFlow res = false := by simpa [plainBasic] using hplain
          obtain ⟨lv, rfl, rfl⟩ := destOf_plain hres hdest
          refine ⟨lv, rfl, ?_, rfl, ?_⟩
          · simp [boolPrim, hflow]
          · simp [mapBasic, testDef, hflow, destOf_annAty]
      · cases h
  · cases h

theorem constDef_of_testDef (h : testDef stmt = some test) :
    constDef stmt = none := by
  cases stmt with
  | prim name args res => rfl
  | _ => cases h

section

variable (hfine : FineLs code lv (.basic stmt) K)

include hfine

/-- The definitions of a variable are fine: either the statement delivers a boolean to it, or it
does not define it. -/
theorem notMem_defVarLs (hconst : constDef stmt = none) (htest : testDef stmt = none) : lv ∉
    defVarLs stmt := by
  intro hdef
  have hsets := (hfine.2 hdef).1
  cases hbool : boolConst stmt with
  | some pair =>
    obtain ⟨lv', b⟩ := pair
    obtain ⟨con, conKind, rfl, hcon⟩ := boolConst_vars hbool
    simp [constDef, destOf, hcon] at hconst
  | none =>
    have hprim : boolPrim stmt = some lv := by simpa [setsBool, hbool] using hsets
    obtain ⟨name, aty1, aty2, rfl, hflow⟩ := boolPrim_vars hprim
    simp [testDef, destOf, hflow] at htest

theorem leads_of_boolConst (h : boolConst stmt = some (lv, b)) : Leads code lv K := by
  obtain ⟨con, conKind, rfl, -⟩ := boolConst_vars h
  exact (hfine.2 (mem_singleton_self lv)).2

theorem leads_of_boolPrim (h : boolPrim stmt = some lv) : Leads code lv K := by
  obtain ⟨name, aty1, aty2, rfl, -⟩ := boolPrim_vars h
  exact (hfine.2 (mem_singleton_self lv)).2

end

/-! ## Switches -/

theorem chosen_map (values : Values V) (kind : SwitchKind) (v : V) (f : Atom → Atom)
    (g : Sty → Sty) (sels : List (Selector × List FvStmt)) (default : List FvStmt) :
    chosen values kind v (mapSels f g sels) (mapLss f g default) =
      mapLss f g (chosen values kind v sels default) := by
  induction sels with
  | nil => rfl
  | cons head sels ih =>
    obtain ⟨sel, lss⟩ := head
    rw [mapSels, chosen, chosen]
    split
    · rfl
    · exact ih

theorem opens_chosen (values : Values V) (kind : SwitchKind) (v : V)
    (arg : Atom) (sels : List (Selector × List FvStmt)) (default : List FvStmt) (K : List Item) :
    Opens code (.stmt (.switch kind arg sels default) :: K)
      (stmts (chosen values kind v sels default) ++ K) := by
  have hchosen : chosen values kind v sels default = default ∨
      ∃ sel, (sel, chosen values kind v sels default) ∈ sels := by
    induction sels with
    | nil => exact .inl rfl
    | cons head sels ih =>
      obtain ⟨sel, lss⟩ := head
      rw [chosen]
      split
      · exact .inr ⟨sel, .head _⟩
      · exact ih.imp_right fun ⟨sel', hmem⟩ => ⟨sel', .tail _ hmem⟩
  rcases hchosen with heq | ⟨sel, hmem⟩
  · rw [heq]
    exact .default
  · exact .branch hmem

/-! ## The labels are set once -/

/-- How often a label is set. -/
def timesSet (lab : Label) (places : List (Label × List Item)) : Nat :=
  places.countP fun place => place.1 = lab

@[simp] theorem timesSet_append (lab : Label) (places places' : List (Label × List Item)) :
    timesSet lab (places ++ places') = timesSet lab places + timesSet lab places' :=
  countP_append

theorem eq_of_timesSet_le_one (hsets : timesSet lab places ≤ 1)
    (h : (lab, P) ∈ places) (h' : (lab, P') ∈ places) : P = P' := by
  rw [timesSet, countP_eq_length_filter] at hsets
  have hmem : (lab, P) ∈ places.filter fun place => place.1 = lab := mem_filter.2 ⟨h, by simp⟩
  have hmem' : (lab, P') ∈ places.filter fun place => place.1 = lab := mem_filter.2 ⟨h', by simp⟩
  obtain ⟨place, hplace⟩ | hnil := le_one_iff_eq_zero_or_eq_one.1 hsets |>.symm.imp
    length_eq_one_iff.1 length_eq_zero_iff.1
  · rw [hplace, mem_singleton] at hmem hmem'
    exact congrArg Prod.snd (hmem.trans hmem'.symm)
  · rw [hnil] at hmem
    cases hmem

theorem switchPlaces_flow (kind : SwitchKind) (lv : Lvar) (sel : Selector)
    (lss default : List FvStmt)
    (K : List Item) :
    switchPlaces kind (.flowVar lv (labels.label lv true) (labels.label lv false)) [(sel, lss)]
      default K =
    [(labels.label lv (selBool kind sel == some true), stmts lss ++ K),
      (labels.label lv (!(selBool kind sel == some true)), stmts default ++ K)] := by
  unfold switchPlaces
  by_cases hsel : selBool kind sel = some true
  · simp [hsel]
  · simp [hsel, beq_eq_false_iff_ne.2 hsel]

/-- Each of the two labels of a variable is set once. -/
theorem timesSet_pair :
    timesSet (labels.label lv b) [(labels.label lv' b', P), (labels.label lv' (!b'), P')] ≤
      if lv ∈ [lv'] then 1 else 0 := by
  have hlabel : ∀ b', labels.label lv' b' = labels.label lv b ↔ lv' = lv ∧ b' = b := fun b' =>
    ⟨labels.distinct, fun heq => by rw [heq.1, heq.2]⟩
  by_cases hlv : lv' = lv
  · subst hlv
    cases b <;> cases b' <;> simp [timesSet, hlabel]
  · simp [timesSet, hlabel, hlv]

theorem timesSet_switchPlaces (hplain : plainOperand arg = true) {default : List FvStmt} :
    timesSet (labels.label lv b) (switchPlaces kind (annAty labels okSet arg) sels default K) ≤
      if lv ∈ getVarAtom arg then 1 else 0 := by
  cases arg with
  | var lv' =>
    by_cases hok : lv' ∈ okSet
    · have hann : annAty labels okSet (.var lv') =
        .flowVar lv' (labels.label lv' true) (labels.label lv' false) := if_pos hok
      rw [hann]
      rcases sels with _ | ⟨⟨sel, lss⟩, _ | ⟨sel', sels⟩⟩
      · exact zero_le _
      · rw [switchPlaces_flow]
        exact timesSet_pair
      · exact zero_le _
    · have hann : annAty labels okSet (.var lv') = .var lv' := if_neg hok
      rw [hann]
      exact zero_le _
  | flowVar => cases hplain
  | _ => exact zero_le _

section SetOnce

variable (lv : Lvar) (b : Bool)

mutual

theorem timesSet_placesLs : ∀ (ls : FvStmt) (K : List Item), PlainLs ls →
    timesSet (labels.label lv b)
      (placesLs code (mapLs (annAty labels okSet) (annSty labels okSet) ls) K) ≤ usesLs lv ls
  | .basic stmt, K, _ => zero_le _
  | .letregion rhos body, K, hplain => by
    exact timesSet_placesLss body _ hplain
  | .scope pat scope, K, hplain => by
    exact timesSet_placesLss scope _ hplain
  | .handle default handl handlLv handlReturn handlReturnLv bv offset, K, hplain => by
    rw [mapLs, placesLs, usesLs, timesSet_append, timesSet_append]
    refine (Nat.add_le_add (Nat.add_le_add (timesSet_placesLss handl _ hplain.2.1)
      (timesSet_placesLss default _ hplain.1)) (timesSet_placesLss handlReturn _ hplain.2.2)).trans ?_
    omega
  | .switch kind arg sels default, K, hplain => by
    rw [PlainLs] at hplain
    rw [mapLs, placesLs, usesLs, timesSet_append, timesSet_append]
    exact Nat.add_le_add (Nat.add_le_add (timesSet_switchPlaces hplain.1)
      (timesSet_placesSels sels K hplain.2.1)) (timesSet_placesLss default K hplain.2.2)

theorem timesSet_placesLss : ∀ (lss : List FvStmt) (K : List Item), PlainLss lss →
    timesSet (labels.label lv b)
      (placesLss code (mapLss (annAty labels okSet) (annSty labels okSet) lss) K) ≤ usesLss lv lss
  | [], K, _ => zero_le _
  | ls :: lss, K, hplain => by
    rw [mapLss, placesLss, usesLss, timesSet_append]
    exact Nat.add_le_add (timesSet_placesLs ls _ hplain.1) (timesSet_placesLss lss K hplain.2)

theorem timesSet_placesSels : ∀ (sels : List (Selector × List FvStmt))
    (K : List Item), PlainSels sels →
    timesSet (labels.label lv b)
      (placesSels code (mapSels (annAty labels okSet) (annSty labels okSet) sels) K) ≤
        usesSels lv sels
  | [], K, _ => zero_le _
  | (sel, lss) :: sels, K, hplain => by
    rw [mapSels, placesSels, usesSels, timesSet_append]
    exact Nat.add_le_add (timesSet_placesLss lss K hplain.1) (timesSet_placesSels sels K hplain.2)

end

end SetOnce

end MLKit.Backend.FlowVars
