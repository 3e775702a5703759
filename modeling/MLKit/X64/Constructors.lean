import MLKit.X64.SwitchCon

/-!
# Values of datatypes

For any sequence of datatype declarations: the values that the code of the
constructors builds are told apart by switches and taken apart again, whatever
the compiler chose to represent them by.
-/

namespace MLKit.X64.Constructors

open MLKit.Lib MLKit.Lambda MLKit.Backend MLKit.Backend.SubstAndSimplify MLKit.X64.Switch List

/-! ## Selections -/

variable {β : Type} {kindOf : Con → CE.ConKind} {datbind : Datbind} {layout : Layout}
  {refs0 refs' : TyName.UnboxedRefs} {i j n : Nat} {unboxed : TyName → Bool}

section Selections

variable {β : Type} (flags : Flags) {env : CE.ConEnv}
  {sels : List (Con × β)}

theorem mapM_switchTag (henv : ∀ sel ∈ sels, env sel.1 = some (kindOf sel.1)) :
    (sels.mapM fun (m, branch) => do return (← switchTag flags env m, branch)) =
      Except.ok (tagSels flags kindOf sels) := by
  induction sels with
  | nil => rfl
  | cons sel rest ih =>
    rw [mapM_cons, ih fun sel hsel => henv sel (.tail _ hsel)]
    simp only [switchTag_eq (henv sel (.head _))]
    rfl

/-- The branch for a constructor, if the switch has one. -/
def selected (sels : List (Con × β)) (default : Option β) (con : Con) : Option β :=
  (sels.lookup con).or default

/-- Leaving out the default makes the last selection the default. -/
theorem compileSelsAndDefault_ok {default : Option β}
    (henv : ∀ sel ∈ sels, env sel.1 = some (kindOf sel.1)) (hdistinct : (sels.map Prod.fst).Nodup)
    (hsome : sels ≠ [] ∨ default ≠ none) :
    ∃ sels' default', compileSelsAndDefault sels default (switchTag flags env) =
        .ok (tagSels flags kindOf sels', default') ∧ sels'.Sublist sels ∧
      ∀ con branch, selected sels default con = some branch →
        (sels'.lookup con).getD default' = branch := by
  have hmap := mapM_switchTag flags henv
  cases default with
  | some branch =>
    refine ⟨sels, branch, ok_bind hmap, List.Sublist.refl _, fun con branch' h => ?_⟩
    cases hlookup : sels.lookup con with
    | none | some found => simpa [selected, hlookup] using h
  | none =>
    have hne : sels ≠ [] := hsome.resolve_right fun h => h rfl
    obtain ⟨init, last, rfl⟩ := eq_nil_or_concat sels |>.resolve_left hne
    refine ⟨init, last.2, ?_, by simp, fun con branch h => ?_⟩
    · refine (ok_bind hmap).trans ?_
      simp [tagSels]
      rfl
    · rw [selected, Option.or_none, concat_eq_append, lookup_append] at h
      cases hlookup : init.lookup con with
      | some found => simpa [hlookup] using h
      | none =>
        rw [hlookup, Option.none_or, lookup_cons] at h
        cases hlast : con == last.1 with
        | true => simpa [hlast] using h
        | false => simp [hlast] at h

end Selections

/-! ## Values -/

section Values

variable (flags : Flags) (labAddr : Lab → Int) (env : CE.ConEnv) (HasTy : Ty → Int → Prop)

/-- A constructor is applied as its declaration says. -/
def Typed : Option Ty → Option Int → Prop
  | none, none => True
  | some ty, some a => HasTy ty a
  | _, _ => False

/-- The word, and what it points to, is the constructor, or the constructor with
its argument. -/
def IsValue (datbind : Datbind) (mem : Int → Int) (w : Int) (con : Con) (arg : Option Int) : Prop :=
  ∃ ty kind, (con, ty) ∈ datbind.cons ∧ env con = some kind ∧ Typed HasTy ty arg ∧
    Represents flags con mem w kind arg

/-- `CON0` builds the value of a nullary constructor. -/
def Builds0 (datbind : Datbind) : Prop :=
  ∀ con, (con, none) ∈ datbind.cons → ∃ kind, lookupCon env con = .ok (codeKind kind) ∧
    ∀ resetRegions alloc pat sizeFf, IsConDest pat →
      ∃ reg pre, (∀ C, cgCon0 flags resetRegions alloc con (codeKind kind) pat sizeFf C =
          con0Front resetRegions alloc reg kind (pre ++ C)) ∧
        ∀ s, Outside (s.regs reg) 1 (s.regs .rsp) sizeFf pat →
          ∃ w, atyValue flags labAddr (exec labAddr s pre) sizeFf pat = some w ∧
            IsValue flags env HasTy datbind (exec labAddr s pre).mem w con none

/-- `CON1` builds the value of a unary constructor. -/
def Builds1 (datbind : Datbind) : Prop :=
  ∀ con ty, (con, some ty) ∈ datbind.cons → ∃ kind, lookupCon env con = .ok (codeKind kind) ∧
    ∀ alloc arg pat sizeFf, IsConArg arg → IsConDest pat →
      ∃ reg pre, (∀ C, cgCon1 flags alloc (codeKind kind) arg pat sizeFf C =
          con1Front alloc reg kind (pre ++ C)) ∧
        ∀ s s' a, HasTy ty a → Con1Start reg kind arg sizeFf s s' →
          Outside (s'.regs reg) 2 (s'.regs .rsp) sizeFf pat →
          Outside (s'.regs reg) 2 (s'.regs .rsp) sizeFf arg →
          atyValue flags labAddr s sizeFf arg = some a →
          ∃ w, atyValue flags labAddr (exec labAddr s' pre) sizeFf pat = some w ∧
            IsValue flags env HasTy datbind (exec labAddr s' pre).mem w con (some a)

/-- `DECON` returns the argument. -/
def Deconstructs (datbind : Datbind) : Prop :=
  ∀ con ty, (con, some ty) ∈ datbind.cons → ∃ kind, lookupCon env con = .ok kind ∧
    ∀ conAty pat sizeFf, IsOperand conAty → IsGeneral pat →
      ∃ pre, Emits (cgDecon flags kind conAty pat sizeFf) pre ∧
        ∀ s w a, atyValue flags labAddr s sizeFf conAty = some w →
          IsValue flags env HasTy datbind s.mem w con (some a) →
          atyValue flags labAddr (exec labAddr s pre) sizeFf pat = some a

/-- `SWITCH_C` on constructors of the datatype, in any program whose labels it
does not reuse, runs the branch of the constructor that built the value. -/
def Switches (layout : Layout) (datbind : Datbind) : Prop :=
  ∀ (β : Type) (oprAty : Aty) (sels : List (Con × β)) (default : Option β) (sizeFf : Int)
    (front C : List (Switch.Inst β)) (n : Nat),
    IsSwitchOperand oprAty → (∀ sel ∈ sels, sel.1 ∈ datbind.cons.map Prod.fst) →
    (sels.map Prod.fst).Nodup → sels ≠ [] ∨ default ≠ none →
    (labelsIn Switch.labelOf (front ++ C)).Nodup →
    (∀ lab ∈ labelsIn Switch.labelOf (front ++ C), ∀ name i, lab = .localLab name i → i < n) →
    ∃ code hi, switchC flags env oprAty sels default sizeFf C n = .ok (code, hi) ∧
      ∀ mem w con arg s branch, IsValue flags env HasTy datbind mem w con arg →
        Sees oprAty sizeFf layout mem w s → selected sels default con = some branch →
        RunsBranch (front ++ code) code C s branch

/-- Values of different constructors have different representations. -/
def Unambiguous (datbind : Datbind) : Prop :=
  ∀ mem w con con' arg arg', IsValue flags env HasTy datbind mem w con arg →
    IsValue flags env HasTy datbind mem w con' arg' → con = con'

/-- What the environment says of the constructors of a datatype. -/
structure Encoded (layout : Layout) (datbind : Datbind) : Prop where
  kinds : ∀ con ty, (con, ty) ∈ datbind.cons → ∃ kind, env con = some kind ∧
    InDatatype kind layout ∧ (ty = none → IsNullary kind) ∧
    ∀ t, ty = some t → IsUnary kind ∧ (kind = .ubUnary 0 → ∀ a, HasTy t a → a % 4 = 0)
  inj : ∀ con con' kind, con ∈ datbind.cons.map Prod.fst → con' ∈ datbind.cons.map Prod.fst →
    env con = some kind → env con' = some kind → con = con'
  names : ∀ con ∈ datbind.cons.map Prod.fst, con ≠ Con.conTRUE ∧ con ≠ Con.conFALSE
  size : datbind.cons.length ≤ maxConstructors

variable {flags env HasTy}
  (h : Encoded env HasTy layout datbind)

include h

theorem Encoded.builds0 : Builds0 flags labAddr env HasTy datbind := by
  intro con hcon
  obtain ⟨kind, henv, -, hnullary, -⟩ := h.kinds con none hcon
  refine ⟨kind, lookupCon_eq henv, fun resetRegions alloc pat sizeFf hpat => ?_⟩
  obtain ⟨reg, pre, hcode, hbuilds⟩ := cgCon0_builds flags labAddr (hnullary rfl) sizeFf hpat
  refine ⟨reg, pre, hcode, fun s hout => ?_⟩
  obtain ⟨w, hw, hrep⟩ := hbuilds s hout
  exact ⟨w, hw, none, kind, hcon, henv, trivial, hrep⟩

theorem Encoded.builds1 : Builds1 flags labAddr env HasTy datbind := by
  intro con ty hcon
  obtain ⟨kind, henv, -, -, hunary⟩ := h.kinds con (some ty) hcon
  refine ⟨kind, lookupCon_eq henv, fun alloc arg pat sizeFf harg hpat => ?_⟩
  obtain ⟨reg, pre, hcode, hbuilds⟩ := cgCon1_builds flags labAddr (hunary ty rfl).1
    sizeFf harg hpat
  refine ⟨reg, pre, hcode, fun s s' a hty hstart hpatOut hargOut ha => ?_⟩
  obtain ⟨w, hw, hrep⟩ := hbuilds s s' a hstart hpatOut hargOut ha
  exact ⟨w, hw, some ty, kind, hcon, henv, hty, hrep⟩

theorem Encoded.deconstructs : Deconstructs flags labAddr env HasTy datbind := by
  intro con ty hcon
  obtain ⟨kind, henv, -, -, hunary⟩ := h.kinds con (some ty) hcon
  refine ⟨codeKind kind, lookupCon_eq henv, fun conAty pat sizeFf haty hpat => ?_⟩
  obtain ⟨pre, hemits, hreads⟩ := cgDecon_reads flags labAddr con (hunary ty rfl).1 sizeFf haty hpat
  refine ⟨pre, hemits, fun s w a hw hvalue => ?_⟩
  obtain ⟨ty', kind', -, henv', -, hrep⟩ := hvalue
  rw [henv] at henv'
  cases henv'
  exact hreads s w a hw hrep

/-- The number that tells values apart is the tag of the constructor. -/
theorem Encoded.discriminant {con : Con} {mem : Int → Int} {w : Int} {arg : Option Int}
    (hvalue : IsValue flags env HasTy datbind mem w con arg) :
    ∃ kind, env con = some kind ∧ con ∈ datbind.cons.map Prod.fst ∧ InDatatype kind layout ∧
      discriminant layout mem w = tagNumber flags con kind := by
  obtain ⟨ty, kind, hcon, henv, htyped, hrep⟩ := hvalue
  obtain ⟨kind', henv', hin, -, hunary⟩ := h.kinds con ty hcon
  rw [henv] at henv'
  cases henv'
  refine ⟨kind, henv, mem_map_of_mem hcon, hin, ?_⟩
  rw [← hin.layout]
  -- a representation says whether there is an argument
  cases kind with (cases arg <;> try exact absurd hrep id)
  | enum i | bNullary i => exact hrep
  | ubNullary i =>
    have hw : w = (4 * i + 3 : Nat) := hrep
    have hbits : w % 4 = 3 := by omega
    simp only [CE.ConKind.layout, Switch.discriminant, ubWord, hbits, if_true]
    exact hw
  | ubUnary i =>
    obtain ⟨rfl, rfl⟩ := hrep
    cases ty with
    | none => exact absurd htyped id
    | some t =>
      have hbits : w % 4 = 0 := (hunary t rfl).2 rfl w htyped
      simp [CE.ConKind.layout, Switch.discriminant, ubWord, hbits, tagNumber]
  | bUnary i => exact hrep.1

theorem Encoded.unambiguous : Unambiguous flags env HasTy datbind := by
  intro mem w con con' arg arg' hvalue hvalue'
  obtain ⟨kind, henv, hcon, hin, hnumber⟩ := h.discriminant hvalue
  obtain ⟨kind', henv', hcon', hin', hnumber'⟩ := h.discriminant hvalue'
  have heq : tagNumber flags con kind = tagNumber flags con' kind' :=
    Int.ofNat.inj (hnumber.symm.trans hnumber')
  have hkind := tagNumber_inj hin hin' (h.names con hcon) (h.names con' hcon') heq
  exact h.inj con con' kind hcon hcon' henv (hkind ▸ henv')

theorem Encoded.ofDatatype {sels : List (Con × β)}
    (hkindOf : ∀ con ∈ datbind.cons.map Prod.fst, env con = some (kindOf con))
    (hsels : ∀ sel ∈ sels, sel.1 ∈ datbind.cons.map Prod.fst)
    (hdistinct : (sels.map Prod.fst).Nodup) : OfDatatype kindOf layout sels := by
  constructor
  · intro sel hsel
    obtain ⟨⟨con, ty⟩, hcon, heq⟩ := mem_map.mp (hsels sel hsel)
    obtain ⟨kind, henv, hin, -⟩ := h.kinds con ty hcon
    rw [show con = sel.1 from heq, hkindOf _ (hsels sel hsel)] at henv
    exact Option.some.inj henv ▸ hin
  · exact fun sel hsel => h.names _ (hsels sel hsel)
  · intro sel hsel sel' hsel' heq
    exact h.inj _ _ _ (hsels sel hsel) (hsels sel' hsel') (hkindOf _ (hsels sel hsel))
      (heq ▸ hkindOf _ (hsels sel' hsel'))
  · exact hdistinct
  · have hsub : sels.map Prod.fst ⊆ datbind.cons.map Prod.fst := by
      intro con hcon
      obtain ⟨sel, hsel, rfl⟩ := mem_map.mp hcon
      exact hsels sel hsel
    have hle := (hdistinct.subperm hsub).length_le
    rw [length_map, length_map] at hle
    exact Nat.le_trans hle h.size

theorem Encoded.switches : Switches flags env HasTy layout datbind := by
  intro β oprAty sels default sizeFf front C n hopr hsels hdistinct hsome hnodup hlabels
  let kindOf : Con → CE.ConKind := fun con => (env con).getD (.enum 0)
  have hkindOf : ∀ con ∈ datbind.cons.map Prod.fst, env con = some (kindOf con) := by
    intro con hcon
    obtain ⟨⟨con', ty⟩, hmem, rfl⟩ := mem_map.mp hcon
    obtain ⟨kind, henv, -⟩ := h.kinds con' ty hmem
    simp [kindOf, henv]
  obtain ⟨sels', default', hcompile, hsub, hbranch⟩ := compileSelsAndDefault_ok flags
    (fun sel hsel => hkindOf _ (hsels sel hsel)) hdistinct hsome
  have hsels' : ∀ sel ∈ sels', sel.1 ∈ datbind.cons.map Prod.fst :=
    fun sel hsel => hsels sel (hsub.subset hsel)
  have hof : OfDatatype kindOf layout sels' :=
    h.ofDatatype hkindOf hsels' ((hsub.map Prod.fst).nodup hdistinct)
  obtain ⟨code, hi, hgen, hadds, hruns⟩ := cgSwitchC_runs hopr hof default' C n
  refine ⟨code, hi, (ok_bind hcompile).trans hgen, ?_⟩
  intro mem w con arg s branch hvalue hsees hselected
  obtain ⟨kind, henv, hcon, hin, hnumber⟩ := h.discriminant hvalue
  obtain rfl : kind = kindOf con := Option.some.inj (henv.symm.trans (hkindOf con hcon))
  refine hruns (front ++ code) (hadds.nodup hlabels hnodup) (suffix_append _ _) s branch
    ⟨mem, w, hsees, ?_, ?_⟩
  · have hlt : tagNumber flags con (kindOf con) < 2 ^ 31 := tagNumber_lt hin
    simp only [InRange, if_true]
    omega
  · rw [hnumber, numSels_lookup hof hin (h.names con hcon), hbranch con branch hselected]
    intro sel hsel heq
    exact h.inj _ _ _ (hsels' sel hsel) hcon (hkindOf _ (hsels' sel hsel)) (heq ▸ henv)

end Values

/-! ## Declarations -/

/-- Groups of datatype declarations as elaboration hands them on: type names and
constructors are new, and a type is declared before other groups use it. -/
structure WellFormed (flags : Flags) (refs : TyName.UnboxedRefs) (datbindss : List DatbindList) :
    Prop where
  tyNames : (datbindss.flatten.map Datbind.tn).Nodup
  fresh : ∀ datbind ∈ datbindss.flatten, TyName.unboxed flags.tagValues refs datbind.tn = false
  order : Lambda.InOrder datbindss
  cons : (datbindss.flatten.flatMap fun datbind => datbind.cons.map Prod.fst).Nodup
  names : ∀ datbind ∈ datbindss.flatten, ∀ con ∈ datbind.cons.map Prod.fst,
    con ≠ Con.conTRUE ∧ con ≠ Con.conFALSE

/-- The constructor environment after the declarations. -/
def conEnv (flags : Flags) (refs : TyName.UnboxedRefs) (datbindss : List DatbindList)
    (env : CE.ConEnv) : CE.ConEnv :=
  addDatbindsToEnv (TyName.unboxed flags.tagValues refs) (spreadDatbinds datbindss) env

theorem spreadDatbinds_perm (datbindss : List DatbindList) :
    (spreadDatbinds datbindss).flatten.Perm (datbindss.flatten.map spreadSingleDatbind) := by
  induction datbindss with
  | nil => exact List.Perm.refl _
  | cons group rest ih =>
    simp only [spreadDatbinds, spreadDatbind, map_cons, flatten_cons, map_append]
    exact (reverse_perm _).append ih

variable {con : Con} {flags : Flags} {refs : TyName.UnboxedRefs} {datbindss : List DatbindList}
  {kind : CE.ConKind} {HasTy : Ty → Int → Prop}

theorem conEnv_eq (hwf : WellFormed flags refs0 datbindss) (env : CE.ConEnv)
    (hmem : datbind ∈ datbindss.flatten)
    (hkind : (con, kind) ∈ analyseDatbind (TyName.unboxed flags.tagValues refs)
      (spreadSingleDatbind datbind)) :
    conEnv flags refs datbindss env con = some kind := by
  have hperm := spreadDatbinds_perm datbindss
  have hdistinct : ((spreadDatbinds datbindss).flatten.flatMap
      fun datbind => datbind.2.map Prod.fst).Nodup := by
    refine ((hperm.flatMap_right _).nodup_iff).mpr ?_
    rw [flatMap_map]
    refine (List.Perm.of_eq ?_).nodup_iff.mpr hwf.cons
    exact flatMap_congr fun datbind _ => spread_keys
  have hin : spreadSingleDatbind datbind ∈ (spreadDatbinds datbindss).flatten :=
    hperm.mem_iff.mpr (mem_map_of_mem hmem)
  have hflat : conEnv flags refs datbindss env =
      addDatbindsToEnv (TyName.unboxed flags.tagValues refs) [(spreadDatbinds datbindss).flatten]
        env := by
    simp [conEnv, addDatbindsToEnv]
  rw [hflat]
  exact addDatbinds_of_mem env hdistinct hin hkind

theorem encoded_of_wellFormed (hwf : WellFormed flags refs datbindss)
    (hsize : ∀ datbind ∈ datbindss.flatten, datbind.cons.length ≤ maxConstructors) (env : CE.ConEnv)
    (hpointers : ∀ ty a, unboxedTy flags.tagValues refs' [] ty = false → HasTy ty a → a % 4 = 0)
    (hmem : datbind ∈ datbindss.flatten)
    (hfits : TyName.unboxed flags.tagValues refs' datbind.tn = true →
      Fits flags.tagValues refs' [] datbind.cons) :
    Encoded (conEnv flags refs' datbindss env) HasTy
      (layoutOf (TyName.unboxed flags.tagValues refs') datbind) datbind := by
  have hdistinct : (datbind.cons.map Prod.fst).Nodup := (nodup_flatMap.mp hwf.cons).1 datbind hmem
  have hkind : ∀ con ty, (con, ty) ∈ datbind.cons → _ := fun con ty hcon =>
    exists_kind hdistinct (fun hunboxed => (hfits hunboxed).1) (hsize datbind hmem) hcon
  constructor
  · intro con ty hcon
    obtain ⟨kind, hin, hlayout, hnullary, hunary⟩ := hkind con ty hcon
    refine ⟨kind, conEnv_eq hwf env hmem hin, hlayout, hnullary, fun t ht => ⟨(hunary t ht).1, ?_⟩⟩
    intro hub a ha
    have hcarried : t ∈ carried datbind.cons := mem_filterMap.mpr ⟨(con, ty), hcon, ht⟩
    exact hpointers t a ((hfits ((hunary t ht).2 hub)).2 t hcarried) ha
  · intro con con' kind hcon hcon' henv henv'
    obtain ⟨⟨con, ty⟩, hin, rfl⟩ := mem_map.mp hcon
    obtain ⟨⟨con', ty'⟩, hin', rfl⟩ := mem_map.mp hcon'
    obtain ⟨k, hk, -⟩ := hkind con ty hin
    obtain ⟨k', hk', -⟩ := hkind con' ty' hin'
    obtain rfl : k = kind := Option.some.inj ((conEnv_eq hwf env hmem hk).symm.trans henv)
    obtain rfl : k' = k := Option.some.inj ((conEnv_eq hwf env hmem hk').symm.trans henv')
    exact analyseDatbind_inj hk hk'
  · exact hwf.names datbind hmem
  · exact hsize datbind hmem

/-- The values of declared datatypes are built, told apart and taken apart
correctly, if a datatype has no more constructors than tags can number. -/
theorem datatype_values_unambiguous (flags : Flags) (labAddr : Lab → Int)
    (refs : TyName.UnboxedRefs) (datbindss : List DatbindList) (env : CE.ConEnv)
    (HasTy : Ty → Int → Prop) (hwf : WellFormed flags refs datbindss)
    (hsize : ∀ datbind ∈ datbindss.flatten, datbind.cons.length ≤ maxConstructors) :
    ∃ refs', unboxAll flags.tagValues refs datbindss = .ok refs' ∧
      ((∀ ty a, unboxedTy flags.tagValues refs' [] ty = false → HasTy ty a → a % 4 = 0) →
        ∀ datbind ∈ datbindss.flatten,
          Builds0 flags labAddr (conEnv flags refs' datbindss env) HasTy datbind ∧
          Builds1 flags labAddr (conEnv flags refs' datbindss env) HasTy datbind ∧
          Deconstructs flags labAddr (conEnv flags refs' datbindss env) HasTy datbind ∧
          Switches flags (conEnv flags refs' datbindss env) HasTy
            (layoutOf (TyName.unboxed flags.tagValues refs') datbind) datbind ∧
          Unambiguous flags (conEnv flags refs' datbindss env) HasTy datbind) := by
  obtain ⟨refs', hunbox, -, hfits⟩ := unboxAll_ok hwf.tyNames hwf.fresh hwf.order
  refine ⟨refs', hunbox, fun hpointers datbind hmem => ?_⟩
  have hencoded := encoded_of_wellFormed hwf hsize env hpointers hmem (hfits datbind hmem)
  exact ⟨hencoded.builds0 labAddr, hencoded.builds1 labAddr, hencoded.deconstructs labAddr,
    hencoded.switches, hencoded.unambiguous⟩

/-- A nullary constructor and one whose argument is a pair: values are unboxed. -/
def pairOption : Datbind := ⟨⟨100⟩, [(⟨"NONE"⟩, none), (⟨"SOME"⟩, some (.recordType
  [.tyvarType 0, .tyvarType 1]))]⟩

theorem pairOption_unambiguous :
    ∃ refs', unboxAll true (fun _ => false) [[pairOption]] = .ok refs' ∧ refs' ⟨100⟩ = true ∧
      Unambiguous ⟨true, true, false, false⟩
        (conEnv ⟨true, true, false, false⟩ refs' [[pairOption]] CE.initialConEnv)
        (fun _ a => a % 4 = 0) pairOption := by
  obtain ⟨refs', hunbox, hvalues⟩ := datatype_values_unambiguous ⟨true, true, false, false⟩
    (fun _ => 0) (fun _ => false) [[pairOption]] CE.initialConEnv (fun _ a => a % 4 = 0)
    ⟨by simp, fun datbind _ => by simp [TyName.unboxed, TyName.unboxedNum32, TyName.unboxedNum64],
      by simp [Lambda.InOrder], by decide, by decide⟩ (by decide)
  have hrefs : refs' = Function.update (fun _ => false) ⟨100⟩ true := by
    cases hunbox
    rfl
  refine ⟨refs', hunbox, by rw [hrefs]; rfl, ?_⟩
  exact (hvalues (fun ty a _ ha => ha) pairOption (by simp)).2.2.2.2

/-! ## Too many constructors -/

/-- The name of a constructor of a large datatype. -/
def manyName (i : Nat) : Con := ⟨String.ofList (List.replicate i 'c')⟩

theorem manyName_inj (h : manyName i = manyName j) : i = j := by
  have hlist : List.replicate i 'c' = List.replicate j 'c' := by
    have hname := congrArg (fun con : Con => con.name.toList) h
    simpa [manyName] using hname
  simpa using congrArg List.length hlist

/-- A datatype with `n` nullary constructors that is boxed, because it has a
constructor with an argument of any type. -/
def manyConstructors (n : Nat) : Datbind :=
  ⟨⟨100⟩, (⟨"unary"⟩, some (.tyvarType 0)) :: (List.range n).map fun i => (manyName i, none)⟩

theorem tags_constants (tn : TyName) (n0 n1 : Nat) {cons : List Con} (h : cons[i]? = some con) :
    (con, nullary unboxed tn (n0 + i)) ∈ tags unboxed tn n0 n1 (cons.map (·, .constant)) := by
  induction cons generalizing n0 i with
  | nil => cases h
  | cons first rest ih =>
    cases i with
    | zero =>
      cases h
      exact .head _
    | succ i =>
      refine mem_cons_of_mem _ ?_
      have hrest := ih (n0 + 1) h
      rwa [Nat.add_assoc, Nat.add_comm 1 i] at hrest

theorem manyConstructors_boxed (n : Nat) :
    unboxAll true (fun _ => false) [[manyConstructors n]] = .ok fun _ => false := by
  rfl

theorem manyConstructors_kind (h : i < n) :
    (manyName i, CE.ConKind.bNullary i) ∈
      analyseDatbind (TyName.unboxed true fun _ => false) (spreadSingleDatbind (manyConstructors n))
        := by
  have hbinds : (spreadSingleDatbind (manyConstructors n)).2 =
      (⟨"unary"⟩, .valueCarrying) :: ((List.range n).map manyName).map (·, .constant) := by
    simp [spreadSingleDatbind, manyConstructors, spreadCon]
  have hget : ((List.range n).map manyName)[i]? = some (manyName i) := by
    simp [h]
  have htags : (manyName i, nullary (TyName.unboxed true fun _ => false) ⟨100⟩ (0 + i)) ∈ _ :=
    tags_constants ⟨100⟩ 0 1 hget
  have hboxed : ¬ enumeration (TyName.unboxed true fun _ => false)
      (spreadSingleDatbind (manyConstructors n)).1 (spreadSingleDatbind (manyConstructors n)).2 := by
    exact Bool.false_ne_true
  rw [Nat.zero_add] at htags
  rw [analyseDatbind, if_neg hboxed, hbinds]
  exact .tail _ htags

theorem manyConstructors_wellFormed (n : Nat) :
    WellFormed ⟨true, true, false, false⟩ (fun _ => false) [[manyConstructors n]] := by
  have hnames : (manyConstructors n).cons.map Prod.fst = ⟨"unary"⟩ :: (List.range n).map manyName := by
    simp [manyConstructors]
  have hchars : ∀ con ∈ (List.range n).map manyName, ∀ c ∈ con.name.toList, c = 'c' := by
    intro con hcon c hc
    obtain ⟨i, -, rfl⟩ := mem_map.mp hcon
    exact eq_of_mem_replicate (by simpa [manyName] using hc)
  constructor
  · simp
  · intro datbind _
    simp [TyName.unboxed, TyName.unboxedNum32, TyName.unboxedNum64]
  · simp [Lambda.InOrder]
  · simp only [flatten_cons, flatten_nil, append_nil, flatMap_cons, flatMap_nil, hnames]
    refine nodup_cons.mpr ⟨fun h => ?_, nodup_range.map fun _ _ => manyName_inj⟩
    exact absurd (hchars _ h 'u' (by decide)) (by decide)
  · intro datbind hmem con hcon
    obtain rfl : datbind = manyConstructors n := by simpa using hmem
    rw [hnames] at hcon
    rcases mem_cons.mp hcon with rfl | hcon
    · decide
    · refine ⟨?_, ?_⟩
      · rintro rfl
        exact absurd (hchars _ hcon 't' (by decide)) (by decide)
      · rintro rfl
        exact absurd (hchars _ hcon 'f' (by decide)) (by decide)

/-- With more than `2 ^ 26` boxed nullary constructors, the first and the last
one have the same tag. -/
theorem many_constructors_ambiguous :
    WellFormed ⟨true, true, false, false⟩ (fun _ => false) [[manyConstructors (2 ^ 26 + 1)]] ∧
      unboxAll true (fun _ => false) [[manyConstructors (2 ^ 26 + 1)]] = .ok (fun _ => false) ∧
      ¬ Unambiguous ⟨true, true, false, false⟩
        (conEnv ⟨true, true, false, false⟩ (fun _ => false) [[manyConstructors (2 ^ 26 + 1)]]
          CE.initialConEnv)
        (fun _ a => a % 4 = 0) (manyConstructors (2 ^ 26 + 1)) := by
  have hwf := manyConstructors_wellFormed (2 ^ 26 + 1)
  refine ⟨hwf, manyConstructors_boxed _, fun hunambiguous => ?_⟩
  have hvalue : ∀ i, i < 2 ^ 26 + 1 → i % 2 ^ 26 = 0 → IsValue ⟨true, true, false, false⟩
      (conEnv ⟨true, true, false, false⟩ (fun _ => false) [[manyConstructors (2 ^ 26 + 1)]]
        CE.initialConEnv)
      (fun _ a => a % 4 = 0) (manyConstructors (2 ^ 26 + 1)) (fun _ => 2) 0 (manyName i) none := by
    intro i hi hzero
    refine ⟨none, .bNullary i, ?_, ?_, trivial, ?_⟩
    · exact .tail _ (mem_map.mpr ⟨i, mem_range.mpr hi, rfl⟩)
    · exact conEnv_eq hwf CE.initialConEnv (by simp) (manyConstructors_kind hi)
    · rw [Represents, BI.tagCon0, BI.toNat_genStringTag (by decide), hzero]
      rfl
  have hsame := hunambiguous _ _ _ _ _ _ (hvalue 0 (by decide) (by decide))
    (hvalue (2 ^ 26) (by decide) (by decide))
  exact absurd (manyName_inj hsame) (by decide)

end MLKit.X64.Constructors
