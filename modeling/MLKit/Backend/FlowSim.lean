import MLKit.Backend.FlowAnn

/-!
# The annotated body does what the body does

Two configurations are related when the same is left to do in both and they agree on the variables
that are no flow variables. A flow variable that has a value is not used any more. A definition of a
flow variable leads the body to the place behind the label that the annotated body jumps to.
-/

namespace MLKit.Backend.FlowVars

open MLKit.Lib MLKit.Lib.Machine List

variable {K' ret P : List Item} {item : Item} {ls : FvStmt} {op : RegionOp} {rho : Binder × Unit}
  {labels : FreshLabels} {okSet : Finset Lvar} {lv : Lvar}
  {lvs : List Lvar} {b : Bool} {arg handlLv aty : Atom} {kind : SwitchKind}
  {sels : List (Selector × List (LineStmt Sty Unit Atom))} {stmt : BasicStmt Unit Atom}
  {places : List (Label × List Item)} {lab : Label} {dest : Dest} {name : String} {args : List Atom}

section Simulation

/-- A body and its annotated body: how they run, the flow variables and their labels, and what stands
behind the labels in either. -/
structure Annotated (V : Type) where
  code : RegionCode
  values : Values V
  labels : FreshLabels
  okSet : Finset Lvar
  places : List (Label × List Item)
  places' : List (Label × List Item)
  sel_bool : ∀ {kind : SwitchKind} {s : Selector} {b : Bool} (v : Bool), selBool kind s = some b →
    code.onBool kind s = true → values.sel kind s (values.bool v) = (v == b)

variable {V : Type} (A : Annotated V)

/-- What is left to do somewhere in the body. -/
structure Placed (K : List Item) : Prop where
  plain : PlainItems K
  fine : ∀ lv ∈ A.okSet, FineItems A.code lv K
  uses : ∀ lv ∈ A.okSet, usesItems lv K ≤ 1
  places : placesItems A.code (annItems A.labels A.okSet K) ⊆ A.places'

structure Related (c c' : Config V) : Prop where
  items : c'.1 = annItems A.labels A.okSet c.1
  placed : Placed A c.1
  agree : ∀ lv, lv ∉ A.okSet → c'.2 lv = c.2 lv
  used : ∀ lv ∈ A.okSet, c.2 lv ≠ none → usesItems lv c.1 = 0

/-- The body reaches, without showing anything, a configuration related to one of the annotated
body. -/
def Follows (c c' : Config V) : Prop :=
  ∃ c1, Reaches (silent A.code A.values A.places) c c1 ∧ Related A c1 c'

/-- The configurations that two related configurations land in. -/
def Lockstep (c c' : Config V) : Prop :=
  ∃ d, (bodyMachine A.code A.values A.places).Lands c d ∧
    ((bodyMachine A.code A.values A.places).emits d .stuck none ∨
      ∃ d', (bodyMachine A.code A.values A.places').Lands c' d' ∧
        Match (bodyMachine A.code A.values A.places) (bodyMachine A.code A.values A.places')
          (Follows A) d d')

variable (K : List Item) (env env' : Env V)

abbrev RelatedAt : Prop := Related A (K, env) (annItems A.labels A.okSet K, env')

abbrev LockstepAt : Prop := Lockstep A (K, env) (annItems A.labels A.okSet K, env')

variable {A K env env'}

theorem Placed.opens (h : Placed A K) (hopens : Opens A.code K K') : Placed A K' where
  plain := hopens.plain h.plain
  fine lv hlv := hopens.fine (h.fine lv hlv)
  uses lv hlv := hopens.uses.trans (h.uses lv hlv)
  places := List.Subset.trans (hopens.ann A.labels A.okSet).places h.places

theorem exists_annItems_cons :
    ∃ item', annItems labels okSet (item :: K) = item' :: annItems labels okSet K := by
  cases item <;> exact ⟨_, by rw [annItems]⟩

theorem Placed.tail (h : Placed A (item :: K)) : Placed A K where
  plain := plainItems_tail h.plain
  fine lv hlv := fineItems_tail (h.fine lv hlv)
  uses lv hlv := usesItems_tail.trans (h.uses lv hlv)
  places := by
    obtain ⟨item', hcons⟩ := exists_annItems_cons
    have hplaces := h.places
    rw [hcons] at hplaces
    exact List.Subset.trans placesItems_tail hplaces

theorem Placed.unwind (h : Placed A K)
    (hunwind : unwind K = some ret) : Placed A ret := by
  obtain ⟨K', hplain, hfine, huses, hplaces⟩ := unwind_rule (fun _ _ => Placed.tail) hunwind h
  rw [annItems, placesItems] at hplaces
  rw [PlainItems] at hplain
  refine ⟨hplain.1, fun lv hlv => ?_, fun lv hlv => ?_, fun _ hin => hplaces (mem_append_left _ hin)⟩
  · have hitems := hfine lv hlv
    rw [FineItems] at hitems
    exact hitems.1
  · have hle := huses lv hlv
    rw [usesItems] at hle
    exact (le_max_left _ _).trans hle

theorem Placed.fineLs (h : Placed A (.stmt ls :: K))
    (hlv : lv ∈ A.okSet) : FineLs A.code lv ls K := by
  have hfine := h.fine lv hlv
  rw [FineItems] at hfine
  exact hfine.1

theorem Placed.plainLs (h : Placed A (.stmt ls :: K)) : PlainLs ls := by
  have hplain := h.plain
  rw [PlainItems] at hplain
  exact hplain.1

section

variable (h : RelatedAt A K env env')

include h

/-- Where less is left to do. -/
theorem Related.to (hplaced : Placed A K')
    (huses : ∀ lv, usesItems lv K' ≤ usesItems lv K) :
    RelatedAt A K' env env' where
  items := rfl
  placed := hplaced
  agree := h.agree
  used lv hlv hset := Nat.le_zero.1 ((huses lv).trans_eq (h.used lv hlv hset))

/-- Where variables that are no flow variables are set. -/
theorem Related.write (hlvs : NoFlow A.okSet lvs) (writes : Lvar → V) :
    RelatedAt A K (env.write lvs writes) (env'.write lvs writes) where
  items := rfl
  placed := h.placed
  agree lv hlv := by
    have hagree := h.agree lv hlv
    simp only [Env.write] at hagree ⊢
    rw [hagree]
  used lv hlv hset := by
    have hnot : lv ∉ lvs := fun hmem => hlvs lv hmem hlv
    simp only [Env.write, if_neg hnot] at hset
    exact h.used lv hlv hset

/-- Where a flow variable that is not used any more is set. -/
theorem Related.write_flow (hlv : lv ∈ A.okSet) (huses : usesItems lv K = 0) (writes : Lvar → V) :
    RelatedAt A K (env.write [lv] writes) env' where
  items := rfl
  placed := h.placed
  agree lv' hlv' := by
    have hne : lv' ∉ [lv] := fun hmem => hlv' (mem_singleton.1 hmem ▸ hlv)
    simp only [Env.write, if_neg hne]
    exact h.agree lv' hlv'
  used lv' hlv' hset := by
    by_cases heq : lv' = lv
    · rw [heq]
      exact huses
    · have hne : lv' ∉ [lv] := fun hmem => heq (mem_singleton.1 hmem)
      simp only [Env.write, if_neg hne] at hset
      exact h.used lv' hlv' hset

end

theorem Related.tail (h : RelatedAt A (item :: K) env env') : RelatedAt A K env env' :=
  h.to h.placed.tail fun _ => usesItems_tail

/-- From a definition of a flow variable the body comes to the branch for the value, which stands
behind the label for the value in the annotated body. -/
theorem Leads.reaches (h : Leads A.code lv K) (hlv : lv ∈ A.okSet)
    (hplaced : Placed A K) (henv : env lv = some (A.values.bool b)) :
    ∃ K', Reaches (silent A.code A.values A.places) (K, env) (K', env) ∧
      Placed A K' ∧
      (A.labels.label lv b, annItems A.labels A.okSet K') ∈ A.places' ∧ usesItems lv K' = 0 ∧
      (∀ lv', usesItems lv' K' ≤ usesItems lv' K) ∧ sizeItems K' < sizeItems K := by
  induction h with
  | @switch kind sel b' lss default K hsel =>
    have honBool : A.code.onBool kind sel = true := by
      obtain ⟨sel', lss', b', hsels, -, -, honBool⟩ := (hplaced.fineLs hlv).1 (mem_singleton_self lv)
      cases hsels
      exact honBool
    have hchosen : chosen A.values kind (A.values.bool b) [(sel, lss)] default =
        if b = b' then lss else default := by
      simp [chosen, A.sel_bool b hsel honBool]
    have hopens : Opens A.code (.stmt (.switch kind (.var lv) [(sel, lss)] default) :: K)
        (stmts (chosen A.values kind (A.values.bool b) [(sel, lss)] default) ++ K) :=
      opens_chosen A.values kind (A.values.bool b) (.var lv) [(sel, lss)] default K
    refine ⟨_, .of_step ?_, hplaced.opens hopens, ?_, ?_, fun lv' => hopens.uses, hopens.size⟩
    · simp [silent, henv]
    · apply hplaced.places
      have hann : annAty A.labels A.okSet (.var lv) =
        .flowVar lv (A.labels.label lv true) (A.labels.label lv false) := if_pos hlv
      have hlabel : (selBool kind sel == some true) = b' := by
        rw [hsel]
        cases b' <;> rfl
      rw [hchosen, annItems_stmts, annItems, mapLs, mapSels, mapSels, placesItems, placesLs, hann,
        switchPlaces_flow, hlabel]
      simp only [mem_append, mem_cons, Prod.mk.injEq]
      refine .inl (.inl (.inl ?_))
      by_cases heq : b = b'
      · subst heq
        simp [annLss]
      · rw [if_neg heq, Bool.eq_not_of_ne heq]
        simp [annLss]
    · have huses := hplaced.uses lv hlv
      rw [hchosen, usesItems_stmts]
      simp only [usesItems, usesLs, usesSels, getVarAtom, mem_singleton, if_true] at huses
      split_ifs <;> omega
  | @scope pat scope K _ ih =>
    have hopens : Opens A.code (.stmt (.scope pat scope) :: K) (stmts scope ++ K) := .scope
    obtain ⟨K', hreach, hplaced', hplace, hzero, huses, hsize⟩ := ih (hplaced.opens hopens)
    refine ⟨K', .head rfl hreach, hplaced', hplace, hzero, fun lv' => ?_, hsize.trans hopens.size⟩
    exact (huses lv').trans hopens.uses
  | @letregion rhos body K hnil _ ih =>
    have hopens : Opens A.code (.stmt (.letregion rhos body) :: K) (bodyItems A.code rhos body K) := by
      have hopens := @Opens.letregion A.code rhos body K
      rwa [hnil] at hopens
    obtain ⟨K', hreach, hplaced', hplace, hzero, huses, hsize⟩ := ih (hplaced.opens hopens)
    refine ⟨K', .head ?_ hreach, hplaced', hplace, hzero, fun lv' => ?_, hsize.trans hopens.size⟩
    · simp [silent, hnil]
    · exact (huses lv').trans hopens.uses

variable {c c' : Config V}

theorem Related.follows (h : Related A c c') : Follows A c c' := ⟨c, .refl, h⟩

theorem lockstep_of_match (hc : silent A.code A.values A.places c = none)
    (hc' : silent A.code A.values A.places' c' = none)
    (hmatch : Match (bodyMachine A.code A.values A.places) (bodyMachine A.code A.values A.places')
      (Follows A) c c') :
    Lockstep A c c' :=
  ⟨c, ⟨.refl, hc⟩, .inr ⟨c', ⟨.refl, hc'⟩, hmatch⟩⟩

variable {c1 c1' : Config V}

theorem lockstep_of_reaches (h : Reaches (silent A.code A.values A.places) c c1)
    (h' : Reaches (silent A.code A.values A.places') c' c1') (hlock : Lockstep A c1 c1') :
    Lockstep A c c' := by
  obtain ⟨d, hland, hstuck | ⟨d', hland', hmatch⟩⟩ := hlock
  · exact ⟨d, .of_reaches h hland, .inl hstuck⟩
  · exact ⟨d, .of_reaches h hland, .inr ⟨d', .of_reaches h' hland', hmatch⟩⟩

section Events

theorem lockstep_nil : Lockstep A ([], env) ([], env') := by
  refine lockstep_of_match rfl rfl ⟨fun e o hemit => ?_, fun e o hemit => ?_⟩
  all_goals
    cases hemit
    exact ⟨none, .fall, .none⟩

theorem lockstep_region (h : RelatedAt A (.region op rho :: K) env env') :
    LockstepAt A (.region op rho :: K) env env' := by
  have htail := h.tail
  rw [LockstepAt, annItems]
  refine lockstep_of_match rfl rfl ⟨fun e o hemit => ?_, fun e o hemit => ?_⟩
  all_goals
    cases hemit
    exact ⟨_, .region, .some htail.follows⟩

theorem lockstep_uninstall (h : RelatedAt A (.uninstall ret :: K) env env') :
    LockstepAt A (.uninstall ret :: K) env env' := by
  have htail := h.tail
  rw [LockstepAt, annItems]
  refine lockstep_of_match rfl rfl ⟨fun e o hemit => ?_, fun e o hemit => ?_⟩
  all_goals
    cases hemit
    exact ⟨_, .uninstall, .some htail.follows⟩

/-- Variables that are no flow variables have the same values. -/
theorem Related.reads (h : Related A c c') (hlvs : NoFlow A.okSet lvs) :
    lvs.map c'.2 = lvs.map c.2 :=
  map_congr_left fun lv hlv => h.agree lv (hlvs lv hlv)

theorem lockstep_install (h : RelatedAt A (.install handlLv :: K) env env') :
    LockstepAt A (.install handlLv :: K) env env' := by
  have htail := h.tail
  have hflow : NoFlow A.okSet (getVarAtom handlLv) := fun lv hlv hok => by
    have hfine := h.placed.fine lv hok
    rw [FineItems] at hfine
    exact hfine.1 hlv
  have hreads : (getVarAtom handlLv).map env' = (getVarAtom handlLv).map env := h.reads hflow
  rw [LockstepAt, annItems, annAty_of_noFlow hflow]
  refine lockstep_of_match rfl rfl ⟨fun e o hemit => ?_, fun e o hemit => ?_⟩
  · cases hemit
    rw [← hreads]
    exact ⟨_, .install, .some htail.follows⟩
  · cases hemit
    rw [hreads]
    exact ⟨_, .install, .some htail.follows⟩

theorem lockstep_receive (h : RelatedAt A (.receive aty :: K) env env') :
    LockstepAt A (.receive aty :: K) env env' := by
  have htail := h.tail
  have hflow : NoFlow A.okSet (getVarAtom aty) := fun lv hlv hok => by
    have hfine := h.placed.fine lv hok
    rw [FineItems] at hfine
    exact hfine.1 hlv
  rw [LockstepAt, annItems, annAty_of_noFlow hflow]
  refine lockstep_of_match rfl rfl ⟨fun e o hemit => ?_, fun e o hemit => ?_⟩
  all_goals
    cases hemit
    exact ⟨_, .receive, .some (htail.write hflow _).follows⟩

theorem lockstep_select {default : List FvStmt} (harg : destOf arg = none)
    (h : RelatedAt A (.stmt (.switch kind arg sels default) :: K) env env') :
    LockstepAt A (.stmt (.switch kind arg sels default) :: K) env env' := by
  have hnext : ∀ v, Follows A
      (stmts (chosen A.values kind v sels default) ++ K, env)
      (stmts (annLss A.labels A.okSet (chosen A.values kind v sels default)) ++ annItems A.labels A.okSet K,
        env') := fun v => by
    have hopens : Opens A.code _ _ := opens_chosen A.values kind v arg sels default K
    rw [← annItems_stmts]
    exact (h.to (h.placed.opens hopens) fun lv => hopens.uses).follows
  have hann : annAty A.labels A.okSet arg = arg := by
    cases arg with
    | var lv => cases harg
    | _ => rfl
  have hsilent : ∀ (places : List (Label × List Item)) (sels : List (Selector × List FvStmt))
      (default : List FvStmt) (K : List Item) (env : Env V),
      silent A.code A.values places (.stmt (.switch kind arg sels default) :: K, env) = none := by
    intro places sels default K env
    cases arg with
    | var lv | flowVar => cases harg
    | _ => rfl
  rw [LockstepAt, annItems, mapLs, hann]
  refine lockstep_of_match (hsilent _ _ _ _ _) (hsilent _ _ _ _ _)
    ⟨fun e o hemit => ?_, fun e o hemit => ?_⟩
  all_goals
    cases hemit with
    | @select _ _ _ _ _ _ v _ =>
      refine ⟨_, .select harg, .some ?_⟩
      rw [chosen_map]
      exact hnext v
    | stuck => cases harg

/-- A statement that delivers no boolean. -/
theorem lockstep_basic (hconst : constDef stmt = none)
    (htest : testDef stmt = none) (h : RelatedAt A (.stmt (.basic stmt) :: K) env env') :
    LockstepAt A (.stmt (.basic stmt) :: K) env env' := by
  have huse : NoFlow A.okSet (useVarLs stmt) := fun lv hlv hok => by
    have hls := h.placed.fineLs hok
    exact hls.1 hlv
  have hdef : NoFlow A.okSet (defVarLs stmt) := fun lv hlv hok =>
    notMem_defVarLs (h.placed.fineLs hok) hconst htest hlv
  have htail := h.tail
  have hreads : (useVarLs stmt).map env' = (useVarLs stmt).map env := h.reads huse
  have hraised : Option.Rel (Follows A)
      ((unwind K).map fun ret => (ret, env))
      ((unwind (annItems A.labels A.okSet K)).map fun ret => (ret, env')) := by
    rw [unwind_ann]
    cases hunwind : unwind K with
    | none => exact .none
    | some ret =>
      exact .some (htail.to (htail.placed.unwind hunwind) fun lv => unwind_uses hunwind).follows
  have hsilent : ∀ (places : List (Label × List Item)) (K : List Item) (env : Env V),
      silent A.code A.values places (.stmt (.basic stmt) :: K, env) = none := by
    intro places K env
    simp [silent, hconst]
  rw [LockstepAt, annItems, mapLs, mapBasic_annAty huse hdef]
  refine lockstep_of_match (hsilent _ _ _) (hsilent _ _ _)
    ⟨fun e o hemit => ?_, fun e o hemit => ?_⟩
  · cases hemit with
    | cond heq => rw [htest] at heq; cases heq
    | basic =>
      rw [← hreads]
      exact ⟨_, .basic hconst htest, .some (htail.write hdef _).follows⟩
    | raised =>
      rw [← hreads]
      exact ⟨_, .raised hconst htest, hraised⟩
    | left =>
      rw [← hreads]
      exact ⟨_, .left hconst htest, .none⟩
  · cases hemit with
    | cond heq => rw [htest] at heq; cases heq
    | basic =>
      rw [hreads]
      exact ⟨_, .basic hconst htest, .some (htail.write hdef _).follows⟩
    | raised =>
      rw [hreads]
      exact ⟨_, .raised hconst htest, hraised⟩
    | left =>
      rw [hreads]
      exact ⟨_, .left hconst htest, .none⟩

end Events

theorem lookup_of_mem (h : (lab, P) ∈ places)
    (hset : timesSet lab places ≤ 1) : places.lookup lab = some P := by
  cases hlookup : places.lookup lab with
  | none =>
    have hne := lookup_eq_none_iff.1 hlookup (lab, P) h
    simp at hne
  | some P' =>
    obtain ⟨pre, post, hsplit, -⟩ := lookup_eq_some_iff.1 hlookup
    have hmem : (lab, P') ∈ places := by
      rw [hsplit]
      exact mem_append_right _ (.head _)
    rw [eq_of_timesSet_le_one hset hmem h]

section Steps

variable (hset : ∀ lv ∈ A.okSet, ∀ b, timesSet (A.labels.label lv b) A.places' ≤ 1)

include hset

/-- A boolean delivered to a variable, by the two bodies: to a flow variable, the annotated body
jumps. -/
theorem Related.deliver (h : RelatedAt A (item :: K) env env')
    (hleads : lv ∈ A.okSet → Leads A.code lv K) (b : Bool) :
    ∃ K' env'', Reaches (silent A.code A.values A.places)
    (K, env.write [lv] fun _ => A.values.bool b)
        (K', env.write [lv] fun _ => A.values.bool b) ∧
      deliver A.values A.places' (annDest A.labels A.okSet lv) b
    (annItems A.labels A.okSet K) env' =
        some (annItems A.labels A.okSet K', env'') ∧
      RelatedAt A K' (env.write [lv] fun _ => A.values.bool b) env'' ∧
      sizeItems K' ≤ sizeItems K := by
  by_cases hlv : lv ∈ A.okSet
  · have henv : (env.write [lv] fun _ => A.values.bool b) lv = some (A.values.bool b) := by
      simp [Env.write]
    obtain ⟨K', hreach, hplaced, hplace, hzero, huses, hsize⟩ :=
      (hleads hlv).reaches hlv h.placed.tail henv
    refine ⟨K', env', hreach, ?_, ?_, hsize.le⟩
    · rw [annDest, if_pos hlv]
      have hlookup := lookup_of_mem hplace (hset lv hlv b)
      cases b <;> simp [FlowVars.deliver, hlookup]
    · exact (h.to hplaced fun lv' => (huses lv').trans usesItems_tail).write_flow hlv hzero _
  · have hflow : NoFlow A.okSet [lv] := fun lv' hlv' => by rwa [mem_singleton.1 hlv']
    refine ⟨K, _, .refl, ?_, h.tail.write hflow _, le_rfl⟩
    rw [annDest, if_neg hlv]
    rfl

/-- A comparison. -/
theorem lockstep_test (htest : testDef stmt = some (dest, name, args))
    (h : RelatedAt A (.stmt (.basic stmt) :: K) env env') :
    LockstepAt A (.stmt (.basic stmt) :: K) env env' := by
  have hplain := h.placed.plainLs
  obtain ⟨lv, rfl, hprim, huses, hann⟩ :=
    @testDef_plain A.labels A.okSet _ _ _ _ hplain htest
  have huse : NoFlow A.okSet (getVarAtoms args) := fun lv hlv hok => by
    have hls := h.placed.fineLs hok
    rw [FineLs, huses] at hls
    exact hls.1 hlv
  have hreads : (getVarAtoms args).map env' = (getVarAtoms args).map env := h.reads huse
  rw [map_annAty huse] at hann
  have hleads : lv ∈ A.okSet → Leads A.code lv K := fun hlv => leads_of_boolPrim (h.placed.fineLs hlv) hprim
  have hsilent : ∀ (places : List (Label × List Item)) {stmt : BasicStmt Unit Atom} {K : List Item}
      {env : Env V} {test}, testDef stmt = some test →
      silent A.code A.values places (.stmt (.basic stmt) :: K, env) = none := by
    intro places stmt K env test htest
    simp [silent, constDef_of_testDef htest]
  rw [LockstepAt, annItems, mapLs]
  refine lockstep_of_match (hsilent A.places htest) (hsilent A.places' hann)
    ⟨fun e o hemit => ?_, fun e o hemit => ?_⟩
  · cases hemit with
    | @cond _ dest' name' args' b _ _ c heq hdeliver =>
      rw [htest] at heq
      cases heq
      cases hdeliver
      obtain ⟨K', env'', hreach, hdeliver', hrel, -⟩ := h.deliver hset hleads b
      rw [← hreads]
      exact ⟨_, .cond hann hdeliver', .some ⟨_, hreach, hrel⟩⟩
    | basic _ hnone | raised _ hnone | left _ hnone => rw [htest] at hnone; cases hnone
  · cases hemit with
    | @cond _ dest' name' args' b _ _ c heq hdeliver =>
      rw [hann] at heq
      cases heq
      obtain ⟨K', env'', hreach, hdeliver', hrel, -⟩ := h.deliver hset hleads b
      rw [hdeliver'] at hdeliver
      cases hdeliver
      rw [hreads]
      exact ⟨_, .cond htest rfl, .some ⟨_, hreach, hrel⟩⟩
    | basic _ hnone | raised _ hnone | left _ hnone => rw [hann] at hnone; cases hnone

/-- A boolean constant. -/
theorem lockstep_const (hconst : constDef stmt = some (dest, b))
    (h : RelatedAt A (.stmt (.basic stmt) :: K) env env')
    (ih : ∀ (K' : List Item) (env1 env1' : Env V), sizeItems K' < sizeItems (.stmt (.basic stmt) ::
    K) → RelatedAt A K' env1 env1' → LockstepAt A K' env1 env1') :
    LockstepAt A (.stmt (.basic stmt) :: K) env env' := by
  have hplain := h.placed.plainLs
  obtain ⟨lv, rfl, hbool, hann⟩ := @constDef_plain A.labels A.okSet _ _ _ hplain hconst
  have hleads : lv ∈ A.okSet → Leads A.code lv K := fun hlv =>
    leads_of_boolConst (h.placed.fineLs hlv) hbool
  obtain ⟨K', env'', hreach, hdeliver, hrel, hsize⟩ := h.deliver hset hleads b
  refine lockstep_of_reaches (.head ?_ hreach) (.of_step ?_) (ih K' _ env'' ?_ hrel)
  · simp [silent, hconst, FlowVars.deliver]
  · rw [annItems, mapLs]
    simpa [silent, hann] using hdeliver
  · rw [sizeItems, sizeLs]
    omega

/-- Related configurations go on in the same way. -/
theorem Related.lockstep (h : RelatedAt A K env env') : LockstepAt A K env env' := by
  -- on the statements left to do, since steps that show nothing leave less to do
  induction hn : sizeItems K using Nat.strongRecOn generalizing K env env' with
  | ind n ih =>
    subst hn
    have hopen : ∀ {K'}, Opens A.code K K' → silent A.code A.values A.places (K, env) = some (K', env) →
        silent A.code A.values A.places' (annItems A.labels A.okSet K, env') =
          some (annItems A.labels A.okSet K', env') →
        LockstepAt A K env env' := by
      intro K' hopens hstep hstep'
      have hrel := h.to (h.placed.opens hopens) fun lv => hopens.uses
      exact lockstep_of_reaches (.of_step hstep) (.of_step hstep') (ih _ hopens.size hrel rfl)
    cases K with
    | nil =>
      rw [LockstepAt, annItems]
      exact lockstep_nil
    | cons item K =>
      cases item with
      | region op rho => exact lockstep_region h
      | install handlLv => exact lockstep_install h
      | uninstall ret => exact lockstep_uninstall h
      | receive aty => exact lockstep_receive h
      | stmt ls =>
        cases ls with
        | basic stmt =>
          cases hconst : constDef stmt with
          | some delivered =>
            obtain ⟨dest, b⟩ := delivered
            exact lockstep_const hset hconst h fun K' env env' hsize hrel =>
              ih _ hsize hrel rfl
          | none =>
            cases htest : testDef stmt with
            | none => exact lockstep_basic hconst htest h
            | some test =>
              obtain ⟨dest, name, args⟩ := test
              exact lockstep_test hset htest h
        | letregion rhos body =>
          apply hopen .letregion rfl
          rw [annItems, mapLs, bodyItems, annItems_regions, annItems_stmts, annItems_regions]
          rfl
        | scope pat scope =>
          apply hopen .scope rfl
          rw [annItems, mapLs, annItems_stmts]
          rfl
        | handle default handl handlLv handlReturn handlReturnLv bv offset =>
          apply hopen .handle rfl
          rw [annItems, mapLs, handleItems, annItems_stmts, annItems, annItems_stmts,
            annItems, returnItems, annItems, annItems_stmts]
          rfl
        | switch kind arg sels default =>
          cases harg : destOf arg with
          | none => exact lockstep_select harg h
          | some dest =>
            have hplain := h.placed.plainLs
            obtain ⟨lv, rfl⟩ : ∃ lv, arg = .var lv := by
              cases arg with
              | var lv => exact ⟨lv, rfl⟩
              | flowVar => cases hplain.1
              | _ => cases harg
            cases henv : env lv with
            | none => exact ⟨_, ⟨.refl, by simp [bodyMachine, silent, henv]⟩, .inl (.stuck henv)⟩
            | some v =>
              have hlv : lv ∉ A.okSet := fun hok => by
                have hzero := h.used lv hok (by simp [henv])
                simp [usesItems, usesLs, getVarAtom] at hzero
              have henv' : env' lv = some v := (h.agree lv hlv).trans henv
              have hann : annAty A.labels A.okSet (.var lv) = .var lv := if_neg hlv
              apply hopen (opens_chosen A.values kind v (.var lv) sels default K)
              · simp [silent, henv]
              · rw [annItems, mapLs, hann, annItems_stmts]
                simp [silent, henv', chosen_map, annLss]

end Steps

end Simulation

end MLKit.Backend.FlowVars
