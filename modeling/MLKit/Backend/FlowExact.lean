import MLKit.Backend.FlowPaths
import MLKit.Lib.Except

/-!
# The analysis is exact

For one variable the sets of `FV_CalcSets` say three things: whether the variable has been given up,
whether a switch on it has been seen, and whether such a switch stands next. Going backwards through
the text they say what the text says.
-/

namespace MLKit.Backend.FlowVars

open MLKit.Lib List Nat

/-- The variable has not been given up, and the sets count its uses. -/
structure Counted (lv : Lvar) (sets : Sets) (n : Nat) : Prop where
  notOk : lv ∉ sets.notOkSet
  le : n ≤ 1
  mem : lv ∈ sets.okSet ↔ n = 1

/-- The variable has been given up. -/
structure GivenUp (lv : Lvar) (sets : Sets) : Prop where
  notOk : lv ∈ sets.notOkSet
  notMem : lv ∉ sets.okSet

/-- The sets after a text: they count the uses of the variable and say whether a switch on it stands
next, unless a definition or use is not fine or there are two uses; then the variable is given
up. -/
inductive Analysed (lv : Lvar) (sets : Sets) (fine : Prop) (n : Nat) (leads : Prop) : Prop where
  | kept (hfine : fine) (hcount : Counted lv sets n) (hprev : sets.prevUseLv = some lv ↔ leads)
  | lost (hbad : ¬ (fine ∧ n ≤ 1)) (hgone : GivenUp lv sets)

theorem GivenUp.withPrev (h : GivenUp lv sets) (prev : Option Lvar) :
    GivenUp lv { sets with prevUseLv := prev } :=
  ⟨h.notOk, h.notMem⟩

variable {n : Nat}

theorem Counted.withPrev (h : Counted lv sets n) (prev : Option Lvar) :
    Counted lv { sets with prevUseLv := prev } n :=
  ⟨h.notOk, h.le, h.mem⟩

/-- What has been given up stays given up. -/
def GivesUp (lv : Lvar) (sets sets' : Sets) : Prop := GivenUp lv sets → GivenUp lv sets'

/-- One text after the other. -/
theorem Analysed.andThen (h : Analysed lv sets fine n leads) (hgives : GivesUp lv sets sets')
    (hle : n ≤ n')
    (hrest : Counted lv sets n → (sets.prevUseLv = some lv ↔ leads) →
      Analysed lv sets' fine' n' leads') :
    Analysed lv sets' (fine ∧ fine') n' leads' := by
  cases h with
  | kept hfine hcount hprev =>
    cases hrest hcount hprev with
    | kept hfine' hcount' hprev' => exact .kept ⟨hfine, hfine'⟩ hcount' hprev'
    | lost hbad hgone => exact .lost (fun hgood => hbad ⟨hgood.1.2, hgood.2⟩) hgone
  | lost hbad hgone =>
    exact .lost (fun hgood => hbad ⟨hgood.1.1, hle.trans hgood.2⟩) (hgives hgone)

theorem Analysed.congr (h : Analysed lv sets fine n leads) (hfine : fine ↔ fine') (hn : n = n')
    (hleads : leads ↔ leads') : Analysed lv sets fine' n' leads' := by
  subst hn
  cases h with
  | kept hgood hcount hprev => exact .kept (hfine.1 hgood) hcount (hprev.trans hleads)
  | lost hbad hgone => exact .lost (by rwa [← hfine]) hgone

/-- A use that is not fine: the count of the uses does not matter. -/
theorem Analysed.used {used : Prop} [Decidable used]
    (h : Analysed lv sets (¬ used ∧ fine) n leads) :
    Analysed lv sets (¬ used ∧ fine) ((if used then 1 else 0) + n) leads := by
  by_cases hused : used
  · cases h with
    | kept hfine hcount hprev => exact absurd hused hfine.1
    | lost hbad hgone => exact .lost (fun hgood => hgood.1.1 hused) hgone
  · simpa [hused] using h

variable {prev : Option Lvar}

theorem addOkDef_of_ne (h : prev ≠ some lv') : addOkDef lv' prev sets = addNotOk [lv'] sets := by
  cases prev with
  | none => rfl
  | some prevLv =>
    have hne : lv' ≠ prevLv := fun heq => h (by rw [heq])
    simp [addOkDef, addNotOk, hne, Finset.erase_eq]

/-- What a text does to sets that say whether the variable's switch is `next`: a variable given up
stays given up, and of one that is not the sets say what the text says. -/
structure Reads (lv : Lvar) (sets sets' : Sets) (next fine : Prop) (uses : Nat) (leads : Prop) :
    Prop where
  givesUp : GivesUp lv sets sets'
  analysed : ∀ {n}, Counted lv sets n → (sets.prevUseLv = some lv ↔ next) →
    Analysed lv sets' fine (uses + n) leads

namespace Reads

variable {next : Prop}

theorem refl : Reads lv sets sets next True 0 next where
  givesUp := id
  analysed hcount hprev := by
    rw [zero_add]
    exact .kept trivial hcount hprev

theorem congr (h : Reads lv sets sets' next fine uses leads) (hfine : fine ↔ fine')
    (huses : uses = uses') (hleads : leads ↔ leads') :
    Reads lv sets sets' next fine' uses' leads' where
  givesUp := h.givesUp
  analysed hcount hprev := (h.analysed hcount hprev).congr hfine (by rw [huses]) hleads

/-- Another text comes before: its sets are those of this text, but for the switch that is next. -/
theorem andThen (h : Reads lv sets sets1 next fine uses leads)
    (h' : Reads lv { sets1 with prevUseLv := prev } sets' next' fine' uses' leads')
    (hnext : (sets.prevUseLv = some lv ↔ next) → (sets1.prevUseLv = some lv ↔ leads) →
      (prev = some lv ↔ next')) :
    Reads lv sets sets' next (fine ∧ fine') (uses' + uses) leads' where
  givesUp hgone := h'.givesUp ((h.givesUp hgone).withPrev prev)
  analysed hcount hprev := by
    rw [add_assoc]
    exact (h.analysed hcount hprev).andThen (fun hgone => h'.givesUp (hgone.withPrev prev))
      (le_add_left _ _) fun hcount1 hprev1 =>
        h'.analysed (hcount1.withPrev prev) (hnext hprev hprev1)

/-- A text before code that is no switch. -/
theorem reset (next : Prop)
    (h : Reads lv { sets with prevUseLv := none } sets' next' fine uses leads) (hnext : ¬ next') :
    Reads lv sets sets' next fine uses leads where
  givesUp hgone := h.givesUp (hgone.withPrev none)
  analysed hcount _ := h.analysed (hcount.withPrev none) ⟨(nomatch ·), (absurd · hnext)⟩

theorem used {used : Prop} [Decidable used]
    (h : Reads lv sets sets' next (¬ used ∧ fine) uses leads) :
    Reads lv sets sets' next (¬ used ∧ fine) ((if used then 1 else 0) + uses) leads where
  givesUp := h.givesUp
  analysed hcount hprev := by
    rw [add_assoc]
    exact (h.analysed hcount hprev).used

theorem anyNext (h : Reads lv sets sets' next fine uses leads) :
    Reads lv sets sets' next fine uses (sets'.prevUseLv = some lv) where
  givesUp := h.givesUp
  analysed hcount hprev := by
    cases h.analysed hcount hprev with
    | kept hfine hcount' _ => exact .kept hfine hcount' Iff.rfl
    | lost hbad hgone => exact .lost hbad hgone

theorem addNotOk (lvs : List Lvar) : Reads lv sets (addNotOk lvs sets) next (lv ∉ lvs) 0 False where
  givesUp h := by
    constructor
    · simp [FlowVars.addNotOk, h.notOk]
    · simp [FlowVars.addNotOk, h.notMem]
  analysed hcount _ := by
    rw [zero_add]
    by_cases hmem : lv ∈ lvs
    · refine .lost (fun hgood => hgood.1 hmem) ?_
      constructor <;> simp [FlowVars.addNotOk, hmem]
    · refine .kept hmem ⟨?_, hcount.le, ?_⟩ ⟨(nomatch ·), False.elim⟩
      · simp [FlowVars.addNotOk, hcount.notOk, hmem]
      · simp [FlowVars.addNotOk, hcount.mem, hmem]

theorem addOkUse (lv' : Lvar) :
    Reads lv sets (addOkUse lv' sets) next True (if lv = lv' then 1 else 0) (lv = lv') where
  givesUp h := by
    have hnotOk := h.notOk
    have hnotMem := h.notMem
    unfold FlowVars.addOkUse
    split_ifs with hok hnot
    · constructor <;> simp [hnotOk, hnotMem]
    · exact ⟨hnotOk, hnotMem⟩
    · refine ⟨hnotOk, ?_⟩
      have hne : lv ≠ lv' := fun heq => hnot (heq ▸ hnotOk)
      simp [hne, hnotMem]
  analysed {n} hcount _ := by
    have hmem := hcount.mem
    have hle := hcount.le
    have hnotOk := hcount.notOk
    by_cases heq : lv = lv'
    · subst heq
      rw [if_pos rfl]
      by_cases hin : lv ∈ sets.okSet
      · have hone := hmem.1 hin
        refine .lost (by omega) ?_
        constructor <;> simp [FlowVars.addOkUse, hin]
      · have hzero : n = 0 := by
          by_contra hne
          exact hin (hmem.2 (by omega))
        refine .kept trivial ⟨?_, ?_, ?_⟩ ?_ <;> simp [FlowVars.addOkUse, hin, hnotOk, hzero]
    · rw [if_neg heq, zero_add]
      unfold FlowVars.addOkUse
      refine .kept trivial ⟨?_, hle, ?_⟩ ?_ <;> split_ifs <;>
        simp [heq, Ne.symm heq, hnotOk, hmem]

theorem addOkDef (lv' : Lvar) :
    Reads lv sets (addOkDef lv' sets.prevUseLv sets) next (lv = lv' → next) 0 False := by
  by_cases heq : sets.prevUseLv = some lv'
  · have hset : FlowVars.addOkDef lv' sets.prevUseLv sets = { sets with prevUseLv := none } := by
      simp [FlowVars.addOkDef, heq]
    rw [hset]
    refine ⟨fun h => h.withPrev none, fun hcount hprev => ?_⟩
    rw [zero_add]
    exact .kept (fun hlv => hprev.1 (hlv ▸ heq)) (hcount.withPrev none) ⟨(nomatch ·), False.elim⟩
  · rw [addOkDef_of_ne heq]
    have hadd : Reads lv sets _ next _ _ _ := addNotOk [lv']
    refine ⟨hadd.givesUp, fun hcount hprev => (hadd.analysed hcount hprev).congr ?_ rfl Iff.rfl⟩
    rw [mem_singleton]
    refine ⟨fun hne hlv => absurd hlv hne, fun hnext hlv => heq ?_⟩
    rw [← hlv]
    exact hprev.2 (hnext hlv)

end Reads

/-! ## Statements without statements -/

theorem boolConst_vars (h : boolConst stmt = some (lv', b)) :
    ∃ con conKind, stmt = .assign (.var lv') (.con0 con conKind [] .ignore) ∧ conBool con =
    some b := by
  unfold boolConst at h
  split at h
  · next con conKind =>
      obtain ⟨b', hb, heq⟩ := Option.map_eq_some_iff.1 h
      cases heq
      exact ⟨con, conKind, rfl, hb⟩
  · cases h

theorem boolPrim_vars (h : boolPrim stmt = some lv') :
    ∃ name aty1 aty2, stmt = .prim name [aty1, aty2] [.var lv'] ∧ isFlowPrim name = true := by
  unfold boolPrim at h
  split at h
  · next name aty1 aty2 lv =>
      split at h
      · next hflow =>
          cases h
          exact ⟨name, aty1, aty2, rfl, hflow⟩
      · cases h
  · cases h

theorem fvCalcSetsBasic_reads (stmt : BasicStmt Unit Atom) :
    Reads lv sets (fvCalcSetsBasic stmt sets) (Leads code lv K) (FineLs code lv (.basic stmt) K)
      (usesLs lv (.basic stmt)) False := by
  refine (Reads.used ?_).congr Iff.rfl (add_zero _) Iff.rfl
  unfold fvCalcSetsBasic
  split
  · next lv' b hconst =>
      obtain ⟨con, conKind, hstmt, -⟩ := boolConst_vars hconst
      have hsets : setsBool lv stmt = true ↔ lv = lv' := by
        have hprim : boolPrim stmt = none := by
          rw [hstmt]
          rfl
        simpa [setsBool, hconst, hprim] using eq_comm
      have huse : useVarLs stmt = [] := by
        rw [hstmt]
        rfl
      have hdef : defVarLs stmt = [lv'] := by
        rw [hstmt]
        rfl
      refine (Reads.addOkDef lv').congr ?_ rfl Iff.rfl
      rw [hsets, huse, hdef, mem_singleton]
      tauto
  · next hconst =>
      split
      · next lv' hprim =>
          have hsets : setsBool lv stmt = true ↔ lv = lv' := by
            simpa [setsBool, hconst, hprim] using eq_comm
          have hdef : defVarLs stmt = [lv'] := by
            obtain ⟨name, aty1, aty2, rfl, -⟩ := boolPrim_vars hprim
            rfl
          rw [hsets, hdef, mem_singleton]
          refine ((Reads.addNotOk _).andThen (.addOkDef lv') fun hprev _ => hprev).congr ?_ rfl
            Iff.rfl
          tauto
      · next hprim =>
          have hsets : setsBool lv stmt = false := by
            simp [setsBool, hconst, hprim]
          refine ((Reads.addNotOk _).andThen (.addNotOk _) fun _ hprev => hprev).congr ?_ rfl
            Iff.rfl
          rw [hsets]
          tauto

/-! ## Statements with statements -/

/-- The switch is a two-way switch on a boolean variable. -/
def BoolSwitch (kind : SwitchKind) (arg : Atom) (sels : List (Selector × List FvStmt)) (lv' : Lvar)
    (sel : Selector) (lss : List FvStmt) (b : Bool) : Prop :=
  arg = .var lv' ∧ sels = [(sel, lss)] ∧ selBool kind sel = some b

variable {default : List FvStmt}

/-- The sets before a switch. -/
theorem fvCalcSetsLs_switch
    (h : fvCalcSetsLs regionProfiling (.switch kind arg sels default) sets = .ok sets') :
    (∃ lv' sel lss b sets1 sets2, BoolSwitch kind arg sels lv' sel lss b ∧
      fvCalcSetsLss regionProfiling default sets = .ok sets1 ∧
      fvCalcSetsLss regionProfiling lss { sets1 with prevUseLv := sets.prevUseLv } = .ok sets2 ∧
      sets' = addOkUse lv' sets2) ∨
    ((∀ lv' sel lss b, ¬ BoolSwitch kind arg sels lv' sel lss b) ∧ ∃ sets1 sets2,
      fvCalcSetsSels regionProfiling sels sets.prevUseLv sets = .ok sets1 ∧
      fvCalcSetsLss regionProfiling default { sets1 with prevUseLv := sets.prevUseLv } = .ok sets2 ∧
      sets' = addNotOk (getLvarAtom arg) sets2) := by
  by_cases hsingle : ∃ lv' sel lss, arg = .var lv' ∧ sels = [(sel, lss)]
  · obtain ⟨lv', sel, lss, rfl, rfl⟩ := hsingle
    have hstring : kind ≠ .string := by
      rintro rfl
      cases h
    have hexcon : kind ≠ .excon := by
      rintro rfl
      cases h
    rw [fvCalcSetsLs.eq_4 _ _ _ _ _ _ _ hstring hexcon] at h
    split at h
    · next hbool =>
        obtain ⟨b, hb⟩ := Option.isSome_iff_exists.1 hbool
        obtain ⟨sets1, h1, h⟩ := bind_ok h
        obtain ⟨sets2, h2, h⟩ := bind_ok h
        cases h
        exact .inl ⟨lv', sel, lss, b, sets1, sets2, ⟨rfl, rfl, hb⟩, h1, h2, rfl⟩
    · next hbool =>
        obtain ⟨sets1, h1, h⟩ := bind_ok h
        obtain ⟨sets2, h2, h⟩ := bind_ok h
        cases h
        refine .inr ⟨?_, sets1, sets2, h1, h2, rfl⟩
        rintro lv'' sel' lss' b ⟨-, hsels, hb⟩
        cases hsels
        rw [hb] at hbool
        exact hbool rfl
  · have hnot : ∀ lv' sel lss, arg = .var lv' → sels = [(sel, lss)] → False :=
      fun lv' sel lss harg hsels => hsingle ⟨lv', sel, lss, harg, hsels⟩
    have hstring : kind ≠ .string := by
      rintro rfl
      rw [fvCalcSetsLs.eq_5 _ _ _ _ _ hnot] at h
      cases h
    have hexcon : kind ≠ .excon := by
      rintro rfl
      rw [fvCalcSetsLs.eq_6 _ _ _ _ _ hnot] at h
      cases h
    rw [fvCalcSetsLs.eq_7 _ _ _ _ _ _ hnot hstring hexcon] at h
    obtain ⟨sets1, h1, h⟩ := bind_ok h
    obtain ⟨sets2, h2, h⟩ := bind_ok h
    cases h
    refine .inr ⟨?_, sets1, sets2, h1, h2, rfl⟩
    rintro lv' sel lss b ⟨harg, hsels, -⟩
    exact hnot lv' sel lss harg hsels

/-- The sets before a handler: the handler's return has no statements of its own. -/
theorem fvCalcSetsLs_handle
    (h : fvCalcSetsLs regionProfiling (.handle default handl handlLv handlReturn handlReturnLv bv
    offset) sets = .ok sets') :
    ∃ lv1 lv2 sets1 sets2, handlLv = .var lv1 ∧ handlReturn = [] ∧ handlReturnLv = .var lv2 ∧
      fvCalcSetsLss regionProfiling default { sets with prevUseLv := none } = .ok sets1 ∧
      fvCalcSetsLss regionProfiling handl { sets1 with prevUseLv := none } = .ok sets2 ∧
      sets' = addNotOk [lv2, lv1] sets2 := by
  unfold fvCalcSetsLs at h
  split at h
  -- the other statements, and the handlers of another form, are no handlers of this form
  all_goals try contradiction
  · next lv1 lv2 _ _ _ heq =>
      cases heq
      obtain ⟨sets1, h1, h⟩ := bind_ok h
      obtain ⟨sets2, h2, h⟩ := bind_ok h
      cases h
      exact ⟨_, _, sets1, sets2, rfl, rfl, rfl, h1, h2, rfl⟩

theorem codeRhos_reverse :
    codeRhos regionProfiling rhos.reverse = (codeRhos regionProfiling rhos).reverse := by
  unfold codeRhos removeZeroRhos removeFiniteRhos
  split <;> rw [filter_reverse]

/-- The sets before a letregion. -/
theorem fvCalcSetsLs_letregion
    (h : fvCalcSetsLs regionProfiling (.letregion rhos body) sets = .ok sets') :
    (codeRhos regionProfiling rhos = [] ∧ fvCalcSetsLss regionProfiling body sets = .ok sets') ∨
    (codeRhos regionProfiling rhos ≠ [] ∧ ∃ sets1,
      fvCalcSetsLss regionProfiling body { sets with prevUseLv := none } = .ok sets1 ∧
      sets' = { sets1 with prevUseLv := none }) := by
  rw [fvCalcSetsLs] at h
  split at h
  · next hnil => exact .inl ⟨hnil, h⟩
  · next hcons =>
      obtain ⟨sets1, h1, h⟩ := bind_ok h
      cases h
      exact .inr ⟨by rw [hcons]; exact cons_ne_nil _ _, sets1, h1, rfl⟩

/-! ## The sets say what the text says -/

section Leads

theorem leads_scope_iff :
    Leads code lv (.stmt (.scope pat scope) :: K) ↔ Leads code lv (stmts scope ++ K) := by
  constructor
  · rintro (_ | hleads | _)
    exact hleads
  · exact Leads.scope

theorem leads_letregion_iff :
    Leads code lv (.stmt (.letregion rhos body) :: K) ↔
      code.entry rhos = [] ∧ Leads code lv (bodyItems code rhos body K) := by
  constructor
  · intro h
    cases h with
    | letregion hnil hleads => exact ⟨hnil, hleads⟩
  · rintro ⟨hnil, hleads⟩
    exact .letregion hnil hleads

theorem leads_switch_iff :
    Leads code lv (.stmt (.switch kind arg sels default) :: K) ↔
      ∃ sel lss b, BoolSwitch kind arg sels lv sel lss b := by
  constructor
  · intro h
    cases h with
    | switch hb => exact ⟨_, _, _, rfl, rfl, hb⟩
  · rintro ⟨sel, lss, b, rfl, rfl, hb⟩
    exact .switch hb

end Leads

section Exact

theorem getLvarAtom_of_plain (h : plainOperand arg = true) : getLvarAtom arg = getVarAtom arg := by
  cases arg with
  | var lv' =>
    have hreg : lv'.isReg = false := by simpa [plainOperand] using h
    simp [getLvarAtom, getVarAtom, filterOutPhregs, hreg]
  | phreg phreg => cases h
  | _ => rfl

mutual

theorem fvCalcSetsLs_reads (lv : Lvar) : ∀ (ls : FvStmt) {sets sets' : Sets} {K : List Item},
    fvCalcSetsLs regionProfiling ls sets = .ok sets' → PlainLs ls →
    Reads lv sets sets' (Leads (analysisCode regionProfiling) lv K)
      (FineLs (analysisCode regionProfiling) lv ls K) (usesLs lv ls)
      (Leads (analysisCode regionProfiling) lv (.stmt ls :: K))
  | .basic stmt, sets, sets', K, h, hplain => by
    cases h
    exact (fvCalcSetsBasic_reads stmt).congr Iff.rfl rfl
      ⟨False.elim, fun hleads => nomatch hleads⟩
  | .letregion rhos body, sets, sets', K, h, hplain => by
    rw [FineLs, usesLs, leads_letregion_iff, bodyItems]
    have hexit : (analysisCode regionProfiling).exit rhos =
      ((analysisCode regionProfiling).entry rhos).reverse := codeRhos_reverse
    rw [hexit]
    rcases fvCalcSetsLs_letregion h with ⟨hnil, h1⟩ | ⟨hne, sets1, h1, rfl⟩
    · have hnil' : (analysisCode regionProfiling).entry rhos = [] := hnil
      rw [hnil']
      refine (fvCalcSetsLss_reads lv body h1 hplain).congr Iff.rfl rfl ?_
      simp
    · have hne' : (analysisCode regionProfiling).entry rhos ≠ [] := hne
      -- the end of the regions executes code, so nothing leads past it
      obtain ⟨rho, rhos', hcons⟩ := exists_cons_of_ne_nil (reverse_ne_nil_iff.2 hne')
      rw [hcons]
      have hbody := (fvCalcSetsLss_reads lv body h1 hplain
        (K := .region .dealloc rho :: (rhos'.map (.region .dealloc) ++ K))).reset
        (Leads (analysisCode regionProfiling) lv K) (nomatch ·)
      refine ⟨fun hgone => (hbody.givesUp hgone).withPrev none, fun hcount hprev => ?_⟩
      cases hbody.analysed hcount hprev with
      | kept hfine hcount1 hprev1 =>
        exact .kept hfine (hcount1.withPrev none) ⟨(nomatch ·), fun hleads => absurd hleads.1 hne'⟩
      | lost hbad hgone => exact .lost hbad (hgone.withPrev none)
  | .scope pat scope, sets, sets', K, h, hplain => by
    rw [FineLs, usesLs, leads_scope_iff]
    exact fvCalcSetsLss_reads lv scope h hplain
  | .handle default handl handlLv handlReturn handlReturnLv bv offset, sets, sets', K, h, hplain => by
    obtain ⟨lv1, lv2, sets1, sets2, rfl, rfl, rfl, h1, h2, rfl⟩ := fvCalcSetsLs_handle h
    rw [FineLs, usesLs, FineLss, usesLss]
    set ret := returnItems [] (.var lv2) K
    have hdefault := (fvCalcSetsLss_reads lv default h1 hplain.1 (K := .uninstall ret :: K)).reset
      (Leads (analysisCode regionProfiling) lv K) (nomatch ·)
    have hhandl := fvCalcSetsLss_reads lv handl h2 hplain.2.1
      (K := .install (.var lv1) :: (stmts default ++ .uninstall ret :: K))
    have hlvs := (hdefault.andThen hhandl fun _ _ => ⟨(nomatch ·), (nomatch ·)⟩).andThen
      (.addNotOk [lv2, lv1]) fun _ hprev => hprev
    have hmem : lv ∉ [lv2, lv1] ↔ lv ∉ getVarAtom (.var lv1) ∧ lv ∉ getVarAtom (.var lv2) := by
      simp [getVarAtom, and_comm]
    refine (hlvs.congr ?_ rfl Iff.rfl).used.congr Iff.rfl (by omega)
      ⟨False.elim, fun hleads => nomatch hleads⟩
    tauto
  | .switch kind arg sels default, sets, sets', K, h, hplain => by
    rw [FineLs, usesLs, leads_switch_iff]
    rcases fvCalcSetsLs_switch h with ⟨lv', sel, lss, b, sets1, sets2, hbool, h1, h2, rfl⟩ |
      ⟨hnot, sets1, sets2, h1, h2, rfl⟩
    · obtain ⟨rfl, rfl, hb⟩ := hbool
      have huse := ((fvCalcSetsLss_reads lv default h1 hplain.2.2 (K := K)).andThen
        (fvCalcSetsLss_reads lv lss h2 hplain.2.1.1) fun hprev _ => hprev).andThen (.addOkUse lv')
        fun _ hprev => hprev
      have harg : lv ∈ getVarAtom (.var lv') ↔ lv = lv' := mem_singleton
      simp only [harg, FineSels, usesSels]
      refine huse.congr ?_ (by omega) ?_
      · refine ⟨fun hfine => ⟨?_, ⟨hfine.1.2, trivial⟩, hfine.1.1⟩,
          fun hfine => ⟨⟨hfine.2.2, hfine.2.1.1⟩, trivial⟩⟩
        rintro rfl
        exact ⟨sel, lss, b, rfl, rfl, hb, rfl⟩
      · constructor
        · rintro rfl
          exact ⟨sel, lss, b, rfl, rfl, hb⟩
        · rintro ⟨sel', lss', b', harg', -, -⟩
          cases harg'
          rfl
    · have huse := ((fvCalcSetsSels_reads sels h1 hplain.2.1 (K := K)).andThen
        (fvCalcSetsLss_reads lv default h2 hplain.2.2) fun hprev _ => hprev).andThen
        (.addNotOk (getLvarAtom arg)) fun _ hprev => hprev
      rw [getLvarAtom_of_plain hplain.1] at huse ⊢
      have hfine : (lv ∈ getVarAtom arg → ∃ sel lss b, sels = [(sel, lss)] ∧ arg = .var lv ∧
          selBool kind sel = some b ∧ (analysisCode regionProfiling).onBool kind sel = true) ↔
            lv ∉ getVarAtom arg := by
        refine ⟨fun hfine hmem => ?_, fun hnotMem hmem => absurd hmem hnotMem⟩
        obtain ⟨sel, lss, b, hsels', harg, hb, -⟩ := hfine hmem
        exact hnot lv sel lss b ⟨harg, hsels', hb⟩
      rw [hfine]
      refine (huse.congr and_comm rfl Iff.rfl).used.congr Iff.rfl (by omega) ?_
      exact ⟨False.elim, fun ⟨sel, lss, b, hbool⟩ => hnot lv sel lss b hbool⟩

theorem fvCalcSetsLss_reads (lv : Lvar) : ∀ (lss : List FvStmt) {sets sets' : Sets} {K : List Item},
    fvCalcSetsLss regionProfiling lss sets = .ok sets' → PlainLss lss →
    Reads lv sets sets' (Leads (analysisCode regionProfiling) lv K)
      (FineLss (analysisCode regionProfiling) lv lss K) (usesLss lv lss)
      (Leads (analysisCode regionProfiling) lv (stmts lss ++ K))
  | [], sets, sets', K, h, hplain => by
    cases h
    exact .refl
  | ls :: lss, sets, sets', K, h, hplain => by
    obtain ⟨sets1, h1, h2⟩ := bind_ok h
    rw [FineLss, usesLss, and_comm]
    exact (fvCalcSetsLss_reads lv lss h1 hplain.2).andThen (fvCalcSetsLs_reads lv ls h2 hplain.1)
      fun _ hprev => hprev

theorem fvCalcSetsSels_reads {lv : Lvar} : ∀ (sels : List (Selector × List FvStmt))
    {sets sets' : Sets} {K : List Item},
    fvCalcSetsSels regionProfiling sels sets.prevUseLv sets = .ok sets' → PlainSels sels →
    Reads lv sets sets' (Leads (analysisCode regionProfiling) lv K)
      (FineSels (analysisCode regionProfiling) lv sels K) (usesSels lv sels)
      (sets'.prevUseLv = some lv)
  | [], sets, sets', K, h, hplain => by
    cases h
    exact ⟨fun hgone => hgone.withPrev none, fun hcount hprev =>
      .kept trivial (by simpa [usesSels] using hcount.withPrev none) Iff.rfl⟩
  | (sel, lss) :: sels, sets, sets', K, h, hplain => by
    obtain ⟨sets1, h1, h2⟩ := bind_ok h
    rw [FineSels, usesSels, and_comm]
    exact ((fvCalcSetsSels_reads sels h1 hplain.2).andThen
      (fvCalcSetsLss_reads lv lss h2 hplain.1) fun hprev _ => hprev).anyNext

end

/-- The variables of the calling convention are no flow variables, and the others are exactly those
with one use whose definitions and use are fine. -/
theorem mem_fvOkSet_iff (h : fvOkSet regionProfiling cc body = .ok okSet) (hplain : PlainLss body) :
    lv ∈ okSet ↔ lv ∉ CallConv.getResLvars cc ++ CallConv.getArgLvars cc ∧ usesLss lv body = 1 ∧
      FineLss (analysisCode regionProfiling) lv body [] := by
  obtain ⟨sets, hsets, hok⟩ := bind_ok h
  cases hok
  have hreads := fvCalcSetsLss_reads lv body hsets hplain (K := [])
  by_cases hcc : lv ∈ CallConv.getResLvars cc ++ CallConv.getArgLvars cc
  · have hgone := hreads.givesUp ⟨mem_toFinset.2 hcc, Finset.notMem_empty lv⟩
    exact ⟨fun hmem => absurd hmem hgone.notMem, fun hright => absurd hcc hright.1⟩
  · have hcount : Counted lv ⟨∅, (CallConv.getResLvars cc ++ CallConv.getArgLvars cc).toFinset,
        none⟩ 0 :=
      ⟨fun hmem => hcc (mem_toFinset.1 hmem), zero_le 1,
        ⟨fun hmem => absurd hmem (Finset.notMem_empty lv), fun hone => absurd hone (by decide)⟩⟩
    cases hreads.analysed hcount ⟨(nomatch ·), (nomatch ·)⟩ with
    | kept hfine hcount' _ =>
      rw [hcount'.mem]
      exact ⟨fun huses => ⟨hcc, huses, hfine⟩, fun hright => hright.2.1⟩
    | lost hbad hgone =>
      refine ⟨fun hmem => absurd hmem hgone.notMem, fun hright => absurd ?_ hbad⟩
      exact ⟨hright.2.2, hright.2.1.le⟩

end Exact

end MLKit.Backend.FlowVars
