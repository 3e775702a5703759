import MLKit.X64.JumpChains
import MLKit.X64.EditRuns

/-!
# The labels of a chain lead to the same code

A link joins two labels of one run, or a label before a jump and the target of the jump. From both
of its labels control comes silently to the same event.
-/

namespace MLKit.X64.InstsX64

open MLKit.Lib Relation List

/-- A list of local labels. -/
def OnlyLabels (mid : List Inst) : Prop := ∀ i ∈ mid, ∃ l, i = .lab (.localLab l)

variable {mid P c d before is : List Inst} {k : Nat} {l : Label} {afterQuad : Bool} {place : Place}

theorem OnlyLabels.snoc (h : OnlyLabels mid) (l : Label) :
    OnlyLabels (mid ++ [.lab (.localLab l)]) := by
  exact forall_mem_append.2 ⟨h, fun _ hi => ⟨l, mem_singleton.1 hi⟩⟩

theorem lands_labels (h : OnlyLabels mid) : Lands P k (mid ++ c) d ↔ Lands P k c d := by
  induction mid with
  | nil => exact Iff.rfl
  | cons i mid ih =>
    obtain ⟨l, rfl⟩ := h i (.head _)
    rw [← ih fun i' hi' => h i' (.tail _ hi'), cons_append]
    constructor
    · intro hland
      cases hland with
      | here hseen => cases hseen
      | jump hkind => cases hkind
      | skip _ hland => exact hland
    · exact .skip rfl

/-- The text before a place. -/
def Fits (before : List Inst) : Place → Prop
  | .run first _ => ∃ front mid, before = front ++ .lab (.localLab first) :: mid ∧ OnlyLabels mid
  | _ => True

theorem fits_run : Fits (before ++ [.lab (.localLab l)]) (.run l afterQuad) := by
  refine ⟨before, [], rfl, ?_⟩
  intro i hi
  cases hi

/-- How a text links two labels. -/
inductive Linked (text : List Inst) (l l' : Label) : Prop where
  | run {front mid rest : List Inst} : OnlyLabels mid →
      text = front ++ .lab (.localLab l') :: (mid ++ .lab (.localLab l) :: rest) → Linked text l l'
  | jump {front mid rest : List Inst} : OnlyLabels mid →
      text = front ++ .lab (.localLab l) :: (mid ++ .jmp (.L (.localLab l')) :: rest) →
      Linked text l l'

variable {l' : Label} {front rest : List Inst}

theorem linked_of_mem (hfits : Fits before place) (hmem : (l, l') ∈ links place is) :
    Linked (before ++ is) l l' := by
  fun_induction links place is generalizing before with
  | case1 => cases hmem
  | case2 first afterQuad k is ih =>
    obtain ⟨front, mid, rfl, hmid⟩ := hfits
    rcases mem_cons.1 hmem with heq | hmem
    · cases heq
      exact .run hmid (by rw [append_assoc, cons_append])
    · rw [append_cons]
      exact ih ⟨front, mid ++ [_], by simp, hmid.snoc k⟩ hmem
  | case3 k is ih =>
    rw [append_cons]
    exact ih (fits_run) hmem
  | case4 k is ih =>
    rw [append_cons]
    exact ih (fits_run) hmem
  | case5 first k is ih =>
    rcases mem_cons.1 hmem with heq | hmem
    · obtain ⟨front, mid, rfl, hmid⟩ := hfits
      cases heq
      exact .jump hmid (by rw [append_assoc, cons_append])
    · rw [append_cons]
      exact ih trivial hmem
  | case6 place q is ih | case7 place i is _ _ _ _ _ ih =>
    rw [append_cons]
    exact ih trivial hmem

theorem linked_of_leads (h : Leads is l l') : Linked is l l' := by
  obtain ⟨front, rest, heq, -⟩ := lookup_eq_some_iff.1 h
  have hmem : (l, l') ∈ links .other is := by
    rw [← mem_reverse, heq]
    simp
  have hfits : Fits [] .other := trivial
  exact linked_of_mem hfits hmem

section

variable (hnodup : (labelsIn localOf is).Nodup) (hclosed : Closed is)

include hnodup in
theorem codeFrom_split (h : is = front ++ .lab (.localLab l) :: rest) :
    codeFrom localOf l is = some rest :=
  codeFrom_of_suffix hnodup rfl (h ▸ suffix_append front _)

include hnodup hclosed

theorem joined_of_leads (h : Leads is l l') :
    ∃ c c', codeFrom localOf l is = some c ∧ codeFrom localOf l' is = some c' ∧ Joined is c c' := by
  rcases linked_of_leads h with @⟨front, mid, rest, hmid, heq⟩ | @⟨front, mid, rest, hmid, heq⟩
  · have hl' := codeFrom_split hnodup heq
    rw [← cons_append, ← append_assoc] at heq
    refine ⟨rest, _, codeFrom_split hnodup heq, hl', ?_⟩
    constructor
    · intro k d hland
      exact ⟨k, Nat.le_refl k, (lands_labels hmid).2 (.skip rfl hland)⟩
    · intro k d hland
      cases (lands_labels hmid).1 hland with
      | here hseen => cases hseen
      | jump hkind => cases hkind
      | skip _ hland => exact ⟨k, hland⟩
  · have hl := codeFrom_split hnodup heq
    have href : l' ∈ refsIn is := by
      rw [heq]
      simp [refsIn, localRefs, labelsOf, labelsOfEa, localNumber]
    obtain ⟨c', hc'⟩ := mem_labelsIn_iff.1 (hclosed l' href)
    rw [← codeFrom_localOf] at hc'
    refine ⟨_, c', hl, hc', ?_⟩
    constructor
    · intro k d hland
      cases (lands_labels hmid).1 hland with
      | here hseen => cases hseen
      | skip hkind => cases hkind
      | jump hkind hc hland =>
        cases hkind
        rw [hc'] at hc
        cases hc
        exact ⟨_, Nat.le_succ _, hland⟩
    · intro k d hland
      exact ⟨k + 1, (lands_labels hmid).2 (.jump rfl hc' hland)⟩

/-- All labels of a chain lead to the same code. -/
theorem joined_of_chain (h : ReflTransGen (Leads is) l l') (hl : l ∈ labelsIn localOf is) :
    ∃ c c', codeFrom localOf l is = some c ∧ codeFrom localOf l' is = some c' ∧ Joined is c c' := by
  induction h with
  | refl =>
    obtain ⟨c, hc⟩ := mem_labelsIn_iff.1 hl
    rw [← codeFrom_localOf] at hc
    exact ⟨c, c, hc, hc, .refl is c⟩
  | tail _ hstep ih =>
    obtain ⟨c, c1, hc, hc1, hjoin⟩ := ih
    obtain ⟨c2, c', hc2, hc', hjoin'⟩ := joined_of_leads hnodup hclosed hstep
    rw [hc1] at hc2
    cases hc2
    exact ⟨c, c', hc, hc', hjoin.trans hjoin'⟩

end

end MLKit.X64.InstsX64
