import MLKit.X64.JumpRuns

/-!
# Edits of X64 code

The passes of the optimiser rewrite the text of a function by a few local edits: they rename the
labels in operands, drop labels, drop what stands between a jump and the next label, drop a jump to
the label that follows it, invert a conditional jump over a jump, and pad. One relation covers them,
and an edit keeps the runs of the code when every label that live code jumps to is still where the
jump went before.
-/

namespace MLKit.X64.InstsX64

open MLKit.Lib List

/-- How labels are renamed, the labels whose definitions are dropped, the labels that live
instructions and instructions behind a jump may refer to, and whether instructions behind a jump are
cut. -/
structure Edit where
  ρ : Label → Label
  dropped : Label → Prop
  live : Label → Prop
  dead : Label → Prop
  cuts : Prop

/-- Setting a register to one. -/
def setOne (r : Reg) : Inst := .bin .movq (.I "1") (.R r)

def isJump : Inst → Bool
  | .jmp (.L (.localLab _)) => true
  | _ => false

/-- The code after an instruction stands behind a jump. -/
def deadAfter (dead : Bool) (i : Inst) : Bool := isJump i || (dead && !stops i)

/-- An edit of a text, which stands behind a jump or not. -/
inductive Rewrites (E : Edit) : Bool → List Inst → List Inst → Prop where
  | nil : Rewrites E dead [] []
  | keep {dead : Bool} {i : Inst} {a b : List Inst} : localOf i = none →
      (∀ l ∈ localRefs i, if dead && !stops i then E.dead l else E.live l) →
      Rewrites E (deadAfter dead i) a b → Rewrites E dead (i :: a) (rename E.ρ i :: b)
  | keepLab {dead : Bool} {l : Label} {a b : List Inst} : ¬ E.dropped l → Rewrites E false a b →
      Rewrites E dead (.lab (.localLab l) :: a) (.lab (.localLab l) :: b)
  | dropLab {dead : Bool} {l : Label} {a b : List Inst} : E.dropped l → Rewrites E dead a b →
      Rewrites E dead (.lab (.localLab l) :: a) b
  | dropDead : E.cuts → stops i = false → Rewrites E true a b →
      Rewrites E true (i :: a) b
  | dropJump : E.cuts → E.live l → ¬ E.dropped (E.ρ l) →
      (∀ i ∈ front, stops i = false) → Rewrites E false (.lab (.localLab (E.ρ l)) :: a) b →
      Rewrites E false (.jmp (.L (.localLab l)) :: (front ++ .lab (.localLab (E.ρ l)) :: a)) b
  | invertJump {dead : Bool} {cond inverted : Cond} {l : Label} {l2 : Lab} {a b : List Inst} :
      invert cond = some inverted → (∀ l', l2 = .localLab l' → E.live l') → ¬ E.dropped l →
      Rewrites E false a b →
      Rewrites E dead (.jcc cond (.localLab l) :: .jmp (.L l2) :: .lab (.localLab l) :: a)
        (.jcc inverted (renameLab E.ρ l2) :: .lab (.localLab l) :: b)
  | once :
      Rewrites E dead (setOne r :: a) (setOne r :: b) →
      Rewrites E dead (setOne r :: setOne r :: a) (setOne r :: b)
  | padLab {dead : Bool} {l : Label} {s : String} {a b : List Inst} : ¬ E.dropped l →
      Rewrites E false a b →
      Rewrites E dead (.lab (.localLab l) :: a) (.dotP2align s :: .lab (.localLab l) :: b)

variable {E : Edit} {a b is : List Inst} {i : Inst} {l l' : Label} {k : Lab} {sent : Label → Bool}

section Labels

variable {dead : Bool}

variable {front : List Inst}

/-- Instructions behind a jump are cut. -/
theorem Rewrites.cut (hcuts : E.cuts) (hfront : ∀ i ∈ front, stops i = false)
    (h : Rewrites E true a b) : Rewrites E true (front ++ a) b := by
  induction front with
  | nil => exact h
  | cons i front ih =>
    apply Rewrites.dropDead hcuts (hfront i (.head _))
    exact ih fun i' hi' => hfront i' (.tail _ hi')

/-- What is a correct edit of live code is one of code behind a jump. -/
theorem Rewrites.behind (hdead : ∀ l, E.live l → E.dead l) (h : Rewrites E dead a b) :
    Rewrites E true a b := by
  induction h with
  | nil => exact .nil
  | @keep dead i a b hloc hrefs hrest ih =>
    apply Rewrites.keep hloc
    · intro l hl
      specialize hrefs l hl
      cases hstops : stops i with
      | false =>
        rw [hstops] at hrefs
        cases dead with
        | true => exact hrefs
        | false => exact hdead l hrefs
      | true =>
        rw [hstops, Bool.not_true, Bool.and_false] at hrefs
        exact hrefs
    · cases hstops : stops i with
      | false =>
        have heq : deadAfter true i = true := by simp [deadAfter, hstops]
        rw [heq]
        exact ih
      | true =>
        have heq : deadAfter true i = deadAfter dead i := by simp [deadAfter, hstops]
        rw [heq]
        exact hrest
  | keepLab hl hrest _ => exact .keepLab hl hrest
  | dropLab hl _ ih => exact .dropLab hl ih
  | dropDead hcuts hi _ ih => exact .dropDead hcuts hi ih
  | dropJump hcuts _ _ hfront _ ih => exact .dropDead hcuts rfl (ih.cut hcuts hfront)
  | invertJump hinv hlive hl hrest _ => exact .invertJump hinv hlive hl hrest
  | once _ ih => exact .once ih
  | padLab hl hrest _ => exact .padLab hl hrest

theorem labOf_rename (hloc : localOf i = none) (ρ : Label → Label) :
    labOf (rename ρ i) = labOf i := by
  cases i with
  | lab l =>
    cases l with
    | localLab l => cases hloc
    | _ => rfl
  | _ => rfl

theorem localOf_eq (i : Inst) : localOf i = (labOf i).bind localNumber := by
  cases i with
  | lab l => cases l <;> rfl
  | _ => rfl

theorem localOf_rename (hloc : localOf i = none) (ρ : Label → Label) :
    localOf (rename ρ i) = none := by
  rw [localOf_eq, labOf_rename hloc, ← localOf_eq, hloc]

theorem eq_lab_of_localOf (h : localOf i = some l) : i = .lab (.localLab l) := by
  unfold localOf at h
  split at h
  · cases h
    rfl
  · cases h

theorem labOf_of_stops (h : stops i = false) : labOf i = none := by
  cases i with
  | lab l => cases h
  | _ => rfl

theorem localOf_of_stops (h : stops i = false) : localOf i = none := by
  rw [localOf_eq, labOf_of_stops h, Option.bind_none]

theorem deadAfter_lab (h : labOf i = some k) : deadAfter dead i = false := by
  cases i with
  | lab l => cases dead <;> rfl
  | _ => cases h

theorem codeFrom_front (h : ∀ i ∈ front, stops i = false) (k : Lab) (a : List Inst) :
    codeFrom labOf k (front ++ a) = codeFrom labOf k a := by
  induction front with
  | nil => rfl
  | cons i front ih =>
    rw [cons_append, codeFrom, labOf_of_stops (h i (.head _)), if_neg (by simp)]
    exact ih fun i' hi' => h i' (.tail _ hi')

theorem codeFrom_localOf (l : Label) (a : List Inst) :
    codeFrom localOf l a = codeFrom labOf (.localLab l) a := by
  induction a with
  | nil => rfl
  | cons i a ih =>
    rw [codeFrom, codeFrom, ih]
    cases i with
    | lab k => cases k <;> simp [localOf, labOf]
    | _ => rfl

/-- Two texts have a label at corresponding places, or both do not have it. -/
def SameLab (E : Edit) (k : Lab) (a b : List Inst) : Prop :=
  (codeFrom labOf k a = none ∧ codeFrom labOf k b = none) ∨
    ∃ a' b', codeFrom labOf k a = some a' ∧ codeFrom labOf k b = some b' ∧ a' <:+ a ∧
      Rewrites E false a' b'

/-- In front of two texts stand instructions with the same label, if they have one. -/
theorem SameLab.cons (hlab : labOf i' = labOf i)
    (hrest : ∀ k', labOf i = some k' → Rewrites E false a b) (h : SameLab E k a b) :
    SameLab E k (i :: a) (i' :: b) := by
  unfold SameLab
  rw [codeFrom, codeFrom, hlab]
  split
  next heq => exact Or.inr ⟨a, b, rfl, rfl, suffix_cons i a, hrest k heq⟩
  next hne =>
    rcases h with hnone | ⟨a', b', ha, hb, hsuffix, hab⟩
    · exact Or.inl hnone
    · exact Or.inr ⟨a', b', ha, hb, hsuffix.trans (suffix_cons i a), hab⟩

theorem SameLab.left (front : List Inst) (h : SameLab E k a b)
    (hfront : ∀ a, codeFrom labOf k (front ++ a) = codeFrom labOf k a) :
    SameLab E k (front ++ a) b := by
  unfold SameLab
  rw [hfront]
  rcases h with hnone | ⟨a', b', ha, hb, hsuffix, hab⟩
  · exact Or.inl hnone
  · exact Or.inr ⟨a', b', ha, hb, hsuffix.trans (suffix_append front a), hab⟩

theorem SameLab.right (hi : labOf i = none) (h : SameLab E k a b) : SameLab E k a (i :: b) := by
  unfold SameLab
  rw [codeFrom.eq_2, hi, if_neg (by simp)]
  exact h

/-- A label that is not dropped stands before corresponding code, if it stands anywhere. -/
theorem Rewrites.sameLab (hk : ∀ l, k = .localLab l → ¬ E.dropped l) (h : Rewrites E dead a b) :
    SameLab E k a b := by
  induction h with
  | nil => exact Or.inl ⟨rfl, rfl⟩
  | @keep dead i a b hloc _ hrest ih =>
    refine SameLab.cons (labOf_rename hloc _) (fun k' hk' => ?_) ih
    rw [deadAfter_lab hk'] at hrest
    exact hrest
  | keepLab _ hrest ih => exact SameLab.cons rfl (fun _ _ => hrest) ih
  | @dropLab dead l a b hl _ ih =>
    have hne : labOf (.lab (.localLab l)) ≠ some k := by
      intro heq
      exact hk l (Option.some.inj heq).symm hl
    exact SameLab.left [_] ih fun a => if_neg hne
  | dropDead _ hi _ ih =>
    refine SameLab.left [_] ih fun a => codeFrom_front ?_ k a
    intro i' hi'
    rw [mem_singleton.1 hi']
    exact hi
  | @dropJump l front a b _ _ _ hfront hrest ih =>
    exact SameLab.left (_ :: front) ih fun a => codeFrom_front hfront k a
  | invertJump _ _ _ hrest ih =>
    refine SameLab.left [_, _] (SameLab.right rfl ?_) fun a => rfl
    exact SameLab.cons rfl (fun _ _ => hrest) ih
  | once _ ih => exact SameLab.left [_] ih fun a => rfl
  | padLab _ hrest ih => exact SameLab.right rfl (SameLab.cons rfl (fun _ _ => hrest) ih)

theorem labelsIn_front (h : ∀ i ∈ front, stops i = false) : labelsIn localOf front = [] := by
  induction front with
  | nil => rfl
  | cons i front ih =>
    rw [labelsIn_cons, localOf_of_stops (h i (.head _)), ih fun i' hi' => h i' (.tail _ hi')]
    rfl

/-- The labels that are left stand in their order. -/
theorem Rewrites.labels_sublist (h : Rewrites E dead a b) :
    (labelsIn localOf b).Sublist (labelsIn localOf a) := by
  induction h with
  | nil => exact .slnil
  | keep hloc _ _ ih =>
    rw [labelsIn_cons, labelsIn_cons, localOf_rename hloc, hloc]
    exact ih
  | keepLab _ _ ih | invertJump _ _ _ _ ih | padLab _ _ ih => exact ih.cons_cons _
  | dropLab _ _ ih => exact ih.cons _
  | dropDead _ hi _ ih =>
    rw [labelsIn_cons, localOf_of_stops hi]
    exact ih
  | dropJump _ _ _ hfront _ ih =>
    rw [labelsIn_cons localOf, labelsIn_append, labelsIn_front hfront]
    exact ih
  | once _ ih => exact ih

theorem Rewrites.not_dropped (h : Rewrites E dead a b) (hl : l ∈ labelsIn localOf b) :
    ¬ E.dropped l := by
  induction h with
  | nil => cases hl
  | keep hloc _ _ ih =>
    rw [labelsIn_cons, localOf_rename hloc] at hl
    exact ih hl
  | keepLab hkept _ ih | invertJump _ _ hkept _ ih | padLab hkept _ ih =>
    rcases mem_cons.1 hl with rfl | hl
    · exact hkept
    · exact ih hl
  | dropLab _ _ ih | dropDead _ _ _ ih | dropJump _ _ _ _ _ ih | once _ ih => exact ih hl

/-- The local labels that a text refers to. -/
def refsIn (a : List Inst) : List Label := a.flatMap localRefs

theorem refsIn_cons (i : Inst) (a : List Inst) : refsIn (i :: a) = localRefs i ++ refsIn a := rfl

theorem localRefs_jcc_rename (ρ : Label → Label) (cond : Cond) (l : Lab) :
    localRefs (.jcc cond (renameLab ρ l)) = (localRefs (.jmp (.L l))).map ρ :=
  filterMap_renameLab ρ [l]

theorem eq_of_mem_localRefs_jmp (h : l ∈ localRefs (.jmp (.L k))) : k = .localLab l := by
  cases k with
  | localLab l' => rw [mem_singleton.1 h]
  | _ => cases h

/-- The edited text refers to renamed labels that the text may refer to. -/
theorem Rewrites.refs (h : Rewrites E dead a b) (hl' : l' ∈ refsIn b) :
    ∃ l, (E.live l ∨ E.dead l) ∧ l' = E.ρ l := by
  induction h with
  | nil => cases hl'
  | @keep dead i a b _ hrefs _ ih =>
    rw [refsIn_cons, mem_append, localRefs_rename] at hl'
    rcases hl' with hl' | hl'
    · obtain ⟨l, hl, rfl⟩ := mem_map.1 hl'
      refine ⟨l, ?_, rfl⟩
      specialize hrefs l hl
      split at hrefs
      · exact Or.inr hrefs
      · exact Or.inl hrefs
    · exact ih hl'
  | keepLab _ _ ih | dropLab _ _ ih | dropDead _ _ _ ih | dropJump _ _ _ _ _ ih | once _ ih
  | padLab _ _ ih => exact ih hl'
  | @invertJump dead cond inverted l l2 a b _ hlive _ _ ih =>
    rw [refsIn_cons, mem_append] at hl'
    rcases hl' with hl' | hl'
    · rw [localRefs_jcc_rename, mem_map] at hl'
      obtain ⟨l, hl, rfl⟩ := hl'
      exact ⟨l, Or.inl (hlive l (eq_of_mem_localRefs_jmp hl)), rfl⟩
    · exact ih hl'

/-- Every local label that is referred to is defined. -/
def Closed (a : List Inst) : Prop := ∀ l ∈ refsIn a, l ∈ labelsIn localOf a

theorem mem_labelsIn_iff :
    l ∈ labelsIn localOf a ↔ ∃ c, codeFrom labOf (.localLab l) a = some c := by
  induction a with
  | nil => simp [codeFrom]
  | cons i a ih =>
    rw [labelsIn_cons, mem_append, ih, codeFrom]
    cases i with
    | lab k =>
      cases k with
      | localLab l' =>
        by_cases heq : l' = l
        · simp [heq, localOf, labOf]
        · simp [heq, Ne.symm heq, localOf, labOf]
      | _ => simp [localOf, labOf]
    | _ => simp [localOf, labOf]

theorem Rewrites.mem_labels (h : Rewrites E dead a b) (hkept : ¬ E.dropped l) :
    l ∈ labelsIn localOf b ↔ l ∈ labelsIn localOf a := by
  have hlab : ∀ l', Lab.localLab l = .localLab l' → ¬ E.dropped l' := by
    intro l' heq
    cases heq
    exact hkept
  rw [mem_labelsIn_iff, mem_labelsIn_iff]
  rcases h.sameLab hlab with ⟨ha, hb⟩ | ⟨a', b', ha, hb, -⟩
  · rw [ha, hb]
  · rw [ha, hb]
    simp

/-- After an edit every label that is referred to is defined. -/
theorem Rewrites.closed (h : Rewrites E dead a b)
    (hrefs : ∀ l, E.live l ∨ E.dead l → E.ρ l ∈ labelsIn localOf a ∧ ¬ E.dropped (E.ρ l)) :
    Closed b := by
  intro l' hl'
  obtain ⟨l, hl, rfl⟩ := h.refs hl'
  obtain ⟨hmem, hkept⟩ := hrefs l hl
  exact (h.mem_labels hkept).2 hmem

/-- An edit that does not cut keeps every reference, but for a conditional jump to a label that
follows. -/
theorem Rewrites.refs_kept (h : Rewrites E dead a b) (hcuts : ¬ E.cuts)
    (hfixed : ∀ l, ¬ E.dropped l → E.ρ l = l) (hl : l ∈ refsIn a) :
    E.ρ l ∈ refsIn b ∨ E.ρ l ∈ labelsIn localOf b := by
  induction h with
  | nil => cases hl
  | keep hloc _ _ ih =>
    rw [refsIn_cons, mem_append] at hl
    rw [refsIn_cons, mem_append, localRefs_rename, labelsIn_cons, localOf_rename hloc]
    rcases hl with hl | hl
    · exact Or.inl (Or.inl (mem_map_of_mem hl))
    · exact (ih hl).imp Or.inr id
  | keepLab _ _ ih | padLab _ _ ih => exact (ih hl).imp id (mem_cons_of_mem _)
  | dropLab _ _ ih | once _ ih => exact ih hl
  | dropDead hyes | dropJump hyes => exact absurd hyes hcuts
  | @invertJump dead cond inverted l' l2 a b _ _ hkept _ ih =>
    rw [refsIn_cons, refsIn_cons, mem_append, mem_append] at hl
    rw [refsIn_cons, mem_append, localRefs_jcc_rename]
    rcases hl with hl | hl | hl
    · rw [mem_singleton.1 hl, hfixed l' hkept]
      exact Or.inr (.head _)
    · exact Or.inl (Or.inl (mem_map_of_mem hl))
    · exact (ih hl).imp Or.inr (mem_cons_of_mem _)

/-- The instructions that do not stand between a jump to a local label and the next stop, where
some labels do not count. -/
def liveCode (sent : Label → Bool) : Bool → List Inst → List Inst
  | _, [] => []
  | dead, .lab (.localLab l) :: is =>
    if sent l then liveCode sent dead is
    else .lab (.localLab l) :: liveCode sent false is
  | dead, i :: is =>
    if dead && !stops i then liveCode sent true is
    else i :: liveCode sent (deadAfter dead i) is

theorem liveCode_cons (hloc : localOf i = none) :
    liveCode sent dead (i :: is) =
      if dead && !stops i then liveCode sent true is
      else i :: liveCode sent (deadAfter dead i) is := by
  rw [liveCode]
  rintro l rfl
  cases hloc

/-- A label is referred to by an instruction that does not stand behind a jump. -/
def LiveRef (sent : Label → Bool) (dead : Bool) (a : List Inst) (l : Label) : Prop :=
  ∃ i ∈ liveCode sent dead a, l ∈ localRefs i

theorem liveRef_cons (hloc : localOf i = none) :
    LiveRef sent dead (i :: a) l ↔
      ((dead && !stops i) = false ∧ l ∈ localRefs i) ∨ LiveRef sent (deadAfter dead i) a l := by
  unfold LiveRef
  rw [liveCode_cons hloc]
  cases hdead : dead && !stops i with
  | true => simp [deadAfter, hdead]
  | false => simp

theorem liveRef_lab :
    LiveRef sent dead (.lab (.localLab l') :: a) l ↔ LiveRef sent (dead && sent l') a l := by
  unfold LiveRef
  rw [liveCode]
  cases sent l' with
  | true => simp
  | false => simp [localRefs]

theorem LiveRef.ahead (h : LiveRef sent dead a l) : LiveRef sent false a l := by
  induction a generalizing dead with
  | nil =>
    obtain ⟨i, hi, -⟩ := h
    cases hi
  | cons i a ih =>
    cases hloc : localOf i with
    | none =>
      rw [liveRef_cons hloc] at h ⊢
      rcases h with ⟨-, hl⟩ | hrest
      · exact Or.inl ⟨rfl, hl⟩
      · right
        cases hjump : isJump i with
        | true =>
          simp only [deadAfter, hjump, Bool.true_or] at hrest ⊢
          exact hrest
        | false =>
          have hafter : deadAfter false i = false := by simp [deadAfter, hjump]
          rw [hafter]
          exact ih hrest
    | some l' =>
      rw [eq_lab_of_localOf hloc, liveRef_lab] at h ⊢
      exact ih h

theorem stops_rename (ρ : Label → Label) (i : Inst) : stops (rename ρ i) = stops i := by
  cases i <;> rfl

theorem deadAfter_rename (ρ : Label → Label) (dead : Bool) (i : Inst) :
    deadAfter dead (rename ρ i) = deadAfter dead i := by
  have hjump : isJump (rename ρ i) = isJump i := by
    cases i with
    | jmp ea =>
      cases ea with
      | L l => cases l <;> rfl
      | _ => rfl
    | _ => rfl
  rw [deadAfter, deadAfter, hjump, stops_rename]

theorem liveRef_front (hfront : ∀ i ∈ front, stops i = false)
    (h : LiveRef sent true (front ++ a) l) :
    LiveRef sent true a l := by
  induction front with
  | nil => exact h
  | cons i front ih =>
    have hi := hfront i (.head _)
    rw [cons_append, liveRef_cons (localOf_of_stops hi), hi] at h
    rcases h with ⟨hlive, -⟩ | h
    · cases hlive
    · apply ih fun i' hi' => hfront i' (.tail _ hi')
      simpa [deadAfter, hi] using h

/-- What live code refers to live code refers to after the edit, or the label stands there. -/
theorem Rewrites.liveRefs (h : Rewrites E dead a b) (hsent : ∀ l, sent l = true ↔ E.dropped l)
    (hfixed : ∀ l, ¬ E.dropped l → E.ρ l = l) (hl : LiveRef sent dead a l) :
    LiveRef (fun _ => false) dead b (E.ρ l) ∨ E.ρ l ∈ labelsIn localOf b := by
  have hkeeps : ∀ l, ¬ E.dropped l → sent l = false := fun l hl =>
    Bool.eq_false_iff.2 fun htrue => hl ((hsent l).1 htrue)
  induction h with
  | nil =>
    obtain ⟨i, hi, -⟩ := hl
    cases hi
  | @keep dead i a b hloc _ _ ih =>
    rw [liveRef_cons hloc] at hl
    rw [liveRef_cons (localOf_rename hloc _), stops_rename, deadAfter_rename, localRefs_rename,
      labelsIn_cons, localOf_rename hloc]
    rcases hl with ⟨hlive, hl⟩ | hl
    · exact Or.inl (Or.inl ⟨hlive, mem_map_of_mem hl⟩)
    · exact (ih hl).imp Or.inr id
  | @keepLab dead l' a b hkept _ ih =>
    rw [liveRef_lab, hkeeps l' hkept, Bool.and_false] at hl
    rw [liveRef_lab, Bool.and_false]
    exact (ih hl).imp id (mem_cons_of_mem _)
  | @dropLab dead l' a b hdrop _ ih =>
    rw [liveRef_lab, (hsent l').2 hdrop, Bool.and_true] at hl
    exact ih hl
  | @dropDead i a b _ hi _ ih =>
    rw [liveRef_cons (localOf_of_stops hi), hi] at hl
    rcases hl with ⟨hlive, -⟩ | hl
    · cases hlive
    · apply ih
      simpa [deadAfter, hi] using hl
  | @dropJump l' front a b _ _ hkept hfront hrest ih =>
    rw [liveRef_cons rfl] at hl
    rcases hl with ⟨-, hl⟩ | hl
    · rw [mem_singleton.1 hl]
      exact Or.inr ((hrest.mem_labels hkept).2 (.head _))
    · exact ih (liveRef_front hfront hl).ahead
  | @invertJump dead cond inverted l' l2 a b _ _ hkept _ ih =>
    rw [liveRef_cons rfl, liveRef_cons rfl, liveRef_lab, hkeeps l' hkept, Bool.and_false] at hl
    rw [liveRef_cons rfl, liveRef_lab, Bool.and_false, localRefs_jcc_rename]
    rcases hl with ⟨-, hl⟩ | ⟨hlive, hl⟩ | hl
    · rw [mem_singleton.1 hl, hfixed l' hkept]
      exact Or.inr (.head _)
    · refine Or.inl (Or.inl ⟨?_, mem_map_of_mem hl⟩)
      cases dead with
      | true => cases hlive
      | false => rfl
    · exact (ih hl).imp Or.inr (mem_cons_of_mem _)
  | @once dead r a b _ ih =>
    have hafter : deadAfter dead (setOne r) = dead := by cases dead <;> rfl
    rw [liveRef_cons rfl, hafter] at hl
    rcases hl with ⟨-, hl⟩ | hl
    · cases hl
    · exact ih hl
  | @padLab dead l' s a b hkept _ ih =>
    rw [liveRef_lab, hkeeps l' hkept, Bool.and_false] at hl
    rw [liveRef_cons rfl, liveRef_lab, Bool.and_false]
    exact (ih hl).imp Or.inr (mem_cons_of_mem _)

/-- What live code refers to after the edit is the new name of what live code may refer to. -/
theorem Rewrites.live_of_liveRef (h : Rewrites E dead a b)
    (hl' : LiveRef (fun _ => false) dead b l') : ∃ l, E.live l ∧ l' = E.ρ l := by
  induction h with
  | nil =>
    obtain ⟨i, hi, -⟩ := hl'
    cases hi
  | @keep dead i a b hloc hrefs _ ih =>
    rw [liveRef_cons (localOf_rename hloc _), stops_rename, deadAfter_rename,
      localRefs_rename] at hl'
    rcases hl' with ⟨hlive, hl'⟩ | hl'
    · obtain ⟨l, hl, rfl⟩ := mem_map.1 hl'
      specialize hrefs l hl
      rw [hlive, if_neg Bool.false_ne_true] at hrefs
      exact ⟨l, hrefs, rfl⟩
    · exact ih hl'
  | keepLab _ _ ih =>
    rw [liveRef_lab, Bool.and_false] at hl'
    exact ih hl'
  | dropLab _ _ ih | dropDead _ _ _ ih | dropJump _ _ _ _ _ ih | once _ ih => exact ih hl'
  | @invertJump dead cond inverted l l2 a b _ hlive _ _ ih =>
    rw [liveRef_cons rfl, liveRef_lab, Bool.and_false, localRefs_jcc_rename] at hl'
    rcases hl' with ⟨-, hl'⟩ | hl'
    · obtain ⟨l, hl, rfl⟩ := mem_map.1 hl'
      exact ⟨l, hlive l (eq_of_mem_localRefs_jmp hl), rfl⟩
    · exact ih hl'
  | padLab _ _ ih =>
    rw [liveRef_cons rfl, liveRef_lab, Bool.and_false] at hl'
    rcases hl' with ⟨-, hl'⟩ | hl'
    · cases hl'
    · exact ih hl'

end Labels

end MLKit.X64.InstsX64
