import MLKit.X64.JumpTargets

/-!
# The passes as edits

Each pass of `opt` is an edit of its text. The passes collect their result in reverse, so that each
statement says what is added to the accumulator.
-/

namespace MLKit.X64.InstsX64

open MLKit.Lib List Bool

/-- What a pass appends to its accumulator is an edit of the text. -/
def Appends (E : Edit) (dead : Bool) (is acc result : List Inst) : Prop :=
  ∃ b, result = acc.reverse ++ b ∧ Rewrites E dead is b

variable {E : Edit} {dead dead' : Bool} {acc is is' result a b a' C C' : List Inst} {im : LabelMap}
  {live refs : Label → Prop} {sent : Label → Bool} {cuts : Prop} {l : Label} {r : Reg} {l1 l2 : Lab}
  {usedLabs : List Label} {i : Inst} {s : String}

section

theorem Appends.nil : Appends E dead [] acc acc.reverse := ⟨[], (append_nil _).symm, .nil⟩

/-- The same instructions are put on the accumulator first. -/
theorem Appends.prepend (added : List Inst) (h : Appends E dead is (added ++ acc) result)
    (hstep : ∀ b, Rewrites E dead is b → Rewrites E dead' is' (added.reverse ++ b)) :
    Appends E dead' is' acc result := by
  obtain ⟨b, rfl, hrewrites⟩ := h
  exact ⟨added.reverse ++ b, by simp, hstep b hrewrites⟩

end

/-- The edit of `elim_jmp_jmp`. -/
def elimEdit (im : LabelMap) (live : Label → Prop) : Edit where
  ρ l := (imLook im l).getD l
  dropped l := imLook im l ≠ none
  live := live
  dead _ := True
  cuts := False

theorem labSubst_eq :
    labSubst im = renameLab (elimEdit im live).ρ := by
  funext l
  cases l with
  | localLab l =>
    simp only [labSubst, renameLab, elimEdit]
    cases imLook im l <;> rfl
  | _ => rfl

theorem elimLoop_cons (hloc : localOf i = none) :
    elimLoop im (i :: is) acc = elimLoop im is (onI id (labSubst im) i :: acc) := by
  rw [elimLoop]
  rintro l rfl
  cases hloc

theorem elimLoop_appends (hsent : ∀ l, sent l = true ↔ imLook im l ≠ none) (dead : Bool)
    (is acc : List Inst) (hlive : ∀ l, LiveRef sent dead is l → live l) :
    Appends (elimEdit im live) dead is acc (elimLoop im is acc) := by
  induction is generalizing dead acc with
  | nil => exact .nil
  | cons i is ih =>
    cases hloc : localOf i with
    | some l =>
      rw [eq_lab_of_localOf hloc] at hlive ⊢
      simp only [liveRef_lab] at hlive
      rw [elimLoop]
      cases hlook : imLook im l with
      | some l' =>
        have hdrop : imLook im l ≠ none := by rw [hlook]; nofun
        rw [(hsent l).2 hdrop, Bool.and_true] at hlive
        apply (ih dead acc hlive).prepend []
        intro b hrewrites
        exact .dropLab hdrop hrewrites
      | none =>
        have hkept : ¬ (elimEdit im live).dropped l := fun hdrop => hdrop hlook
        have hfalse : sent l = false := eq_false_iff.2 fun htrue => hkept ((hsent l).1 htrue)
        rw [hfalse, Bool.and_false] at hlive
        apply (ih false (.lab (.localLab l) :: acc) hlive).prepend [_]
        intro b hrewrites
        exact .keepLab hkept hrewrites
    | none =>
      simp only [liveRef_cons hloc] at hlive
      rw [elimLoop_cons hloc, labSubst_eq]
      apply (ih _ _ fun l hl => hlive l (Or.inr hl)).prepend [_]
      intro b hrewrites
      apply Rewrites.keep hloc _ hrewrites
      intro l hl
      split
      · trivial
      next hdead => exact hlive l (Or.inl ⟨eq_false_iff.2 hdead, hl⟩)

/-- An edit that does not rename. -/
def plainEdit (refs dropped : Label → Prop) (cuts : Prop) : Edit where
  ρ := id
  dropped := dropped
  live := refs
  dead := refs
  cuts := cuts

section

variable {refs dropped : Label → Prop}

theorem Rewrites.keepPlain (hrefs : ∀ l ∈ localRefs i, refs l)
    (hkept : ∀ l, localOf i = some l → ¬ dropped l)
    (h : Rewrites (plainEdit refs dropped cuts) (deadAfter dead i) a b) :
    Rewrites (plainEdit refs dropped cuts) dead (i :: a) (i :: b) := by
  cases hloc : localOf i with
  | some l =>
    have hi := eq_lab_of_localOf hloc
    rw [hi, deadAfter_lab rfl] at h
    rw [hi]
    exact .keepLab (hkept l hloc) h
  | none =>
    have hkeep := Rewrites.keep hloc (fun l hl => by split <;> exact hrefs l hl) h
    rwa [show (plainEdit refs dropped cuts).ρ = id from rfl, rename_id] at hkeep

theorem Appends.keep (hkept : ∀ l, localOf i = some l → ¬ dropped l)
    (hrefs : ∀ l ∈ refsIn (i :: is), refs l)
    (h : (∀ l ∈ refsIn is, refs l) →
      Appends (plainEdit refs dropped cuts) (deadAfter dead i) is (i :: acc) result) :
    Appends (plainEdit refs dropped cuts) dead (i :: is) acc result := by
  apply (h fun l hl => hrefs l (mem_append_right _ hl)).prepend [_]
  intro b hrewrites
  exact .keepPlain (fun l hl => hrefs l (mem_append_left _ hl)) hkept hrewrites

end

/-- What begins with a comment is edited as what follows. -/
theorem Rewrites.comment_tail (h : Rewrites E dead (.comment s :: a) b)
    (htail : ∀ b', Rewrites E dead a b' → Rewrites E true a' b') :
    Rewrites E true (.comment s :: a') b := by
  cases h with
  | @keep dead i a b _ _ hrest =>
    have hafter : deadAfter dead (.comment s) = dead := by cases dead <;> rfl
    rw [hafter] at hrest
    exact .keep rfl nofun (htail b hrest)
  | dropDead hcuts hstop hrest => exact .dropDead hcuts hstop (htail _ hrest)

/-- `rem_dead_code` cuts what stands behind a jump. -/
theorem rewrites_remDeadCode (hcuts : E.cuts) (hdead : ∀ l, E.live l → E.dead l)
    (h : Rewrites E false (remDeadCode C) b) : Rewrites E true C b := by
  induction C generalizing b with
  | nil => exact h.behind hdead
  | cons i C ih =>
    rw [remDeadCode] at h
    split at h
    · exact h.behind hdead
    next hstop =>
      split at h
      next hcomment =>
        cases i with
        | comment s => exact h.comment_tail fun b' hb' => ih hb'
        | _ => cases hcomment
      · exact .dropDead hcuts (eq_false_iff.2 hstop) (ih h)

/-- What is live after `rem_dead_code` was live behind the jump. -/
theorem liveRef_remDeadCode (h : LiveRef (fun _ => false) false (remDeadCode C) l) :
    LiveRef (fun _ => false) true C l := by
  induction C with
  | nil =>
    obtain ⟨i, hi, -⟩ := h
    cases hi
  | cons i C ih =>
    rw [remDeadCode] at h
    split at h
    next hstop =>
      cases hloc : localOf i with
      | some l' =>
        rw [eq_lab_of_localOf hloc, liveRef_lab] at h ⊢
        exact h
      | none =>
        rw [liveRef_cons hloc, deadAfter] at h ⊢
        rw [hstop]
        exact h
    next hstop =>
      have hstop' := eq_false_iff.2 hstop
      rw [liveRef_cons (localOf_of_stops hstop'), deadAfter, hstop', Bool.not_false,
        Bool.and_true, Bool.or_true]
      right
      split at h
      next hcomment =>
        cases i with
        | comment s =>
          rw [liveRef_cons rfl] at h
          rcases h with ⟨-, hl⟩ | h
          · cases hl
          · exact ih h
        | _ => cases hcomment
      · exact ih h

theorem remDeadCode_lab (h : remDeadCode C = .lab (.localLab l) :: C') :
    ∃ front, C = front ++ .lab (.localLab l) :: C' ∧ ∀ i ∈ front, stops i = false := by
  induction C with
  | nil => cases h
  | cons i C ih =>
    rw [remDeadCode] at h
    split at h
    · refine ⟨[], h, ?_⟩
      intro i' hi'
      cases hi'
    next hstop =>
      split at h
      next hcomment =>
        cases h
        cases hcomment
      · obtain ⟨front, rfl, hfront⟩ := ih h
        refine ⟨i :: front, rfl, ?_⟩
        intro i' hi'
        rcases mem_cons.1 hi' with rfl | hi'
        · exact eq_false_iff.2 hstop
        · exact hfront i' hi'

theorem eq_of_beginsWith (h : beginsWith l C = true) : ∃ C', C = .lab (.localLab l) :: C' := by
  unfold beginsWith at h
  split at h
  · exact ⟨_, by rw [of_decide_eq_true h]⟩
  · cases h

/-- The edit of `p`. -/
def peepEdit (refs : Label → Prop) : Edit := plainEdit refs (fun _ => False) True

theorem peepLoop_append : ∃ b, peepLoop is acc = acc.reverse ++ b := by
  fun_induction peepLoop is acc with
  | case1 acc => exact ⟨[], (append_nil _).symm⟩
  | case2 r is acc ih | case4 l is acc _ ih => exact ih
  | case3 r1 r2 is acc _ ih | case5 l is acc _ ih | case6 i is acc _ _ ih =>
    obtain ⟨b, hb⟩ := ih
    exact ⟨_ :: b, by rw [hb, reverse_cons, append_assoc]; rfl⟩

/-- What `p` appends begins by setting a register to one if the text does. -/
theorem peepLoop_setOne (h : is = setOne r :: is') :
    ∃ b, peepLoop is acc = acc.reverse ++ setOne r :: b := by
  fun_induction peepLoop is acc generalizing is' with
  | case1 acc | case4 | case5 => cases h
  | case2 r1 is acc ih =>
    cases h
    exact ih rfl
  | case3 | case6 =>
    cases h
    obtain ⟨b, hb⟩ := peepLoop_append
    exact ⟨b, by rw [append_cons, ← reverse_cons]; exact hb⟩

/-- Where every label counts, the live references of a text are those of its first instruction, if
it is live, and those of the rest. -/
theorem liveRef_step :
    LiveRef (fun _ => false) dead (i :: a) l ↔
      ((dead && !stops i) = false ∧ l ∈ localRefs i) ∨
        LiveRef (fun _ => false) (deadAfter dead i) a l := by
  cases hloc : localOf i with
  | none => exact liveRef_cons hloc
  | some l' =>
    rw [eq_lab_of_localOf hloc, liveRef_lab, deadAfter_lab rfl, Bool.and_false]
    constructor
    · exact Or.inr
    · rintro (⟨-, hl⟩ | h)
      · cases hl
      · exact h

theorem peepLoop_appends (is acc : List Inst)
    (hlive : ∀ l, LiveRef (fun _ => false) false is l → refs l) :
    Appends (peepEdit refs) false is acc (peepLoop is acc) := by
  fun_induction peepLoop is acc with
  | case1 acc => exact .nil
  | case2 r is acc ih =>
    obtain ⟨b, hb, hrewrites⟩ := ih fun l hl => hlive l (liveRef_step.2 (Or.inr hl))
    obtain ⟨b', hb'⟩ := peepLoop_setOne rfl
    rw [← setOne] at hb
    rw [hb'] at hb
    cases append_cancel_left hb
    exact ⟨_, hb', .once hrewrites⟩
  | case3 r1 r2 is acc hne ih =>
    apply (ih fun l hl => hlive l (liveRef_step.2 (Or.inr hl))).prepend [_]
    intro b hrewrites
    refine Rewrites.keepPlain ?_ ?_ hrewrites
    · rintro l ⟨⟩
    · rintro l ⟨⟩
  | case4 l1 is acc hbegins ih =>
    obtain ⟨C', hC'⟩ := eq_of_beginsWith hbegins
    obtain ⟨front, rfl, hfront⟩ := remDeadCode_lab hC'
    apply (ih fun l hl => hlive l (liveRef_step.2 (Or.inr (liveRef_remDeadCode hl)))).prepend []
    intro b hrewrites
    rw [hC'] at hrewrites
    apply Rewrites.dropJump trivial _ not_false hfront hrewrites
    exact hlive l1 (liveRef_step.2 (Or.inl ⟨rfl, mem_singleton.2 rfl⟩))
  | case5 l1 is acc hbegins ih =>
    apply (ih fun l hl => hlive l (liveRef_step.2 (Or.inr (liveRef_remDeadCode hl)))).prepend [_]
    intro b hrewrites
    apply Rewrites.keepPlain
    · intro l hl
      exact hlive l (liveRef_step.2 (Or.inl ⟨rfl, hl⟩))
    · rintro l ⟨⟩
    · exact rewrites_remDeadCode trivial (fun _ hl => hl) hrewrites
  | case6 i is acc h1 h2 ih =>
    have hafter : deadAfter false i = false := by
      unfold deadAfter isJump
      split
      next l => exact (h2 l rfl).elim
      · rfl
    simp only [liveRef_step, hafter] at hlive
    apply (ih fun l hl => hlive l (Or.inr hl)).prepend [_]
    intro b hrewrites
    apply Rewrites.keepPlain
    · intro l hl
      exact hlive l (Or.inl ⟨rfl, hl⟩)
    · exact fun _ _ => not_false
    · rw [hafter]
      exact hrewrites

/-- The edit of `simpl_jmp` and of `alignlabs`. -/
def keepEdit (refs : Label → Prop) : Edit := plainEdit refs (fun _ => False) False

theorem keepEdit_keep (hrefs : ∀ l ∈ localRefs i, refs l)
    (h : Rewrites (keepEdit refs) (deadAfter dead i) a b) :
    Rewrites (keepEdit refs) dead (i :: a) (i :: b) :=
  Rewrites.keepPlain hrefs (fun _ _ => not_false) h

theorem keepEdit_invert {cond inverted : Cond} (hinv : invert cond = some inverted)
    (hrefs : ∀ l', l2 = .localLab l' → refs l') (h : Rewrites (keepEdit refs) false a b) :
    Rewrites (keepEdit refs) dead
      (.jcc cond (.localLab l) :: .jmp (.L l2) :: .lab (.localLab l) :: a)
      (.jcc inverted l2 :: .lab (.localLab l) :: b) := by
  nth_rewrite 2 [← renameLab_id l2]
  exact .invertJump hinv hrefs not_false h

theorem eq_of_labEq (h : labEq l1 l2 = true) : ∃ l, l1 = .localLab l ∧ l2 = .localLab l := by
  unfold labEq at h
  split at h
  · exact ⟨_, rfl, by rw [of_decide_eq_true h]⟩
  · cases h

theorem simplJmp_appends (dead : Bool) (is acc : List Inst) (hrefs : ∀ l ∈ refsIn is, refs l) :
    Appends (keepEdit refs) dead is acc (simplJmp is acc) := by
  fun_induction simplJmp is acc generalizing dead with
  | case1 acc => exact .nil
  | case2 cond l1 l2 l3 is acc inverted hinv ih =>
    simp only [refsIn_cons, mem_append] at hrefs
    have hrest := ih false fun l hl => hrefs l (Or.inr (Or.inr (Or.inr hl)))
    simp only [dite_eq_ite] at hrest
    cases heq : labEq l1 l3 with
    | true =>
      rw [heq, if_pos rfl] at hrest
      obtain ⟨l, rfl, rfl⟩ := eq_of_labEq heq
      apply hrest.prepend [_, _]
      intro b hrewrites
      apply keepEdit_invert hinv _ hrewrites
      rintro l' rfl
      exact hrefs l' (Or.inr (Or.inl (mem_singleton.2 rfl)))
    | false =>
      rw [heq, if_neg Bool.false_ne_true] at hrest
      apply hrest.prepend [_, _, _]
      intro b hrewrites
      apply keepEdit_keep fun l hl => hrefs l (Or.inl hl)
      apply keepEdit_keep fun l hl => hrefs l (Or.inr (Or.inl hl))
      apply keepEdit_keep nofun
      rw [deadAfter_lab rfl]
      exact hrewrites
  | case3 cond l1 l2 l3 is acc hinv ih | case4 i is acc _ ih =>
    exact .keep (fun _ _ => not_false) hrefs (ih _)

/-- The edit of `rem_unused_labs`. -/
def unusedEdit (usedLabs : List Label) (refs : Label → Prop) : Edit :=
  plainEdit refs (· ∉ usedLabs) False

theorem remUnusedLabs_appends (dead : Bool) (is acc : List Inst) (hrefs : ∀ l ∈ refsIn is, refs l) :
    Appends (unusedEdit usedLabs refs) dead is acc (remUnusedLabs usedLabs is acc) := by
  fun_induction remUnusedLabs usedLabs is acc generalizing dead with
  | case1 acc => exact .nil
  | case2 l is acc ih =>
    split at ih
    next hused =>
      rw [if_pos hused]
      apply (ih false hrefs).prepend [_]
      intro b hrewrites
      exact .keepLab (fun hdrop => hdrop hused) hrewrites
    next hunused =>
      rw [if_neg hunused]
      apply (ih dead hrefs).prepend []
      intro b hrewrites
      exact .dropLab hunused hrewrites
  | case3 i is acc hnot ih =>
    exact .keep (fun l hl => (hnot l (eq_lab_of_localOf hl)).elim) hrefs (ih _)

theorem alignLoop_appends (dead : Bool) (is acc : List Inst) (hrefs : ∀ l ∈ refsIn is, refs l) :
    Appends (keepEdit refs) dead is acc (alignLoop is acc) := by
  fun_induction alignLoop is acc generalizing dead with
  | case1 acc => exact .nil
  | case2 q l is acc ih =>
    apply (ih false hrefs).prepend [_, _]
    intro b hrewrites
    apply keepEdit_keep nofun
    apply keepEdit_keep nofun
    rw [deadAfter_lab rfl]
    exact hrewrites
  | case3 l is acc ih =>
    apply (ih false hrefs).prepend [_, _]
    intro b hrewrites
    exact .padLab not_false hrewrites
  | case4 i is acc _ _ ih => exact .keep (fun _ _ => not_false) hrefs (ih _)

end MLKit.X64.InstsX64
