import MLKit.X64.JumpEdits

/-!
# Edits keep runs

Control stands at corresponding places of the two texts, or both are about to jump. From there it
comes silently to the same event. The induction is on the number of jumps in the text that is run,
and between two jumps on the edit.
-/

namespace MLKit.X64.InstsX64

open MLKit.Lib List

/-- From two places of a text control comes to the same event, from the second one with no more
jumps than from the first one. -/
structure Joined (P c c' : List Inst) : Prop where
  ahead : ∀ {k d}, Lands P k c d → ∃ k' ≤ k, Lands P k' c' d
  back : ∀ {k d}, Lands P k c' d → ∃ k', Lands P k' c d

theorem Joined.refl (P c : List Inst) : Joined P c c where
  ahead h := ⟨_, Nat.le_refl _, h⟩
  back h := ⟨_, h⟩

variable {P c c1 c2 d' c' b x y : List Inst} {l : Label} {k' : Nat} {es es' : List Event} {i j : Inst}
  {r : Reg} {kind' : Kind} {e e' : Event} {inverted : Cond} {l2 : Lab}

theorem Joined.trans (h1 : Joined P c c1) (h2 : Joined P c1 c2) : Joined P c c2 where
  ahead h := by
    obtain ⟨k1, hk1, h⟩ := h1.ahead h
    obtain ⟨k2, hk2, h⟩ := h2.ahead h
    exact ⟨k2, Nat.le_trans hk2 hk1, h⟩
  back h := by
    obtain ⟨k1, h⟩ := h2.back h
    exact h1.back h

variable {a d : List Inst} {k : Nat}

section

variable (h : Lands P k (i :: a) d)

include h

theorem Lands.eq_of_seen (hseen : (kind i).seen = true) : d = i :: a := by
  cases h with
  | here => rfl
  | skip hkind | jump hkind =>
    rw [hkind] at hseen
    cases hseen

theorem Lands.of_silent (hkind : kind i = .silent) : Lands P k a d := by
  cases h with
  | here hseen =>
    rw [hkind] at hseen
    cases hseen
  | skip _ h => exact h
  | jump hjump => cases hkind.symm.trans hjump

theorem Lands.of_jump (hkind : kind i = .jump l) :
    ∃ k' c, k = k' + 1 ∧ codeFrom localOf l P = some c ∧ Lands P k' c d := by
  cases h with
  | here hseen =>
    rw [hkind] at hseen
    cases hseen
  | skip hsilent => cases hkind.symm.trans hsilent
  | jump hjump hc h =>
    cases hkind.symm.trans hjump
    exact ⟨_, _, rfl, hc, h⟩

end

theorem Joined.skip (hkind : kind i = .silent) : Joined P (i :: a) a where
  ahead h := ⟨_, Nat.le_refl _, h.of_silent hkind⟩
  back h := ⟨_, .skip hkind h⟩

theorem Joined.unskip (hkind : kind i = .silent) : Joined P a (i :: a) where
  ahead h := ⟨_, Nat.le_refl _, .skip hkind h⟩
  back h := ⟨_, h.of_silent hkind⟩

theorem Joined.jump (hkind : kind i = .jump l) (hc : codeFrom localOf l P = some c) :
    Joined P (i :: a) c where
  ahead h := by
    obtain ⟨k', c', rfl, hc', h⟩ := h.of_jump hkind
    cases hc.symm.trans hc'
    exact ⟨k', Nat.le_succ k', h⟩
  back h := ⟨_, .jump hkind hc h⟩

/-- A place where control has come silently is where it stays. -/
theorem Lands.unique_end (h : Lands P k a d) (h' : Lands P k' d d') : d' = d := by
  induction h with
  | nil =>
    cases h'
    rfl
  | here hseen => exact h'.eq_of_seen hseen
  | skip _ _ ih | jump _ _ _ ih => exact ih h'

/-- A run is one from every place from where control comes to the same event. -/
theorem Runs.mono (h : ∀ {k d}, Lands P k c d → ∃ k', Lands P k' c' d) (hruns : Runs P c es) :
    Runs P c' es := by
  cases hruns with
  | nil => exact .nil
  | last hland hemit =>
    obtain ⟨_, hland⟩ := h hland
    exact .last hland hemit
  | step hland hemit hrest =>
    obtain ⟨_, hland⟩ := h hland
    exact .step hland hemit hrest

theorem Runs.of_lands (hland : Lands P k a d) (h : Runs P d es) : Runs P a es :=
  h.mono fun hd => ⟨k, hland.unique_end hd ▸ hland⟩

theorem Joined.runs_iff (h : Joined P c c') : Runs P c es ↔ Runs P c' es := by
  refine ⟨Runs.mono fun hland => ?_, Runs.mono h.back⟩
  obtain ⟨k', -, hland⟩ := h.ahead hland
  exact ⟨k', hland⟩

/-- An edit of a text whose local labels are defined once, after which every label that live code
refers to is found where it was. -/
structure Edited (E : Edit) (P Q : List Inst) : Prop where
  text : Rewrites E false P Q
  nodup : (labelsIn localOf P).Nodup
  target : ∀ l, E.live l → ¬ E.dropped (E.ρ l) ∧ ∃ c c', codeFrom localOf l P = some c ∧
    codeFrom localOf (E.ρ l) P = some c' ∧ Joined P c c'

variable {E : Edit} {Q : List Inst}

section

/-- Corresponding places in the two texts. -/
inductive Places (E : Edit) (P : List Inst) : List Inst → List Inst → Prop where
  | text {a b : List Inst} : a <:+ P → Rewrites E false a b → Places E P a b
  | jump {l : Lab} {a b : List Inst} : (∀ l', l = .localLab l' → E.live l') →
      Places E P (.jmp (.L l) :: a) (.jmp (.L (renameLab E.ρ l)) :: b)
  | reached {l : Label} {k : Lab} {x a b : List Inst} : codeFrom localOf l P = some a →
      a <:+ P → Rewrites E false a b →
      Places E P (.jmp (.L (.localLab l)) :: x) (.lab k :: b)

/-- Corresponding places where control has come silently. -/
inductive Landed (E : Edit) (P : List Inst) : List Inst → List Inst → Prop where
  | nil : Landed E P [] []
  | same {i : Inst} {a b : List Inst} : (kind i).seen = true → (∀ l ∈ localRefs i, E.live l) →
      a <:+ P → Rewrites E false a b → Landed E P (i :: a) (rename E.ρ i :: b)
  | leave {i : Inst} {a b : List Inst} : kind i = .leave → Landed E P (i :: a) (rename E.ρ i :: b)
  | invertJump {cond inverted : Cond} {l : Label} {l2 : Lab} {a b : List Inst} :
      invert cond = some inverted → (∀ l', l2 = .localLab l' → E.live l') →
      codeFrom localOf l P = some a → a <:+ P → Rewrites E false a b →
      Landed E P (.jcc cond (.localLab l) :: .jmp (.L l2) :: .lab (.localLab l) :: a)
        (.jcc inverted (renameLab E.ρ l2) :: .lab (.localLab l) :: b)
  | once {r : Reg} {a b : List Inst} : setOne r :: a <:+ P →
      Rewrites E false (setOne r :: a) (setOne r :: b) →
      Landed E P (setOne r :: a) (setOne r :: b) →
      Landed E P (setOne r :: setOne r :: a) (setOne r :: b)

theorem Edited.target_rewrites (h : Edited E P Q) (hl : E.live l) :
    ∃ c c' b, codeFrom localOf l P = some c ∧ Joined P c c' ∧
      codeFrom localOf (E.ρ l) Q = some b ∧ c' <:+ P ∧ Rewrites E false c' b := by
  obtain ⟨hkept, c, c', hc, hc', hjoin⟩ := h.target l hl
  have hlab : ∀ l', Lab.localLab (E.ρ l) = .localLab l' → ¬ E.dropped l' := by
    intro l' heq
    cases heq
    exact hkept
  rw [codeFrom_localOf] at hc'
  rcases h.text.sameLab hlab with ⟨hnone, -⟩ | ⟨c1, b, hc1, hb, hsuffix, hrest⟩
  · rw [hnone] at hc'
    cases hc'
  · rw [hc1] at hc'
    cases hc'
    rw [codeFrom_localOf (E.ρ l)]
    exact ⟨c, _, b, hc, hjoin, hb, hsuffix, hrest⟩

section

variable (ρ : Label → Label)

include ρ

theorem seen_rename : (kind (rename ρ i)).seen = true ↔ (kind i).seen = true := by
  rw [kind_rename]
  cases kind i <;> exact Iff.rfl

/-- Instructions that name no label keep their kind. -/
theorem kind_rename_iff (hk : kind' = .silent ∨ kind' = .pass ∨ kind' = .leave) :
    kind (rename ρ i) = kind' ↔ kind i = kind' := by
  rw [kind_rename]
  rcases hk with rfl | rfl | rfl <;> cases kind i <;> simp [Kind.rename]

theorem test_rename (i : Inst) (cond : Cond) (l' : Lab) :
    kind (rename ρ i) = .test cond l' ↔ ∃ l, kind i = .test cond l ∧ l' = renameLab ρ l := by
  rw [kind_rename]
  cases kind i <;> simp [Kind.rename, eq_comm]

theorem jump_rename (i : Inst) (l' : Label) :
    kind (rename ρ i) = .jump l' ↔ ∃ l, kind i = .jump l ∧ l' = ρ l := by
  rw [kind_rename]
  cases kind i <;> simp [Kind.rename, eq_comm]

end

theorem deadAfter_of_kind (h : ∀ l, kind i ≠ .jump l) : deadAfter false i = false := by
  rw [deadAfter, isJump.eq_def]
  split
  · exact absurd rfl (h _)
  · rfl

theorem deadAfter_of_seen (h : (kind i).seen = true) : deadAfter false i = false := by
  apply deadAfter_of_kind
  intro l hjump
  rw [hjump] at h
  cases h

theorem mem_localRefs_of_jump (h : kind i = .jump l) : l ∈ localRefs i := by
  rw [kind.eq_def] at h
  split at h <;> cases h
  exact mem_singleton.2 rfl

/-- In the same code behind a jump a label stands where a jump to it goes. -/
theorem Edited.codeFrom_text (h : Edited E P Q) (front : List Inst)
    (hsuffix : front ++ .lab (.localLab l) :: a <:+ P) :
    codeFrom localOf l P = some a ∧ a <:+ P := by
  have hlab : .lab (.localLab l) :: a <:+ P := (suffix_append front _).trans hsuffix
  exact ⟨codeFrom_of_suffix h.nodup rfl hlab, (suffix_cons _ a).trans hlab⟩

/-- Control comes to the same event in both texts, or is about to jump to the same label. -/
def Settles (E : Edit) (P Q a b : List Inst) : Prop :=
  ∃ x y, Joined P a x ∧ Joined Q b y ∧ (Landed E P x y ∧ Lands P 0 x x ∧ Lands Q 0 y y ∨
    ∃ i j x' y' l, x = i :: x' ∧ y = j :: y' ∧ kind i = .jump l ∧ kind j = .jump (E.ρ l) ∧ E.live l)

theorem Settles.of_joined (h : Settles E P Q x y) (ha : Joined P a x) (hb : Joined Q b y) :
    Settles E P Q a b := by
  obtain ⟨x', y', hx, hy, h⟩ := h
  exact ⟨x', y', ha.trans hx, hb.trans hy, h⟩

theorem Settles.landed (h : Landed E P a b) (ha : Lands P 0 a a) (hb : Lands Q 0 b b) :
    Settles E P Q a b :=
  ⟨a, b, .refl P a, .refl Q b, .inl ⟨h, ha, hb⟩⟩

theorem Settles.jump (hi : kind i = .jump l) (hj : kind j = .jump (E.ρ l)) (hl : E.live l) :
    Settles E P Q (i :: a) (j :: b) :=
  ⟨_, _, .refl P _, .refl Q _, .inr ⟨i, j, a, b, l, rfl, rfl, hi, hj, hl⟩⟩

theorem landed_setOne (h : Rewrites E false (setOne r :: a) (setOne r :: b))
    (hsuffix : setOne r :: a <:+ P) : Landed E P (setOne r :: a) (setOne r :: b) := by
  generalize hdead : false = dead, hx : setOne r :: a = x, hy : setOne r :: b = y at h
  induction h generalizing a b with
  | keep hloc hrefs hrest =>
    subst hdead
    cases hx
    obtain ⟨-, rfl⟩ := cons.inj hy
    exact .same rfl hrefs ((suffix_cons _ _).trans hsuffix) hrest
  | once hrest ih =>
    subst hdead
    cases hx
    cases hy
    have ha := (suffix_cons _ _).trans hsuffix
    exact .once ha hrest (ih ha rfl rfl rfl)
  | dropDead => cases hdead
  | _ => cases hx

/-- Between two jumps the induction is on the edit. -/
theorem Edited.settles_text (h : Edited E P Q) (hrewrites : Rewrites E false a b)
    (hsuffix : a <:+ P) : Settles E P Q a b := by
  generalize hdead : false = dead at hrewrites
  induction hrewrites with
  | nil => exact .landed .nil .nil .nil
  | @keep dead i a b hloc hrefs hrest ih =>
    subst hdead
    have hrefs' : ∀ l ∈ localRefs i, E.live l := hrefs
    have ha : a <:+ P := (suffix_cons i a).trans hsuffix
    cases hkind : kind i with
    | silent =>
      have hkind' := (kind_rename_iff E.ρ (.inl rfl)).2 hkind
      exact (ih ha (deadAfter_of_kind (by simp [hkind])).symm).of_joined (.skip hkind) (.skip hkind')
    | jump l =>
      exact .jump hkind ((jump_rename E.ρ i _).2 ⟨l, hkind, rfl⟩) (hrefs' l (mem_localRefs_of_jump hkind))
    | _ =>
      have hseen : (kind i).seen = true := by rw [hkind]; rfl
      rw [deadAfter_of_seen hseen] at hrest
      exact .landed (.same hseen hrefs' ha hrest) (.here hseen) (.here ((seen_rename E.ρ).2 hseen))
  | @keepLab dead l a b _ _ ih =>
    exact (ih ((suffix_cons _ a).trans hsuffix) rfl).of_joined (.skip rfl) (.skip rfl)
  | @dropLab dead l a b _ _ ih =>
    exact (ih ((suffix_cons _ a).trans hsuffix) hdead).of_joined (.skip rfl) (.refl Q b)
  | dropDead => cases hdead
  | @dropJump l front a b _ hlive _ hfront hrest ih =>
    obtain ⟨hcode, -⟩ := h.codeFrom_text (_ :: front) hsuffix
    obtain ⟨-, c, c', hc, hc', hjoin⟩ := h.target l hlive
    cases hcode.symm.trans hc'
    have hlab := (suffix_append (_ :: front) _).trans hsuffix
    refine (ih hlab rfl).of_joined ?_ (.refl Q b)
    exact ((Joined.jump rfl hc).trans hjoin).trans (.unskip rfl)
  | @invertJump dead cond inverted l l2 a b hinv hlive _ hrest _ =>
    obtain ⟨hcode, ha⟩ := h.codeFrom_text [_, _] hsuffix
    exact .landed (.invertJump hinv hlive hcode ha hrest) (.here rfl) (.here rfl)
  | @once dead r a b hrest _ =>
    subst hdead
    have ha := (suffix_cons _ _).trans hsuffix
    exact .landed (.once ha hrest (landed_setOne hrest ha)) (.here rfl) (.here rfl)
  | @padLab dead l s a b _ _ ih =>
    refine (ih ((suffix_cons _ a).trans hsuffix) rfl).of_joined (.skip rfl) ?_
    exact (Joined.skip rfl).trans (.skip rfl)

/-- A jump to a label that is not local leaves the code. -/
theorem kind_jmp (l : Lab) :
    (∃ l', l = .localLab l') ∨ (∀ ρ, renameLab ρ l = l) ∧ kind (.jmp (.L l)) = .leave := by
  cases l with
  | localLab l' => exact Or.inl ⟨l', rfl⟩
  | _ => exact Or.inr ⟨fun _ => rfl, rfl⟩

theorem Edited.settles (h : Edited E P Q) (hplaces : Places E P a b) : Settles E P Q a b := by
  cases hplaces with
  | text hsuffix hrest => exact h.settles_text hrest hsuffix
  | @jump l a b hlive =>
    rcases kind_jmp l with ⟨l', rfl⟩ | ⟨-, hleave⟩
    · exact .jump rfl rfl (hlive l' rfl)
    · have hseen : (kind (.jmp (.L l))).seen = true := by rw [hleave]; rfl
      exact .landed (.leave hleave) (.here hseen) (.here ((seen_rename E.ρ).2 hseen))
  | reached hcode hsuffix hrest =>
    exact (h.settles_text hrest hsuffix).of_joined (.jump rfl hcode) (.skip rfl)

/-- Where control comes silently in the text it comes in the edited text. -/
theorem Edited.lands_forward (h : Edited E P Q) (hplaces : Places E P a b) (hland : Lands P k a d) :
    ∃ k' d', Lands Q k' b d' ∧ Landed E P d d' := by
  induction k using Nat.strongRecOn generalizing a b with
  | ind k ih =>
    obtain ⟨x, y, hx, hy, hsettled⟩ := h.settles hplaces
    obtain ⟨k1, hk1, hland⟩ := hx.ahead hland
    rcases hsettled with ⟨hlanded, hatx, haty⟩ | ⟨i, j, x, y, l, rfl, rfl, hi, hj, hl⟩
    · obtain ⟨k', hland'⟩ := hy.back haty
      exact ⟨k', y, hland', hatx.unique_end hland ▸ hlanded⟩
    · obtain ⟨k2, c, rfl, hc, hland⟩ := hland.of_jump hi
      obtain ⟨c1, c', b', hc1, hjoin, hb', hsuffix, hrest⟩ := h.target_rewrites hl
      cases hc.symm.trans hc1
      obtain ⟨k3, hk3, hland⟩ := hjoin.ahead hland
      obtain ⟨k4, d', hland', hlanded⟩ := ih k3 (by omega) (.text hsuffix hrest) hland
      obtain ⟨k', hland'⟩ := hy.back (.jump hj hb' hland')
      exact ⟨k', d', hland', hlanded⟩

/-- Where control comes silently in the edited text it comes in the text. -/
theorem Edited.lands_backward (h : Edited E P Q) (hplaces : Places E P a b)
    (hland : Lands Q k b d') :
    ∃ k' d, Lands P k' a d ∧ Landed E P d d' := by
  induction k using Nat.strongRecOn generalizing a b with
  | ind k ih =>
    obtain ⟨x, y, hx, hy, hsettled⟩ := h.settles hplaces
    obtain ⟨k1, hk1, hland⟩ := hy.ahead hland
    rcases hsettled with ⟨hlanded, hatx, haty⟩ | ⟨i, j, x, y, l, rfl, rfl, hi, hj, hl⟩
    · obtain ⟨k', hland'⟩ := hx.back hatx
      exact ⟨k', x, hland', haty.unique_end hland ▸ hlanded⟩
    · obtain ⟨k2, b', rfl, hb', hland⟩ := hland.of_jump hj
      obtain ⟨c, c', b1, hc, hjoin, hb1, hsuffix, hrest⟩ := h.target_rewrites hl
      cases hb'.symm.trans hb1
      obtain ⟨k3, d, hland', hlanded⟩ := ih k2 (by omega) (.text hsuffix hrest) hland
      obtain ⟨k4, hland'⟩ := hjoin.back hland'
      obtain ⟨k', hland'⟩ := hx.back (.jump hi hc hland')
      exact ⟨k', d, hland', hlanded⟩

/-- The same events up to names of labels and repetitions of setting a register to one. -/
inductive Similar (ρ : Label → Label) : List Event → List Event → Prop where
  | nil : Similar ρ [] []
  | cons {e : Event} {es es' : List Event} : Similar ρ es es' →
      Similar ρ (e :: es) (renameEvent ρ e :: es')
  | once {e : Event} {es es' : List Event} : e.setsOne = true → Similar ρ (e :: es) es' →
      Similar ρ (e :: e :: es) es'

theorem Similar.head {ρ : Label → Label} (h : Similar ρ es es') :
    (es.map (renameEvent ρ)).head? = es'.head? := by
  induction h with
  | nil | cons => rfl
  | once _ _ ih => exact ih

theorem setsOne_rename (ρ : Label → Label) (h : e.setsOne = true) :
    (renameEvent ρ e).setsOne = true := by
  unfold Event.setsOne at h
  split at h
  · rfl
  · cases h

theorem Similar.collapse_eq {ρ : Label → Label} (h : Similar ρ es es') :
    collapse (es.map (renameEvent ρ)) = collapse es' := by
  induction h with
  | nil => rfl
  | @cons e es es' hrest ih => rw [map_cons, collapse, collapse, ih, hrest.head]
  | once hone _ ih =>
    rw [map_cons, collapse, setsOne_rename ρ hone, map_cons, List.head?_cons,
      beq_self_eq_true, Bool.and_self, if_pos rfl, ← map_cons]
    exact ih

variable {cond : Cond}

theorem eq_jcc_of_test {l : Lab} (h : kind i = .test cond l) : i = .jcc cond l := by
  rw [kind.eq_def] at h
  split at h <;> cases h
  rfl

/-- The places after a conditional jump that has been kept. -/
theorem places_of_test {l : Lab} (hlive : ∀ l' ∈ localRefs (.jcc cond l), E.live l')
    (hsuffix : a <:+ P) (hrest : Rewrites E false a b) (taken : Prop) [Decidable taken] :
    Places E P (if taken then [.jmp (.L l)] else a)
      (if taken then [.jmp (.L (renameLab E.ρ l))] else b) := by
  split
  · apply Places.jump
    rintro l' rfl
    exact hlive l' (mem_singleton.2 rfl)
  · exact .text hsuffix hrest

/-- The places after a conditional jump that has been inverted. -/
theorem places_of_invert (hinv : invert cond = some inverted)
    (hlive : ∀ l', l2 = .localLab l' → E.live l') (hcode : codeFrom localOf l P = some a)
    (hsuffix : a <:+ P) (hrest : Rewrites E false a b) (outcome : Bool) :
    Places E P
      (if outcome = (flag cond).2 then [.jmp (.L (.localLab l))]
        else .jmp (.L l2) :: .lab (.localLab l) :: a)
      (if outcome = (flag inverted).2 then [.jmp (.L (renameLab E.ρ l2))]
        else .lab (.localLab l) :: b) := by
  rw [flag_invert hinv]
  by_cases htaken : outcome = (flag cond).2
  · rw [if_pos htaken, if_neg (by simp [htaken])]
    exact .reached hcode hsuffix hrest
  · rw [if_neg htaken, if_pos (Bool.eq_not.2 htaken)]
    exact .jump hlive

theorem emits_none_iff : Emits (i :: a) e none ↔ kind i = .leave ∧ e = .leave i := by
  constructor
  · rintro ⟨⟩
    next hkind => exact ⟨hkind, rfl⟩
  · rintro ⟨hkind, rfl⟩
    exact .leave hkind

/-- The code is left by the same event. -/
theorem Landed.last_iff (h : Landed E P d d') :
    Emits d' e' none ↔ ∃ e, Emits d e none ∧ e' = renameEvent E.ρ e := by
  have hkept : ∀ {i a b}, Emits (rename E.ρ i :: b) e' none ↔
      ∃ e, Emits (i :: a) e none ∧ e' = renameEvent E.ρ e := by
    intro i a b
    simp only [emits_none_iff, kind_rename_iff E.ρ (.inr (.inr rfl))]
    constructor
    · rintro ⟨hkind, rfl⟩
      exact ⟨_, ⟨hkind, rfl⟩, rfl⟩
    · rintro ⟨e, ⟨hkind, rfl⟩, rfl⟩
      exact ⟨hkind, rfl⟩
  cases h with
  | nil =>
    constructor
    · rintro ⟨⟩
      exact ⟨.fall, .fall, rfl⟩
    · rintro ⟨e, ⟨⟩, rfl⟩
      exact .fall
  | same | leave => exact hkept
  | invertJump => simp [emits_none_iff, kind]
  | once => simp [emits_none_iff, kind, setOne]

/-- The event in the text is the event in the edited text, or the first one of a repetition. -/
theorem Landed.step_forward (h : Landed E P d d') (hemit : Emits d e (some c)) :
    (∃ c', Emits d' (renameEvent E.ρ e) (some c') ∧ Places E P c c') ∨
      ∃ r a b, e = .exec (setOne r) ∧ c = setOne r :: a ∧ d' = setOne r :: b ∧ Places E P c d' := by
  cases h with
  | nil => cases hemit
  | @same i a b hseen hlive hsuffix hrest =>
    left
    cases hemit with
    | exec hkind =>
      refine ⟨b, .exec ?_, .text hsuffix hrest⟩
      rw [kind_rename, hkind]
      rfl
    | test outcome hkind =>
      cases eq_jcc_of_test hkind
      cases hkind
      exact ⟨_, .test outcome rfl, places_of_test hlive hsuffix hrest _⟩
  | leave hleave =>
    cases hemit with
    | exec hkind | test outcome hkind =>
      rw [hkind] at hleave
      cases hleave
  | @invertJump cond inverted l l2 a b hinv hlive hcode hsuffix hrest =>
    left
    cases hemit with
    | exec hkind => cases hkind
    | test outcome hkind =>
      cases hkind
      refine ⟨_, ?_, places_of_invert hinv hlive hcode hsuffix hrest outcome⟩
      have hflag : (flag cond).1 = (flag inverted).1 := by rw [flag_invert hinv]
      rw [hflag]
      exact .test outcome rfl
  | @once r a b hsuffix hrest hlanded =>
    right
    cases hemit with
    | exec => exact ⟨r, a, b, rfl, rfl, rfl, .text hsuffix hrest⟩
    | test outcome hkind => cases hkind

theorem runs_setOne (h : Runs P (setOne r :: a) es) :
    es = [] ∨ ∃ es', es = .exec (setOne r) :: es' := by
  cases h with
  | nil => exact Or.inl rfl
  | last hland hemit =>
    rw [hland.eq_of_seen rfl] at hemit
    cases hemit
    next hkind => cases hkind
  | step hland hemit _ =>
    rw [hland.eq_of_seen rfl] at hemit
    cases hemit with
    | exec => exact Or.inr ⟨_, rfl⟩
    | test _ hkind => cases hkind

/-- Every run of the text is one of the edited text. -/
theorem Edited.runs_forward (h : Edited E P Q) (hruns : Runs P a es) (hplaces : Places E P a b) :
    ∃ es', Runs Q b es' ∧ Similar E.ρ es es' := by
  induction hruns generalizing b with
  | nil => exact ⟨[], .nil, .nil⟩
  | last hland hemit =>
    obtain ⟨k', d', hland', hlanded⟩ := h.lands_forward hplaces hland
    exact ⟨_, .last hland' (hlanded.last_iff.2 ⟨_, hemit, rfl⟩), .cons .nil⟩
  | step hland hemit hrest ih =>
    obtain ⟨k', d', hland', hlanded⟩ := h.lands_forward hplaces hland
    rcases hlanded.step_forward hemit with ⟨c', hemit', hnext⟩ | ⟨r, a', b', rfl, rfl, rfl, hnext⟩
    · obtain ⟨es', hruns', hsimilar⟩ := ih hnext
      exact ⟨_, .step hland' hemit' hruns', .cons hsimilar⟩
    · obtain ⟨es', hruns', hsimilar⟩ := ih hnext
      rcases runs_setOne hrest with rfl | ⟨es1, rfl⟩
      · exact ⟨_, .step hland' (.exec rfl) .nil, .cons .nil⟩
      · exact ⟨es', .of_lands hland' hruns', .once rfl hsimilar⟩

/-- A run of the edited text that begins with an event comes from a run of the text, if the rest of
it does. -/
theorem Landed.step_backward (h : Landed E P d d') (hemit : Emits d' e' (some c'))
    (ih : ∀ c, Places E P c c' → ∃ es, Runs P c es ∧ Similar E.ρ es es') :
    ∃ es, Runs P d es ∧ Similar E.ρ es (e' :: es') := by
  induction h with
  | nil => cases hemit
  | @same i a b hseen hlive hsuffix hrest =>
    cases hemit with
    | exec hkind =>
      obtain ⟨es, hruns, hsimilar⟩ := ih a (.text hsuffix hrest)
      exact ⟨_, .step (.here hseen) (.exec ((kind_rename_iff E.ρ (.inr (.inl rfl))).1 hkind))
        hruns, .cons hsimilar⟩
    | test outcome hkind =>
      obtain ⟨l, hkind', rfl⟩ := (test_rename E.ρ i _ _).1 hkind
      cases eq_jcc_of_test hkind'
      obtain ⟨es, hruns, hsimilar⟩ := ih _ (places_of_test hlive hsuffix hrest _)
      exact ⟨_, .step (.here hseen) (.test outcome rfl) hruns, .cons hsimilar⟩
  | leave hleave =>
    cases hemit with
    | exec hkind
    | test outcome hkind => rw [(kind_rename_iff E.ρ (.inr (.inr rfl))).2 hleave] at hkind; cases hkind
  | @invertJump cond inverted l l2 a b hinv hlive hcode hsuffix hrest =>
    cases hemit with
    | exec hkind => cases hkind
    | test outcome hkind =>
      cases hkind
      obtain ⟨es, hruns, hsimilar⟩ := ih _ (places_of_invert hinv hlive hcode hsuffix hrest outcome)
      have hflag : (flag inverted).1 = (flag cond).1 := by rw [flag_invert hinv]
      rw [hflag]
      exact ⟨_, .step (.here rfl) (.test outcome rfl) hruns, .cons hsimilar⟩
  | @once r a b hsuffix hrest hlanded ihlanded =>
    obtain ⟨es, hruns, hsimilar⟩ := ihlanded hemit
    rcases runs_setOne hruns with rfl | ⟨es1, rfl⟩
    · cases hsimilar
    · exact ⟨_, .step (.here rfl) (.exec rfl) hruns, .once rfl hsimilar⟩

section

variable (h : Edited E P Q)

include h

/-- Every run of the edited text is one of the text. -/
theorem Edited.runs_backward (hruns : Runs Q b es') (hplaces : Places E P a b) :
    ∃ es, Runs P a es ∧ Similar E.ρ es es' := by
  induction hruns generalizing a with
  | nil => exact ⟨[], .nil, .nil⟩
  | last hland hemit =>
    obtain ⟨k', d, hland', hlanded⟩ := h.lands_backward hplaces hland
    obtain ⟨e, hemit', rfl⟩ := hlanded.last_iff.1 hemit
    exact ⟨_, .last hland' hemit', .cons .nil⟩
  | step hland hemit _ ih =>
    obtain ⟨k', d, hland', hlanded⟩ := h.lands_backward hplaces hland
    obtain ⟨es, hruns, hsimilar⟩ := hlanded.step_backward hemit fun c hc => ih hc
    exact ⟨es, .of_lands hland' hruns, hsimilar⟩

theorem Edited.sameRuns (hplaces : Places E P a b) : SameRuns E.ρ P a Q b where
  forward es hruns := by
    obtain ⟨es', hruns', hsimilar⟩ := h.runs_forward hruns hplaces
    exact ⟨es', hruns', hsimilar.collapse_eq⟩
  backward es' hruns := by
    obtain ⟨es, hruns', hsimilar⟩ := h.runs_backward hruns hplaces
    exact ⟨es, hruns', hsimilar.collapse_eq⟩

/-- A label that is left stood in the text, and the runs from it are the same. -/
theorem Edited.sameRuns_lab {k : Lab} (hb : codeFrom labOf k Q = some b) :
    ∃ a, codeFrom labOf k P = some a ∧ SameRuns E.ρ P a Q b := by
  have hkept : ∀ l, k = .localLab l → ¬ E.dropped l := by
    rintro l rfl
    exact h.text.not_dropped (mem_labelsIn_iff.2 ⟨b, hb⟩)
  rcases h.text.sameLab hkept with ⟨-, hnone⟩ | ⟨a, b', ha, hb', hsuffix, hrest⟩
  · rw [hnone] at hb
    cases hb
  · rw [hb'] at hb
    cases hb
    exact ⟨a, ha, h.sameRuns (.text hsuffix hrest)⟩

/-- The runs from a label that live code refers to are the runs from its new name. -/
theorem Edited.sameRuns_live (hl : E.live l) (ha : codeFrom localOf l P = some a)
    (hb : codeFrom localOf (E.ρ l) Q = some b) :
    SameRuns E.ρ P a Q b := by
  obtain ⟨c, c', b', hc, hjoin, hb', hsuffix, hrest⟩ := h.target_rewrites hl
  rw [ha] at hc
  rw [hb] at hb'
  cases hc
  cases hb'
  have hsame := h.sameRuns (.text hsuffix hrest)
  exact ⟨fun es hes => hsame.forward es (hjoin.runs_iff.1 hes), fun es' hes' => by
    obtain ⟨es, hes, heq⟩ := hsame.backward es' hes'
    exact ⟨es, hjoin.runs_iff.2 hes, heq⟩⟩

theorem Edited.sameRuns_start : SameRuns E.ρ P P Q Q := h.sameRuns (.text (suffix_refl P) h.text)

end

end

end MLKit.X64.InstsX64
