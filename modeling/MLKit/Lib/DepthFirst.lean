import Mathlib.Logic.Function.Basic
import Mathlib.Data.List.Basic
import MLKit.Lib.Except

/-!
# Depth-first traversals that mark

A traversal enters every element whose mark is not yet `b`, sets the mark and
goes on with the successors; `pre` and `post` update an accumulator when an
element is entered and left.  Elements stand for classes by `key`, and marks
belong to classes.  Setting marks and clearing them are the same traversal.
-/

namespace MLKit.Lib

open Function List

variable {α β A ε : Type}

def depthFirst [DecidableEq α] (stuck : ε) (key : β → α) (succ : α → List β) (b : Bool)
    (pre post : β → A → Except ε A) :
    Nat → List β → (α → Bool) → A → Except ε ((α → Bool) × A)
  | _, [], marks, a => .ok (marks, a)
  | 0, _ :: _, _, _ => .error stuck
  | fuel + 1, n :: ns, marks, a =>
    if marks (key n) = b then depthFirst stuck key succ b pre post fuel ns marks a
    else do
      let a ← pre n a
      let (marks, a) ← depthFirst stuck key succ b pre post fuel (succ (key n))
        (update marks (key n) b) a
      let a ← post n a
      depthFirst stuck key succ b pre post fuel ns marks a

/-- The classes found from the roots by steps that never leave `P`. -/
inductive Found (key : β → α) (succ : α → List β) (P : α → Prop) (roots : List β) : α → Prop where
  | root {n : β} : n ∈ roots → P (key n) → Found key succ P roots (key n)
  | step {c : α} {n : β} : Found key succ P roots c → n ∈ succ c → P (key n) →
      Found key succ P roots (key n)

variable {succ' : α → List β} {stuck : ε} {b : Bool} {fuel : Nat}

section Found

variable {key : β → α} {succ : α → List β} {P Q : α → Prop} {roots roots' : List β} {c : α}

section

variable (h : Found key succ P roots c)

include h

theorem Found.holds : P c := by
  cases h with
  | root _ hp | step _ _ hp => exact hp

/-- Roots and steps of one search that lie inside a closed set stay inside it. -/
theorem Found.induct {R : α → Prop} (hroot : ∀ n ∈ roots, P (key n) → R (key n))
    (hstep : ∀ d, R d → ∀ n ∈ succ d, P (key n) → R (key n)) : R c := by
  induction h with
  | root hn hp => exact hroot _ hn hp
  | step _ hn hp ih => exact hstep _ ih _ hn hp

/-- What is found is found inside a set that holds it. -/
theorem Found.inside (hsucc : ∀ d, ∀ n ∈ succ d, n ∈ succ' d)
    (hq : ∀ n, Found key succ P roots (key n) → Q (key n)) : Found key succ' Q roots c := by
  induction h with
  | root hn hp => exact .root hn (hq _ (.root hn hp))
  | step hd hn hp ih => exact .step ih (hsucc _ _ hn) (hq _ (.step hd hn hp))

theorem Found.mono (hroots : ∀ n ∈ roots, n ∈ roots')
    (hpq : ∀ n, P (key n) → Q (key n)) : Found key succ Q roots' c :=
  h.induct (fun _ hn hp => .root (hroots _ hn) (hpq _ hp)) fun _ hd _ hn hp => .step hd hn (hpq _ hp)

end

theorem not_found_nil : ¬ Found key succ P [] c := by
  intro h
  exact h.induct (R := fun _ => False) (fun n hn _ => absurd hn not_mem_nil) (fun _ hd _ _ _ => hd)

/-- A search that enters its first root finds that root, what is found from its
successors without coming back to it, and what the other roots still lead to. -/
theorem found_cons_iff (ns : List β) (c : α) (hn : P (key n)) {X : α → Prop}
    (hX : ∀ d, X d ↔ Found key succ (fun e => P e ∧ e ≠ key n) (succ (key n)) d) :
    Found key succ P (n :: ns) c ↔
      c = key n ∨ X c ∨ Found key succ (fun e => P e ∧ e ≠ key n ∧ ¬ X e) ns c := by
  constructor
  · intro h
    induction h with
    | root hm hp =>
      rename_i m
      by_cases hmn : key m = key n
      · exact .inl hmn
      by_cases hmx : X (key m)
      · exact .inr (.inl hmx)
      rcases mem_cons.1 hm with rfl | hm
      · exact absurd rfl hmn
      · exact .inr (.inr (.root hm ⟨hp, hmn, hmx⟩))
    | step _ hm hp ih =>
      rename_i d m _
      by_cases hmn : key m = key n
      · exact .inl hmn
      by_cases hmx : X (key m)
      · exact .inr (.inl hmx)
      rcases ih with rfl | hd | hd
      · exact absurd ((hX _).2 (.root hm ⟨hp, hmn⟩)) hmx
      · exact absurd ((hX _).2 (.step ((hX d).1 hd) hm ⟨hp, hmn⟩)) hmx
      · exact .inr (.inr (.step hd hm ⟨hp, hmn, hmx⟩))
  · rintro (rfl | hc | hc)
    · exact .root (mem_cons_self ..) hn
    · refine ((hX c).1 hc).induct ?_ ?_
      · intro m hm hp
        exact .step (.root (mem_cons_self ..) hn) hm hp.1
      · intro d hd m hm hp
        exact .step hd hm hp.1
    · exact hc.mono (fun m hm => .tail _ hm) fun d hd => hd.1

end Found

section Run

variable {key : β → α} {succ : α → List β} {pre post : β → A → Except ε A}
  [DecidableEq α]

/-- What a traversal that ends does to the marks and to the accumulator. -/
inductive Traversal (key : β → α) (succ : α → List β) (b : Bool) (pre post : β → A → Except ε A) :
    List β → (α → Bool) → A → (α → Bool) → A → Prop where
  | nil : Traversal key succ b pre post [] marks a marks a
  | skip : marks (key n) = b → Traversal key succ b pre post ns marks a marks' a' →
      Traversal key succ b pre post (n :: ns) marks a marks' a'
  | enter : marks (key n) ≠ b → pre n a = .ok a₁ →
      Traversal key succ b pre post (succ (key n)) (update marks (key n) b) a₁ m₂ a₂ →
      post n a₂ = .ok a₃ → Traversal key succ b pre post ns m₂ a₃ marks' a' →
      Traversal key succ b pre post (n :: ns) marks a marks' a'

variable {marks' marks : α → Bool} {ns : List β} {a a' : A}

theorem depthFirst_traversal
    (h : depthFirst stuck key succ b pre post fuel ns marks a = .ok (marks', a')) :
    Traversal key succ b pre post ns marks a marks' a' := by
  induction fuel generalizing ns marks marks' a a' with
  | zero =>
    cases ns with
    | nil =>
      cases h
      exact .nil
    | cons n ns => cases h
  | succ fuel ih =>
    cases ns with
    | nil =>
      cases h
      exact .nil
    | cons n ns =>
      rw [depthFirst] at h
      split at h
      · exact .skip ‹_› (ih h)
      · obtain ⟨a₁, h1, h⟩ := bind_ok h
        obtain ⟨⟨m₂, a₂⟩, h2, h⟩ := bind_ok h
        obtain ⟨a₃, h3, h⟩ := bind_ok h
        exact .enter ‹_› h1 (ih h2) h3 (ih h)

/-- A traversal marks exactly what it finds through unmarked classes. -/
theorem Traversal.marks_iff (h : Traversal key succ b pre post ns marks a marks' a') (c : α) :
    marks' c = b ↔ marks c = b ∨ Found key succ (fun d => marks d ≠ b) ns c := by
  induction h generalizing c with
  | nil => exact ⟨.inl, fun h => h.elim id fun h => absurd h not_found_nil⟩
  | skip hn _ ih =>
    rw [ih]
    refine or_congr_right ⟨fun hc => hc.mono (fun m hm => .tail _ hm) fun _ => id, fun hc => ?_⟩
    refine hc.induct ?_ fun d hd m hm hp => .step hd hm hp
    intro m hm hp
    rcases mem_cons.1 hm with rfl | hm
    · exact absurd hn hp
    · exact .root hm hp
  | @enter marks n _ _ m₂ _ _ ns _ _ hn _ _ _ _ ih2 ih =>
    -- the marks while the successors of `n` are searched: `n` itself is marked
    have hentered : ∀ d, update marks (key n) b d ≠ b ↔ marks d ≠ b ∧ d ≠ key n := by
      intro d
      by_cases hd : d = key n
      · subst hd
        simp
      · simp [hd]
    have hm2 : ∀ d, m₂ d ≠ b ↔ marks d ≠ b ∧ d ≠ key n ∧
        ¬ Found key succ (fun e => marks e ≠ b ∧ e ≠ key n) (succ (key n)) d := by
      intro d
      rw [Ne, ih2 d, not_or, ← Ne, hentered d, and_assoc]
      simp only [hentered]
    rw [ih, found_cons_iff ns c hn fun _ => Iff.rfl, ← not_iff_not, not_or, not_or, ← Ne, hm2 c]
    simp only [hm2]
    tauto

/-- The accumulator ends up with the newly marked classes that `pre` or `post`
adds when it meets them. -/
theorem Traversal.mem_iff (mem : A → α → Prop) {p q : α → Prop}
    (hpre : ∀ n a a', pre n a = .ok a' → ∀ c, mem a' c ↔ mem a c ∨ p c ∧ c = key n)
    (hpost : ∀ n a a', post n a = .ok a' → ∀ c, mem a' c ↔ mem a c ∨ q c ∧ c = key n)
    (h : Traversal key succ b pre post ns marks a marks' a') (c : α) :
    mem a' c ↔ mem a c ∨ (p c ∨ q c) ∧ marks' c = b ∧ marks c ≠ b := by
  induction h with
  | nil => tauto
  | skip _ _ ih => exact ih
  | @enter marks n _ _ _ _ _ _ _ _ hn h1 h2 h3 h ih2 ih =>
    have hgrow2 := fun hm => (h2.marks_iff c).2 (.inl hm)
    have hgrow := fun hm => (h.marks_iff c).2 (.inl hm)
    rw [ih, hpost _ _ _ h3, ih2, hpre _ _ _ h1]
    clear ih ih2
    by_cases hc : c = key n
    · subst hc
      rw [update_self] at hgrow2 ⊢
      tauto
    · rw [update_of_ne hc] at hgrow2 ⊢
      tauto

/-- No class is added twice, when only one of `pre` and `post` adds. -/
theorem Traversal.nodup {mem : A → α → Prop} (nodup : A → Prop) {p q : α → Prop}
    (hone : ∀ c, ¬ (p c ∧ q c))
    (hpre : ∀ n a a', pre n a = .ok a' → ∀ c, mem a' c ↔ mem a c ∨ p c ∧ c = key n)
    (hpost : ∀ n a a', post n a = .ok a' → ∀ c, mem a' c ↔ mem a c ∨ q c ∧ c = key n)
    (hpreNodup : ∀ n a a', pre n a = .ok a' → nodup a → ¬ mem a (key n) → nodup a')
    (hpostNodup : ∀ n a a', post n a = .ok a' → nodup a → (q (key n) → ¬ mem a (key n)) → nodup a')
    (h : Traversal key succ b pre post ns marks a marks' a')
    (hmem : ∀ c, mem a c → marks c = b) (ha : nodup a) : nodup a' := by
  induction h with
  | nil => exact ha
  | skip _ _ ih => exact ih hmem ha
  | @enter marks n _ a₁ m₂ a₂ a₃ _ _ _ hn h1 h2 h3 _ ih2 ih =>
    have hnot := fun hm => hn (hmem _ hm)
    have hmem2 := h2.mem_iff mem hpre hpost
    have hupdate : ∀ c, mem a₁ c → update marks (key n) b c = b := by
      intro c hc
      rw [update_apply]
      split
      · rfl
      · rename_i hcn
        exact hmem c (((hpre _ _ _ h1 c).1 hc).resolve_right fun hc => hcn hc.2)
    have hnodup3 : nodup a₃ := by
      refine hpostNodup _ _ _ h3 (ih2 hupdate (hpreNodup _ _ _ h1 ha hnot)) fun hq hm => ?_
      rcases (hmem2 _).1 hm with hm | ⟨-, -, hm⟩
      · rcases (hpre _ _ _ h1 _).1 hm with hm | ⟨hp, -⟩
        · exact hnot hm
        · exact hone _ ⟨hp, hq⟩
      · exact hm (update_self ..)
    refine ih (fun c hc => ?_) hnodup3
    rcases (hpost _ _ _ h3 c).1 hc with hc | ⟨-, rfl⟩
    · rcases (hmem2 c).1 hc with hc | ⟨-, hc, -⟩
      · exact (h2.marks_iff c).2 (.inl (hupdate c hc))
      · exact hc
    · exact (h2.marks_iff _).2 (.inl (update_self ..))

/-- With enough fuel the traversal returns. -/
def Ends (stuck : ε) (key : β → α) (succ : α → List β) (b : Bool) (pre post : β → A → Except ε A)
    (ns : List β) : Prop :=
  ∀ marks a, ∃ bound result, ∀ fuel ≥ bound,
    depthFirst stuck key succ b pre post fuel ns marks a = .ok result

section Ends

variable (stuck : ε) (b : Bool) (hpre : ∀ n a, ∃ a', pre n a = .ok a')
  (hpost : ∀ n a, ∃ a', post n a = .ok a')

include hpre hpost

theorem ends_of_each (hns : ∀ n ∈ ns, Ends stuck key succ b pre post (succ (key n))) :
    Ends stuck key succ b pre post ns := by
  induction ns with
  | nil => exact fun marks a => ⟨0, _, fun fuel _ => by rw [depthFirst]⟩
  | cons n ns ih =>
    intro marks a
    have ih := ih fun m hm => hns m (.tail _ hm)
    by_cases hn : marks (key n) = b
    · obtain ⟨bound, result, hrest⟩ := ih marks a
      refine ⟨bound + 1, result, fun fuel hfuel => ?_⟩
      obtain ⟨fuel, rfl⟩ := Nat.exists_eq_add_of_lt hfuel
      rw [depthFirst, if_pos hn, hrest _ (by omega)]
    · obtain ⟨a₁, h1⟩ := hpre n a
      obtain ⟨bound1, ⟨m₂, a₂⟩, hsuccs⟩ := hns n (.head _) (update marks (key n) b) a₁
      obtain ⟨a₃, h3⟩ := hpost n a₂
      obtain ⟨bound2, result, hrest⟩ := ih m₂ a₃
      refine ⟨bound1 + bound2 + 1, result, fun fuel hfuel => ?_⟩
      obtain ⟨fuel, rfl⟩ := Nat.exists_eq_add_of_lt hfuel
      rw [depthFirst, if_neg hn, ok_bind h1, ok_bind (hsuccs _ (by omega))]
      exact (ok_bind h3).trans (hrest _ (by omega))

/-- A traversal ends where every way along successors does. -/
theorem ends_of_acc (hacc : ∀ n ∈ ns, Acc (fun d c => ∃ m ∈ succ c, key m = d) (key n)) :
    Ends stuck key succ b pre post ns := by
  have hclass : ∀ c, Acc (fun d c => ∃ m ∈ succ c, key m = d) c →
      Ends stuck key succ b pre post (succ c) := by
    intro c hc
    induction hc with
    | intro c _ ih => exact ends_of_each stuck b hpre hpost fun m hm => ih _ ⟨m, hm, rfl⟩
  exact ends_of_each stuck b hpre hpost fun n hn => hclass _ (hacc n hn)

end Ends

end Run

end MLKit.Lib
