import Mathlib.Tactic.Basic

/-!
# Computations that may fail

How a sequence of computations in `Except` is taken apart.
-/

namespace MLKit.Lib

variable {ε α β : Type} {f : α → Except ε β} {x : Except ε α} {a : α} {b b' : β}

/-- A sequence succeeds exactly when both parts do. -/
theorem bind_eq_ok : (x >>= f) = .ok b ↔ ∃ a, x = .ok a ∧ f a = .ok b := by
  cases x with
  | error e =>
    constructor
    · intro h
      cases h
    · rintro ⟨a, h, -⟩
      cases h
  | ok a =>
    constructor
    · intro h
      exact ⟨a, rfl, h⟩
    · rintro ⟨a', h, hf⟩
      cases h
      exact hf

theorem bind_ok (h : (x >>= f) = .ok b) : ∃ a, x = .ok a ∧ f a = .ok b := bind_eq_ok.1 h

theorem ok_bind (h : x = .ok a) : (x >>= f) = f a := by
  rw [h]
  rfl

theorem exists_bind_ok (hx : ∃ a, x = .ok a) (hf : ∀ a, ∃ b, f a = .ok b) :
    ∃ b, (x >>= f) = .ok b := by
  obtain ⟨a, ha⟩ := hx
  rw [ok_bind ha]
  exact hf a

/-- What every step of a loop that succeeds preserves holds at its end. -/
theorem foldlM_invariant {f : β → α → Except ε β} {P : β → Prop} {l : List α}
    (step : ∀ a ∈ l, ∀ b b', P b → f b a = .ok b' → P b') (h : l.foldlM f b = .ok b') (hb : P b) :
    P b' := by
  induction l generalizing b with
  | nil =>
    rw [List.foldlM_nil] at h
    cases h
    exact hb
  | cons a l ih =>
    rw [List.foldlM_cons, bind_eq_ok] at h
    obtain ⟨c, hc, hl⟩ := h
    have hPc : P c := step a (.head _) b c hb hc
    exact ih (fun a' ha' => step a' (List.mem_cons_of_mem a ha')) hl hPc

/-! ## Computations on a state -/

section

variable {σ : Type}

/-- If the computation succeeds, the state it returns is related to `s`. -/
def Carries (R : σ → σ → Prop) (out : α → σ) (s : σ) (x : Except ε α) : Prop :=
  ∀ a, x = .ok a → R s (out a)

variable {R : σ → σ → Prop} {out : α → σ} {out' : β → σ} {s : σ}

theorem Carries.ok (h : R s (out a)) : Carries R out s (.ok a : Except ε α) := by
  rintro _ ⟨⟩
  exact h

theorem Carries.bind [Trans R R R] (hx : Carries R out s x)
    (hf : ∀ a, x = .ok a → Carries R out' (out a) (f a)) : Carries R out' s (x >>= f) := by
  intro b h
  obtain ⟨a, ha, hb⟩ := bind_ok h
  exact Trans.trans (hx a ha) (hf a ha b hb)

/-- The first part does not change the state. -/
theorem Carries.after (hf : ∀ a, x = .ok a → Carries R out' s (f a)) : Carries R out' s (x >>= f) :=
    by
  intro b h
  obtain ⟨a, ha, hb⟩ := bind_ok h
  exact hf a ha b hb

theorem Carries.foldlM [Trans R R R] {f : α → β → Except ε α} {l : List β}
    (hrefl : R (out a) (out a)) (hf : ∀ b ∈ l, ∀ a, Carries R out (out a) (f a b)) :
    Carries R out (out a) (l.foldlM f a) := by
  intro a' h
  exact foldlM_invariant (P := fun a' => R (out a) (out a'))
    (fun b hb a1 a2 h1 hstep => Trans.trans h1 (hf b hb a1 a2 hstep)) h hrefl

end

end MLKit.Lib
