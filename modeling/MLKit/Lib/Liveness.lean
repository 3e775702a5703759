import Mathlib.Logic.Basic

/-!
# Liveness along paths

Something is live in a state of a labelled transition system when it is used on
some path from there before it is defined.
-/

namespace MLKit.Lib

variable {σ ε : Type*}

inductive Live (step : σ → ε → σ → Prop) (uses defs : ε → Prop) : σ → Prop where
  | use {s s' : σ} {e : ε} : step s e s' → uses e → Live step uses defs s
  | later {s s' : σ} {e : ε} : step s e s' → ¬ defs e → Live step uses defs s' →
      Live step uses defs s

variable {step : σ → ε → σ → Prop} {uses defs : ε → Prop} {s s' : σ} {e : ε}

theorem live_iff :
    Live step uses defs s ↔
    ∃ e s', step s e s' ∧ (uses e ∨ ¬ defs e ∧ Live step uses defs s') := by
  constructor
  · intro h
    cases h with
    | use hstep huse => exact ⟨_, _, hstep, .inl huse⟩
    | later hstep hdef hlive => exact ⟨_, _, hstep, .inr ⟨hdef, hlive⟩⟩
  · rintro ⟨e, s', hstep, huse | ⟨hdef, hlive⟩⟩
    · exact .use hstep huse
    · exact .later hstep hdef hlive

/-- A state with one step only. -/
theorem live_iff_of_unique (hstep : step s e s')
    (hunique : ∀ e1 s1, step s e1 s1 → e1 = e ∧ s1 = s') :
    Live step uses defs s ↔ uses e ∨ ¬ defs e ∧ Live step uses defs s' := by
  rw [live_iff]
  constructor
  · rintro ⟨e1, s1, hstep1, h⟩
    obtain ⟨rfl, rfl⟩ := hunique e1 s1 hstep1
    exact h
  · exact fun h => ⟨e, s', hstep, h⟩

theorem not_live_of_stuck (hstuck : ∀ e s', ¬ step s e s') : ¬ Live step uses defs s := by
  intro h
  obtain ⟨e, s', hstep, _⟩ := live_iff.1 h
  exact hstuck e s' hstep

end MLKit.Lib
