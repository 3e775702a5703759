import Mathlib.Logic.Basic

/-!
# Traces of labelled transition systems

The labels of a run, and the transfer of runs along a relation that every step
keeps.
-/

namespace MLKit.Lib

variable {σ τ ε : Type*}

inductive Trace (step : σ → ε → σ → Prop) : σ → List ε → σ → Prop where
  | nil {s : σ} : Trace step s [] s
  | cons {s s' s'' : σ} {e : ε} {es : List ε} : step s e s' → Trace step s' es s'' →
      Trace step s (e :: es) s''

variable {step : σ → ε → σ → Prop} {step' : τ → ε → τ → Prop} {s s' s'' : σ} {t : τ} {e : ε}
  {es : List ε}

theorem Trace.snoc (htrace : Trace step s es s') (hstep : step s' e s'') :
    Trace step s (es ++ [e]) s'' := by
  induction htrace with
  | nil => exact .cons hstep .nil
  | cons h _ ih => exact .cons h (ih hstep)

/-- What holds at the start and is kept by every step holds at the end of a run. -/
theorem Trace.invariant {I : σ → Prop} (hstep : ∀ s e s', I s → step s e s' → I s')
    (htrace : Trace step s es s') (hs : I s) : I s' := by
  induction htrace with
  | nil => exact hs
  | cons h _ ih => exact ih (hstep _ _ _ hs h)

/-- Runs are transferred with their labels along a relation that every step keeps. -/
theorem Trace.simulate {R : σ → τ → Prop}
    (hstep : ∀ s t e s', R s t → step s e s' → ∃ t', step' t e t' ∧ R s' t')
    (htrace : Trace step s es s') (ht : R s t) :
    ∃ t', Trace step' t es t' ∧ R s' t' := by
  induction htrace generalizing t with
  | nil => exact ⟨t, .nil, ht⟩
  | cons h _ ih =>
    obtain ⟨t1, ht1, hR⟩ := hstep _ _ _ _ ht h
    obtain ⟨t', htrace', hR'⟩ := ih hR
    exact ⟨t', .cons ht1 htrace', hR'⟩

end MLKit.Lib
