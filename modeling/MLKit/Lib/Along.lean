/-!
# Properties along a sequence of operations

A property of each operation with the states before and after it, and when it holds of all the
operations of a sequence.
-/

namespace MLKit.Lib

universe u v

variable {σ : Type u} {α : Type v} {run : σ → α → Option σ} {Q : σ → α → σ → Prop} {s : σ}

/-- Every operation of the sequence ends, in a state for which `Q` holds. -/
def Along (run : σ → α → Option σ) (Q : σ → α → σ → Prop) : σ → List α → Prop
  | _, [] => True
  | s, a :: as => ∃ s', run s a = some s' ∧ Q s a s' ∧ Along run Q s' as

/-- Where one operation has `Q` exactly under a condition, and `Q` leads to a state of the same
kind, a sequence has `Q` exactly if the condition holds all along. -/
theorem along_iff {C : σ → α → Prop}
    {Inv : σ → Prop} (hstep : ∀ s a, Inv s → ∃ s', run s a = some s' ∧ (Q s a s' ↔ C s a) ∧
      (Q s a s' → Inv s')) (hs : Inv s) (as : List α) :
    Along run Q s as ↔ Along run (fun s a _ => C s a) s as := by
  induction as generalizing s with
  | nil => exact Iff.rfl
  | cons a as ih =>
    obtain ⟨s', hrun, hiff, hinv⟩ := hstep s a hs
    simp only [Along, hrun, Option.some.injEq, exists_eq_left', ← hiff]
    exact and_congr_right fun hQ => ih (hinv hQ)

end MLKit.Lib
