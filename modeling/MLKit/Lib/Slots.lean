import Mathlib.Data.List.Pairwise
import Mathlib.Order.Lattice
import Mathlib.Algebra.Order.Group.Int

/-!
# Word intervals

Intervals of integer positions, and lists of them that are laid out in a range
without overlap.  `Fits.append` is how a layout is built: one range after the
other.
-/

namespace MLKit.Lib

/-- The positions `lo`, ..., `lo + size - 1`. -/
structure Slot where
  lo : Int
  size : Nat
  deriving DecidableEq

namespace Slot

/-- The first position past the interval. -/
def hi (slot : Slot) : Int := slot.lo + slot.size

/-- Two intervals share no position. -/
def Apart (first second : Slot) : Prop := first.hi ≤ second.lo ∨ second.hi ≤ first.lo

instance (first second : Slot) : Decidable (Apart first second) :=
  inferInstanceAs (Decidable (_ ∨ _))

theorem Apart.symm {first second : Slot} (h : Apart first second) : Apart second first := Or.symm h

end Slot

/-- The intervals are pairwise apart and lie in the range from `lo` to `hi`. -/
def Fits (lo hi : Int) (slots : List Slot) : Prop :=
  slots.Pairwise Slot.Apart ∧ ∀ slot ∈ slots, lo ≤ slot.lo ∧ slot.hi ≤ hi

namespace Fits

variable {lo mid hi : Int} {slot : Slot} {slots slots' : List Slot}

theorem nil (lo hi : Int) : Fits lo hi [] := ⟨List.Pairwise.nil, by simp⟩

theorem singleton (hlo : lo ≤ slot.lo) (hhi : slot.hi ≤ hi) : Fits lo hi [slot] :=
  ⟨List.pairwise_singleton _ _, by simpa using ⟨hlo, hhi⟩⟩

/-- Two layouts in consecutive ranges. -/
theorem append (h : Fits lo mid slots) (h' : Fits mid hi slots') (hlo : lo ≤ mid) (hhi : mid ≤ hi) :
    Fits lo hi (slots ++ slots') := by
  refine ⟨List.pairwise_append.mpr ⟨h.1, h'.1, ?_⟩, ?_⟩
  · intro slot hmem slot' hmem'
    have hbound := h.2 slot hmem
    have hbound' := h'.2 slot' hmem'
    exact Or.inl (by omega)
  · intro slot hmem
    rcases List.mem_append.mp hmem with hmem | hmem
    · have hbound := h.2 slot hmem
      omega
    · have hbound := h'.2 slot hmem
      omega

theorem of_perm (h : Fits lo hi slots) (hperm : slots.Perm slots') : Fits lo hi slots' :=
  ⟨(hperm.pairwise_iff fun hapart => hapart.symm).mp h.1,
    fun slot hmem => h.2 slot (hperm.mem_iff.mpr hmem)⟩

end Fits

end MLKit.Lib
