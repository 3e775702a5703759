import Mathlib.Logic.Relation

/-!
# Doing things in an order that respects a precedence

`before j i` says that `j` has to be done before `i`.  A list of things that have been
done, the last one first, is `Serial` when each was done after all that had to be done
before it.
-/

namespace MLKit.Lib

open Relation

variable {ι : Type}

inductive Serial (before : ι → ι → Prop) : List ι → Prop
  | nil : Serial before []
  | cons {i : ι} {X : List ι} (hbefore : ∀ j, before j i → j ∈ X) (hnew : i ∉ X)
      (hX : Serial before X) : Serial before (i :: X)

variable {before : ι → ι → Prop} {X : List ι} {i j : ι}

namespace Serial

theorem mem_of_before (hX : Serial before X) (hi : i ∈ X) (hj : before j i) : j ∈ X := by
  induction hX with
  | nil => cases hi
  | cons hbefore hnew hX ih =>
    rcases List.mem_cons.1 hi with rfl | hi
    · exact .tail _ (hbefore j hj)
    · exact .tail _ (ih hi)

/-- What is done is closed under what has to be done before. -/
theorem mem_of_transGen (hX : Serial before X) (hi : i ∈ X) (hj : TransGen before j i) : j ∈ X := by
  induction hj using TransGen.head_induction_on with
  | single hj => exact hX.mem_of_before hi hj
  | head hj _ ih => exact hX.mem_of_before ih hj

theorem mem_of_ready (hX : Serial before X) (hready : ∀ j, before j i → j ∈ X)
    (hj : TransGen before j i) : j ∈ X := by
  rcases TransGen.tail'_iff.1 hj with ⟨k, hjk, hki⟩
  rcases reflTransGen_iff_eq_or_transGen.1 hjk with rfl | hjk
  · exact hready _ hki
  · exact hX.mem_of_transGen (hready k hki) hjk

end Serial

end MLKit.Lib
