import Mathlib.Data.List.Sort

/-!
# Merge sort of the Edinburgh library

`sort` splits a list into its even and odd positions and merges the sorted
halves.  `ListPair.merge` of the source is `List.merge`.
-/

namespace MLKit.Edlib

open List

variable {α : Type*}

def unravel : List α → List α × List α
  | [] => ([], [])
  | [x] => ([x], [])
  | x :: y :: xys => (x :: (unravel xys).1, y :: (unravel xys).2)

theorem unravel_length : ∀ l : List α,
    (unravel l).1.length + (unravel l).2.length = l.length ∧
      (unravel l).2.length ≤ (unravel l).1.length ∧
      (unravel l).1.length ≤ (unravel l).2.length + 1
  | [] | [_] => by simp [unravel]
  | _ :: _ :: xys => by
    have ih := unravel_length xys
    simp only [unravel, length_cons]
    omega

theorem unravel_perm : ∀ l : List α, ((unravel l).1 ++ (unravel l).2).Perm l
  | [] | [_] => by simp [unravel]
  | x :: y :: xys => by
    have ih := unravel_perm xys
    have hmid : ((unravel xys).1 ++ y :: (unravel xys).2).Perm (y :: xys) :=
      perm_middle.trans (ih.cons y)
    exact hmid.cons x

def sort (p : α → α → Bool) : List α → List α
  | [] => []
  | [x] => [x]
  | [x1, x2] => if p x1 x2 then [x1, x2] else [x2, x1]
  | x1 :: x2 :: x3 :: l =>
    List.merge (sort p (unravel (x1 :: x2 :: x3 :: l)).1)
      (sort p (unravel (x1 :: x2 :: x3 :: l)).2) p
termination_by l => l.length
decreasing_by
  all_goals
    have h := unravel_length (x1 :: x2 :: x3 :: l)
    simp only [length_cons] at h ⊢
    omega

theorem sort_perm (p : α → α → Bool) (l : List α) : (sort p l).Perm l := by
  fun_induction sort p l with
  | case1 | case2 x | case3 x1 x2 h => exact .refl _
  | case4 x1 x2 h => exact .swap x1 x2 []
  | case5 x1 x2 x3 l ih1 ih2 =>
    exact (merge_perm_append p).trans ((ih1.append ih2).trans (unravel_perm _))

section Order

variable {p : α → α → Bool} (htrans : ∀ a b c, p a b = true → p b c = true → p a c = true)

include htrans

theorem merge_pairwise : ∀ xs ys : List α, xs.Pairwise (p · ·) → ys.Pairwise (p · ·) →
    (∀ a ∈ xs, ∀ b ∈ ys, p a b = true ∨ p b a = true) → (List.merge xs ys p).Pairwise (p · ·)
  | [], ys, _, hys, _ => by simpa using hys
  | x :: xs, [], hxs, _, _ => by simpa using hxs
  | x :: xs, y :: ys, hxs, hys, hcross => by
    have hx := pairwise_cons.1 hxs
    have hy := pairwise_cons.1 hys
    by_cases h : p x y = true
    · rw [cons_merge_cons_pos _ _ _ h]
      refine pairwise_cons.2 ⟨?_, merge_pairwise xs (y :: ys) hx.2 hys
        fun a ha b hb => hcross a (.tail x ha) b hb⟩
      intro z hz
      rcases mem_merge.1 hz with hz | hz
      · exact hx.1 z hz
      · rcases mem_cons.1 hz with rfl | hz
        · exact h
        · exact htrans _ _ _ h (hy.1 z hz)
    · have hyx : p y x = true := (hcross x (by simp) y (by simp)).resolve_left h
      rw [cons_merge_cons_neg _ _ _ h]
      refine pairwise_cons.2 ⟨?_, merge_pairwise (x :: xs) ys hxs hy.2
        fun a ha b hb => hcross a ha b (.tail y hb)⟩
      intro z hz
      rcases mem_merge.1 hz with hz | hz
      · rcases mem_cons.1 hz with rfl | hz
        · exact hyx
        · exact htrans _ _ _ hyx (hx.1 z hz)
      · exact hy.1 z hz
  termination_by xs ys => xs.length + ys.length

/-- A list of pairwise comparable elements comes out in order. -/
theorem sort_pairwise (l : List α)
    (hcomp : l.Pairwise fun a b => p a b = true ∨ p b a = true) : (sort p l).Pairwise (p · ·) := by
  fun_induction sort p l with
  | case1 => exact .nil
  | case2 x => exact pairwise_singleton _ _
  | case3 x1 x2 h => simpa using h
  | case4 x1 x2 h =>
    have hxy : p x1 x2 = true ∨ p x2 x1 = true := by simpa using hcomp
    simpa using hxy.resolve_left h
  | case5 x1 x2 x3 l ih1 ih2 =>
    have hsymm : ∀ {a b : α}, (p a b = true ∨ p b a = true) → (p b a = true ∨ p a b = true) :=
      fun h => h.symm
    have hparts := ((unravel_perm (x1 :: x2 :: x3 :: l)).symm.pairwise hcomp hsymm)
    rw [pairwise_append] at hparts
    refine merge_pairwise htrans _ _ (ih1 hparts.1) (ih2 hparts.2.1) ?_
    intro a ha b hb
    exact hparts.2.2 a ((sort_perm _ _).mem_iff.1 ha) b ((sort_perm _ _).mem_iff.1 hb)

end Order

end MLKit.Edlib
