import Mathlib.Data.Finset.Card
import Mathlib.Order.Bounds.Basic

/-!
# Removing elements until nothing changes

A pass goes over a list of items and may remove elements from a set at each of them. Passes are
repeated until one changes nothing. Where an item that keeps a set keeps it from every larger one,
what is left is the greatest set that all items keep.
-/

namespace MLKit.Lib

section

variable {α ι : Type*} {step : Finset α → ι → Finset α} {items : List ι}

/-- One pass. -/
def sweep (step : Finset α → ι → Finset α) (items : List ι) (T : Finset α) : Finset α :=
  items.foldl step T

variable {S T : Finset α}

theorem subset_sweep (hmono : ∀ T i, S ⊆ T → step S i = S → S ⊆ step T i)
    (hS : ∀ i ∈ items, step S i = S) (hsub : S ⊆ T) : S ⊆ sweep step items T := by
  induction items generalizing T with
  | nil => exact hsub
  | cons i items ih =>
    obtain ⟨hi, hrest⟩ := List.forall_mem_cons.1 hS
    exact ih hrest (hmono T i hsub hi)

variable (hstep : ∀ T i, step T i ⊆ T)

include hstep

theorem sweep_subset (items : List ι) (T : Finset α) : sweep step items T ⊆ T := by
  induction items generalizing T with
  | nil => exact Finset.Subset.refl T
  | cons i items ih => exact (ih (step T i)).trans (hstep T i)

theorem step_eq_of_sweep (h : sweep step items T = T) : ∀ i ∈ items, step T i = T := by
  induction items with
  | nil => nofun
  | cons i items ih =>
    have hrest : sweep step items (step T i) = T := h
    -- the set after the first step lies between the result and the set
    have hfirst : step T i = T := (hstep T i).antisymm (hrest.ge.trans (sweep_subset hstep items _))
    rw [hfirst] at hrest
    exact List.forall_mem_cons.2 ⟨hfirst, ih hrest⟩

end

variable {α ι : Type*} [DecidableEq α] (step : Finset α → ι → Finset α) (items : List ι)

def settle (hstep : ∀ T i, step T i ⊆ T) (T : Finset α) : Finset α :=
  if T = sweep step items T then T else settle hstep (sweep step items T)
termination_by T.card
decreasing_by
  rename_i hne
  exact Finset.card_lt_card ((sweep_subset hstep items T).ssubset_of_ne (Ne.symm hne))

theorem settle_isGreatest (hstep : ∀ T i, step T i ⊆ T)
    (hmono : ∀ S T i, S ⊆ T → step S i = S → S ⊆ step T i) (T : Finset α) :
    IsGreatest {S | S ⊆ T ∧ ∀ i ∈ items, step S i = S} (settle step items hstep T) := by
  fun_induction settle step items hstep T with
  | case1 T h => exact ⟨⟨Finset.Subset.refl T, step_eq_of_sweep hstep h.symm⟩, fun S hS => hS.1⟩
  | case2 T h ih =>
    obtain ⟨⟨hsub, hkept⟩, hgreatest⟩ := ih
    refine ⟨⟨hsub.trans (sweep_subset hstep items T), hkept⟩, fun S hS => ?_⟩
    exact hgreatest ⟨subset_sweep (hmono S) hS.2 hS.1, hS.2⟩

end MLKit.Lib
