import Mathlib.Data.List.Nodup
import Mathlib.Logic.Function.Basic

/-!
# Linked lists in a store

A store `next` gives each node its successor.  `Chain null next p l` says that
following `next` from `p` meets exactly the nodes of `l`, and then `null`.
-/

namespace MLKit.Lib

open Function List

variable {α : Type}

def Chain (null : α) (next : α → α) : α → List α → Prop
  | p, [] => p = null
  | p, q :: l => p = q ∧ q ≠ null ∧ Chain null next (next q) l

variable {null p f q : α} {e : Nat → α} {j k : Nat}

namespace Chain

variable {next next' : α → α} {l m : List α}

@[simp] theorem nil_iff : Chain null next p [] ↔ p = null := Iff.rfl

theorem unique (hl : Chain null next p l) (hm : Chain null next p m) : l = m := by
  induction l generalizing p m with
  | nil =>
    cases m with
    | nil => rfl
    | cons r m =>
      exact absurd (hm.1.symm.trans hl) hm.2.1
  | cons q l ih =>
    obtain ⟨rfl, hq, hl⟩ := hl
    cases m with
    | nil => exact absurd hm hq
    | cons r m =>
      obtain ⟨rfl, -, hm⟩ := hm
      rw [ih hl hm]

theorem eq_nil_iff (h : Chain null next p l) : l = [] ↔ p = null := by
  cases l with
  | nil => exact iff_of_true rfl h
  | cons q l =>
    obtain ⟨rfl, hq, -⟩ := h
    exact iff_of_false (cons_ne_nil _ _) hq

/-- A node that is not `null` is the first of its chain. -/
theorem pop (h : Chain null next p l) (hp : p ≠ null) :
    ∃ l', l = p :: l' ∧ Chain null next (next p) l' := by
  cases l with
  | nil => exact absurd h hp
  | cons q l =>
    obtain ⟨rfl, -, h⟩ := h
    exact ⟨l, rfl, h⟩

theorem of_append (h : Chain null next p (l ++ q :: m)) : Chain null next q (q :: m) := by
  induction l generalizing p with
  | nil =>
    obtain ⟨rfl, hq, h⟩ := h
    exact ⟨rfl, hq, h⟩
  | cons r l ih => exact ih h.2.2

/-- A chain that ends does not meet a node twice. -/
theorem nodup (h : Chain null next p l) : l.Nodup := by
  induction l generalizing p with
  | nil => exact nodup_nil
  | cons q l ih =>
    refine nodup_cons.2 ⟨fun hmem => ?_, ih h.2.2⟩
    obtain ⟨l1, l2, rfl⟩ := append_of_mem hmem
    -- the chain from `q` would be both the whole list and a proper part of it
    have hpart : Chain null next q (q :: l2) := of_append h.2.2
    obtain ⟨rfl, hq, hrest⟩ := h
    have heq : p :: (l1 ++ p :: l2) = p :: l2 := unique ⟨rfl, hq, hrest⟩ hpart
    have hlen := congrArg List.length heq
    simp only [length_cons, length_append] at hlen
    omega

theorem congr (hnext : ∀ r ∈ l, next' r = next r) (h : Chain null next p l) :
    Chain null next' p l := by
  induction l generalizing p with
  | nil => exact h
  | cons q l ih =>
    obtain ⟨hq, hl⟩ := forall_mem_cons.1 hnext
    exact ⟨h.1, h.2.1, hq ▸ ih hl h.2.2⟩

/-- A sequence of nodes each of which points to the next one. -/
theorem of_seq (hne : ∀ i, e i ≠ null) (hnext : ∀ i, i < j + k → next (e i) = e (i + 1))
    (hlast : next (e (j + k)) = f) (hm : Chain null next f m) :
    Chain null next (e j) ((List.range' j (k + 1)).map e ++ m) := by
  induction k generalizing j with
  | zero =>
    refine ⟨rfl, hne j, ?_⟩
    rw [Nat.add_zero] at hlast
    rw [hlast]
    exact hm
  | succ k ih =>
    refine ⟨rfl, hne j, ?_⟩
    rw [hnext j (by omega)]
    apply ih
    · intro i hi
      exact hnext i (by omega)
    · rw [← hlast]
      congr 2
      omega

variable [DecidableEq α]

theorem update_of_not_mem (hq : q ∉ l) (r : α) (h : Chain null next p l) :
    Chain null (update next q r) p l := by
  refine h.congr fun s hs => update_of_ne ?_ _ _
  rintro rfl
  exact hq hs

/-- A new node in front of a chain. -/
theorem push (hq : q ∉ l) (hnull : q ≠ null) (h : Chain null next p l) :
    Chain null (update next q p) q (q :: l) := by
  refine ⟨rfl, hnull, ?_⟩
  rw [update_self]
  exact h.update_of_not_mem hq p

/-- The last node of a chain is made to point to another chain. -/
theorem splice (hl : Chain null next p l) (hlast : l.getLast? = some q) (hq : q ∉ m)
    (hm : Chain null next f m) : Chain null (update next q f) p (l ++ m) := by
  induction l generalizing p with
  | nil => cases hlast
  | cons r l ih =>
    have hnodup := nodup_cons.1 hl.nodup
    obtain ⟨rfl, hr, hrest⟩ := hl
    cases l with
    | nil =>
      obtain rfl : p = q := by simpa using hlast
      refine ⟨rfl, hr, ?_⟩
      rw [update_self]
      exact hm.update_of_not_mem hq f
    | cons s l =>
      have hne : p ≠ q := fun heq => hnodup.1 (heq ▸ mem_of_getLast? hlast)
      refine ⟨rfl, hr, ?_⟩
      rw [update_of_ne hne]
      exact ih hrest hlast

end Chain

end MLKit.Lib
