import MLKit.Common.NatSet
import Mathlib.Tactic.Ring

/-!
# Sets of words are canonical

The trees that the operations make have no node without elements, so equal sets are equal trees, and
the folds go over the elements once each. Filtering calls the predicate on other numbers than the
elements.
-/

namespace MLKit.NatSet

open List

variable {w w' : Bits} {n i j : Nat} {t : Natset} {p : Nat → Bool}

theorem eq_of_isb (h : ∀ i < 31, isb w i = isb w' i) : w = w' := BitVec.eq_of_getLsbD_eq h

theorem isb_setb (w : Bits) (hn : n < 31) (i : Nat) :
    isb (setb w n) i = (isb w i || decide (i = n)) := by
  simp [isb, setb, BitVec.getLsbD_twoPow, hn, eq_comm]

theorem isb_unsetb (w : Bits) (n i : Nat) : isb (unsetb w n) i = (isb w i && decide (i ≠ n)) := by
  simp [isb, unsetb, BitVec.getLsbD_twoPow]
  grind

theorem member_mksome (w : Bits) (t₁ t₂ : Natset) (n : Nat) :
    member n (mksome w t₁ t₂) = member n (.some w t₁ t₂) := by
  unfold mksome
  split
  · next h => simp [h, member, isb]
  · rfl

theorem member_union (s t : Natset) (n : Nat) :
    member n (union s t) = (member n s || member n t) := by
  fun_induction union s t generalizing n with
  | case1 t => simp [member]
  | case2 s _ => simp [member]
  | case3 w1 t11 t12 w2 t21 t22 ih1 ih2 =>
    simp only [member, ih1, ih2]
    split_ifs <;> simp [isb]

theorem member_intersection (s t : Natset) (n : Nat) :
    member n (intersection s t) = (member n s && member n t) := by
  fun_induction intersection s t generalizing n with
  | case1 t => simp [member]
  | case2 s _ => simp [member]
  | case3 w1 t11 t12 w2 t21 t22 ih1 ih2 =>
    simp only [member_mksome, member, ih1, ih2]
    split_ifs <;> simp [isb]

theorem member_difference (s t : Natset) (n : Nat) :
    member n (difference s t) = (member n s && !member n t) := by
  fun_induction difference s t generalizing n with
  | case1 t => simp [member]
  | case2 s _ => simp [member]
  | case3 w1 t11 t12 w2 t21 t22 ih1 ih2 =>
    simp only [member_mksome, member, ih1, ih2]
    split_ifs <;> simp [isb, *]

theorem member_delete0 (t : Natset) (n m : Nat) :
    member m (delete0 t n) = (member m t && decide (m ≠ n)) := by
  induction t generalizing n m with
  | empty => simp [delete0, member]
  | some w t₁ t₂ ih1 ih2 =>
    simp only [delete0]
    split_ifs <;> simp only [member_mksome, member, ih1, ih2] <;> grind [isb_unsetb]

theorem member_add0 (t : Natset) (n m : Nat) :
    member m (add0 t n) = (member m t || decide (m = n)) := by
  fun_induction add0 t n generalizing m <;> grind [member, isb_setb, isb]

@[simp] theorem member_left (w : Bits) (t₁ t₂ : Natset) (n : Nat) :
    member (2 * n + 31) (.some w t₁ t₂) = member n t₁ := by
  rw [member, if_neg (by omega), if_pos (by omega), show (2 * n + 31 - 31) / 2 = n by omega]

@[simp] theorem member_right (w : Bits) (t₁ t₂ : Natset) (n : Nat) :
    member (2 * n + 32) (.some w t₁ t₂) = member n t₂ := by
  rw [member, if_neg (by omega), if_neg (by omega), show (2 * n + 32 - 32) / 2 = n by omega]

/-! ## Normal forms -/

/-- No node is without elements. -/
def Canonical : Natset → Prop
  | .empty => True
  | .some w t₁ t₂ =>
    (∃ n, member n (.some w t₁ t₂) = true) ∧ Canonical t₁ ∧ Canonical t₂

theorem Canonical.exists_member (h : Canonical t) (hne : t ≠ .empty) : ∃ n, member n t = true := by
  cases t with
  | empty => exact absurd rfl hne
  | some w t₁ t₂ => exact h.1

namespace Canonical

variable {s t t₁ t₂ : Natset}

theorem mksome {w : Bits} (h1 : Canonical t₁) (h2 : Canonical t₂) : Canonical (mksome w t₁ t₂) := by
  unfold NatSet.mksome
  split
  · trivial
  next h =>
    refine ⟨?_, h1, h2⟩
    by_contra hno
    simp only [not_exists, Bool.not_eq_true] at hno
    apply h
    refine ⟨?_, ?_, ?_⟩
    · exact eq_of_isb fun i hi => by simpa [member, hi, isb] using hno i
    · by_contra hne
      obtain ⟨n, hn⟩ := h1.exists_member hne
      simpa [hn] using hno (2 * n + 31)
    · by_contra hne
      obtain ⟨n, hn⟩ := h2.exists_member hne
      simpa [hn] using hno (2 * n + 32)

theorem union (hs : Canonical s) (ht : Canonical t) : Canonical (union s t) := by
  fun_induction NatSet.union s t with
  | case1 t => exact ht
  | case2 s _ => exact hs
  | case3 w1 t11 t12 w2 t21 t22 ih1 ih2 =>
    obtain ⟨n, hn⟩ := hs.1
    have hmem := member_union (.some w1 t11 t12) (.some w2 t21 t22) n
    rw [hn] at hmem
    exact ⟨⟨n, hmem⟩, ih1 hs.2.1 ht.2.1, ih2 hs.2.2 ht.2.2⟩

theorem intersection : Canonical (intersection s t) := by
  fun_induction NatSet.intersection s t with
  | case1 t | case2 s _ => trivial
  | case3 w1 t11 t12 w2 t21 t22 ih1 ih2 => exact .mksome ih1 ih2

theorem difference (hs : Canonical s) : Canonical (difference s t) := by
  fun_induction NatSet.difference s t with
  | case1 t => trivial
  | case2 s _ => exact hs
  | case3 w1 t11 t12 w2 t21 t22 ih1 ih2 => exact .mksome (ih1 hs.2.1) (ih2 hs.2.2)

theorem delete0 {n : Nat} (h : Canonical t) : Canonical (delete0 t n) := by
  fun_induction NatSet.delete0 t n with
  | case1 => trivial
  | case2 w t₁ t₂ n => exact .mksome h.2.1 h.2.2
  | case3 w t₁ t₂ n _ _ ih => exact .mksome (ih h.2.1) h.2.2
  | case4 w t₁ t₂ n _ _ ih => exact .mksome h.2.1 (ih h.2.2)

theorem add0 {n : Nat} (h : Canonical t) : Canonical (add0 t n) := by
  induction n using Nat.strongRecOn generalizing t with
  | ind n ih =>
    have hself : member n (NatSet.add0 t n) = true := by simp [member_add0]
    cases t with
    | empty =>
      rw [NatSet.add0] at hself ⊢
      split_ifs at hself ⊢
      · exact ⟨⟨n, hself⟩, trivial, trivial⟩
      · exact ⟨⟨n, hself⟩, ih _ (by omega) trivial, trivial⟩
      · exact ⟨⟨n, hself⟩, trivial, ih _ (by omega) trivial⟩
    | some w t₁ t₂ =>
      rw [NatSet.add0] at hself ⊢
      split_ifs at hself ⊢
      · exact ⟨⟨n, hself⟩, h.2.1, h.2.2⟩
      · exact ⟨⟨n, hself⟩, ih _ (by omega) h.2.1, h.2.2⟩
      · exact ⟨⟨n, hself⟩, h.2.1, ih _ (by omega) h.2.2⟩

/-- A set is its elements. -/
theorem ext (hs : Canonical s) (ht : Canonical t) (h : ∀ n, member n s = member n t) : s = t := by
  induction s generalizing t with
  | empty =>
    by_contra hne
    obtain ⟨n, hn⟩ := ht.exists_member (Ne.symm hne)
    rw [← h n] at hn
    cases hn
  | some w t₁ t₂ ih1 ih2 =>
    cases t with
    | empty =>
      obtain ⟨n, hn⟩ := hs.1
      rw [h n] at hn
      cases hn
    | some w' u1 u2 =>
      congr 1
      · exact eq_of_isb fun i hi => by simpa [member, hi] using h i
      · exact ih1 hs.2.1 ht.2.1 fun n => by simpa using h (2 * n + 31)
      · exact ih2 hs.2.2 ht.2.2 fun n => by simpa using h (2 * n + 32)

end Canonical

/-! ## The folds -/

/-- The elements in the order of `foldset`. -/
def elems : Natset → List Nat
  | .empty => []
  | .some w t₁ t₂ => (range 31).filter (isb w) ++ (elems t₂).map (2 * · + 32) ++
      (elems t₁).map (2 * · + 31)

theorem mem_elems (t : Natset) (x : Nat) : x ∈ elems t ↔ member x t = true := by
  induction t generalizing x with
  | empty => simp [elems, member]
  | some w t₁ t₂ ih1 ih2 =>
    simp only [elems, mem_append, mem_filter, mem_range, mem_map, ih1, ih2, member]
    split_ifs with hlt hodd
    · grind
    · grind
    · grind

theorem nodup_elems (t : Natset) : (elems t).Nodup := by
  induction t with
  | empty => exact .nil
  | some w t₁ t₂ ih1 ih2 =>
    refine .append (.append (nodup_range.filter _) (ih2.map fun a b h => ?_) ?_)
      (ih1.map fun a b h => ?_) ?_
    · omega
    · intro x hx hx'
      obtain ⟨m, -, rfl⟩ := mem_map.1 hx'
      have hlt := mem_range.1 (mem_filter.1 hx).1
      omega
    · omega
    · intro x hx hx'
      obtain ⟨m, -, rfl⟩ := mem_map.1 hx'
      rcases mem_append.1 hx with hx | hx
      · have hlt := mem_range.1 (mem_filter.1 hx).1
        omega
      · obtain ⟨m', -, heq⟩ := mem_map.1 hx
        omega

section Folds

variable {β : Type} (f : β → Nat → β) (n d : Nat)

theorem slb_eq (w : Bits) (a : β) (hw : ∀ j < i, isb w j = false) :
    slb f n d w i a = some ((((range' i (31 - i)).filter (isb w)).map (n + d * ·)).foldl f a) := by
  have hrange : ∀ i, ¬ 31 ≤ i → range' i (31 - i) = i :: range' (i + 1) (31 - (i + 1)) :=
    fun i hi => by rw [show 31 - i = 31 - (i + 1) + 1 by omega, range'_succ]
  fun_induction slb f n d w i a with
  | case1 i a => rw [filter_eq_nil_iff.2 fun j _ => by simp [isb]]; rfl
  | case2 w i a hne hi =>
    exact absurd (eq_of_isb fun j hj => by simpa [isb] using hw j (by omega)) hne
  | case3 w i a hne hi hbit ih =>
    rw [ih fun j hj => ?_, hrange i hi, filter_cons_of_pos hbit, map_cons, foldl_cons]
    · congr 3
      refine filter_congr fun j hj => ?_
      rw [isb_unsetb, decide_eq_true (by have := mem_range'_1.1 hj; omega), Bool.and_true]
    · rw [isb_unsetb]
      by_cases hji : j = i
      · simp [hji]
      · simp [hw j (by omega)]
  | case4 w i a hne hi hbit ih =>
    rw [ih fun j hj => ?_, hrange i hi, filter_cons_of_neg hbit]
    by_cases hji : j = i
    · simpa [hji] using hbit
    · exact hw j (by omega)

theorem sl_eq (t : Natset) (a : β) :
    sl f n d t a = some (((elems t).map (n + d * ·)).foldl f a) := by
  induction t generalizing n d a with
  | empty => rfl
  | some w t₁ t₂ ih1 ih2 =>
    have h2 : ∀ m, n + d * 31 + d + 2 * d * m = n + d * (2 * m + 32) := fun m => by ring
    have h1 : ∀ m, n + d * 31 + 2 * d * m = n + d * (2 * m + 31) := fun m => by ring
    simp [sl, slb_eq f n d w a, ih1, ih2, elems, range_eq_range', h1, h2, Function.comp_def]

end Folds

theorem cardinality_eq (t : Natset) : cardinality t = some (elems t).length := by
  have hgo : ∀ t a, cardinality.go t a = some (a + (elems t).length) := by
    intro t
    induction t with
    | empty => exact fun a => rfl
    | some w t₁ t₂ ih1 ih2 =>
      intro a
      simp [cardinality.go, count, slb_eq, ih1, ih2, elems, foldl_const, range_eq_range']
      omega
  rw [cardinality, hgo, Nat.zero_add]

/-! ## Sets that are built by the operations -/

/-- The trees that the operations make, with the sets they stand for. -/
inductive Built : Natset → Finset Nat → Prop where
  | empty : Built .empty ∅
  | singleton (i : Nat) : Built (singleton i) {i}
  | insert {t : Natset} {S : Finset Nat} (n : Nat) (h : Built t S) : Built (add t n) (insert n S)
  | union {s t : Natset} {S T : Finset Nat} (hs : Built s S) (ht : Built t T) :
      Built (union s t) (S ∪ T)
  | intersect {s t : Natset} {S T : Finset Nat} (hs : Built s S) (ht : Built t T) :
      Built (intersection s t) (S ∩ T)
  | difference {s t : Natset} {S T : Finset Nat} (hs : Built s S) (ht : Built t T) :
      Built (difference s t) (S \ T)
  | remove {t : Natset} {S : Finset Nat} (n : Nat) (h : Built t S) : Built (delete t n) (S.erase n)
  | fromList (l : List Nat) : Built (natsetof l) l.toFinset

theorem add_spec (h : Canonical t) (n : Nat) :
    Canonical (add t n) ∧ ∀ m, member m (add t n) = (member m t || decide (m = n)) := by
  unfold add
  split
  · next hn =>
    refine ⟨h, fun m => ?_⟩
    by_cases hm : m = n <;> simp [hm, hn]
  · exact ⟨h.add0, member_add0 t n⟩

theorem delete_spec (h : Canonical t) (n : Nat) :
    Canonical (delete t n) ∧ ∀ m, member m (delete t n) = (member m t && decide (m ≠ n)) := by
  unfold delete
  split
  · exact ⟨h.delete0, member_delete0 t n⟩
  · next hn =>
    refine ⟨h, fun m => ?_⟩
    by_cases hm : m = n <;> simp [hm, hn]

variable {S : Finset Nat}

theorem Built.spec (h : Built t S) : Canonical t ∧ ∀ n, member n t = true ↔ n ∈ S := by
  induction h with
  | empty => simp [Canonical, member]
  | singleton i => exact ⟨.add0 trivial, by simp [NatSet.singleton, member_add0, member]⟩
  | insert n h ih =>
    obtain ⟨hcan, hmem⟩ := add_spec ih.1 n
    exact ⟨hcan, fun m => by simp [hmem, ih.2, or_comm]⟩
  | union hs ht ihs iht => exact ⟨ihs.1.union iht.1, by simp [member_union, ihs.2, iht.2]⟩
  | intersect hs ht ihs iht =>
    exact ⟨.intersection, by simp [member_intersection, ihs.2, iht.2]⟩
  | difference hs ht ihs iht =>
    exact ⟨ihs.1.difference, by simp [member_difference, ihs.2, ← iht.2]⟩
  | remove n h ih =>
    obtain ⟨hcan, hmem⟩ := delete_spec ih.1 n
    exact ⟨hcan, fun m => by simp [hmem, ih.2, and_comm]⟩
  | fromList l =>
    induction l with
    | nil => simp [natsetof, Canonical, member]
    | cons x xs ih =>
      obtain ⟨hcan, hmem⟩ := add_spec ih.1 x
      exact ⟨hcan, fun m => by simp [natsetof, hmem, ih.2, or_comm]⟩

theorem Built.addList {t : Natset} {S : Finset Nat} (h : Built t S) (l : List Nat) :
    Built (addList l t) (l.toFinset ∪ S) := by
  induction l with
  | nil => simpa [NatSet.addList] using h
  | cons x xs ih =>
    rw [toFinset_cons, Finset.insert_union]
    exact .insert x ih

theorem Built.subst {t : Natset} {S : Finset Nat} (h : Built t S) (a b : Nat) :
    Built (subst a b t) (if b ∈ S then Insert.insert a (S.erase b) else S) := by
  simp only [NatSet.subst, h.spec.2]
  split
  · exact .insert a (.remove b h)
  · exact h

theorem Built.map {t : Natset} {S : Finset Nat} (h : Built t S) (f : Nat → Nat) :
    ∃ t', map f t = some t' ∧ Built t' (S.image f) := by
  have hS : S.image f = ((elems t).map f).reverse.toFinset := by
    ext n
    simp [mem_elems, h.spec.2]
  rw [hS]
  refine ⟨_, ?_, .fromList _⟩
  simp [NatSet.map, mapset, foldset, sl_eq, foldl_flip_cons_eq_append]

/-- Sets with the same elements are equal, and what the operations return is what the set has. -/
theorem built_agrees {s t : Natset} {S T : Finset Nat} (hs : Built s S) (ht : Built t T) :
    (eq s t = true ↔ ∀ n, member n s = member n t) ∧ (∀ n, member n s = true ↔ n ∈ S) ∧
      cardinality s = some S.card ∧ ∃ l, list s = some l ∧ l.Nodup ∧ l.toFinset = S ∧
        ∀ (β : Type) (f : Nat → β → β) (e : β), fold f e s = some (l.foldr f e) := by
  have hS : (elems s).toFinset = S := by
    ext n
    rw [mem_toFinset, mem_elems, hs.spec.2]
  refine ⟨?_, hs.spec.2, ?_, (elems s).reverse, ?_, ?_, ?_, fun β f e => ?_⟩
  · rw [eq, decide_eq_true_iff]
    exact ⟨fun h n => h ▸ rfl, hs.spec.1.ext ht.spec.1⟩
  · rw [cardinality_eq, ← hS, toFinset_card_of_nodup (nodup_elems s)]
  · simp [list, foldset, sl_eq, foldl_flip_cons_eq_append]
  · exact nodup_reverse.2 (nodup_elems s)
  · rw [toFinset_reverse, hS]
  · simp [fold, foldset, sl_eq]

/-! ## Filtering -/

/-- The depth of the node of an element. -/
def depth (x : Nat) : Nat := Nat.log2 ((x + 31) / 31)

/-- The bit of an element in its node. -/
def bitOf (x : Nat) : Nat := (x + 31) / 2 ^ depth x - 31

/-- The number that the predicate is called on for an element. -/
def asked (x : Nat) : Nat := x + 2 * bitOf x - 2 ^ depth x * bitOf x

theorem depth_child {b : Nat} (m : Nat) (hb : b < 2) : depth (2 * m + 31 + b) = depth m + 1 := by
  have hhalf : (2 * m + 31 + b + 31) / 31 / 2 = (m + 31) / 31 := by omega
  rw [depth, depth, Nat.log2_def, if_pos (by omega), hhalf]

theorem bitOf_child {b : Nat} (m : Nat) (hb : b < 2) : bitOf (2 * m + 31 + b) = bitOf m := by
  rw [bitOf, bitOf, depth_child m hb, pow_succ', ← Nat.div_div_eq_div_mul]
  congr 2
  omega

/-- The number that the predicate is called on for element `m` of the node of `n` and `d`. -/
def askedFrom (n d m : Nat) : Nat :=
  if m < 31 then n + 2 * m
  else if m % 2 ≠ 0 then askedFrom (n + d * 31) (2 * d) ((m - 31) / 2)
  else askedFrom (n + d * 32) (2 * d) ((m - 32) / 2)
  termination_by m

theorem askedFrom_eq (n d m : Nat) :
    askedFrom n d m + d * 2 ^ depth m * bitOf m = n + d * m + 2 * bitOf m := by
  fun_induction askedFrom n d m with
  | case1 n d m hlt =>
    have hdepth : depth m = 0 := by
      rw [depth, Nat.log2_def, if_neg (by omega)]
    rw [bitOf, hdepth, pow_zero, Nat.div_one, Nat.add_sub_cancel]
    ring
  | case2 n d m hge hodd ih =>
    obtain ⟨m', rfl⟩ : ∃ m', m = 2 * m' + 31 + 0 := ⟨(m - 31) / 2, by omega⟩
    rw [show (2 * m' + 31 + 0 - 31) / 2 = m' by omega] at ih ⊢
    rw [depth_child m' (by omega), bitOf_child m' (by omega), pow_succ',
      ← mul_assoc d, mul_comm d 2, ih]
    ring
  | case3 n d m hge heven ih =>
    obtain ⟨m', rfl⟩ : ∃ m', m = 2 * m' + 31 + 1 := ⟨(m - 32) / 2, by omega⟩
    rw [show (2 * m' + 31 + 1 - 32) / 2 = m' by omega] at ih ⊢
    rw [depth_child m' (by omega), bitOf_child m' (by omega), pow_succ',
      ← mul_assoc d, mul_comm d 2, ih]
    ring

theorem askedFrom_root (x : Nat) : askedFrom 0 1 x = asked x := by
  have h := askedFrom_eq 0 1 x
  rw [one_mul, one_mul, zero_add] at h
  rw [asked, ← h, Nat.add_sub_cancel]

theorem isb_filterBits (hj : j < 31) :
    isb (filterBits p n w i w') j = (isb w' j || decide (i ≤ j) && (isb w j && p (n + 2 * j))) := by
  fun_induction filterBits p n w i w' with
  | case1 i w' hi hbit ih =>
    rw [ih, isb_setb w' hi]
    grind
  | case2 i w' hi hbit ih =>
    grind
  | case3 i w' hi => simp [show ¬ i ≤ j by omega]

theorem member_filterFrom (p : Nat → Bool) (n d : Nat) (t : Natset) (m : Nat) :
    member m (filterFrom p n d t) = (member m t && p (askedFrom n d m)) := by
  induction t generalizing n d m with
  | empty => simp [filterFrom, member]
  | some w t₁ t₂ ih1 ih2 =>
    rw [filterFrom, member_mksome, member, member, askedFrom]
    split_ifs with hlt hodd
    · rw [isb_filterBits hlt, show isb 0 m = false by simp [isb]]
      simp
    · exact ih1 ..
    · exact ih2 ..

/-- Filtering is right when the predicate does not tell a member from the number it is called on. -/
theorem setfilter_exact_iff (p : Nat → Bool) (t : Natset) :
    ((∀ x, member x (setfilter p t) = (member x t && p x)) ∧
      ∀ x, member x (partition p t).1 = (member x t && p x) ∧
        member x (partition p t).2 = (member x t && !p x)) ↔
    ∀ x, member x t = true → p (asked x) = p x := by
  simp only [partition, setfilter, member_filterFrom, askedFrom_root]
  refine ⟨fun h x hx => by simpa [hx] using h.1 x, fun h => ?_⟩
  have hall : ∀ x, (member x t && p (asked x)) = (member x t && p x) ∧
      (member x t && !p (asked x)) = (member x t && !p x) := by
    intro x
    cases hx : member x t with
    | false => exact ⟨rfl, rfl⟩
    | true => rw [h x hx]; exact ⟨rfl, rfl⟩
  exact ⟨fun x => (hall x).1, hall⟩

/-- Element 1 of a set is judged by what the predicate says of 2. -/
theorem one_filtered_out : member 1 (setfilter (fun x => x = 1) (singleton 1)) = false ∧
    member 1 (singleton 1) = true ∧ Built (singleton 1) {1} :=
  ⟨by simp [setfilter, member_filterFrom, askedFrom], by simp [singleton, member_add0], .singleton 1⟩

/-- Two ways to the same set. -/
theorem built_agrees_pair : eq (add (singleton 40) 3) (delete (natsetof [3, 40, 5]) 5) = true ↔
    ∀ n, member n (add (singleton 40) 3) = member n (delete (natsetof [3, 40, 5]) 5) :=
  (built_agrees (.insert 3 (.singleton 40)) (.remove 5 (.fromList [3, 40, 5]))).1

end MLKit.NatSet
