import MLKit.Lib.Chain
import Mathlib.Data.Nat.Bitwise

/-!
# Region pages

The page arithmetic of `Region.h`.  Addresses are counted in bytes; a page is
aligned on its own size, so its first byte and the byte behind it are found from
the allocation pointer of its generation.
-/

namespace MLKit.Runtime

open MLKit.Lib Nat

/-- `REGION_PAGE_SIZE_BYTES`, which is also `sizeof(Rp)` and `size_region_page`. -/
def pageBytes : Nat := 8 * 1024

/-- `WORD_SIZE_BYTES`. -/
def wordBytes : Nat := 8

/-- `REGION_PAGE_BAG_SIZE`. -/
def regionPageBagSize : Nat := 100

/-- The first byte behind the page of an allocation pointer, which may itself
point there. -/
def rpBoundary (a : Nat) : Nat := ((a - 1) ||| (pageBytes - 1)) + 1

/-- `last_rp_of_gen`, from the allocation pointer of the generation. -/
def lastRp (a : Nat) : Nat := (a - 1) - ((a - 1) &&& (pageBytes - 1))

theorem and_mask (x : Nat) : x &&& (pageBytes - 1) = x % pageBytes :=
  and_two_pow_sub_one_eq_mod x 13

theorem or_mask (x : Nat) : x ||| (pageBytes - 1) = pageBytes * (x / pageBytes) + (pageBytes - 1) :=
    by
  have hlow : x % pageBytes ||| (pageBytes - 1) = pageBytes - 1 := by
    have hlt : x % pageBytes ||| (pageBytes - 1) < 2 ^ 13 :=
      or_lt_two_pow (mod_lt _ (by decide)) (by decide)
    have hle : pageBytes - 1 ≤ x % pageBytes ||| (pageBytes - 1) := right_le_or
    simp only [pageBytes] at hlt hle ⊢
    omega
  have hsplit : x = pageBytes * (x / pageBytes) ||| x % pageBytes := by
    have hmod : x % pageBytes < 2 ^ 13 := mod_lt _ (by decide)
    have hadd : pageBytes * (x / pageBytes) + x % pageBytes =
        pageBytes * (x / pageBytes) ||| x % pageBytes := two_pow_add_eq_or_of_lt hmod _
    rw [← hadd, div_add_mod]
  have hhigh : pageBytes * (x / pageBytes) ||| (pageBytes - 1) =
      pageBytes * (x / pageBytes) + (pageBytes - 1) :=
    (two_pow_add_eq_or_of_lt (i := 13) (by decide) _).symm
  calc x ||| (pageBytes - 1)
      = (pageBytes * (x / pageBytes) ||| x % pageBytes) ||| (pageBytes - 1) := by rw [← hsplit]
    _ = pageBytes * (x / pageBytes) ||| (x % pageBytes ||| (pageBytes - 1)) := Nat.or_assoc _ _ _
    _ = pageBytes * (x / pageBytes) + (pageBytes - 1) := by rw [hlow, hhigh]

/-- A pointer into a page, or right behind it. -/
structure InPage (page a : Nat) : Prop where
  aligned : pageBytes ∣ page
  above : page < a
  below : a ≤ page + pageBytes

variable {page a a' p q x sb f : Nat} {chunks : List (Nat × Nat)} {next : Nat → Nat} {m : List Nat}

theorem InPage.mono (h : InPage page a) (hle : a ≤ a') (hle' : a' ≤ page + pageBytes) :
    InPage page a' :=
  ⟨h.aligned, lt_of_lt_of_le h.above hle, hle'⟩

theorem InPage.rpBoundary_eq (h : InPage page a) : rpBoundary a = page + pageBytes := by
  obtain ⟨⟨k, rfl⟩, habove, hbelow⟩ := h
  have hdiv : (a - 1) / pageBytes = k := by
    simp only [pageBytes] at habove hbelow ⊢
    omega
  rw [rpBoundary, or_mask, hdiv]
  simp only [pageBytes]

theorem InPage.lastRp_eq (h : InPage page a) : lastRp a = page := by
  obtain ⟨⟨k, rfl⟩, habove, hbelow⟩ := h
  rw [lastRp, and_mask]
  simp only [pageBytes] at habove hbelow ⊢
  omega

theorem pages_apart (hp : pageBytes ∣ p) (hq : pageBytes ∣ q) (hne : p ≠ q) :
    p + pageBytes ≤ q ∨ q + pageBytes ≤ p := by
  obtain ⟨i, rfl⟩ := hp
  obtain ⟨j, rfl⟩ := hq
  simp only [pageBytes] at hne ⊢
  omega

/-! ## Memory from `malloc` -/

/-- The byte is in what `malloc` has returned. -/
def Mapped (chunks : List (Nat × Nat)) (x : Nat) : Prop := ∃ c ∈ chunks, c.1 ≤ x ∧ x < c.1 + c.2

theorem mapped_cons {c : Nat × Nat} (h : Mapped chunks x) : Mapped (c :: chunks) x := by
  obtain ⟨c', hc', hx⟩ := h
  exact ⟨c', .tail _ hc', hx⟩

theorem exists_above : ∃ p, 0 < p ∧ ∀ x, p ≤ x → ¬ Mapped chunks x := by
  induction chunks with
  | nil =>
    refine ⟨1, Nat.one_pos, ?_⟩
    rintro x - ⟨c, hc, -⟩
    cases hc
  | cons c chunks ih =>
    obtain ⟨p, hp, hfree⟩ := ih
    refine ⟨p + (c.1 + c.2), by omega, ?_⟩
    rintro x hx ⟨c', hc', hlo, hhi⟩
    rcases List.mem_cons.1 hc' with rfl | hc'
    · omega
    · exact hfree x (by omega) ⟨c', hc', hlo, hhi⟩

/-- The bytes of `callSbrk`'s chunk; two pages more than it is cut into. -/
def sbrkBytes : Nat := regionPageBagSize * pageBytes + pageBytes + pageBytes

/-- The chunk from the first page boundary on. -/
def alignRp (sb : Nat) : Nat := if sb % pageBytes = 0 then sb else sb + pageBytes - sb % pageBytes

def sbrkPages (sb : Nat) : List Nat :=
  (List.range regionPageBagSize).map fun i => alignRp sb + i * pageBytes

theorem alignRp_spec (sb : Nat) :
    pageBytes ∣ alignRp sb ∧ sb ≤ alignRp sb ∧ alignRp sb < sb + pageBytes := by
  by_cases hmod : sb % pageBytes = 0
  · rw [alignRp, if_pos hmod]
    simp only [pageBytes] at hmod ⊢
    omega
  · rw [alignRp, if_neg hmod]
    simp only [pageBytes] at hmod ⊢
    omega

theorem mem_sbrkPages :
    p ∈ sbrkPages sb ↔ ∃ i < regionPageBagSize, p = alignRp sb + i * pageBytes := by
  simp [sbrkPages, eq_comm]

/-- The pages lie in the chunk. -/
theorem sbrkPages_bounds (hp : p ∈ sbrkPages sb) :
    pageBytes ∣ p ∧ sb ≤ p ∧ p + pageBytes ≤ sb + sbrkBytes := by
  obtain ⟨i, hi, rfl⟩ := mem_sbrkPages.1 hp
  obtain ⟨hdvd, hle, hlt⟩ := alignRp_spec sb
  refine ⟨Nat.dvd_add hdvd (Nat.dvd_mul_left _ _), by omega, ?_⟩
  simp only [sbrkBytes, regionPageBagSize, pageBytes] at hi hlt ⊢
  omega

/-- The pages of a chunk are a list that ends in the list of the last page's link. -/
theorem sbrkPages_chain (hsb : 0 < sb)
    (hnext : ∀ p ∈ sbrkPages sb, next p =
      if p = alignRp sb + (regionPageBagSize - 1) * pageBytes then f else p + pageBytes)
    (hm : Chain 0 next f m) : Chain 0 next (alignRp sb) (sbrkPages sb ++ m) := by
  have hmem : ∀ i < regionPageBagSize, alignRp sb + i * pageBytes ∈ sbrkPages sb :=
    fun i hi => mem_sbrkPages.2 ⟨i, hi, rfl⟩
  have hseq : Chain 0 next (alignRp sb + 0 * pageBytes)
      ((List.range' 0 (regionPageBagSize - 1 + 1)).map (fun i => alignRp sb + i * pageBytes) ++
        m) := by
    refine Chain.of_seq (e := fun i => alignRp sb + i * pageBytes) (fun i => ?_) (fun i hi => ?_)
      ?_ hm
    · have hle := (alignRp_spec sb).2.1
      omega
    · rw [hnext _ (hmem i (by omega)), if_neg, succ_mul, add_assoc]
      simp only [pageBytes]
      omega
    · rw [zero_add, hnext _ (hmem _ (by decide)), if_pos rfl]
  rw [zero_mul, add_zero] at hseq
  exact hseq

end MLKit.Runtime
