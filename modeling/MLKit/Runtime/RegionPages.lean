import Mathlib.Data.List.Perm.Basic
import MLKit.Runtime.RegionOps

/-!
# Page lists

What holds of the pages between operations, and while the collector runs.  The
invariant `Inv` lists the generations with their pages; a generation may be without
pages while an operation moves them.
-/

namespace MLKit.Runtime.Seq

open MLKit.Lib List Nat

/-! ## Mark bits -/

variable {c p fp : Nat}

theorem and_low (hc : c < 32) (x : Nat) : x &&& c = x % 32 &&& c := by
  have hle : x &&& c ≤ c := and_le_right
  have hmod : (x &&& c) % 32 = x % 32 &&& c % 32 := and_mod_two_pow (n := 5)
  rw [mod_eq_of_lt (a := c) hc, mod_eq_of_lt (by omega)] at hmod
  exact hmod

theorem or_div (hc : c < 32) (x : Nat) : (x ||| c) / 32 = x / 32 := by
  have h : (x ||| c) / 32 = x / 32 ||| c / 32 := or_div_two_pow (n := 5)
  rw [div_eq_of_lt (a := c) hc, or_zero] at h
  exact h

section Marks

variable (cfg : Config)

theorem Config.clearFp_eq (hgc : cfg.enableGc = true) (fp : Nat) :
    cfg.clearFp fp = 32 * (fp / 32) := by
  have hmask : fp &&& 0x1F = fp % 32 := and_two_pow_sub_one_eq_mod fp 5
  rw [Config.clearFp, if_pos hgc, hmask]
  omega

/-- A mark does not change the pointer. -/
theorem Config.clearFp_setFp (hc : c < 32) (hgc : cfg.enableGc = true) (fp : Nat) :
    cfg.clearFp (setFp fp c) = cfg.clearFp fp := by
  rw [cfg.clearFp_eq hgc, cfg.clearFp_eq hgc, setFp, or_div hc]

theorem Config.clearFp_of_aligned (hp : pageBytes ∣ p) : cfg.clearFp p = p := by
  by_cases hgc : cfg.enableGc = true
  · rw [cfg.clearFp_eq hgc]
    obtain ⟨k, rfl⟩ := hp
    simp only [pageBytes]
    omega
  · rw [Config.clearFp, if_neg hgc]

end Marks

theorem clearStatus_low :
    clearStatus fp / 32 = fp / 32 ∧ clearStatus fp % 32 = clearStatus (fp % 32) := by
  have hlow : fp &&& generationStatus = fp % 32 &&& generationStatus := and_low (by decide) fp
  have hle : fp % 32 &&& generationStatus ≤ fp % 32 := and_le_left
  rw [clearStatus, clearStatus, hlow]
  omega

/-- The marks that stay: all but the status of the scan stack. -/
def Heap.marks (h : Heap) (g : Gen) : Nat := h.fp g &&& 0x17

theorem clearStatus_marks (fp : Nat) : clearStatus fp &&& 0x17 = fp &&& 0x17 := by
  have hsmall : ∀ r < 32, clearStatus r &&& 0x17 = r &&& 0x17 := by decide
  rw [and_low (by decide) (clearStatus fp), clearStatus_low.2, hsmall _ (mod_lt _ (by decide)),
    ← and_low (by decide)]

theorem setFp_status_marks (fp : Nat) : setFp fp generationStatus &&& 0x17 = fp &&& 0x17 := by
  rw [setFp, and_or_distrib_right]
  exact or_zero _

variable {p : Nat}

/-- The first page of a generation keeps the marks. -/
theorem setFp_page (hp : pageBytes ∣ p) (fp : Nat) :
    setFp p (allMarksFp fp) &&& 0x17 = fp &&& 0x17 := by
  have hzero : p &&& 0x17 = 0 := by
    rw [and_low (by decide)]
    obtain ⟨k, rfl⟩ := hp
    have hmod : pageBytes * k % 32 = 0 := by
      simp only [pageBytes]
      omega
    rw [hmod]
    rfl
  rw [setFp, allMarksFp, Nat.and_or_distrib_right, hzero, Nat.zero_or, Nat.and_assoc]
  rfl

theorem clearTospaceBit_of_not (hp : isTospaceBit p = false) : clearTospaceBit p = p := by
  have hone : p &&& 1 = p % 2 := and_two_pow_sub_one_eq_mod p 1
  simp only [isTospaceBit, hone, beq_eq_false_iff_ne] at hp
  rw [clearTospaceBit, hone]
  omega

theorem isTospaceBit_of_aligned (hp : pageBytes ∣ p) : isTospaceBit p = false := by
  have hone : p &&& 1 = p % 2 := and_two_pow_sub_one_eq_mod p 1
  rw [isTospaceBit, hone, beq_eq_false_iff_ne]
  obtain ⟨k, rfl⟩ := hp
  simp only [pageBytes]
  omega

theorem clearTospaceBit_setTospaceBit (hp : pageBytes ∣ p) :
    clearTospaceBit (setTospaceBit p) = p := by
  have hor : setTospaceBit p = p + 1 := by
    obtain ⟨k, rfl⟩ := hp
    have h : 2 ^ 13 * k + 1 = 2 ^ 13 * k ||| 1 := two_pow_add_eq_or_of_lt (by decide) k
    exact h.symm
  have hone : (p + 1) &&& 1 = (p + 1) % 2 := and_two_pow_sub_one_eq_mod (p + 1) 1
  obtain ⟨k, rfl⟩ := hp
  rw [hor, clearTospaceBit, hone]
  simp only [pageBytes]
  omega

theorem isTospaceBit_clearTospaceBit (p : Nat) : isTospaceBit (clearTospaceBit p) = false := by
  have hone : ∀ q, q &&& 1 = q % 2 := fun q => and_two_pow_sub_one_eq_mod q 1
  simp only [isTospaceBit, clearTospaceBit, hone, beq_eq_false_iff_ne]
  omega

/-! ## The invariant -/

/-- The link of a page without its to-space bit. -/
def Heap.link (h : Heap) (p : Nat) : Nat := clearTospaceBit (h.next p)

structure GenInv (cfg : Config) (h : Heap) (g : Gen) (l : List Nat) : Prop where
  chain : Chain 0 h.link (cfg.clearFp (h.fp g)) l
  last : ∀ p, l.getLast? = some p → InPage p (h.a g)
  owner : ∀ p ∈ l, h.owner p = some g

structure PagesOk (h : Heap) (all : List Nat) : Prop where
  nodup : all.Nodup
  total : all.length = h.rpTotal
  aligned : ∀ p ∈ all, pageBytes ∣ p
  mapped : ∀ p ∈ all, Mapped h.chunks p

/-- The generations with their pages, the free pages and the pages of from-space.  No
page of a generation in `P` is in to-space. -/
structure Inv (cfg : Config) (P : Gen → Prop) (h : Heap) (owned : List (Gen × List Nat))
    (free moved : List Nat) : Prop where
  keys : (owned.map Prod.fst).Nodup
  gen : ∀ o ∈ owned, GenInv cfg h o.1 o.2
  plain : ∀ o ∈ owned, P o.1 → ∀ p ∈ o.2, isTospaceBit (h.next p) = false
  freePages : Chain 0 h.next h.freelist free
  fromSpace : moved ≠ [] →
    Chain 0 h.next h.fromSpaceBegin moved ∧ moved.getLast? = some h.fromSpaceEnd
  pages : PagesOk h (owned.flatMap Prod.snd ++ free ++ moved)

variable {cfg : Config} {P Q : Gen → Prop} {h h' : Heap} {g : Gen} {l l' all all' : List Nat}
  {owned owned' rest : List (Gen × List Nat)} {free free' moved moved' : List Nat}

theorem GenInv.congr (hg : GenInv cfg h g l) (hfp : cfg.clearFp (h'.fp g) = cfg.clearFp (h.fp g))
    (ha : h'.a g = h.a g) (hpage : ∀ p ∈ l, h'.next p = h.next p ∧ h'.owner p = h.owner p) :
    GenInv cfg h' g l where
  chain := by
    rw [hfp]
    refine hg.chain.congr fun p hp => ?_
    rw [Heap.link, Heap.link, (hpage p hp).1]
  last := by
    rw [ha]
    exact hg.last
  owner := by
    intro p hp
    rw [(hpage p hp).2]
    exact hg.owner p hp

/-- Without to-space bits the links are a list as they are. -/
theorem GenInv.plainChain (hg : GenInv cfg h g l)
    (hplain : ∀ p ∈ l, isTospaceBit (h.next p) = false) :
    Chain 0 h.next (cfg.clearFp (h.fp g)) l := by
  refine hg.chain.congr fun p hp => ?_
  exact (clearTospaceBit_of_not (hplain p hp)).symm

theorem GenInv.lastRp_eq (hg : GenInv cfg h g l) (hp : l.getLast? = some p) : lastRp (h.a g) = p :=
  (hg.last p hp).lastRp_eq

theorem PagesOk.perm (hall : PagesOk h all) (h' : Heap) (hperm : all.Perm all')
    (htotal : h'.rpTotal = h.rpTotal) (hchunks : h'.chunks = h.chunks) : PagesOk h' all' where
  nodup := hperm.nodup_iff.1 hall.nodup
  total := by rw [htotal, ← hall.total, hperm.length_eq]
  aligned := fun p hp => hall.aligned p (hperm.mem_iff.2 hp)
  mapped := by
    rw [hchunks]
    exact fun p hp => hall.mapped p (hperm.mem_iff.2 hp)

theorem Inv.perm (hinv : Inv cfg P h owned free moved) (hperm : owned.Perm owned') :
    Inv cfg P h owned' free moved where
  keys := (hperm.map _).nodup_iff.1 hinv.keys
  gen := fun o ho => hinv.gen o (hperm.mem_iff.2 ho)
  plain := fun o ho => hinv.plain o (hperm.mem_iff.2 ho)
  freePages := hinv.freePages
  fromSpace := hinv.fromSpace
  pages := hinv.pages.perm h (((hperm.flatMap_right _).append_right _).append_right _) rfl rfl

theorem Inv.weaken (hinv : Inv cfg P h owned free moved) (hPQ : ∀ o ∈ owned, Q o.1 → P o.1) :
    Inv cfg Q h owned free moved :=
  { hinv with plain := fun o ho hQ => hinv.plain o ho (hPQ o ho hQ) }

/-! ## One generation in front of the others -/

section Focus

theorem Inv.free_apart (hinv : Inv cfg P h owned free moved) (hp : p ∈ free) :
    (∀ o ∈ owned, p ∉ o.2) ∧ p ∉ moved := by
  obtain ⟨hleft, -, hmoved⟩ := nodup_append.1 hinv.pages.nodup
  obtain ⟨-, -, hfree⟩ := nodup_append.1 hleft
  constructor
  · intro o ho hpo
    exact hfree p (mem_flatMap.2 ⟨o, ho, hpo⟩) p hp rfl
  · intro hpm
    exact hmoved p (mem_append_right _ hp) p hpm rfl

variable {o : Gen × List Nat}

theorem Inv.moved_apart (hinv : Inv cfg P h owned free moved) (ho : o ∈ owned) (hp : p ∈ o.2) :
    p ∉ moved := by
  obtain ⟨-, -, hmoved⟩ := nodup_append.1 hinv.pages.nodup
  intro hpm
  exact hmoved p (mem_append_left _ (mem_flatMap.2 ⟨o, ho, hp⟩)) p hpm rfl

section

variable (hinv : Inv cfg P h ((g, l) :: rest) free moved)

include hinv

theorem Inv.rest_apart (ho : o ∈ rest) (hp : p ∈ o.2) : p ∉ l := by
  obtain ⟨hleft, -, -⟩ := nodup_append.1 hinv.pages.nodup
  obtain ⟨hown, -, -⟩ := nodup_append.1 hleft
  obtain ⟨-, -, hrest⟩ := nodup_append.1 hown
  intro hpl
  exact hrest p hpl p (mem_flatMap.2 ⟨o, ho, hp⟩) rfl

theorem Inv.rest_ne (ho : o ∈ rest) : o.1 ≠ g := by
  have hkeys := hinv.keys
  rw [map_cons, nodup_cons] at hkeys
  intro heq
  exact hkeys.1 (mem_map.2 ⟨o, ho, heq⟩)

section

variable (hgen : ∀ g' ≠ g, h'.fp g' = h.fp g' ∧ h'.a g' = h.a g')

include hgen

/-- An operation on one generation leaves the others as they were. -/
theorem Inv.rest_gen
    (hpage : ∀ o ∈ rest, ∀ p ∈ o.2, h'.next p = h.next p ∧ h'.owner p = h.owner p) :
    ∀ o ∈ rest, GenInv cfg h' o.1 o.2 ∧ (P o.1 → ∀ p ∈ o.2, isTospaceBit (h'.next p) = false) := by
  intro o ho
  obtain ⟨hfp, ha⟩ := hgen o.1 (hinv.rest_ne ho)
  constructor
  · exact (hinv.gen o (.tail _ ho)).congr (by rw [hfp]) ha (hpage o ho)
  · intro hP p hp
    rw [(hpage o ho p hp).1]
    exact hinv.plain o (.tail _ ho) hP p hp

theorem Inv.update (hpage : ∀ o ∈ rest, ∀ p ∈ o.2, h'.next p = h.next p ∧ h'.owner p = h.owner p)
    (hl : GenInv cfg h' g l') (hplain : P g → ∀ p ∈ l', isTospaceBit (h'.next p) = false)
    (hfree : Chain 0 h'.next h'.freelist free')
    (hmoved : moved' ≠ [] →
      Chain 0 h'.next h'.fromSpaceBegin moved' ∧ moved'.getLast? = some h'.fromSpaceEnd)
    (hpages : PagesOk h' (l' ++ rest.flatMap Prod.snd ++ free' ++ moved')) :
    Inv cfg P h' ((g, l') :: rest) free' moved' where
  keys := hinv.keys
  gen := forall_mem_cons.2 ⟨hl, fun o ho => (hinv.rest_gen hgen hpage o ho).1⟩
  plain := forall_mem_cons.2 ⟨hplain, fun o ho => (hinv.rest_gen hgen hpage o ho).2⟩
  freePages := hfree
  fromSpace := hmoved
  pages := hpages

/-- The generation is given up. -/
theorem Inv.drop (hpage : ∀ o ∈ rest, ∀ p ∈ o.2, h'.next p = h.next p ∧ h'.owner p = h.owner p)
    (hfree : Chain 0 h'.next h'.freelist free')
    (hmoved : moved' ≠ [] →
      Chain 0 h'.next h'.fromSpaceBegin moved' ∧ moved'.getLast? = some h'.fromSpaceEnd)
    (hpages : PagesOk h' (rest.flatMap Prod.snd ++ free' ++ moved')) :
    Inv cfg P h' rest free' moved' where
  keys := (nodup_cons.1 hinv.keys).2
  gen := fun o ho => (hinv.rest_gen hgen hpage o ho).1
  plain := fun o ho => (hinv.rest_gen hgen hpage o ho).2
  freePages := hfree
  fromSpace := hmoved
  pages := hpages

end

end

/-- A generation that has no page yet. -/
theorem Inv.addGen (hinv : Inv cfg P h owned free moved) (hg : g ∉ owned.map Prod.fst)
    (hfp : cfg.clearFp fp = 0) : Inv cfg P (h.setFpOf g fp) ((g, []) :: owned) free moved where
  keys := nodup_cons.2 ⟨hg, hinv.keys⟩
  gen := by
    refine forall_mem_cons.2 ⟨⟨?_, by simp, by simp⟩, fun o ho => ?_⟩
    · show cfg.clearFp (Function.update h.fp g fp g) = 0
      rw [Function.update_self]
      exact hfp
    · have hne : o.1 ≠ g := fun heq => hg (mem_map.2 ⟨o, ho, heq⟩)
      refine (hinv.gen o ho).congr ?_ rfl fun _ _ => ⟨rfl, rfl⟩
      show cfg.clearFp (Function.update h.fp g fp o.1) = _
      rw [Function.update_of_ne hne]
  plain := forall_mem_cons.2 ⟨by simp, hinv.plain⟩
  freePages := hinv.freePages
  fromSpace := hinv.fromSpace
  pages := hinv.pages.perm _ (List.Perm.refl _) rfl rfl

end Focus

end MLKit.Runtime.Seq
