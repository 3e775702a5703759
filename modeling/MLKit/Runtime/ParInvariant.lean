import MLKit.Runtime.ParAlloc

/-!
# What holds while several threads allocate

The invariant of the parallel allocator.  A thread that has stored the boundary of a
page as the allocation pointer holds the lock, and no other thread can move the
pointer until it is overwritten: what the others have read of it leaves no room for
a word.
-/

namespace MLKit.Runtime.Par

open MLKit.Lib List

variable {Tid Gen : Type}

/-! ## What the place of a thread says -/

namespace Pc

/-- The thread holds `GLOBALALLOCMUTEX`. -/
def holdsLock : Pc Gen → Bool
  | .lockedStart _ _ | .lockedCas _ _ _ | .boundaryCas _ _ _ | .newBlock _ _ | .lockFree _ _
  | .refill _ _ _ | .take _ _ | .link _ _ _ | .store _ _ _ | .allocLobjs _ _ | .linkLarge _ _ _
  | .pushLarge _ _ _ | .unlock => true
  | .idle | .inlineLoad _ _ | .inlineCas _ _ _ | .start _ _ | .cas _ _ _ | .lock _ _
  | .lockLarge _ _ => false

/-- The generation whose boundary has been stored and whose pointer has not been
overwritten yet. -/
def expanding : Pc Gen → Option Gen
  | .newBlock g _ | .lockFree g _ | .refill g _ _ | .take g _ | .link g _ _ | .store g _ _ => some g
  | _ => none

/-- The page that the thread has taken and not linked yet. -/
def transit : Pc Gen → Option Nat
  | .link _ _ np => some np
  | _ => none

/-- The page that is linked and not yet the page of the allocation pointer. -/
def fresh : Pc Gen → Option (Gen × Nat)
  | .store g _ np => some (g, np)
  | _ => none

/-- The large object that is not in the list of its region yet. -/
def pending : Pc Gen → Option (Gen × Nat × Nat)
  | .linkLarge g n p | .pushLarge g n p => some (g, n, p)
  | _ => none

end Pc

/-- The size fits an `int`, or else `malloc` fails. -/
def SizeOk (n : Nat) : Prop := n < 2 ^ 31 ∨ ptrdiffMax < lobjBytes n

/-- What a thread knows of its own variables. -/
def Pc.Checked : Pc Gen → Prop
  | .idle | .unlock => True
  | .inlineLoad _ n => 1 ≤ n ∧ SizeOk n
  | .inlineCas _ n t1 => (1 ≤ n ∧ SizeOk n) ∧ t1 + wordBytes * n ≤ rpBoundary t1
  | .cas _ n t1 | .lockedCas _ n t1 =>
    (1 ≤ n ∧ n ≤ allocatableWordsInRegionPage) ∧ t1 + wordBytes * n ≤ rpBoundary t1
  | .start _ n | .lock _ n | .lockedStart _ n | .boundaryCas _ n _ | .newBlock _ n | .lockFree _ n
  | .refill _ n _ | .take _ n | .link _ n _ | .store _ n _ =>
    1 ≤ n ∧ n ≤ allocatableWordsInRegionPage
  | .lockLarge _ n | .allocLobjs _ n | .linkLarge _ n _ | .pushLarge _ n _ =>
    allocatableWordsInRegionPage < n ∧ SizeOk n

/-! ## Where the pages are -/

inductive Place (Tid Gen : Type) where
  | gen (g : Gen)
  | own (t : Tid)
  | free
  | transit (t : Tid)

/-- The lists that the state represents, and the one list every page is in. -/
structure Layout (Tid Gen : Type) where
  pages : Gen → List Nat
  own : Tid → List Nat
  free : List Nat
  lobjs : Gen → List Nat
  place : Nat → Option (Place Tid Gen)

structure LockInv (s : State Tid Gen) : Prop where
  held : ∀ t, (s.pc t).holdsLock = true → s.globalAllocMutex = some t
  checked : ∀ t, (s.pc t).Checked
  boundary : ∀ t g, (s.pc t).expanding = some g → pageBytes ∣ s.a g

structure PageInv (s : State Tid Gen) (L : Layout Tid Gen) : Prop where
  pages_chain : ∀ g, Chain 0 s.next (s.fp g) (L.pages g)
  own_chain : ∀ t, Chain 0 s.next (s.own t) (L.own t)
  free_chain : Chain 0 s.next s.freelist L.free
  mem_pages : ∀ g p, p ∈ L.pages g ↔ L.place p = some (.gen g)
  mem_own : ∀ t p, p ∈ L.own t ↔ L.place p = some (.own t)
  mem_free : ∀ p, p ∈ L.free ↔ L.place p = some .free
  transit : ∀ t p, L.place p = some (.transit t) ↔ (s.pc t).transit = some p
  transit_next : ∀ t p, (s.pc t).transit = some p → s.next p = 0
  pos : ∀ p, L.place p ≠ none → p ≠ 0
  aligned : ∀ p, L.place p ≠ none → pageBytes ∣ p
  mapped : ∀ p x, L.place p ≠ none → p ≤ x → x < p + pageBytes → Mapped s.chunks x
  taken : ∀ g p, (g, p) ∈ s.taken → Linking s g p ∨ p ∈ L.pages g

structure PtrInv (s : State Tid Gen) (L : Layout Tid Gen) : Prop where
  inPage : ∀ g, InPage (lastRp (s.a g)) (s.a g)
  header : ∀ g, pageData (lastRp (s.a g)) ≤ s.a g
  current : ∀ g, (∀ t np, (s.pc t).fresh ≠ some (g, np)) →
    (L.pages g).getLast? = some (lastRp (s.a g))
  fresh : ∀ t g np, (s.pc t).fresh = some (g, np) →
    ∃ l, L.pages g = l ++ [np] ∧ l.getLast? = some (lastRp (s.a g))

/-- No byte of the interval is in a page. -/
def OffPages (L : Layout Tid Gen) (lo hi : Nat) : Prop :=
  ∀ p x, L.place p ≠ none → lo ≤ x → x < hi → ¬ (p ≤ x ∧ x < p + pageBytes)

structure BlockInv (s : State Tid Gen) (L : Layout Tid Gen) : Prop where
  pos : ∀ b ∈ s.blocks, 1 ≤ b.n
  small : ∀ b ∈ s.blocks, b.n ≤ allocatableWordsInRegionPage →
    ∃ p ∈ L.pages b.gen, pageData p ≤ b.addr ∧ b.stop ≤ p + pageBytes ∧
      (p = lastRp (s.a b.gen) → b.stop ≤ s.a b.gen) ∧
      ∀ t g np, (s.pc t).fresh = some (g, np) → p ≠ np
  large : ∀ b ∈ s.blocks, allocatableWordsInRegionPage < b.n →
    (∃ p ∈ L.lobjs b.gen, b.addr = p + wordBytes) ∧ OffPages L b.addr b.stop ∧
      ∀ x, b.addr ≤ x → x < b.stop → Mapped s.chunks x
  apart : s.blocks.Pairwise Block.Apart

/-- What holds of the memory of a large object before it is in its list. -/
structure PendingInv (s : State Tid Gen) (L : Layout Tid Gen) (g : Gen) (n p : Nat) : Prop where
  pos : p ≠ 0
  new : ∀ g', p ∉ L.lobjs g'
  mapped : ∀ x, p ≤ x → x < p + wordBytes + wordBytes * n → Mapped s.chunks x
  offPages : OffPages L p (p + wordBytes + wordBytes * n)
  apart : ∀ b ∈ s.blocks, allocatableWordsInRegionPage < b.n → Block.Apart ⟨g, p + wordBytes, n⟩ b

structure LobjInv (s : State Tid Gen) (L : Layout Tid Gen) : Prop where
  chain : ∀ g, Chain 0 s.lobjNext (s.lobjs g) (L.lobjs g)
  mapped : ∀ g p, p ∈ L.lobjs g → Mapped s.chunks p
  linked : ∀ t g n p, s.pc t = .pushLarge g n p → s.lobjNext p = s.lobjs g
  pending : ∀ t g n p, (s.pc t).pending = some (g, n, p) → PendingInv s L g n p

structure Inv (s : State Tid Gen) (L : Layout Tid Gen) : Prop where
  lock : LockInv s
  page : PageInv s L
  ptr : PtrInv s L
  block : BlockInv s L
  lobj : LobjInv s L

/-- The thread holds no page and no object that is not in a list. -/
structure Pc.Plain (pc : Pc Gen) : Prop where
  transit : pc.transit = none
  fresh : pc.fresh = none
  pending : pc.pending = none

variable {pc : Pc Gen} {g g' : Gen} {n p lo hi np q : Nat} {s s' : State Tid Gen}
  {L L' : Layout Tid Gen} {c : Block Gen} {t t' : Tid}

theorem Pc.Plain.not_pushLarge (h : pc.Plain) : pc ≠ .pushLarge g n p := by
  rintro rfl
  cases h.pending

/-- The pages are arranged anew, and nothing else that the invariant speaks of has
changed; memory may have been added. -/
theorem Inv.relayout (h : Inv s L) (hlock : LockInv s')
    (hpage : PageInv s' L') (hpages : L'.pages = L.pages) (hlobjs : L'.lobjs = L.lobjs)
    (ha : s'.a = s.a) (hblocks : s'.blocks = s.blocks) (hlobj : s'.lobjs = s.lobjs)
    (hlobjNext : s'.lobjNext = s.lobjNext) (hmapped : ∀ x, Mapped s.chunks x → Mapped s'.chunks x)
    (hoff : ∀ lo hi, OffPages L lo hi → (∀ x, lo ≤ x → x < hi → Mapped s.chunks x) →
      OffPages L' lo hi)
    (hfresh : ∀ t, (s'.pc t).fresh = (s.pc t).fresh)
    (hpending : ∀ t, (s'.pc t).pending = (s.pc t).pending)
    (hpush : ∀ t g n p, s'.pc t = .pushLarge g n p → s.pc t = .pushLarge g n p) : Inv s' L' where
  lock := hlock
  page := hpage
  ptr := by
    constructor
    · rw [ha]
      exact h.ptr.inPage
    · rw [ha]
      exact h.ptr.header
    · simp only [ha, hpages, hfresh]
      exact h.ptr.current
    · simp only [ha, hpages, hfresh]
      exact h.ptr.fresh
  block := by
    constructor
    · rw [hblocks]
      exact h.block.pos
    · simp only [hblocks, hpages, ha, hfresh]
      exact h.block.small
    · rw [hblocks, hlobjs]
      intro b hb hn
      obtain ⟨hmem, hoffb, hmap⟩ := h.block.large b hb hn
      exact ⟨hmem, hoff _ _ hoffb hmap, fun x hx hx' => hmapped x (hmap x hx hx')⟩
    · rw [hblocks]
      exact h.block.apart
  lobj := by
    constructor
    · rw [hlobjNext, hlobj, hlobjs]
      exact h.lobj.chain
    · rw [hlobjs]
      exact fun g p hp => hmapped p (h.lobj.mapped g p hp)
    · intro t g n p hp
      rw [hlobjNext, hlobj]
      exact h.lobj.linked t g n p (hpush t g n p hp)
    · intro t g n p hp
      rw [hpending] at hp
      have hold := h.lobj.pending t g n p hp
      refine ⟨hold.pos, ?_, ?_, hoff _ _ hold.offPages hold.mapped, ?_⟩
      · rw [hlobjs]
        exact hold.new
      · exact fun x hx hx' => hmapped x (hold.mapped x hx hx')
      · rw [hblocks]
        exact hold.apart

theorem Inv.withMutex (h : Inv s L) (m m' : Option Tid)
    (hlock : LockInv { s with globalAllocMutex := m, freelistMutex := m' }) :
    Inv { s with globalAllocMutex := m, freelistMutex := m' } L :=
  h.relayout hlock { h.page with mapped := h.page.mapped, taken := h.page.taken } rfl rfl rfl rfl
    rfl rfl (fun _ hx => hx) (fun _ _ hoff _ => hoff) (fun _ => rfl) (fun _ => rfl)
    (fun _ _ _ _ hp => hp)

/-! ## Pages and blocks -/

variable {b : Block Gen}

/-- Blocks without a common byte are apart. -/
theorem Block.apart_of_disjoint (hb : 1 ≤ b.n) (hc : 1 ≤ c.n)
    (h : ∀ x, b.addr ≤ x → x < b.stop → c.addr ≤ x → x < c.stop → False) : b.Apart c := by
  by_contra hapart
  simp only [Block.Apart, Block.stop, wordBytes, not_or, not_le] at h hapart
  exact h (max b.addr c.addr) (by omega) (by omega) (by omega) (by omega)

theorem PageInv.place_pages (h : PageInv s L) (hp : p ∈ L.pages g) : L.place p ≠ none := by
  rw [(h.mem_pages g p).1 hp]
  exact Option.some_ne_none _

theorem PageInv.gen_unique (h : PageInv s L) (hp : p ∈ L.pages g) (hp' : p ∈ L.pages g') :
    g = g' := by
  have heq := ((h.mem_pages g p).1 hp).symm.trans ((h.mem_pages g' p).1 hp')
  cases heq
  rfl

theorem OffPages.mono {L' : Layout Tid Gen} (h : OffPages L lo hi)
    (hplace : ∀ p, L'.place p ≠ none → L.place p ≠ none) : OffPages L' lo hi :=
  fun p x hp => h p x (hplace p hp)

theorem PtrInv.fresh_mem (h : PtrInv s L) (hnp : (s.pc t).fresh = some (g, np)) :
    np ∈ L.pages g := by
  obtain ⟨l, hl, -⟩ := h.fresh t g np hnp
  simp [hl]

theorem PtrInv.lastRp_mem (h : PtrInv s L) (g : Gen) : lastRp (s.a g) ∈ L.pages g := by
  by_cases hfresh : ∀ t np, (s.pc t).fresh ≠ some (g, np)
  · exact mem_of_getLast? (h.current g hfresh)
  · push Not at hfresh
    obtain ⟨t, np, hnp⟩ := hfresh
    obtain ⟨l, hl, hlast⟩ := h.fresh t g np hnp
    rw [hl]
    exact mem_append_left _ (mem_of_getLast? hlast)

theorem PtrInv.rpBoundary_eq (h : PtrInv s L) (g : Gen) :
    rpBoundary (s.a g) = lastRp (s.a g) + pageBytes :=
  (h.inPage g).rpBoundary_eq

/-- At a boundary there is no room for a word. -/
theorem PtrInv.eq_boundary (h : PtrInv s L) (hdvd : pageBytes ∣ s.a g) :
    s.a g = lastRp (s.a g) + pageBytes := by
  obtain ⟨⟨i, hi⟩, habove, hbelow⟩ := h.inPage g
  obtain ⟨j, hj⟩ := hdvd
  simp only [pageBytes] at hi hj hbelow ⊢
  omega

theorem Pc.expanding_of_fresh (h : pc.fresh = some (g, np)) : pc.expanding = some g := by
  cases pc <;> simp_all [Pc.fresh, Pc.expanding]

theorem Pc.holdsLock_of_expanding (h : pc.expanding = some g) : pc.holdsLock = true := by
  cases pc <;> simp_all [Pc.expanding, Pc.holdsLock]

theorem Pc.holdsLock_of_pending (h : pc.pending = some (g, n, p)) : pc.holdsLock = true := by
  cases pc <;> simp_all [Pc.pending, Pc.holdsLock]

theorem LockInv.unique (h : LockInv s) (ht : (s.pc t).holdsLock = true)
    (ht' : (s.pc t').holdsLock = true) : t = t' :=
  Option.some.inj ((h.held t ht).symm.trans (h.held t' ht'))

/-! ## Handing out a block in a page -/

/-- A block of the data part of a page, below the allocation pointer if that is its
page, and apart from the blocks handed out before. -/
structure NewBlock (s : State Tid Gen) (L : Layout Tid Gen) (b : Block Gen) : Prop where
  pos : 1 ≤ b.n
  inPage : ∃ p ∈ L.pages b.gen, pageData p ≤ b.addr ∧ b.stop ≤ p + pageBytes ∧
    (p = lastRp (s.a b.gen) → b.stop ≤ s.a b.gen) ∧
    ∀ t g np, (s.pc t).fresh = some (g, np) → p ≠ np
  apart : ∀ c ∈ s.blocks, b.Apart c

theorem NewBlock.small (h : NewBlock s L b) : b.n ≤ allocatableWordsInRegionPage := by
  obtain ⟨p, -, hlo, hhi, -⟩ := h.inPage
  simp only [pageData, Block.stop, headerBytes, wordBytes, pageBytes,
    allocatableWordsInRegionPage] at hlo hhi ⊢
  omega

theorem Inv.addBlock (h : Inv s L) (hb : NewBlock s L b) :
    Inv { s with blocks := b :: s.blocks } L where
  lock := { h.lock with }
  page := { h.page with mapped := h.page.mapped, taken := h.page.taken }
  ptr := { h.ptr with }
  block :=
    { pos := forall_mem_cons.2 ⟨hb.pos, h.block.pos⟩
      small := forall_mem_cons.2 ⟨fun _ => hb.inPage, h.block.small⟩
      large := forall_mem_cons.2 ⟨fun hn => absurd hb.small (Nat.not_le_of_lt hn), h.block.large⟩
      apart := pairwise_cons.2 ⟨hb.apart, h.block.apart⟩ }
  lobj :=
    { h.lobj with
      mapped := h.lobj.mapped
      pending := fun t g n p hp =>
        { h.lobj.pending t g n p hp with
          mapped := (h.lobj.pending t g n p hp).mapped
          apart := forall_mem_cons.2
            ⟨fun hn => absurd hb.small (Nat.not_le_of_lt hn), (h.lobj.pending t g n p hp).apart⟩ } }

/-- A block in a page is apart from every block that is not in that page. -/
theorem Inv.apart_of_page (h : Inv s L) (hb : 1 ≤ b.n) (hq : q ∈ L.pages b.gen)
    (hlo : q ≤ b.addr) (hhi : b.stop ≤ q + pageBytes) (hc : c ∈ s.blocks)
    (hsame : c.gen = b.gen → q ≤ c.addr → c.stop ≤ q + pageBytes → (q = lastRp (s.a b.gen) → c.stop
    ≤ s.a b.gen) → (∀ t g np, (s.pc t).fresh = some (g, np) → q ≠ np) → b.Apart c) :
    b.Apart c := by
  rcases Nat.lt_or_ge allocatableWordsInRegionPage c.n with hlarge | hsmall
  · obtain ⟨-, hoff, -⟩ := h.block.large c hc hlarge
    refine Block.apart_of_disjoint hb (h.block.pos c hc) fun x hx hx' hy hy' => ?_
    exact hoff q x (h.page.place_pages hq) hy hy' ⟨by omega, by omega⟩
  · obtain ⟨p, hp, hclo, hchi, hcur, hfresh⟩ := h.block.small c hc hsmall
    have hclo' : p ≤ c.addr := Nat.le_trans (Nat.le_add_right _ _) hclo
    by_cases hpq : p = q
    · subst hpq
      have hgen := h.page.gen_unique hp hq
      rw [hgen] at hcur
      exact hsame hgen hclo' hchi hcur hfresh
    · have hp' := h.page.aligned p (h.page.place_pages hp)
      have hq' := h.page.aligned q (h.page.place_pages hq)
      rcases pages_apart hp' hq' hpq with hle | hle
      · exact .inr (by omega)
      · exact .inl (by omega)

end MLKit.Runtime.Par
