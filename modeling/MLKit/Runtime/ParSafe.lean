import MLKit.Runtime.ParPages

/-!
# Threads get disjoint memory

Every run of the parallel allocator hands out disjoint blocks, in pages and large
objects that stay in their lists, exactly when no request is for a number of words
that `alloc_lobjs` mistakes for a smaller one.
-/

namespace MLKit.Runtime.Par

open MLKit.Lib Function List Nat
open Relation (ReflTransGen)

variable {Tid Gen : Type} [DecidableEq Tid] [DecidableEq Gen] {s s' : State Tid Gen}

/-! ## Runs -/

variable {L : Layout Tid Gen} {t : Tid} {pc pc' : Pc Gen} {n t1 p : Nat} {g : Gen} {m : Option Tid}
  {requests : Set (Request Gen)} {r : Request Gen}

omit [DecidableEq Tid] [DecidableEq Gen] in
theorem Inv.good (h : Inv s L) : Good s where
  apart := h.block.apart
  small := by
    intro b hb hn
    obtain ⟨p, hp, hlo, hhi, -⟩ := h.block.small b hb hn
    exact ⟨L.pages b.gen, h.page.pages_chain b.gen, p, hp, hlo, hhi⟩
  large := by
    intro b hb hn
    obtain ⟨hmem, -⟩ := h.block.large b hb hn
    exact ⟨L.lobjs b.gen, h.lobj.chain b.gen, hmem⟩
  linked := by
    intro g p hmem
    refine (h.page.taken g p hmem).imp_right fun hp => ?_
    exact ⟨L.pages g, h.page.pages_chain g, hp⟩

omit [DecidableEq Gen] in
/-- A step that only moves a thread, and gives it nothing it did not have. -/
theorem Inv.stay (h : Inv s L) (hpc : s.pc t = pc) (hchecked : pc.Checked → pc'.Checked)
    (hheld : pc'.holdsLock = true → pc.holdsLock = true)
    (hexp : ∀ g, pc'.expanding = some g → pc.expanding = some g)
    (hplain : pc.Plain := by exact ⟨rfl, rfl, rfl⟩)
    (hplain' : pc'.Plain := by exact ⟨rfl, rfl, rfl⟩) : Inv (s.goto t pc') L := by
  subst hpc
  refine h.goto hplain hplain' (h.lock.goto ?_ ?_ ?_)
  · exact fun hl => h.lock.held t (hheld hl)
  · exact hchecked (h.lock.checked t)
  · exact fun g hg => h.lock.boundary t g (hexp g hg)

omit [DecidableEq Gen] in
/-- The thread goes to the entry of `allocGen`. -/
theorem Inv.toEntry (h : Inv s L) (hpc : s.pc t = pc) (hn : pc.Checked → 1 ≤ n ∧ SizeOk n)
    (hplain : pc.Plain := by exact ⟨rfl, rfl, rfl⟩) : Inv (s.goto t (entry g n)) L := by
  rw [entry]
  split
  · rename_i hlarge
    exact h.stay hpc (fun hchecked => ⟨hlarge, (hn hchecked).2⟩) nofun nofun hplain
  · rename_i hsmall
    exact h.stay hpc (fun hchecked => ⟨(hn hchecked).1, not_lt.1 hsmall⟩) nofun nofun hplain

omit [DecidableEq Tid] [DecidableEq Gen] in
/-- The emitted code looks for the same room as `allocGen`. -/
theorem inline_fits (hle : s.a g - 1 + wordBytes * n ≤ (s.a g - 1) ||| (pageBytes - 1)) :
    s.a g + wordBytes * n ≤ rpBoundary (s.a g) := by
  rw [rpBoundary]
  omega

omit [DecidableEq Tid] [DecidableEq Gen] in
theorem LockInv.lock (h : LockInv s) (hfree : s.globalAllocMutex = none) :
    LockInv { s with globalAllocMutex := some t, freelistMutex := m } where
  held := by
    intro t' ht'
    have hheld := h.held t' ht'
    rw [hfree] at hheld
    cases hheld
  checked := h.checked
  boundary := h.boundary

omit [DecidableEq Gen] in
/-- The lock is released by the thread that holds it. -/
theorem LockInv.unlock (h : LockInv s) (hpc : s.pc t = .unlock) :
    LockInv ({ s with globalAllocMutex := none }.goto t .idle) where
  held := by
    intro t' ht'
    by_cases htt : t' = t
    · subst htt
      rw [goto_pc_self] at ht'
      cases ht'
    · rw [goto_pc_ne htt] at ht'
      exact absurd (h.unique ht' (by rw [hpc]; rfl)) htt
  checked := forall_goto (P := fun _ pc => pc.Checked) h.checked trivial
  boundary := forall_goto (P := fun _ pc => ∀ g, pc.expanding = some g → pageBytes ∣ s.a g)
    h.boundary nofun

/-- A successful compare-and-exchange that takes a block. -/
theorem Inv.casBump (h : Inv s L) (hpc : s.pc t = pc) (ha : s.a g = t1) (hchecked' : pc'.Checked)
    (hfits : pc.Checked → 1 ≤ n ∧ t1 + wordBytes * n ≤ rpBoundary t1)
    (hheld : pc'.holdsLock = true → pc.holdsLock = true) (hexp : pc'.expanding = none)
    (hplain : pc.Plain := by exact ⟨rfl, rfl, rfl⟩)
    (hplain' : pc'.Plain := by exact ⟨rfl, rfl, rfl⟩) : Inv ((s.bump g n t1).goto t pc') L := by
  subst ha
  obtain ⟨hn, hfits⟩ := hfits (hpc ▸ h.lock.checked t)
  refine (h.bump hn hfits).stay hpc (fun _ => hchecked') hheld (fun g' hg' => ?_) hplain hplain'
  rw [hexp] at hg'
  cases hg'

/-- The boundary is stored as the allocation pointer. -/
theorem Inv.casBoundary (h : Inv s L) (hpc : s.pc t = .boundaryCas g n t1) (ha : s.a g = t1) :
    Inv ({ s with a := update s.a g (rpBoundary t1) }.goto t (.newBlock g n)) L := by
  subst ha
  have hheld : (s.pc t).holdsLock = true := by rw [hpc]; rfl
  have hchecked := h.lock.checked t
  rw [hpc] at hchecked
  have hbound := h.ptr.rpBoundary_eq g
  have hdvd : pageBytes ∣ rpBoundary (s.a g) := by
    rw [hbound]
    exact Nat.dvd_add (h.ptr.inPage g).aligned (Nat.dvd_refl _)
  have hmoved : Inv { s with a := update s.a g (rpBoundary (s.a g)) } L := by
    refine h.move ?_ (le_of_eq hbound) (fun _ _ => hdvd)
    rw [hbound]
    exact (h.ptr.inPage g).below
  refine hmoved.goto (by rw [hpc]; exact ⟨rfl, rfl, rfl⟩) ⟨rfl, rfl, rfl⟩ (hmoved.lock.goto ?_ ?_ ?_)
  · exact fun _ => h.lock.held t hheld
  · exact hchecked
  · intro g' hg'
    cases hg'
    show pageBytes ∣ update s.a g (rpBoundary (s.a g)) g
    rw [update_self]
    exact hdvd

theorem step_inv (hok : ∀ r ∈ requests, SizeOk r.n) (h : Inv s L) (hstep : Step requests s s') :
    ∃ L', Inv s' L' := by
  cases hstep with
  | call r hr hpc => exact ⟨L, h.toEntry hpc fun _ => ⟨r.pos, hok r hr⟩⟩
  | inlineCall r hr hpc => exact ⟨L, h.stay hpc (fun _ => ⟨r.pos, hok r hr⟩) nofun nofun⟩
  | inlineExpand hpc hfull => exact ⟨L, h.toEntry hpc id⟩
  | inlineLoad hpc hfits => exact ⟨L, h.stay hpc (fun hn => ⟨hn, inline_fits hfits⟩) nofun nofun⟩
  | inlineCas hpc ha | cas hpc ha =>
    exact ⟨L, h.casBump hpc ha trivial (fun hc => ⟨hc.1.1, hc.2⟩) nofun rfl⟩
  | inlineCasFails hpc ha => exact ⟨L, h.toEntry hpc fun hc => hc.1⟩
  | startFits hpc hfits => exact ⟨L, h.stay hpc (fun hn => ⟨hn, hfits⟩) nofun nofun⟩
  | startFull hpc hfull => exact ⟨L, h.stay hpc id nofun nofun⟩
  | casFails hpc ha => exact ⟨L, h.stay hpc (fun hc => hc.1) nofun nofun⟩
  | @lock t g n hpc hfree | @lockLarge t g n hpc hfree =>
    have hlocked := h.withMutex (some t) s.freelistMutex (h.lock.lock hfree)
    have hchecked := h.lock.checked t
    rw [hpc] at hchecked
    refine ⟨L, hlocked.goto (by rw [hpc]; exact ⟨rfl, rfl, rfl⟩) ⟨rfl, rfl, rfl⟩ ?_⟩
    exact hlocked.lock.goto (fun _ => rfl) hchecked nofun
  | lockedFits hpc hfits => exact ⟨L, h.stay hpc (fun hn => ⟨hn, hfits⟩) id nofun⟩
  | lockedFull hpc hfull | boundaryCasFails hpc ha => exact ⟨L, h.stay hpc id id nofun⟩
  | lockedCas hpc ha => exact ⟨L, h.casBump hpc ha trivial (fun hc => ⟨hc.1.1, hc.2⟩) id rfl⟩
  | lockedCasFails hpc ha => exact ⟨L, h.stay hpc (fun hc => hc.1) id nofun⟩
  | boundaryCas hpc ha => exact ⟨L, h.casBoundary hpc ha⟩
  | newBlock hpc hown | newBlockEmpty hpc hown => exact ⟨L, h.stay hpc id id (fun g hg => hg)⟩
  | @lockFree t g n hpc hfree =>
    have hlocked := h.withMutex s.globalAllocMutex (some t) { h.lock with }
    exact ⟨L, hlocked.stay hpc id id (fun g hg => hg)⟩
  | sbrk sb hpc hfree hsb => exact ⟨_, h.callSbrk hsb hfree⟩
  | movePage hpc hfree => exact ⟨_, (h.movePage hfree).stay hpc id id (fun g hg => hg)⟩
  | unlockFree hpc =>
    have hlocked := h.withMutex s.globalAllocMutex none { h.lock with }
    exact ⟨L, hlocked.stay hpc id id (fun g hg => hg)⟩
  | take hpc hown => exact ⟨_, h.takePage hpc hown⟩
  | link hpc hfp => exact ⟨_, h.linkPage hpc⟩
  | @linkFirst t g n np hpc hfp =>
    -- every generation has a page
    have hnil := (h.page.pages_chain g).eq_nil_iff.2 hfp
    have hmem := h.ptr.lastRp_mem g
    rw [hnil] at hmem
    cases hmem
  | store hpc => exact ⟨L, h.store hpc⟩
  | allocLobjs p hpc hp => exact ⟨L, h.allocLobjs hpc hp⟩
  | linkLarge hpc => exact ⟨L, h.linkLarge hpc⟩
  | pushLarge hpc => exact ⟨_, h.pushLarge hpc⟩
  | @unlock t hpc =>
    have hidle : Inv (s.goto t .idle) L := h.stay hpc (fun _ => trivial) nofun nofun
    exact ⟨L, hidle.withMutex none s.freelistMutex (h.lock.unlock hpc)⟩

theorem run_inv (hok : ∀ r ∈ requests, SizeOk r.n) (h : Inv s L)
    (hrun : ReflTransGen (Step requests) s s') : ∃ L', Inv s' L' := by
  induction hrun with
  | refl => exact ⟨L, h⟩
  | tail _ hstep ih =>
    obtain ⟨L', h'⟩ := ih
    exact step_inv hok h' hstep

/-- A state before any allocation: the regions have their first pages, and the pages
and large objects there are in lists. -/
structure Initial (s : State Tid Gen) (L : Layout Tid Gen) : Prop where
  idle : ∀ t, s.pc t = .idle
  unlocked : s.globalAllocMutex = none
  noBlocks : s.blocks = []
  page : PageInv s L
  ptr : PtrInv s L
  lobj : LobjInv s L

omit [DecidableEq Tid] [DecidableEq Gen] in
theorem Initial.inv (h : Initial s L) : Inv s L where
  lock := by
    constructor
    · intro t ht
      rw [h.idle t] at ht
      cases ht
    · intro t
      rw [h.idle t]
      trivial
    · intro t g hg
      rw [h.idle t] at hg
      cases hg
  page := h.page
  ptr := h.ptr
  block := by
    constructor <;> simp [h.noBlocks]
  lobj := h.lobj

/-! ## Two objects that are too large -/

/-- One thread allocates a large object and returns. -/
theorem large_run (hr : r ∈ requests)
    (hlarge : allocatableWordsInRegionPage < r.n) (hpc : s.pc t = .idle)
    (hlock : s.globalAllocMutex = none) (hp : Malloc s p (lobjBytes r.n)) :
    ∃ s', ReflTransGen (Step requests) s s' ∧ s'.pc t = .idle ∧ s'.globalAllocMutex = none ∧
      s'.chunks = (p, lobjBytes r.n) :: s.chunks ∧
      s'.blocks = ⟨r.gen, p + wordBytes, r.n⟩ :: s.blocks := by
  have hentry : entry r.gen r.n = .lockLarge r.gen r.n := if_pos hlarge
  have hcall : Step requests s (s.goto t (.lockLarge r.gen r.n)) := hentry ▸ .call r hr hpc
  refine ⟨_, ((((((ReflTransGen.refl.tail hcall).tail (.lockLarge goto_pc_self hlock)).tail
    (.allocLobjs p goto_pc_self hp)).tail (.linkLarge goto_pc_self)).tail
    (.pushLarge goto_pc_self)).tail (.unlock goto_pc_self)), goto_pc_self, rfl, rfl, rfl⟩

/-- Fewer bytes than the words need are asked for. -/
theorem lobjBytes_of_not_sizeOk (h : ¬ SizeOk n) :
    lobjBytes n ≤ ptrdiffMax ∧ lobjBytes n + lobjsBytes < wordBytes * n := by
  simp only [SizeOk, not_or, not_lt] at h
  refine ⟨h.2, ?_⟩
  obtain ⟨hle, hbytes⟩ := h
  have hint : toInt n =
      if 2 * (n % 2 ^ 32) < 2 ^ 32 then ((n % 2 ^ 32 : Nat) : Int)
      else ((n % 2 ^ 32 : Nat) : Int) - (2 ^ 32 : Nat) := by
    rw [toInt, BitVec.toInt, BitVec.toNat_ofNat]
  simp only [lobjBytes, hint, wordBytes, lobjsBytes, ptrdiffMax] at hbytes ⊢
  split at hbytes
  · rename_i hlt
    omega
  · rename_i hge
    omega

/-- A request for too many words, made twice, gives blocks that overlap. -/
theorem exists_overlap (t : Tid) (hr : r ∈ requests) (hbad : ¬ SizeOk r.n)
    (hpc : s.pc t = .idle) (hlock : s.globalAllocMutex = none) :
    ∃ s', ReflTransGen (Step requests) s s' ∧ ¬ s'.blocks.Pairwise Block.Apart := by
  obtain ⟨hmax, hshort⟩ := lobjBytes_of_not_sizeOk hbad
  have hlarge : allocatableWordsInRegionPage < r.n := by
    apply not_le.1
    intro hle
    apply hbad
    left
    simp only [allocatableWordsInRegionPage, pageBytes, wordBytes] at hle
    omega
  obtain ⟨p, hpos, hfree⟩ := exists_above
  obtain ⟨s1, hrun1, hpc1, hlock1, hchunks1, hblocks1⟩ :=
    large_run hr hlarge hpc hlock (p := p) ⟨hpos, hmax, fun x hx _ => hfree x hx⟩
  -- the second object lies right behind the bytes of the first
  let q := p + lobjBytes r.n + lobjsBytes
  have hfree1 : ∀ x, q ≤ x → ¬ Mapped s1.chunks x := by
    rw [hchunks1]
    rintro x hx ⟨c, hc, hlo, hhi⟩
    rcases mem_cons.1 hc with rfl | hc
    · omega
    · exact hfree x (by simp only [q] at hx; omega) ⟨c, hc, hlo, hhi⟩
  obtain ⟨s2, hrun2, -, -, -, hblocks2⟩ :=
    large_run hr hlarge hpc1 hlock1 (p := q) ⟨by simp only [q]; omega, hmax, fun x hx _ => hfree1 x hx⟩
  refine ⟨s2, hrun1.trans hrun2, ?_⟩
  rw [hblocks2, hblocks1]
  intro hapart
  have happ := (pairwise_cons.1 hapart).1 _ (.head _)
  simp only [Block.Apart, Block.stop, q, wordBytes, lobjsBytes] at happ hshort
  omega

/-- For requests from a given set, every run hands out disjoint blocks from pages and
objects that stay in their lists, if and only if every requested size fits an `int` or
makes `malloc` fail. -/
theorem parallel_allocation_good_iff (t : Tid) (requests : Set (Request Gen)) {s : State Tid Gen}
    {L : Layout Tid Gen} (hinit : Initial s L) :
    (∀ s', ReflTransGen (Step requests) s s' → Good s') ↔ ∀ r ∈ requests, SizeOk r.n := by
  constructor
  · intro hgood r hr
    by_contra hbad
    obtain ⟨s', hrun, hoverlap⟩ := exists_overlap t hr hbad (hinit.idle t) hinit.unlocked
    exact hoverlap (hgood s' hrun).apart
  · intro hok s' hrun
    obtain ⟨L', h'⟩ := run_inv hok hinit.inv hrun
    exact h'.good

/-- In every run one thread at most is in the part under the lock, and no page is in two of the
lists of the regions, of the threads and of the free pages. -/
theorem lock_held_once_pages_apart (requests : Set (Request Gen))
    (hok : ∀ r ∈ requests, SizeOk r.n) {s s' : State Tid Gen} {L : Layout Tid Gen}
    (hinit : Initial s L) (hrun : ReflTransGen (Step requests) s s') :
    (∀ t t', (s'.pc t).holdsLock = true → (s'.pc t').holdsLock = true → t = t') ∧
    ∃ l : Gen ⊕ Option Tid → List Nat, (∀ g, Chain 0 s'.next (s'.fp g) (l (.inl g))) ∧
      (∀ t, Chain 0 s'.next (s'.own t) (l (.inr (some t)))) ∧
      Chain 0 s'.next s'.freelist (l (.inr none)) ∧ ∀ i j p, p ∈ l i → p ∈ l j → i = j := by
  obtain ⟨L', h⟩ := run_inv hok hinit.inv hrun
  refine ⟨fun t t' ht ht' => ?_, Sum.elim L'.pages (Option.elim · L'.free L'.own),
    h.page.pages_chain, h.page.own_chain, h.page.free_chain, ?_⟩
  · exact Option.some.inj ((h.lock.held t ht).symm.trans (h.lock.held t' ht'))
  · rintro (g | _ | t) (g' | _ | t') p <;>
      simp +contextual [h.page.mem_pages, h.page.mem_own, h.page.mem_free]

/-! ## One region with one page -/

def oneRegion : State Bool Unit where
  a := fun _ => pageData pageBytes
  fp := fun _ => pageBytes
  next := fun _ => 0
  freelist := 0
  own := fun _ => 0
  lobjs := fun _ => 0
  lobjNext := fun _ => 0
  chunks := [(pageBytes, pageBytes)]
  globalAllocMutex := none
  freelistMutex := none
  pc := fun _ => .idle
  blocks := []
  taken := [((), pageBytes)]

def oneRegionLayout : Layout Bool Unit where
  pages := fun _ => [pageBytes]
  own := fun _ => []
  free := []
  lobjs := fun _ => []
  place := fun p => if p = pageBytes then some (.gen ()) else none

theorem oneRegion_initial : Initial oneRegion oneRegionLayout := by
  have hplace : ∀ p, oneRegionLayout.place p ≠ none → p = pageBytes := by
    intro p hp
    by_contra hne
    exact hp (if_neg hne)
  have hin : InPage pageBytes (pageData pageBytes) := ⟨dvd_refl _, by decide, by decide⟩
  have hlast : ∀ g, lastRp (oneRegion.a g) = pageBytes := fun _ => hin.lastRp_eq
  constructor
  · exact fun _ => rfl
  · rfl
  · rfl
  · constructor
    · exact fun _ => ⟨rfl, by decide, rfl⟩
    · exact fun _ => rfl
    · rfl
    · intro g p
      simp [oneRegionLayout]
    · intro t p
      simp [oneRegionLayout]
    · intro p
      simp [oneRegionLayout]
    · intro t p
      simp [oneRegionLayout, oneRegion, Pc.transit]
    · rintro t p ⟨⟩
    · rintro p hp rfl
      exact absurd (hplace 0 hp) (by decide)
    · intro p hp
      rw [hplace p hp]
    · intro p x hp hle hlt
      rw [hplace p hp] at hle hlt
      exact ⟨(pageBytes, pageBytes), .head _, hle, hlt⟩
    · intro g p hmem
      right
      simpa [oneRegion, oneRegionLayout] using hmem
  · constructor
    · intro g
      rw [hlast]
      exact hin
    · intro g
      rw [hlast]
      exact le_refl _
    · intro g _
      rw [hlast]
      rfl
    · rintro t g np ⟨⟩
  · constructor
    · exact fun _ => rfl
    · rintro g p ⟨⟩
    · rintro t g n p ⟨⟩
    · rintro t g n p ⟨⟩

/-- Two threads that ask for at most two million words at a time. -/
theorem oneRegion_good :
    Initial oneRegion oneRegionLayout ∧
      ((∀ s', ReflTransGen (Step {r : Request Unit | r.n ≤ 2000000}) oneRegion s' → Good s') ↔
        ∀ r ∈ {r : Request Unit | r.n ≤ 2000000}, SizeOk r.n) :=
  ⟨oneRegion_initial, parallel_allocation_good_iff true _ oneRegion_initial⟩

theorem oneRegion_malloc {n : Nat} (hn : lobjBytes n ≤ ptrdiffMax) :
    Malloc oneRegion 32768 (lobjBytes n) := by
  refine ⟨by decide, hn, ?_⟩
  rintro x hx - ⟨c, hc, hlo, hhi⟩
  rw [mem_singleton.1 hc] at hlo hhi
  simp only [pageBytes] at hhi
  omega

/-- After a thread has allocated 2000 words. -/
theorem oneRegion_lists : ∃ s', ReflTransGen (Step {r : Request Unit | SizeOk r.n}) oneRegion s' ∧
    s'.blocks = [⟨(), 32776, 2000⟩] ∧ ∃ l : Unit ⊕ Option Bool → List Nat,
      Chain 0 s'.next (s'.fp ()) (l (.inl ())) := by
  let r : Request Unit := ⟨(), 2000, by decide⟩
  have hmem : r ∈ {r : Request Unit | SizeOk r.n} := by left; decide
  obtain ⟨s', hrun, -, -, -, hblocks⟩ :=
    large_run (t := true) hmem (by decide) rfl rfl (oneRegion_malloc (by decide))
  obtain ⟨-, l, hpages, -⟩ := lock_held_once_pages_apart {r | SizeOk r.n} (fun _ hr => hr)
    oneRegion_initial hrun
  exact ⟨s', hrun, hblocks, l, hpages ()⟩

/-- A thread that twice asks for `2 ^ 32` words gets two objects of no words each, at
addresses 32 bytes apart. -/
theorem four_gigawords_overlap :
    ∃ s', ReflTransGen (Step {r : Request Unit | r.n = 2 ^ 32}) oneRegion s' ∧
      s'.blocks = [⟨(), 32808, 2 ^ 32⟩, ⟨(), 32776, 2 ^ 32⟩] ∧
      ¬ s'.blocks.Pairwise Block.Apart := by
  have hbytes : lobjBytes (2 ^ 32) = 16 := by decide
  let r : Request Unit := ⟨(), 2 ^ 32, by decide⟩
  have hmem : r ∈ {r : Request Unit | r.n = 2 ^ 32} := rfl
  obtain ⟨s1, hrun1, hpc1, hlock1, hchunks1, hblocks1⟩ :=
    large_run (t := true) hmem (by decide) rfl rfl (oneRegion_malloc (by decide))
  have hsecond : Malloc s1 32800 (lobjBytes r.n) := by
    refine ⟨by decide, by decide, ?_⟩
    rw [hchunks1]
    rintro x hx - ⟨c, hc, hlo, hhi⟩
    rcases mem_cons.1 hc with rfl | hc
    · rw [show lobjBytes r.n = 16 from hbytes] at hhi
      omega
    · rw [mem_singleton.1 hc] at hlo hhi
      simp only [pageBytes] at hhi
      omega
  obtain ⟨s2, hrun2, -, -, -, hblocks2⟩ := large_run hmem (by decide) hpc1 hlock1 hsecond
  have hblocks : s2.blocks = [⟨(), 32808, 2 ^ 32⟩, ⟨(), 32776, 2 ^ 32⟩] := by
    rw [hblocks2, hblocks1]
    rfl
  refine ⟨s2, hrun1.trans hrun2, hblocks, ?_⟩
  rw [hblocks]
  intro hapart
  have happ := (pairwise_cons.1 hapart).1 _ (.head _)
  simp only [Block.Apart, Block.stop, wordBytes] at happ
  omega

end MLKit.Runtime.Par
