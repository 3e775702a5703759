import MLKit.Runtime.Pages
import Mathlib.Data.Set.Basic
import Mathlib.Logic.Relation

/-!
# Allocation by several threads

The allocator of the runtime with `PARALLEL` and `PARALLEL_GLOBAL_ALLOC_LOCK`:
`allocGen` with `protect_p`, `alloc_new_block`, and the code that
`alloc_kill_tmp01` emits, as the steps of any number of threads.  A step makes at
most one access to what other threads can see while the thread takes it; accesses
to pages and objects that only one thread can reach are joined to it.  Every region
has one generation.
-/

namespace MLKit.Runtime.Par

open MLKit.Lib Function

/-! ## Sizes -/

/-- The fields `n` and `gen` of a page. -/
def headerBytes : Nat := 2 * wordBytes

def allocatableWordsInRegionPage : Nat := pageBytes / wordBytes - 2

/-- `sizeof(Lobjs)`: the fields `next` and `value`. -/
def lobjsBytes : Nat := 2 * wordBytes

/-- The parameter of `alloc_lobjs` is an `int`. -/
def toInt (n : Nat) : Int := (BitVec.ofNat 32 n).toInt

/-- The bytes that `alloc_lobjs` asks `malloc` for, as a `size_t`. -/
def lobjBytes (n : Nat) : Nat := ((wordBytes * toInt n + lobjsBytes) % 2 ^ 64).toNat

/-- `PTRDIFF_MAX`: `malloc` returns `NULL` for anything larger. -/
def ptrdiffMax : Nat := 2 ^ 63 - 1

/-! ## The state -/

structure Request (Gen : Type) where
  gen : Gen
  n : Nat
  pos : 1 ≤ n

/-- Where a thread is in an allocation of `n` words in `g`. -/
inductive Pc (Gen : Type) where
  | idle
  /-- The emitted code, before it reads the allocation pointer. -/
  | inlineLoad (g : Gen) (n : Nat)
  /-- The emitted code, before `cmpxchgq`. -/
  | inlineCas (g : Gen) (n t1 : Nat)
  | start (g : Gen) (n : Nat)
  /-- Before the compare-and-exchange without the lock. -/
  | cas (g : Gen) (n t1 : Nat)
  /-- Before `LOCK_LOCK(GLOBALALLOCMUTEX)`. -/
  | lock (g : Gen) (n : Nat)
  | lockedStart (g : Gen) (n : Nat)
  | lockedCas (g : Gen) (n t1 : Nat)
  /-- Before the attempt to store the boundary in `gen->a`. -/
  | boundaryCas (g : Gen) (n t1 : Nat)
  /-- The start of `alloc_new_block`. -/
  | newBlock (g : Gen) (n : Nat)
  /-- Before `LOCK_LOCK(FREELISTMUTEX)`. -/
  | lockFree (g : Gen) (n : Nat)
  /-- The loop that moves pages from `freelist` to `FREELIST`. -/
  | refill (g : Gen) (n k : Nat)
  /-- Before a page is taken from `FREELIST`. -/
  | take (g : Gen) (n : Nat)
  /-- Before the page is linked behind the last page of the generation. -/
  | link (g : Gen) (n np : Nat)
  /-- Before `gen->a = t2`. -/
  | store (g : Gen) (n np : Nat)
  /-- Before the lock is taken for a large object. -/
  | lockLarge (g : Gen) (n : Nat)
  | allocLobjs (g : Gen) (n : Nat)
  /-- Before `lobjs->next = r->lobjs`. -/
  | linkLarge (g : Gen) (n lobjs : Nat)
  /-- Before `r->lobjs = lobjs`. -/
  | pushLarge (g : Gen) (n lobjs : Nat)
  /-- Before `LOCK_UNLOCK(GLOBALALLOCMUTEX)`. -/
  | unlock

/-- A block of `n` words that was handed out. -/
structure Block (Gen : Type) where
  gen : Gen
  addr : Nat
  n : Nat

def Block.stop {Gen : Type} (b : Block Gen) : Nat := b.addr + wordBytes * b.n

structure State (Tid Gen : Type) where
  /-- `gen->a` and `gen->fp`. -/
  a : Gen → Nat
  fp : Gen → Nat
  /-- The field `n` of a page. -/
  next : Nat → Nat
  freelist : Nat
  /-- `FREELIST` of a thread. -/
  own : Tid → Nat
  /-- `r->lobjs`, and the field `next` of a large object. -/
  lobjs : Gen → Nat
  lobjNext : Nat → Nat
  /-- What `malloc` has returned: address and bytes. -/
  chunks : List (Nat × Nat)
  globalAllocMutex : Option Tid
  freelistMutex : Option Tid
  pc : Tid → Pc Gen
  /-- The blocks handed out and the pages taken so far. -/
  blocks : List (Block Gen)
  taken : List (Gen × Nat)

section Steps

variable {Tid Gen : Type} [DecidableEq Tid] [DecidableEq Gen]

def State.goto (s : State Tid Gen) (t : Tid) (pc : Pc Gen) : State Tid Gen :=
  { s with pc := update s.pc t pc }

/-- The entry of `allocGen`. -/
def entry (g : Gen) (n : Nat) : Pc Gen :=
  if allocatableWordsInRegionPage < n then .lockLarge g n else .start g n

/-- `&(np->i)`. -/
def pageData (np : Nat) : Nat := np + headerBytes

/-- What `malloc` may return: memory that it has not returned before. -/
def Malloc (s : State Tid Gen) (p bytes : Nat) : Prop :=
  0 < p ∧ bytes ≤ ptrdiffMax ∧ ∀ x, p ≤ x → x < p + bytes → ¬ Mapped s.chunks x

/-- The block `[t1, t2)` is taken by moving the allocation pointer. -/
def State.bump (s : State Tid Gen) (g : Gen) (n t1 : Nat) : State Tid Gen :=
  { s with
    a := update s.a g (t1 + wordBytes * n)
    blocks := ⟨g, t1, n⟩ :: s.blocks }

/-- `callSbrk`: a page links to the next one, and the last to the old free list. -/
def State.callSbrk (s : State Tid Gen) (sb : Nat) : State Tid Gen :=
  { s with
    next := fun p =>
      if p ∈ sbrkPages sb then
        if p = alignRp sb + (regionPageBagSize - 1) * pageBytes then s.freelist else p + pageBytes
      else s.next p
    freelist := alignRp sb
    chunks := (sb, sbrkBytes) :: s.chunks }

/-- One turn of the loop that fills `FREELIST`. -/
def State.movePage (s : State Tid Gen) (t : Tid) : State Tid Gen :=
  { s with
    own := update s.own t s.freelist
    freelist := s.next s.freelist
    next := update s.next s.freelist (s.own t) }

/-- `np = FREELIST; FREELIST = FREELIST->n; np->n = NULL`. -/
def State.takePage (s : State Tid Gen) (t : Tid) (g : Gen) : State Tid Gen :=
  { s with
    own := update s.own t (s.next (s.own t))
    next := update s.next (s.own t) 0
    taken := (g, s.own t) :: s.taken }

/-- One step of thread `t`, for requests from the given set.  When `malloc` fails the
program exits, so there is no step. -/
inductive Step (requests : Set (Request Gen)) : State Tid Gen → State Tid Gen → Prop
  | call {s t} (r : Request Gen) (hr : r ∈ requests) (hpc : s.pc t = .idle) :
      Step requests s (s.goto t (entry r.gen r.n))
  | inlineCall {s t} (r : Request Gen) (hr : r ∈ requests) (hpc : s.pc t = .idle) :
      Step requests s (s.goto t (.inlineLoad r.gen r.n))
  | inlineExpand {s t g n} (hpc : s.pc t = .inlineLoad g n)
      (h : (s.a g - 1) ||| (pageBytes - 1) < s.a g - 1 + wordBytes * n) :
      Step requests s (s.goto t (entry g n))
  | inlineLoad {s t g n} (hpc : s.pc t = .inlineLoad g n)
      (h : s.a g - 1 + wordBytes * n ≤ (s.a g - 1) ||| (pageBytes - 1)) :
      Step requests s (s.goto t (.inlineCas g n (s.a g)))
  | inlineCas {s t g n t1} (hpc : s.pc t = .inlineCas g n t1) (h : s.a g = t1) :
      Step requests s ((s.bump g n t1).goto t .idle)
  | inlineCasFails {s t g n t1} (hpc : s.pc t = .inlineCas g n t1) (h : s.a g ≠ t1) :
      Step requests s (s.goto t (entry g n))
  | startFits {s t g n} (hpc : s.pc t = .start g n)
      (h : s.a g + wordBytes * n ≤ rpBoundary (s.a g)) :
      Step requests s (s.goto t (.cas g n (s.a g)))
  | startFull {s t g n} (hpc : s.pc t = .start g n)
      (h : rpBoundary (s.a g) < s.a g + wordBytes * n) :
      Step requests s (s.goto t (.lock g n))
  | cas {s t g n t1} (hpc : s.pc t = .cas g n t1) (h : s.a g = t1) :
      Step requests s ((s.bump g n t1).goto t .idle)
  | casFails {s t g n t1} (hpc : s.pc t = .cas g n t1) (h : s.a g ≠ t1) :
      Step requests s (s.goto t (.start g n))
  | lock {s t g n} (hpc : s.pc t = .lock g n) (h : s.globalAllocMutex = none) :
      Step requests s ({ s with globalAllocMutex := some t }.goto t (.lockedStart g n))
  | lockedFits {s t g n} (hpc : s.pc t = .lockedStart g n)
      (h : s.a g + wordBytes * n ≤ rpBoundary (s.a g)) :
      Step requests s (s.goto t (.lockedCas g n (s.a g)))
  | lockedFull {s t g n} (hpc : s.pc t = .lockedStart g n)
      (h : rpBoundary (s.a g) < s.a g + wordBytes * n) :
      Step requests s (s.goto t (.boundaryCas g n (s.a g)))
  | lockedCas {s t g n t1} (hpc : s.pc t = .lockedCas g n t1) (h : s.a g = t1) :
      Step requests s ((s.bump g n t1).goto t .unlock)
  | lockedCasFails {s t g n t1} (hpc : s.pc t = .lockedCas g n t1) (h : s.a g ≠ t1) :
      Step requests s (s.goto t (.lockedStart g n))
  | boundaryCas {s t g n t1} (hpc : s.pc t = .boundaryCas g n t1) (h : s.a g = t1) :
      Step requests s ({ s with a := update s.a g (rpBoundary t1) }.goto t (.newBlock g n))
  | boundaryCasFails {s t g n t1} (hpc : s.pc t = .boundaryCas g n t1) (h : s.a g ≠ t1) :
      Step requests s (s.goto t (.lockedStart g n))
  | newBlock {s t g n} (hpc : s.pc t = .newBlock g n) (h : s.own t ≠ 0) :
      Step requests s (s.goto t (.take g n))
  | newBlockEmpty {s t g n} (hpc : s.pc t = .newBlock g n) (h : s.own t = 0) :
      Step requests s (s.goto t (.lockFree g n))
  | lockFree {s t g n} (hpc : s.pc t = .lockFree g n) (h : s.freelistMutex = none) :
      Step requests s
        ({ s with freelistMutex := some t }.goto t (.refill g n (regionPageBagSize / 2)))
  | sbrk {s t g n k} (sb : Nat) (hpc : s.pc t = .refill g n (k + 1)) (h : s.freelist = 0)
      (hsb : Malloc s sb sbrkBytes) : Step requests s (s.callSbrk sb)
  | movePage {s t g n k} (hpc : s.pc t = .refill g n (k + 1)) (h : s.freelist ≠ 0) :
      Step requests s ((s.movePage t).goto t (.refill g n k))
  | unlockFree {s t g n} (hpc : s.pc t = .refill g n 0) :
      Step requests s ({ s with freelistMutex := none }.goto t (.take g n))
  | take {s t g n} (hpc : s.pc t = .take g n) (h : s.own t ≠ 0) :
      Step requests s ((s.takePage t g).goto t (.link g n (s.own t)))
  | link {s t g n np} (hpc : s.pc t = .link g n np) (h : s.fp g ≠ 0) :
      Step requests s ({ s with next := update s.next (lastRp (s.a g)) np }.goto t (.store g n np))
  | linkFirst {s t g n np} (hpc : s.pc t = .link g n np) (h : s.fp g = 0) :
      Step requests s ({ s with fp := update s.fp g np }.goto t (.store g n np))
  | store {s t g n np} (hpc : s.pc t = .store g n np) :
      Step requests s ((s.bump g n (pageData np)).goto t .unlock)
  | lockLarge {s t g n} (hpc : s.pc t = .lockLarge g n) (h : s.globalAllocMutex = none) :
      Step requests s ({ s with globalAllocMutex := some t }.goto t (.allocLobjs g n))
  | allocLobjs {s t g n} (p : Nat) (hpc : s.pc t = .allocLobjs g n)
      (hp : Malloc s p (lobjBytes n)) :
      Step requests s ({ s with chunks := (p, lobjBytes n) :: s.chunks }.goto t (.linkLarge g n p))
  | linkLarge {s t g n p} (hpc : s.pc t = .linkLarge g n p) :
      Step requests s
        ({ s with lobjNext := update s.lobjNext p (s.lobjs g) }.goto t (.pushLarge g n p))
  | pushLarge {s t g n p} (hpc : s.pc t = .pushLarge g n p) :
      Step requests s
        ({ s with
            lobjs := update s.lobjs g p
            blocks := ⟨g, p + wordBytes, n⟩ :: s.blocks }.goto t .unlock)
  | unlock {s t} (hpc : s.pc t = .unlock) :
      Step requests s ({ s with globalAllocMutex := none }.goto t .idle)

/-! ## What is claimed of a run -/

def Block.Apart (b c : Block Gen) : Prop := b.stop ≤ c.addr ∨ c.stop ≤ b.addr

/-- The block lies in the data part of a page of its generation. -/
def InRegionPage (s : State Tid Gen) (b : Block Gen) : Prop :=
  ∃ pages, Chain 0 s.next (s.fp b.gen) pages ∧
    ∃ p ∈ pages, pageData p ≤ b.addr ∧ b.stop ≤ p + pageBytes

/-- The block is the value of a large object of its region. -/
def InLobjs (s : State Tid Gen) (b : Block Gen) : Prop :=
  ∃ lobjs, Chain 0 s.lobjNext (s.lobjs b.gen) lobjs ∧ ∃ p ∈ lobjs, b.addr = p + wordBytes

/-- A thread has taken the page for the generation and not linked it yet. -/
def Linking (s : State Tid Gen) (g : Gen) (p : Nat) : Prop := ∃ t n, s.pc t = .link g n p

structure Good (s : State Tid Gen) : Prop where
  apart : s.blocks.Pairwise Block.Apart
  small : ∀ b ∈ s.blocks, b.n ≤ allocatableWordsInRegionPage → InRegionPage s b
  large : ∀ b ∈ s.blocks, allocatableWordsInRegionPage < b.n → InLobjs s b
  linked : ∀ g p, (g, p) ∈ s.taken →
    Linking s g p ∨ ∃ pages, Chain 0 s.next (s.fp g) pages ∧ p ∈ pages

end Steps

end MLKit.Runtime.Par
