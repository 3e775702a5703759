import MLKit.Runtime.Pages

/-!
# The region operations

The sequential X64 runtime of `Region.c`, and what `gc` does to region pages, with
or without `ENABLE_GC` and `ENABLE_GEN_GC`.  Large objects are not in pages, and are
left out.
-/

namespace MLKit.Runtime.Seq

open MLKit.Lib Function

/-! ## Generations and their marks -/

structure Config where
  enableGc : Bool
  enableGenGc : Bool
  gc_of_gen : enableGenGc = true → enableGc = true

/-- `HEADER_WORDS_IN_REGION_PAGE`. -/
def Config.headerWords (cfg : Config) : Nat := if cfg.enableGenGc then 3 else 2

def Config.allocatableWords (cfg : Config) : Nat := pageBytes / wordBytes - cfg.headerWords

/-- `&(np->i)`. -/
def Config.pageData (cfg : Config) (np : Nat) : Nat := np + cfg.headerWords * wordBytes

/-- The generation `g0`, or else `g1`, of the region descriptor at an address. -/
structure Gen where
  region : Nat
  old : Bool
  deriving DecidableEq

/-- The generations that a region has. -/
def Config.gens (cfg : Config) (r : Nat) : List Gen :=
  ⟨r, false⟩ :: if cfg.enableGenGc then [⟨r, true⟩] else []

inductive RType where
  | tagged | pair | array | ref | triple
  deriving DecidableEq

def RType.mark : RType → Nat
  | .tagged => 0x0
  | .pair => 0x1
  | .array => 0x2
  | .ref => 0x3
  | .triple => 0x7

def generationStatus : Nat := 0x8

def generation : Nat := 0x10

def allMarksFp (fp : Nat) : Nat := fp &&& 0x1F

/-- `clear_fp`: the pointer without its five lowest bits. -/
def Config.clearFp (cfg : Config) (fp : Nat) : Nat :=
  if cfg.enableGc then fp - (fp &&& 0x1F) else fp

def setFp (fp rt : Nat) : Nat := fp ||| rt

/-- `set_gen_status_NONE`. -/
def clearStatus (fp : Nat) : Nat := fp - (fp &&& generationStatus)

def isGen1 (fp : Nat) : Bool := fp &&& generation == generation

def setTospaceBit (p : Nat) : Nat := p ||| 1

def clearTospaceBit (p : Nat) : Nat := p - (p &&& 1)

def isTospaceBit (p : Nat) : Bool := p &&& 1 == 1

/-! ## The state -/

/-- The memory allocator of C, which does not return memory twice. -/
structure Malloc where
  addr : List (Nat × Nat) → Nat → Nat
  pos : ∀ chunks bytes, 0 < addr chunks bytes
  fresh : ∀ chunks bytes x, addr chunks bytes ≤ x → x < addr chunks bytes + bytes →
    ¬ Mapped chunks x

structure Heap where
  a : Gen → Nat
  fp : Gen → Nat
  /-- The fields `n` and `gen` of a page. -/
  next : Nat → Nat
  owner : Nat → Option Gen
  freelist : Nat
  rpTotal : Nat
  /-- `TOP_REGION` and the regions that the fields `p` lead to. -/
  regions : List Nat
  doingGc : Bool
  majorP : Bool
  fromSpaceBegin : Nat
  fromSpaceEnd : Nat
  /-- What `malloc` has returned. -/
  chunks : List (Nat × Nat)
  /-- How each region was allocated. -/
  kind : Nat → RType

def Heap.initial : Heap where
  a := fun _ => 0
  fp := fun _ => 0
  next := fun _ => 0
  owner := fun _ => none
  freelist := 0
  rpTotal := 0
  regions := []
  doingGc := false
  majorP := false
  fromSpaceBegin := 0
  fromSpaceEnd := 0
  chunks := []
  kind := fun _ => .tagged

def Heap.setA (h : Heap) (g : Gen) (a : Nat) : Heap := { h with a := update h.a g a }

def Heap.setFpOf (h : Heap) (g : Gen) (fp : Nat) : Heap := { h with fp := update h.fp g fp }

def Heap.setNext (h : Heap) (p q : Nat) : Heap := { h with next := update h.next p q }

section Ops

variable (cfg : Config) (m : Malloc)

/-! ## Region.c -/

def callSbrk (h : Heap) : Heap :=
  let sb := m.addr h.chunks sbrkBytes
  { h with
    next := fun p =>
      if p ∈ sbrkPages sb then
        if p = alignRp sb + (regionPageBagSize - 1) * pageBytes then h.freelist else p + pageBytes
      else h.next p
    freelist := alignRp sb
    rpTotal := h.rpTotal + regionPageBagSize
    chunks := (sb, sbrkBytes) :: h.chunks }

/-- The link of a new page, which is in to-space while the collector runs. -/
def newLink (h : Heap) (g : Gen) : Nat :=
  if h.doingGc && (!cfg.enableGenGc || h.majorP || !isGen1 (h.fp g)) then setTospaceBit 0 else 0

/-- `np = FREELIST; FREELIST = FREELIST->n`, and the fields of the page. -/
def takeBlock (g : Gen) (h : Heap) : Heap :=
  { h with
    freelist := h.next h.freelist
    next := update h.next h.freelist (newLink cfg h g)
    owner := update h.owner h.freelist (some g) }

/-- The page is linked behind the last page of the generation, if there is one. -/
def linkBlock (g : Gen) (np : Nat) (h : Heap) : Heap :=
  if cfg.clearFp (h.fp g) ≠ 0 then
    let last := lastRp (h.a g)
    if h.doingGc && isTospaceBit (h.next last) then h.setNext last (setTospaceBit np)
    else h.setNext last np
  else h.setFpOf g (if cfg.enableGc then setFp np (allMarksFp (h.fp g)) else np)

def allocNewBlock (g : Gen) (h : Heap) : Nat × Heap :=
  let h := if h.freelist = 0 then callSbrk m h else h
  let np := h.freelist
  (cfg.pageData np, linkBlock cfg g np (takeBlock cfg g h))

/-- `gen->a = alloc_new_block(gen)`. -/
def expandGen (g : Gen) (h : Heap) : Heap :=
  let (a, h) := allocNewBlock cfg m g h
  h.setA g a

/-- A generation gets its first page. -/
def firstBlock (g : Gen) (h : Heap) : Heap :=
  let h := h.setFpOf g (if g.old then setFp 0 generation else 0)
  expandGen cfg m g h

def allocateRegion0 (r : Nat) (h : Heap) : Heap :=
  let h := (cfg.gens r).foldl (fun h g => firstBlock cfg m g h) h
  { h with regions := r :: h.regions }

/-- `allocateRegion` and its typed variants. -/
def allocateRegion (r : Nat) (kind : RType) (h : Heap) : Heap :=
  let h := allocateRegion0 cfg m r h
  let h := (cfg.gens r).foldl (fun h g => h.setFpOf g (setFp (h.fp g) kind.mark)) h
  { h with kind := update h.kind r kind }

def allocGen (g : Gen) (n : Nat) (h : Heap) : Heap :=
  -- larger objects are allocated with malloc
  if cfg.allocatableWords < n then h
  else
    let t1 := h.a g
    let t2 := t1 + wordBytes * n
    if rpBoundary t1 < t2 then
      let h := expandGen cfg m g h
      h.setA g (h.a g + wordBytes * n)
    else h.setA g t2

def resetGen (g : Gen) (h : Heap) : Heap :=
  let p := cfg.clearFp (h.fp g)
  let h :=
    if h.next p ≠ 0 then
      let h := h.setNext (lastRp (h.a g)) h.freelist
      let h := { h with freelist := h.next p }
      h.setNext p 0
    else h
  h.setA g (cfg.pageData p)

def resetRegion (r : Nat) (h : Heap) : Heap := (cfg.gens r).foldl (fun h g => resetGen cfg g h) h

/-- The pages of a generation go to the free list. -/
def freeGen (g : Gen) (h : Heap) : Heap :=
  let h := h.setNext (lastRp (h.a g)) h.freelist
  { h with freelist := cfg.clearFp (h.fp g) }

/-- Without a region on the stack the program fails. -/
def deallocateRegion (h : Heap) : Option Heap :=
  match h.regions with
  | [] => none
  | r :: regions =>
    let h := (cfg.gens r).foldl (fun h g => freeGen cfg g h) h
    some { h with regions }

/-- `while (r >= TOP_REGION)`; the end of the region stack is `NULL`, which is below
every address. -/
def deallocateLoop (r : Nat) : Nat → Heap → Option Heap
  | 0, _ => none
  | fuel + 1, h =>
    match h.regions with
    | [] => none
    | top :: _ =>
      if top ≤ r then (deallocateRegion cfg h).bind (deallocateLoop r fuel) else some h

def deallocateRegionsUntil (r : Nat) (h : Heap) : Option Heap :=
  deallocateLoop cfg r (h.regions.length + 1) h

/-! ## GC.c -/

def mkFromSpaceGen (g : Gen) (h : Heap) : Heap :=
  let h := h.setNext (lastRp (h.a g)) h.fromSpaceBegin
  let h := { h with fromSpaceBegin := cfg.clearFp (h.fp g) }
  let h := h.setFpOf g (setFp 0 (allMarksFp (h.fp g)))
  expandGen cfg m g h

/-- The generations of a region that are collected. -/
def collected (major : Bool) (r : Nat) : List Gen := (cfg.gens r).filter fun g => major || !g.old

def mkFromSpace (h : Heap) : Heap :=
  let h :=
    { h with
      fromSpaceBegin := 0
      fromSpaceEnd := lastRp (h.a ⟨h.regions.headD 0, false⟩) }
  (h.regions.flatMap (collected cfg h.majorP)).foldl (fun h g => mkFromSpaceGen cfg m g h) h

/-- What evacuation and scanning do to generations: an object of `n` words is copied
to a generation, which is then on the scan stack, or the objects of a generation have
been scanned. -/
inductive GcEvent where
  | copy (g : Gen) (n : Nat)
  | scanned (g : Gen)

def GcEvent.gen : GcEvent → Gen
  | .copy g _ => g
  | .scanned g => g

def gcEvent (h : Heap) : GcEvent → Heap
  | .copy g n =>
    let h := allocGen cfg m g n h
    h.setFpOf g (setFp (h.fp g) generationStatus)
  | .scanned g => h.setFpOf g (clearStatus (h.fp g))

/-- `for (p = ...; p; p = p->n) p->n = clear_tospace_bit(p->n)`. -/
def clearTospaceLoop : Nat → Nat → Heap → Option Heap
  | 0, _, _ => none
  | fuel + 1, p, h =>
    if p = 0 then some h
    else
      let h := h.setNext p (clearTospaceBit (h.next p))
      clearTospaceLoop fuel (h.next p) h

def clearTospaceGens : List Gen → Heap → Option Heap
  | [], h => some h
  | g :: gens, h =>
    (clearTospaceLoop (h.rpTotal + 1) (cfg.clearFp (h.fp g)) h).bind (clearTospaceGens gens)

/-- The from-space goes to the free list. -/
def freeFromSpace (h : Heap) : Heap :=
  let h := h.setNext h.fromSpaceEnd h.freelist
  { h with freelist := h.fromSpaceBegin }

/-- What `gc` does to pages. -/
def gc (major : Bool) (events : List GcEvent) (h : Heap) : Option Heap :=
  let h := { h with doingGc := true, majorP := major }
  let h := mkFromSpace cfg m h
  let h := events.foldl (gcEvent cfg m) h
  let h := freeFromSpace h
  (clearTospaceGens cfg (h.regions.flatMap cfg.gens) h).map fun h => { h with doingGc := false }

/-! ## Sequences of operations -/

inductive Op where
  | allocateRegion (r : Nat) (kind : RType)
  | alloc (r n : Nat)
  | resetRegion (r : Nat)
  | deallocateRegion
  | deallocateRegionsUntil (r : Nat)
  | gc (major : Bool) (events : List GcEvent)

/-- `none` when the program fails. -/
def Op.run (h : Heap) : Op → Option Heap
  | .allocateRegion r kind => some (Seq.allocateRegion cfg m r kind h)
  | .alloc r n => some (allocGen cfg m ⟨r, false⟩ n h)
  | .resetRegion r => some (Seq.resetRegion cfg r h)
  | .deallocateRegion => Seq.deallocateRegion cfg h
  | .deallocateRegionsUntil r => Seq.deallocateRegionsUntil cfg r h
  | .gc major events => Seq.gc cfg m major events h

/-- The calls that compiled code makes: a region descriptor is put where no other is,
the operations are applied to regions on the region stack, and some region is left
when regions are deallocated up to an address. -/
def Op.Admissible (h : Heap) : Op → Prop
  | .allocateRegion r kind =>
    r ∉ h.regions ∧ (cfg.enableGc = true ∨ kind = .tagged)
  | .alloc r n => r ∈ h.regions ∧ 1 ≤ n
  | .resetRegion r => r ∈ h.regions
  | .deallocateRegion => h.regions ≠ []
  | .deallocateRegionsUntil r => ∃ r' ∈ h.regions, r < r'
  | .gc _ events => cfg.enableGc = true ∧ h.regions ≠ [] ∧
      ∀ event ∈ events, event.gen ∈ h.regions.flatMap cfg.gens

/-- A sequence of admissible operations, and the state it leads to. -/
inductive Runs : List Op → Heap → Heap → Prop
  | nil (h : Heap) : Runs [] h h
  | cons {op ops h h₁ h₂} (hadm : op.Admissible cfg h) (hrun : op.run cfg m h = some h₁)
      (hrest : Runs ops h₁ h₂) : Runs (op :: ops) h h₂

end Ops

end MLKit.Runtime.Seq
