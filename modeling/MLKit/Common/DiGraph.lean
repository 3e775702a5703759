import Mathlib.Logic.Function.Basic
import MLKit.Lib.DepthFirst

/-!
# Directed graphs with an equivalence relation on the nodes

`DiGraph` over `UnionFindPoly`.  A node is an element of the union-find
structure; `rep` is what `find` returns for it (path halving changes no
representative), and the graph node of a class sits at its representative.
The flag and the depth-first number of a graph node are references in the
source; no two classes share one, so they are fields here, and a union reads
the ones it keeps at the moment it writes the merged node.  The functions that
combine information may themselves work on the graph and on the state `ρ` of
the caller.
-/

namespace MLKit.DiGraph

open MLKit.Lib Function

/-- How a computation ends when it does not return. -/
inductive Stop where
  | die (message : String)
  | raised (message : String)
  /-- An element was linked to itself: every later `find` on it loops. -/
  | loops
  | fuel
deriving DecidableEq

abbrev Node := Nat

@[ext]
structure GraphNode (ι : Type) where
  info : ι
  visited : Bool
  dfNum : Nat
  out : List Node

@[ext]
structure Heap (ι ρ : Type) where
  next : Nat
  rep : Node → Node
  rep_rep : ∀ n, rep (rep n) = rep n
  rank : Node → Nat
  cell : Node → GraphNode ι
  globals : ρ

namespace Heap

variable {ι ρ : Type} (h : Heap ι ρ)

/-! ## Nodes and their attributes -/

def findInfo (n : Node) : ι := (h.cell (h.rep n)).info

def outOfNode (n : Node) : List Node := (h.cell (h.rep n)).out

def nodeIsVisited (n : Node) : Bool := (h.cell (h.rep n)).visited

def findDfnumber (n : Node) : Nat := (h.cell (h.rep n)).dfNum

def eqNodes (n₁ n₂ : Node) : Bool := h.rep n₁ == h.rep n₂

/-- `UF.set_info`. -/
def setNode (n : Node) (g : GraphNode ι) : Heap ι ρ := { h with cell := update h.cell (h.rep n) g }

def setInfo (n : Node) (info : ι) : Heap ι ρ := h.setNode n { h.cell (h.rep n) with info := info }

def setOutOfNode (n : Node) (out : List Node) : Heap ι ρ :=
  h.setNode n { h.cell (h.rep n) with out := out }

def setVisited (n : Node) (b : Bool) : Heap ι ρ :=
  h.setNode n { h.cell (h.rep n) with visited := b }

def setDfnumber (n : Node) (i : Nat) : Heap ι ρ := h.setNode n { h.cell (h.rep n) with dfNum := i }

def mkEdge (n₁ n₂ : Node) : Heap ι ρ := h.setOutOfNode n₁ (n₂ :: h.outOfNode n₁)

def addEdges (n₁ : Node) (l : List Node) : Heap ι ρ := h.setOutOfNode n₁ (l ++ h.outOfNode n₁)

theorem rep_alloc (n : Node) :
    update h.rep h.next h.next (update h.rep h.next h.next n) = update h.rep h.next h.next n := by
  by_cases hn : n = h.next
  · subst hn
    simp
  · rw [update_of_ne hn]
    by_cases hr : h.rep n = h.next
    · rw [hr, update_self]
    · rw [update_of_ne hr, h.rep_rep]

def mkNode (info : ι) : Node × Heap ι ρ :=
  (h.next,
    { h with
      next := h.next + 1
      rep := update h.rep h.next h.next
      rep_rep := h.rep_alloc
      rank := update h.rank h.next 0
      cell := update h.cell h.next ⟨info, false, 0, []⟩ })

def linkRep (e e' : Node) (n : Node) : Node := if h.rep n = h.rep e then h.rep e' else h.rep n

theorem linkRep_linkRep (e e' n : Node) : h.linkRep e e' (h.linkRep e e' n) = h.linkRep e e' n := by
  unfold linkRep
  by_cases hn : h.rep n = h.rep e
  · rw [if_pos hn, h.rep_rep]
    split <;> rfl
  · rw [if_neg hn, h.rep_rep, if_neg hn]

/-- `e := LINK e'` for representatives. -/
def link (e e' : Node) : Heap ι ρ :=
  { h with rep := h.linkRep e e', rep_rep := h.linkRep_linkRep e e' }

def bumpRank (e : Node) : Heap ι ρ := { h with rank := update h.rank e (h.rank e + 1) }

/-- Lists of nodes are unmarked one by one. -/
def unvisit (g : List Node) : Heap ι ρ := g.foldl (fun h n => h.setVisited n false) h

def visit (g : List Node) : Heap ι ρ := g.foldl (fun h n => h.setVisited n true) h

def resetDfNum (g : List Node) : Heap ι ρ := g.foldl (fun h n => h.setDfnumber n 0) h

end Heap

open Heap

variable {ι ρ A : Type}

/-! ## Unions -/

/-- A function that merges two values, with effects on the heap. -/
abbrev Combine (ι ρ τ : Type) := τ → τ → Heap ι ρ → Except Stop (τ × Heap ι ρ)

/-- `UF.union`: union by rank.  Both graph nodes are read before they are combined. -/
def ufUnion (combine : Combine ι ρ (GraphNode ι)) (n n' : Node) (h : Heap ι ρ) :
    Except Stop (Node × Heap ι ρ) :=
  let e := h.rep n
  let e' := h.rep n'
  if e = e' then .error .loops
  else if h.rank e < h.rank e' then do
    let (g, h) ← combine (h.cell e) (h.cell e') h
    .ok (e', (h.setNode e' g).link e e')
  else if h.rank e' < h.rank e then do
    let (g, h) ← combine (h.cell e) (h.cell e') h
    .ok (e, (h.setNode e g).link e' e)
  else do
    let (g, h) ← combine (h.cell e) (h.cell e') (h.bumpRank e')
    .ok (e', (h.setNode e' g).link e e')

def union (infoCombine : Combine ι ρ ι) (n₁ n₂ : Node) (h : Heap ι ρ) :
    Except Stop (Node × Heap ι ρ) :=
  ufUnion (fun g₁ g₂ h => do
    let (info, h) ← infoCombine g₁.info g₂.info h
    .ok (⟨info, h.nodeIsVisited n₂, h.findDfnumber n₂, g₁.out ++ g₂.out⟩, h)) n₁ n₂ h

def unionGraph (infoCombine : Combine ι ρ ι) : List Node → Heap ι ρ → Except Stop (Node × Heap ι ρ)
  | [], _ => .error (.die "union_graph")
  | n :: g, h =>
    g.foldlM (fun (p : Node × Heap ι ρ) m => union infoCombine m p.1 p.2) (n, h)

/-! ## Traversals -/

/-- The flags of the classes. -/
def Heap.marks (h : Heap ι ρ) (c : Node) : Bool := (h.cell c).visited

def Heap.withMarks (h : Heap ι ρ) (marks : Node → Bool) : Heap ι ρ :=
  { h with cell := fun c => { h.cell c with visited := marks c } }

/-- A recursive search that enters only nodes whose flag is not `b`, and flips
the flag as it enters.  `succ` lists where it goes on from a class. -/
def search (succ : Heap ι ρ → Node → List Node) (b : Bool) (pre post : Node → A → Except Stop A)
    (fuel : Nat) (ns : List Node) (h : Heap ι ρ) (a : A) : Except Stop (Heap ι ρ × A) := do
  let (marks, a) ← depthFirst Stop.fuel h.rep (succ h) b pre post fuel ns h.marks a
  .ok (h.withMarks marks, a)

def keep (_ : Node) (a : A) : Except Stop A := .ok a

def collect (n : Node) (ns : List Node) : Except Stop (List Node) := .ok (n :: ns)

/-- The out-edges of a class. -/
def outs (h : Heap ι ρ) (c : Node) : List Node := (h.cell c).out

def visitAll (fuel : Nat) (n : Node) (h : Heap ι ρ) : Except Stop (Heap ι ρ) := do
  let (h, ()) ← search outs true keep keep fuel [n] h ()
  .ok h

/-- `unvisit_all'`; `unvisit_all n` is the case of one node. -/
def unvisitAll (fuel : Nat) (ns : List Node) (h : Heap ι ρ) : Except Stop (Heap ι ρ) := do
  let (h, ()) ← search outs false keep keep fuel ns h ()
  .ok h

def bottomUpDfs (fuel : Nat) (g : List Node) (h : Heap ι ρ) :
    Except Stop (List Node × Heap ι ρ) := do
  let (h, result) ← search outs true collect keep fuel g h []
  .ok (result, h.unvisit result)

def subgraph (fuel : Nat) (l : List Node) (h : Heap ι ρ) : Except Stop (List Node × Heap ι ρ) := do
  let (result, h) ← bottomUpDfs fuel l h
  .ok (result.reverse, h)

def topsort (fuel : Nat) (l : List Node) (h : Heap ι ρ) : Except Stop (List Node × Heap ι ρ) := do
  let (h, result) ← search outs true keep collect fuel l h []
  .ok (result, h.unvisit result)

/-- `onto`: the nodes that `visitChildren` holds of are replaced by their
children.  The accumulator holds the result and the nodes visited so far. -/
def onto (visitChildren : ι → Bool) (fuel : Nat) (ns : List Node) (h : Heap ι ρ)
    (acc : List Node × List Node) : Except Stop (Heap ι ρ × List Node × List Node) :=
  search (fun h c => if visitChildren (h.cell c).info then (h.cell c).out else []) true
    (fun n acc => .ok (if visitChildren (h.findInfo n) then acc.1 else n :: acc.1, n :: acc.2))
    keep fuel ns h acc

def unionWithoutEdgeDuplication (fuel : Nat) (infoCombine : Combine ι ρ ι)
    (visitChildren : ι → Bool) (n₁ n₂ : Node) (h : Heap ι ρ) : Except Stop (Node × Heap ι ρ) :=
  ufUnion (fun g₁ g₂ h => do
    let (info, h) ← infoCombine g₁.info g₂.info h
    let (h, acc) ← onto visitChildren fuel g₂.out h ([], [])
    let (h, acc) ← onto visitChildren fuel g₁.out h acc
    let h := h.unvisit acc.2
    .ok (⟨info, h.nodeIsVisited n₂, h.findDfnumber n₂, acc.1⟩, h)) n₁ n₂ h

/-! ## Strongly connected components -/

structure SccState (ι ρ : Type) where
  heap : Heap ι ρ
  count : Nat
  stack : List Node
  sccList : List (List Node)

def minList (smallest : Nat) : List Nat → Nat
  | [] => smallest
  | x :: xs => if x < smallest then minList x xs else minList smallest xs

def minLow (x y : Nat) : Nat := if y = 0 then x else min x y

/-- `loop`: pops the stack up to `n` into the first component of `sccs`. -/
def popComponent (n : Node) : List Node → Heap ι ρ → List (List Node) →
    Except Stop (List Node × Heap ι ρ × List (List Node))
  | [], _, _ => .error (.raised "EmptyStack")
  | _ :: _, _, [] => .error (.raised "Empty")
  | x :: stack, h, scc :: sccs =>
    let h := h.setDfnumber x 0
    if h.eqNodes x n then .ok (stack, h, (x :: scc) :: sccs)
    else popComponent n stack h ((x :: scc) :: sccs)

/-- What a successor contributes to the number of a node. -/
def lowOf (lowlink : Node → SccState ι ρ → Except Stop (Nat × SccState ι ρ)) (low : Nat) (w : Node)
    (s : SccState ι ρ) : Except Stop (Nat × SccState ι ρ) :=
  if s.heap.nodeIsVisited w then .ok (minLow low (s.heap.findDfnumber w), s) else lowlink w s

/-- The list of what `lowlink` computes for the successors of a node. -/
def lowlinkMap (lowlink : Node → SccState ι ρ → Except Stop (Nat × SccState ι ρ)) (low : Nat) :
    List Node → SccState ι ρ → Except Stop (List Nat × SccState ι ρ)
  | [], s => .ok ([], s)
  | w :: ws, s => do
    let (x, s) ← lowOf lowlink low w s
    let (xs, s) ← lowlinkMap lowlink low ws s
    .ok (x :: xs, s)

def lowlink : Nat → Node → SccState ι ρ → Except Stop (Nat × SccState ι ρ)
  | 0, _, _ => .error .fuel
  | fuel + 1, n, s => do
    let h := (s.heap.setVisited n true).setDfnumber n s.count
    let low := h.findDfnumber n
    let s : SccState ι ρ := ⟨h, s.count + 1, n :: s.stack, s.sccList⟩
    let (lows, s) ← lowlinkMap (lowlink fuel) low (s.heap.outOfNode n) s
    let low := minList low lows
    if low = s.heap.findDfnumber n then do
      let (stack, h, sccs) ← popComponent n s.stack s.heap ([] :: s.sccList)
      .ok (low, ⟨h, s.count, stack, sccs⟩)
    else .ok (low, s)

def lowlinkNode (fuel : Nat) (n : Node) (s : SccState ι ρ) : Except Stop (SccState ι ρ) :=
  if s.heap.nodeIsVisited n then .ok s
  else do
    let (_, s) ← lowlink fuel n s
    .ok s

/-- The calls of `lowlink` at the nodes of the graph. -/
def lowlinkNodes (fuel : Nat) : List Node → SccState ι ρ → Except Stop (SccState ι ρ)
  | [], s => .ok s
  | n :: g, s => do
    let s ← lowlinkNode fuel n s
    lowlinkNodes fuel g s

def scc (fuel : Nat) (g : List Node) (h : Heap ι ρ) :
    Except Stop (List (List Node) × Heap ι ρ) := do
  let s ← lowlinkNodes fuel g ⟨h.resetDfNum g, 1, [], []⟩
  .ok (s.sccList.reverse, s.heap.unvisit g)

def doChildren : List Node → Heap ι ρ → List Node × Heap ι ρ
  | [], h => ([], h)
  | n :: xs, h =>
    if h.nodeIsVisited n then doChildren xs h
    else
      let (children, h) := doChildren xs (h.setVisited n true)
      (n :: children, h)

def doNode (x : Node) (h : Heap ι ρ) : Heap ι ρ :=
  let children := h.outOfNode x
  let (children, h) := doChildren children ((h.unvisit children).setVisited x true)
  h.setOutOfNode x children

def removeCycles (g : List Node) (h : Heap ι ρ) : Heap ι ρ :=
  (g.foldl (fun h x => doNode x h) h).unvisit g

/-- `map (union_graph info_combine)`. -/
def unionGraphs (infoCombine : Combine ι ρ ι) : List (List Node) → Heap ι ρ →
    Except Stop (List Node × Heap ι ρ)
  | [], h => .ok ([], h)
  | g :: gs, h => do
    let (n, h) ← unionGraph infoCombine g h
    let (ns, h) ← unionGraphs infoCombine gs h
    .ok (n :: ns, h)

def quotient (fuel : Nat) (infoCombine : Combine ι ρ ι) (g : List Node) (h : Heap ι ρ) :
    Except Stop (List Node × Heap ι ρ) := do
  let (sccs, h) ← scc fuel g h
  let (g, h) ← unionGraphs infoCombine sccs h
  .ok (g, removeCycles g h)

/-! ## Grafting -/

/-- `bound_to_free` may allocate nodes. -/
abbrev BoundToFree (ι ρ : Type) := Node → Heap ι ρ → Except Stop (Option Node × Heap ι ρ)

/-- `accum`; the accumulator holds the added children and all children. -/
def accum (boundToFree : BoundToFree ι ρ) : Nat → List Node → List Node × List Node → Heap ι ρ →
    Except Stop ((List Node × List Node) × Heap ι ρ)
  | _, [], acc, h => .ok (acc, h)
  | 0, _ :: _, _, _ => .error .fuel
  | fuel + 1, child :: ns, acc, h => do
    let (free, h) ← boundToFree child h
    match free with
    | some n =>
      if h.nodeIsVisited n then accum boundToFree fuel ns acc h
      else accum boundToFree fuel ns (n :: acc.1, n :: acc.2) h
    | none => do
      let (acc, h) ← accum boundToFree fuel (h.outOfNode child) acc h
      accum boundToFree fuel ns acc h

def graftOne (boundToFree : BoundToFree ι ρ) (fuel : Nat) (n m : Node) (h : Heap ι ρ) :
    Except Stop ((Node × List Node) × Heap ι ρ) := do
  let children := h.outOfNode n
  let h ← visitAll fuel m h
  let ((added, total), h) ← accum boundToFree fuel children ([], h.outOfNode m) h
  let h ← unvisitAll fuel [m] (h.setOutOfNode m total)
  .ok ((m, added), h)

def multiGraft (boundToFree : BoundToFree ι ρ) (fuel : Nat) : List (Node × Node) → Heap ι ρ →
    Except Stop (List (Node × List Node) × Heap ι ρ)
  | [], h => .ok ([], h)
  | (n, m) :: l, h => do
    let (r, h) ← graftOne boundToFree fuel n m h
    let (rs, h) ← multiGraft boundToFree fuel l h
    .ok (r :: rs, h)

end MLKit.DiGraph
