import MLKit.Common.DiGraph

/-!
# Effect graphs

`Effect`: region variables, effect variables and atomic effects as nodes of one
graph, the increments that algorithm R records for effect variables, what
unification and instantiation do to them, and the functions that add atomic
effects to an effect variable.  What none of these functions reads of a node is
left out, and so are the node layouts in the texts of errors.
-/

namespace MLKit.Effect

open MLKit.DiGraph MLKit.DiGraph.Heap Function

structure Rho where
  put : Option Node
  get : Option Node
  level : Nat
  inst : Option Node
deriving DecidableEq

inductive EInfo where
  | eps (key level : Nat) (inst : Option Node)
  | union
  | put
  | get
  | wordEffect
  | rho (r : Rho)
deriving DecidableEq

inductive DeltaPhi where
  | lf (effects : List Node)
  | br (d₁ d₂ : DeltaPhi)
deriving DecidableEq

namespace DeltaPhi

/-- The nodes of an increment, from left to right. -/
def nodes : DeltaPhi → List Node
  | .lf effects => effects
  | .br d₁ d₂ => d₁.nodes ++ d₂.nodes

/-- The nodes of an increment in the order in which `computeIncrement` searches it. -/
def nodesRight : DeltaPhi → List Node
  | .lf effects => effects
  | .br d₁ d₂ => d₂.nodesRight ++ d₁.nodesRight

theorem mem_nodesRight (d : DeltaPhi) (n : Node) : n ∈ d.nodesRight ↔ n ∈ d.nodes := by
  induction d with
  | lf effects => rfl
  | br d₁ d₂ ih1 ih2 =>
    rw [nodesRight, nodes, List.mem_append, List.mem_append, ih1, ih2, or_comm]

end DeltaPhi

/-- The mutable variables of `Effect`: the increments by the key of their effect
variable, and the flag. -/
structure Globals where
  globalIncs : Nat → Option DeltaPhi
  algorithmR : Bool

abbrev EHeap := Heap EInfo Globals

/-! ## Nodes -/

section Nodes

variable (h : EHeap)

def getInstance (n : Node) : Except Stop (Option Node) :=
  match h.findInfo n with
  | .eps _ _ inst => .ok inst
  | .rho r => .ok r.inst
  | _ => .error (.die "get_instance")

def isUnion : EInfo → Bool
  | .union => true
  | _ => false

def isPutOrGet (n : Node) : Bool :=
  match h.findInfo n with
  | .get => true
  | .put => true
  | _ => false

def getKeyOfEps (n : Node) : Except Stop Nat :=
  match h.findInfo n with
  | .eps key _ _ => .ok key
  | _ => .error (.die "GetKeyOfEps")

def mkPut (n : Node) : Except Stop (Node × EHeap) :=
  match h.findInfo n with
  | .rho r =>
    match r.put with
    | some n' => .ok (n', h)
    | none =>
      let (new, h) := h.mkNode .put
      .ok (new, (h.setInfo n (.rho { r with put := some new })).mkEdge new n)
  | _ => .error (.die "mkPut: node does not represent region variable")

def mkGet (n : Node) : Except Stop (Node × EHeap) :=
  match h.findInfo n with
  | .rho r =>
    match r.get with
    | some n' => .ok (n', h)
    | none =>
      let (new, h) := h.mkNode .get
      .ok (new, (h.setInfo n (.rho { r with get := some new })).mkEdge new n)
  | _ => .error (.die "mkGet: node does not represent region variable")

/-- The nodes of a list that are met for the first time, in reverse order; the
nodes that are kept are the nodes that get marked. -/
def markOnce (fuel : Nat) (l : List Node) : Except Stop (EHeap × List Node) :=
  search (fun _ _ => []) true collect keep fuel l h []

def removeDuplicates (fuel : Nat) (effects : List Node) : Except Stop (List Node × EHeap) := do
  let (h, result) ← markOnce h fuel effects
  .ok (result, h.unvisit result)

end Nodes

/-! ## Increments -/

def deltaPlus (fuel : Nat) (d₁ d₂ : DeltaPhi) (h : EHeap) : Except Stop (DeltaPhi × EHeap) := do
  let (h, uniqueNodes) ← markOnce h fuel (DeltaPhi.br d₁ d₂).nodes
  .ok (.lf uniqueNodes, h.unvisit uniqueNodes)

def unvisitDelta (fuel : Nat) (d : DeltaPhi) (h : EHeap) : Except Stop EHeap :=
  unvisitAll fuel d.nodes h

/-- `Increments.lookup (!globalIncs)`. -/
def lookupIncr (h : EHeap) (n : Node) : Except Stop (Option DeltaPhi) := do
  let key ← getKeyOfEps h n
  .ok (h.globals.globalIncs key)

def setIncr (h : EHeap) (key : Nat) (d : Option DeltaPhi) : EHeap :=
  { h with globals := { h.globals with
      globalIncs := update h.globals.globalIncs key d } }

def updateIncrement (fuel : Nat) (n : Node) (new : DeltaPhi) (h : EHeap) : Except Stop EHeap :=
  if new = .lf [] then .ok h
  else
    match h.findInfo n with
    | .eps key _ _ =>
      match h.globals.globalIncs key with
      | some delta => do
        let (sum, h) ← deltaPlus fuel delta new h
        .ok (setIncr h key (some sum))
      | none => .ok (setIncr h key (some new))
    | _ => .ok h

def removeIncr (n : Node) (h : EHeap) : Except Stop EHeap := do
  let key ← getKeyOfEps h n
  match h.globals.globalIncs key with
  | some _ => .ok (setIncr h key none)
  | none => .error (.die "removeIncr")

/-- Where the search of `computeIncrement` goes on: below a union, and below an
effect variable, after the increment recorded for it. -/
def incrementSucc (h : EHeap) (c : Node) : List Node :=
  match (h.cell c).info with
  | .union => (h.cell c).out
  | .eps key _ _ =>
    match h.globals.globalIncs key with
    | some delta => delta.nodesRight ++ (h.cell c).out
    | none => (h.cell c).out
  | _ => []

/-- Atomic effects and effect variables are included in an increment. -/
def EInfo.isAtomic : EInfo → Bool
  | .put => true
  | .get => true
  | .eps .. => true
  | _ => false

def computeIncrement (fuel : Nat) (delta : DeltaPhi) (h : EHeap) :
    Except Stop (List Node × EHeap) := do
  let (h, nodes) ← search incrementSucc true
    (fun n ns => .ok (if (h.findInfo n).isAtomic then n :: ns else ns)) keep
    fuel delta.nodesRight h []
  let h ← unvisitDelta fuel delta h
  .ok (nodes, h)

def setminus (l₁ l₂ : List Node) (h : EHeap) : List Node × EHeap :=
  let h := h.visit l₂
  (l₁.filter fun n => !h.nodeIsVisited n, h.unvisit l₂)

def updateAreff (fuel : Nat) (n : Node) (h : EHeap) : Except Stop EHeap :=
  match h.findInfo n with
  | .eps key _ _ =>
    match h.globals.globalIncs key with
    | some delta => do
      let (nodes, h) ← computeIncrement fuel delta h
      let (below, h) ← subgraph fuel [n] h
      let (toBeAdded, h) := setminus nodes below h
      .ok (h.addEdges n toBeAdded)
    | none => .ok h
  | _ => .ok h

/-! ## Unification -/

/-- The loser's increments are recorded for the winner, whose effect is then
brought up to date. -/
def moveIncr (fuel : Nat) (winner loser : Node) (h : EHeap) : Except Stop EHeap := do
  if h.globals.algorithmR then
    match ← lookupIncr h loser with
    | some delta => do
      let h ← updateIncrement fuel winner delta h
      let h ← updateAreff fuel winner h
      removeIncr loser h
    | none => .ok h
  else .ok h

def einfoCombineEps (fuel : Nat) (eps₁ eps₂ : Node) : Combine EInfo Globals EInfo
  | .eps k₁ l₁ i₁, .eps k₂ l₂ i₂, h =>
    if k₁ = k₂ then .error (.die "einfo_combine_eps: expected keys to be different")
    else if k₁ < k₂ then do
      let h ← moveIncr fuel eps₁ eps₂ h
      .ok (.eps k₁ l₁ i₁, h)
    else do
      let h ← moveIncr fuel eps₂ eps₁ h
      .ok (.eps k₂ l₂ i₂, h)
  | _, _, _ => .error (.die "einfo_combine_eps")

/-! ## Instances -/

/-- The case of an atomic effect in `bound_to_free`; `mk` is `mkPut` or `mkGet`. -/
def boundAtomic (mk : EHeap → Node → Except Stop (Node × EHeap)) (message : String) (node : Node)
    (h : EHeap) : Except Stop (Option Node × EHeap) :=
  match h.outOfNode node with
  | rho :: _ => do
    match ← getInstance h rho with
    | some n' => do
      let (n, h) ← mk h n'
      .ok (some n, h)
    | none => .ok (some node, h)
  | [] => .error (.die message)

def boundToFree : BoundToFree EInfo Globals := fun node h =>
  match h.findInfo node with
  | .put => boundAtomic mkPut "instNodes: put node has no region argument" node h
  | .get => boundAtomic mkGet "instNodes: get node has no region argument" node h
  | .union => .ok (none, h)
  | .wordEffect => .ok (some node, h)
  | .eps _ _ (some n') => .ok (some n', h)
  | .eps _ _ none => .ok (some node, h)
  | .rho _ => .error (.die "bound_to_free.RHO")

/-! ## Observing -/

/-- The level of the region of an atomic effect. -/
def includePutOrGet (l : Nat) (h : EHeap) (node : Node) : Except Stop Bool :=
  match h.outOfNode node with
  | [rho] =>
    match h.findInfo rho with
    | .rho r => .ok (r.level ≤ l)
    | _ => .error (.die "include_rho: not RHO node")
  | _ => .error (.die "include_rho: not precisely one child of PUT or GET node")

/-- Where `collect` goes on: below a union, and below an effect variable of a level above `l`. -/
def collectSucc (l : Nat) (h : EHeap) (c : Node) : List Node :=
  match (h.cell c).info with
  | .union => (h.cell c).out
  | .eps _ level _ => if level ≤ l then [] else (h.cell c).out
  | _ => []

/-- What `collect` does at a node: the accumulator holds the nodes of level at
most `l`, which are returned, and the others (`r_acc`). -/
def collectNode (l : Nat) (h : EHeap) (n : Node) (acc : List Node × List Node) :
    Except Stop (List Node × List Node) :=
  let visitAtomic := do
    if ← includePutOrGet l h n then .ok (n :: acc.1, acc.2) else .ok (acc.1, n :: acc.2)
  match h.findInfo n with
  | .union => .ok acc
  | .rho _ => .ok acc
  | .put => visitAtomic
  | .get => visitAtomic
  | .wordEffect => .ok acc
  | .eps _ level _ => if level ≤ l then .ok (n :: acc.1, acc.2) else .ok (acc.1, n :: acc.2)

def observeDelta (fuel l : Nat) (source : DeltaPhi) (destination : Node) (h : EHeap) :
    Except Stop ((List Node × DeltaPhi) × EHeap) := do
  let h ← visitAll fuel destination h
  let (h, nodesToAdd, rAcc) ← search (collectSucc l) true (collectNode l h) keep fuel
    source.nodes h ([], [])
  let h ← unvisitAll fuel [destination] h
  let h ← unvisitDelta fuel source h
  .ok ((rAcc, .lf nodesToAdd), h.addEdges destination nodesToAdd)

/-! ## Comparing and contracting effects -/

def findPutAndGets (fuel : Nat) (n : Node) (h : EHeap) : Except Stop (List Node × EHeap) := do
  let (l, h) ← topsort fuel [n] h
  .ok (l.filter (isPutOrGet h), h)

/-- `unvisit` of `sameLists`: unmarks the nodes of a list; false if one was not marked. -/
def unvisitAcc : List Node → Bool → EHeap → Bool × EHeap
  | [], acc, h => (acc, h)
  | x :: l, acc, h =>
    if h.nodeIsVisited x then unvisitAcc l acc (h.setVisited x false) else unvisitAcc l false h

/-- `unvisited` of `sameLists`: unmarks the nodes of a list; false if one was marked. -/
def unvisitedAcc : List Node → Bool → EHeap → Bool × EHeap
  | [], acc, h => (acc, h)
  | x :: l, acc, h =>
    if h.nodeIsVisited x then unvisitedAcc l false (h.setVisited x false) else unvisitedAcc l acc h

def sameLists (l₁ l₂ : List Node) (h : EHeap) : Bool × EHeap :=
  let (b, h) := unvisitAcc l₂ true (h.visit l₁)
  if b then unvisitedAcc l₁ true h else (false, h)

def sameEffect (fuel : Nat) (n₁ n₂ : Node) (h : EHeap) : Except Stop (Bool × EHeap) := do
  let (l₁, h) ← findPutAndGets fuel n₁ h
  let (l₂, h) ← findPutAndGets fuel n₂ h
  .ok (sameLists l₁ l₂ h)

def einfoSccCombine : Combine EInfo Globals EInfo
  | .union, i₂, h => .ok (i₂, h)
  | i₁, .union, h => .ok (i₁, h)
  | .eps k₁ l₁ i₁, .eps k₂ l₂ i₂, h =>
    .ok (if k₁ < k₂ then .eps k₁ l₁ i₁ else .eps k₂ l₂ i₂, h)
  | _, _, _ => .error (.die ("einfo_scc_combine: strongly connected component in effect graph " ++
      "contained node which was neither an arrow effect nor a union"))

def contractEffects (fuel : Nat) (arreffs : List Node) (h : EHeap) :
    Except Stop (List Node × EHeap) := do
  let (sg, h) ← subgraph fuel arreffs h
  quotient fuel einfoSccCombine sg h

end MLKit.Effect
