import Mathlib.Logic.Function.Basic
import MLKit.MlbMake.MlbProject

/-!
# The scheduler

`BuildGraph` of `MlbProject.sml` with `initial` and `done`.  A reference cell is
named by the number of the element it belongs to.
-/

namespace MLKit.MlbMake

variable {α : Type}

/-- The numbers of `depend_status` are those of dependency tokens. -/
structure Elem (α : Type) where
  id : Nat
  elem : α
  dependStatus : List Nat

namespace BuildGraph

/-- The contents of the cells `status` and `queued`. -/
structure Cells where
  status : Nat → Bool
  queued : Nat → Bool

def Cells.initial : Cells := ⟨fun _ => false, fun _ => false⟩

/-- The elements from one on. -/
abbrev B (α : Type) := List (Elem α)

/-- The number of the token `firstB`. -/
def firstB : Nat := 0

def addFirst (bg : List (Elem α)) (deps : List Nat) (elem : α) : List (Elem α) × Nat :=
  let i := match bg with
    | [] => 1
    | e :: _ => e.id + 1
  (⟨i, elem, deps⟩ :: bg, i)

def done (i : Nat) (cells : Cells) : Cells :=
  { cells with status := Function.update cells.status i true }

def next (x : B α) : Option (B α) :=
  match x with
  | [] => none
  | _ :: r => some r

/-- The element is taken if it is not queued and all it waits for is done. -/
def projectB (x : B α) (cells : Cells) : Option (α × Nat) × Cells :=
  match x with
  | [] => (none, cells)
  | e :: _ =>
    if !cells.queued e.id && e.dependStatus.all cells.status then
      (some (e.elem, e.id), { cells with queued := Function.update cells.queued e.id true })
    else (none, cells)

def isPending (cells : Cells) : B α → Bool
  | [] => false
  | e :: _ => !cells.status e.id

def fromMap (m : Nat → List (B α)) (i : Nat) (cells : Cells) : List (B α) :=
  (m i).filter (isPending cells)

def updatesMap (m : Nat → List (B α)) (i : Nat) (l : B α) : Nat → List (B α) :=
  Function.update m i (l :: m i)

/-- An element is found from what it waits for, apart from the element before it. -/
def turnElem (accm : B α × (Nat → List (B α))) (e : Elem α) : B α × (Nat → List (B α)) :=
  let acc := e :: accm.1
  (acc,
    match e.dependStatus.partition (fun i => decide (i ≠ e.id - 1)) with
    | ([], []) => updatesMap accm.2 0 acc
    | ([], _) => accm.2
    | (l, _) => l.foldl (fun m i => updatesMap m i acc) accm.2)

def turn (l : List (Elem α)) : B α × (Nat → List (B α)) := l.foldl turnElem ([], fun _ => [])

end BuildGraph

open BuildGraph

/-- A file that is handed out: the element, its position, its token and what may have
to be handed out when it is done. -/
structure File (α : Type) where
  elem : α
  node : B α
  id : Nat
  waiting : List (B α)

def file (m : Nat → List (B α)) (x : B α) (cells : Cells) : Option (File α) × Cells :=
  match projectB x cells with
  | (some (elem, i), cells) => (some ⟨elem, x, i, fromMap m i cells⟩, cells)
  | (none, cells) => (none, cells)

/-- `List.mapPartial (file m)`. -/
def files (m : Nat → List (B α)) : List (B α) → Cells → List (File α) × Cells
  | [], cells => ([], cells)
  | x :: xs, cells =>
    let (f, cells) := file m x cells
    let (fs, cells) := files m xs cells
    (f.toList ++ fs, cells)

def initial (m : Nat → List (B α)) (cells : Cells) : List (File α) × Cells :=
  files m (fromMap m firstB cells) cells

def done (m : Nat → List (B α)) (f : File α) (cells : Cells) : List (File α) × Cells :=
  files m ((next f.node).toList ++ f.waiting) (BuildGraph.done f.id cells)

/-! ## Builds -/

inductive Event (α : Type) where
  | handedOut (file : File α)
  | done (file : File α)

/-- What has happened, the last event first, and the files that are being compiled. -/
structure Build (α : Type) where
  cells : Cells
  compiling : List (File α)
  events : List (Event α)

def Build.handOut (fs : List (File α)) (events : List (Event α)) : List (Event α) :=
  (fs.map .handedOut).reverse ++ events

def Build.start (m : Nat → List (B α)) : Build α :=
  let (fs, cells) := initial m Cells.initial
  ⟨cells, fs, Build.handOut fs []⟩

/-- The compilation of a file ends. -/
inductive Build.Step (m : Nat → List (B α)) : Build α → Build α → Prop
  | finish {b : Build α} {fs gs hs : List (File α)} {f : File α} {cells : Cells}
      (hf : b.compiling = fs ++ f :: gs) (hdone : MlbMake.done m f b.cells = (hs, cells)) :
      Build.Step m b ⟨cells, fs ++ gs ++ hs, Build.handOut hs (.done f :: b.events)⟩

/-- The states of all builds, whatever the order in which compilations end. -/
inductive Build.Reachable (m : Nat → List (B α)) : Build α → Prop
  | start : Build.Reachable m (Build.start m)
  | step {b b' : Build α} (hb : Build.Reachable m b) (hstep : Build.Step m b b') :
      Build.Reachable m b'

end MLKit.MlbMake
