import MLKit.MlbMake.BuildGraph

/-!
# The source files of a project

The traversal `srcs_bdec` of `MlbProject.sml`, which builds the graph for the
scheduler with an environment of its own for basis identifiers.
-/

namespace MLKit.MlbMake

open BuildGraph

inductive SmlFile where
  | script (file : String)
  | nonScript (file : String)
  deriving DecidableEq, Repr

def stripFile : SmlFile → String
  | .script a => a
  | .nonScript a => a

/-- A source file, the mlb-file it stands in, and its annotations. -/
structure Source where
  smlFile : SmlFile
  mlbfile : String
  anns : List String

def Source.name (s : Source) : String := stripFile s.smlFile

/-- A basis identifier, the tokens it stands for, and the identifiers inside. -/
inductive Deps (τ : Type) where
  | dep (bid : Bid) (deps : τ) (inner : List (Deps τ))

section Maps

variable {τ : Type}

def addLevelMap : List (List (Deps τ)) → List (List (Deps τ))
  | [] => [[], []]
  | m => [] :: m

def wrapLevel (m : List (List (Deps τ))) (bid : Bid) (deps : τ) : List (List (Deps τ)) :=
  match m with
  | [] => [[.dep bid deps []]]
  | [m] => [[.dep bid deps m]]
  | m₁ :: m₂ :: r => (.dep bid deps m₁ :: m₂) :: r

def wrapLocal : List (List (Deps τ)) → List (List (Deps τ))
  | [] => []
  | [m] => [m]
  | m₁ :: m₂ :: r => (m₁ ++ m₂) :: r

def killLocal : List (List (Deps τ)) → List (List (Deps τ))
  | m₁ :: _ :: r => wrapLocal (m₁ :: r)
  | r => r

def findEntry (bid : Bid) : List (Deps τ) → Option (τ × List (Deps τ))
  | [] => none
  | .dep b deps m :: r => if bid = b then some (deps, m) else findEntry bid r

/-- The first entry of the identifier decides, also when it does not have the rest. -/
def findInMap : Bid → List Bid → List (Deps τ) → Option τ
  | bid, [], m => (findEntry bid m).map Prod.fst
  | bid, y :: ys, m => (findEntry bid m).bind fun entry => findInMap y ys entry.2

def findInMaps (longbid : LongBid) : List (List (Deps τ)) → Option τ
  | [] => none
  | m :: r =>
    match findInMap longbid.bid longbid.rest m with
    | none => findInMaps longbid r
    | some deps => some deps

end Maps

structure SrcState where
  bg : List (Elem Source)
  bidMap : List (List (Deps (List Nat)))

def SrcState.addLevel (s : SrcState) : SrcState := { s with bidMap := addLevelMap s.bidMap }

/-- What a traversal returns: the state, the tokens of what comes next, and the
mlb-files that have been traversed with theirs. -/
structure SrcResult where
  state : SrcState
  deps : List Nat
  mlbs : List (String × List Nat)

def addScripts (mlbfile : String) (anns : List String) (deps : List Nat) (bg : List (Elem Source))
    (smlfiles : List String) : List (Elem Source) :=
  smlfiles.foldl (fun bg f => (addFirst bg deps ⟨.script f, mlbfile, anns⟩).1) bg

/-- The files that stand in the way of a build. -/
inductive SourcesError where
  | cycle (mlbfile : String)
  | referencedTwice

mutual

def srcsBexp (s : SrcState) (mlbfile : String) (current : List String)
    (mlbs : List (String × List Nat)) (anns : List String) (deps : List Nat) :
    Bexp → Except SourcesError SrcResult
  | .bas bdec => srcsBdec s mlbfile current mlbs anns deps bdec
  | .letIn bdec bexp => do
    let r ← srcsBdec s mlbfile current mlbs anns deps bdec
    srcsBexp r.state mlbfile current r.mlbs anns r.deps bexp
  | .longbid longbid => return ⟨s, (findInMaps longbid s.bidMap).getD [], mlbs⟩

/-- `current` are the mlb-files being traversed; one among them would be a cycle. -/
def srcsBdec (s : SrcState) (mlbfile : String) (current : List String)
    (mlbs : List (String × List Nat)) (anns : List String) (deps : List Nat) :
    Bdec → Except SourcesError SrcResult
  | .seq bdec₁ bdec₂ => do
    let r ← srcsBdec s mlbfile current mlbs anns deps bdec₁
    srcsBdec r.state mlbfile current r.mlbs anns r.deps bdec₂
  | .empty => return ⟨s, deps, mlbs⟩
  | .loc bdec₁ bdec₂ => do
    let r₁ ← srcsBdec s.addLevel mlbfile current mlbs anns deps bdec₁
    let r₂ ← srcsBdec r₁.state.addLevel mlbfile current r₁.mlbs anns r₁.deps bdec₂
    return { r₂ with state := { r₂.state with bidMap := killLocal r₂.state.bidMap } }
  | .basis bid bexp => do
    let r ← srcsBexp s.addLevel mlbfile current mlbs anns deps bexp
    return ⟨{ r.state with bidMap := wrapLevel r.state.bidMap bid r.deps }, deps, r.mlbs⟩
  | .opn longbids =>
    return ⟨s, longbids.foldl (fun acc l => (findInMaps l s.bidMap).getD [] ++ acc) deps, mlbs⟩
  | .atbdec smlfile =>
    let (bg, token) := addFirst s.bg deps ⟨.nonScript smlfile, mlbfile, anns⟩
    return ⟨{ s with bg }, [token], mlbs⟩
  | .mlbfile mlbfile' parsed =>
    if mlbfile' ∈ current then .error (.cycle mlbfile')
    else
      match mlbs.find? (fun entry => entry.1 = mlbfile') with
      | some (_, deps₂) => return ⟨s, deps ++ deps₂, mlbs⟩
      | none => do
        let r ← srcsBdec s mlbfile' (mlbfile' :: current) mlbs [] [] parsed
        return ⟨r.state, deps ++ r.deps, (mlbfile', r.deps) :: r.mlbs⟩
  | .scripts smlfiles =>
    return ⟨{ s with bg := addScripts mlbfile anns deps s.bg smlfiles }, deps, mlbs⟩
  | .ann ann bdec => srcsBdec s mlbfile current mlbs (ann :: anns) deps bdec

end

/-- `check` finds equal files by sorting them. -/
def check (a : B Source) : Except SourcesError Unit :=
  if (a.map fun e => e.elem.name).Nodup then .ok ()
  else .error .referencedTwice

/-- The elements of the graph, newest first. -/
def Project.graph (p : Project) : Except SourcesError (List (Elem Source)) := do
  let r ← srcsBdec ⟨[], []⟩ "" [] [] [] [] (.mlbfile p.mlbfile p.parsed)
  return r.state.bg

def Project.sources (p : Project) : Except SourcesError (B Source × (Nat → List (B Source))) := do
  let bg ← p.graph
  let ab := turn bg
  check ab.1
  return ab

end MLKit.MlbMake
