import MLKit.MlbMake.Sources

/-!
# What comes before a source file

The files that have to be compiled before a source file, as the project is read for
the scheduler: an identifier stands for the files of its basis and of what comes before
it.  A file that is imported again, `open`, and a basis that is the name of another one
bind no identifiers.
-/

namespace MLKit.MlbMake

structure BeforeState where
  /-- The source files, the last one first, with the files before them. -/
  out : List (String × List String)
  bidMap : List (List (Deps (List String)))

def BeforeState.addLevel (s : BeforeState) : BeforeState :=
  { s with bidMap := addLevelMap s.bidMap }

structure BeforeResult where
  state : BeforeState
  before : List String
  mlbs : List (String × List String)

mutual

def beforeBexp (s : BeforeState) (mlbs : List (String × List String)) (before : List String) :
    Bexp → BeforeResult
  | .bas bdec => beforeBdec s mlbs before bdec
  | .letIn bdec bexp =>
    let r := beforeBdec s mlbs before bdec
    beforeBexp r.state r.mlbs r.before bexp
  | .longbid longbid => ⟨s, (findInMaps longbid s.bidMap).getD [], mlbs⟩

def beforeBdec (s : BeforeState) (mlbs : List (String × List String)) (before : List String) :
    Bdec → BeforeResult
  | .seq bdec₁ bdec₂ =>
    let r := beforeBdec s mlbs before bdec₁
    beforeBdec r.state r.mlbs r.before bdec₂
  | .empty => ⟨s, before, mlbs⟩
  | .loc bdec₁ bdec₂ =>
    let r₁ := beforeBdec s.addLevel mlbs before bdec₁
    let r₂ := beforeBdec r₁.state.addLevel r₁.mlbs r₁.before bdec₂
    { r₂ with state := { r₂.state with bidMap := killLocal r₂.state.bidMap } }
  | .basis bid bexp =>
    let r := beforeBexp s.addLevel mlbs before bexp
    ⟨{ r.state with bidMap := wrapLevel r.state.bidMap bid r.before }, before, r.mlbs⟩
  | .opn longbids =>
    ⟨s, longbids.foldl (fun acc l => (findInMaps l s.bidMap).getD [] ++ acc) before, mlbs⟩
  | .atbdec smlfile => ⟨{ s with out := (smlfile, before) :: s.out }, smlfile :: before, mlbs⟩
  | .mlbfile mlbfile parsed =>
    match mlbs.find? (fun entry => entry.1 = mlbfile) with
    | some (_, before₂) => ⟨s, before ++ before₂, mlbs⟩
    | none =>
      let r := beforeBdec s mlbs [] parsed
      ⟨r.state, before ++ r.before, (mlbfile, r.before) :: r.mlbs⟩
  | .scripts smlfiles =>
    ⟨{ s with out := smlfiles.foldl (fun out f => (f, before) :: out) s.out }, before, mlbs⟩
  | .ann _ bdec => beforeBdec s mlbs before bdec

end

/-- The source files of a project with the files that come before them. -/
def Project.before (p : Project) : List (String × List String) :=
  (beforeBdec ⟨[], []⟩ [] [] (.mlbfile p.mlbfile p.parsed)).state.out

end MLKit.MlbMake
