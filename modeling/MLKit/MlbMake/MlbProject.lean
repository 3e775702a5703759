/-!
# MLB projects and their dependency lists

The syntax of basis declarations and the traversal `dep` of `MlbProject.sml`, which
computes the files that each source file depends on.  Source files and mlb-files are
named by what `unique_true` makes of their paths.
-/

namespace MLKit.MlbMake

abbrev Bid := String

/-- `Bid.longbid`, which is never empty. -/
structure LongBid where
  bid : Bid
  rest : List Bid
  deriving DecidableEq, Repr

def LongBid.pp (b : LongBid) : String := String.intercalate "." (b.bid :: b.rest)

mutual

inductive Bexp where
  | bas (bdec : Bdec)
  | letIn (bdec : Bdec) (bexp : Bexp)
  | longbid (longbid : LongBid)

/-- An imported mlb-file stands with what `parse` returns for it. -/
inductive Bdec where
  | seq (bdec₁ bdec₂ : Bdec)
  | empty
  | loc (bdec₁ bdec₂ : Bdec)
  | basis (bid : Bid) (bexp : Bexp)
  | opn (longbids : List LongBid)
  | atbdec (smlfile : String)
  | mlbfile (mlbfile : String) (parsed : Bdec)
  | scripts (smlfiles : List String)
  | ann (ann : String) (bdec : Bdec)

end

mutual

/-- The mlb-files that are imported, with their contents. -/
def Bexp.imports : Bexp → List (String × Bdec)
  | .bas bdec => bdec.imports
  | .letIn bdec bexp => bdec.imports ++ bexp.imports
  | .longbid _ => []

def Bdec.imports : Bdec → List (String × Bdec)
  | .seq bdec₁ bdec₂ => bdec₁.imports ++ bdec₂.imports
  | .empty => []
  | .loc bdec₁ bdec₂ => bdec₁.imports ++ bdec₂.imports
  | .basis _ bexp => bexp.imports
  | .opn _ => []
  | .atbdec _ => []
  | .mlbfile mlbfile parsed => (mlbfile, parsed) :: parsed.imports
  | .scripts _ => []
  | .ann _ bdec => bdec.imports

end

mutual

/-- The source files that are named. -/
def Bexp.files : Bexp → List String
  | .bas bdec => bdec.files
  | .letIn bdec bexp => bdec.files ++ bexp.files
  | .longbid _ => []

def Bdec.files : Bdec → List String
  | .seq bdec₁ bdec₂ => bdec₁.files ++ bdec₂.files
  | .empty => []
  | .loc bdec₁ bdec₂ => bdec₁.files ++ bdec₂.files
  | .basis _ bexp => bexp.files
  | .opn _ => []
  | .atbdec smlfile => [smlfile]
  | .mlbfile _ parsed => parsed.files
  | .scripts smlfiles => smlfiles
  | .ann _ bdec => bdec.files

end

/-- A project: an mlb-file has the same contents wherever it is imported.  No import
is cyclic, since a declaration is a finite tree. -/
structure Project where
  mlbfile : String
  parsed : Bdec
  consistent : ∀ m b b', (m, b) ∈ (mlbfile, parsed) :: parsed.imports →
    (m, b') ∈ (mlbfile, parsed) :: parsed.imports → b = b'

/-! ## DepEnv -/

inductive DepEnv where
  | D (L : List String) (M : List (Bid × DepEnv))

namespace DepEnv

def getL : DepEnv → List String
  | D L _ => L

def getM : DepEnv → List (Bid × DepEnv)
  | D _ M => M

def look : List (Bid × DepEnv) → Bid → Option DepEnv
  | [], _ => none
  | (x, d) :: xs, y => if x = y then some d else look xs y

def lookD : DepEnv → Bid → List Bid → Option DepEnv
  | d, y, [] => look d.getM y
  | d, y, z :: ys => (look d.getM y).bind fun d => lookD d z ys

def lookup (d : DepEnv) (longbid : LongBid) : Option DepEnv := lookD d longbid.bid longbid.rest

def plus (d₁ d₂ : DepEnv) : DepEnv := D (d₁.getL ++ d₂.getL) (d₁.getM ++ d₂.getM)

def singleBidEntry (bid : Bid) (d : DepEnv) : DepEnv := D [] [(bid, d)]

def singleFile (f : String) : DepEnv := D [f] []

def empty : DepEnv := D [] []

end DepEnv

/-- The state of the traversal: the mlb-files met so far, and the lists that were
given to `maybeWriteDep`. -/
structure DepState where
  mlbfiles : List (String × DepEnv)
  written : List (String × List String)

def DepState.empty : DepState := ⟨[], []⟩

def lookupA (A : DepState) (mlbfile : String) : Option DepEnv :=
  (A.mlbfiles.find? fun entry => entry.1 = mlbfile).map Prod.snd

def maybeWriteDep (A : DepState) (smlfile : String) (d : DepEnv) : DepState :=
  { A with written := (smlfile, d.getL) :: A.written }

def undefinedBid (longbid : LongBid) : String :=
  "The long basis identifier " ++ longbid.pp ++ " is undefined"

def lookupOrError (d : DepEnv) (longbid : LongBid) : Except String DepEnv :=
  match d.lookup longbid with
  | some d => .ok d
  | none => .error (undefinedBid longbid)

mutual

def depBexp (d : DepEnv) (A : DepState) : Bexp → Except String (DepEnv × DepState)
  | .bas bdec => depBdec d A bdec
  | .letIn bdec bexp => do
    let (d₁, A) ← depBdec d A bdec
    depBexp (d.plus d₁) A bexp
  | .longbid longbid => do
    let d ← lookupOrError d longbid
    return (d, A)

def depBdec (d : DepEnv) (A : DepState) : Bdec → Except String (DepEnv × DepState)
  | .seq bdec₁ bdec₂ => do
    let (d₁, A) ← depBdec d A bdec₁
    let (d₂, A) ← depBdec (d.plus d₁) A bdec₂
    return (d₁.plus d₂, A)
  | .empty => return (DepEnv.empty, A)
  | .loc bdec₁ bdec₂ => do
    let (d₁, A) ← depBdec d A bdec₁
    depBdec (d.plus d₁) A bdec₂
  | .basis bid bexp => do
    let (d', A) ← depBexp d A bexp
    return (DepEnv.singleBidEntry bid d', A)
  | .opn longbids => do
    let d' ← longbids.foldlM (fun acc longbid => do return acc.plus (← lookupOrError d longbid))
      DepEnv.empty
    return (d', A)
  | .atbdec smlfile => return (DepEnv.singleFile smlfile, maybeWriteDep A smlfile d)
  | .mlbfile mlbfile parsed =>
    match lookupA A mlbfile with
    | some d => return (d, A)
    | none => do
      let (d, A) ← depBdec DepEnv.empty A parsed
      return (d, { A with mlbfiles := (mlbfile, d) :: A.mlbfiles })
  | .scripts smlfiles =>
    return (DepEnv.empty, smlfiles.foldl (fun A f => maybeWriteDep A f d) A)
  | .ann _ bdec => depBdec d A bdec

end

/-- The dependency lists of the source files of a project. -/
def Project.dep (p : Project) : Except String (List (String × List String)) := do
  let (_, A) ← depBdec DepEnv.empty DepState.empty (.mlbfile p.mlbfile p.parsed)
  return A.written

end MLKit.MlbMake
