import MLKit.Edlib.ListSort
import MLKit.Lib.Except
import Mathlib.Algebra.Ring.Nat
import Mathlib.Data.List.Basic
import Mathlib.Tactic.Basic

/-!
# The match compiler

`CompileDec` turns the rules of a match into a decision dag.  The four functions
`fail`, `succeed`, `matchPat` and `matchCon` carry a partial description of the
value through the patterns and decide tests from it where they can.  A call of
`die` is an error.  Nodes are compared by their lvar, as the source does, so a
dag is kept as a tree in which a shared node occurs more than once with one
lvar; the counters of in-edges and the marks of later passes are left out.
-/

namespace MLKit.Lambda.Match

open MLKit.Lib MLKit.Edlib List

/-! ## Elaborated patterns -/

structure Longid where
  strids : List String
  id : String
  deriving DecidableEq

inductive SCon where
  | integer (i : Int)
  | string (s : String)
  | real (r : String)
  | word (w : Int)
  | char (c : Int)
  deriving DecidableEq

/-- The type information of the elaborator, as far as the match compiler reads it.
The long identifier of a constructor is the one written in the pattern. -/
inductive TypeInfo where
  | varPatInfo
  | conInfo (numCons : Nat) (longid : Longid)
  | exconInfo (longid : Longid)
  | labInfo (index : Nat)
  deriving DecidableEq

mutual

inductive Pat where
  | atpat (a : Atpat)
  | cons (info : Option TypeInfo) (a : Atpat)
  | typed (p : Pat)
  | layered (id : String) (p : Pat)
  | unresInfix

inductive Atpat where
  | wildcard
  | scon (s : SCon)
  | longid (info : Option TypeInfo) (x : Longid)
  | record (rows : Patrow)
  | par (p : Pat)

inductive Patrow where
  | none
  | dotdotdot
  | row (info : Option TypeInfo) (p : Pat) (rest : Patrow)

end

/-! ## Constructors, paths and descriptions -/

inductive Span where
  | infinite
  | finite (n : Nat)
  deriving DecidableEq

def Span.eqInt : Span → Nat → Bool
  | .infinite, _ => false
  | .finite n, i => n == i

inductive Con where
  | con (longid : Longid) (span : Span) (nullary : Bool)
  | scon (s : SCon)
  | excon (longid : Longid) (nullary : Bool)
  | tuple (arity : Nat)
  deriving DecidableEq

/-- `con_cmp` gives `Eq`.  Long identifiers are compared as they print. -/
def conEq : Con → Con → Bool
  | .con x _ _, .con y _ _ => x == y
  | .scon s, .scon t => s == t
  | .tuple m, .tuple n => m == n
  | .excon x _, .excon y _ => x == y
  | _, _ => false

def arity : Con → Nat
  | .con _ _ nullary => if nullary then 0 else 1
  | .scon _ => 0
  | .excon _ nullary => if nullary then 0 else 1
  | .tuple n => n

def span : Con → Except String Span
  | .con _ span _ => .ok span
  | .scon (.integer _) => .ok .infinite
  | .scon (.string _) => .ok .infinite
  | .scon (.real _) => .error "span: real scon in pattern"
  | .scon (.char _) => .ok (.finite 256)
  | .scon (.word _) => .ok .infinite
  | .excon _ _ => .ok .infinite
  | .tuple _ => .ok (.finite 1)

def Con.isExcon : Con → Bool
  | .excon _ _ => true
  | _ => false

inductive Path where
  | access (i : Nat) (con : Con) (path : Path)
  | obj
  deriving DecidableEq

def pathEq : Path → Path → Bool
  | .obj, .obj => true
  | .access i c p, .access j d q => i == j && conEq c d && pathEq p q
  | _, _ => false

structure Negset where
  size : Nat
  cons : List Con
  deriving DecidableEq

namespace Negset

def empty : Negset := ⟨0, []⟩

def member (c : Con) (n : Negset) : Bool := n.cons.any (conEq c)

def insert (c : Con) (n : Negset) : Negset := ⟨n.size + 1, c :: n.cons⟩

end Negset

inductive Termd where
  | pos (con : Con) (args : List Termd)
  | neg (n : Negset)

abbrev Context := List (Con × List Termd)

abbrev Work := List Pat × List Path × List Termd

def addneg : Termd → Con → Termd
  | .neg n, c => .neg (n.insert c)
  | d, _ => d

def augment : Context → Termd → Context
  | [], _ => []
  | (con, args) :: rest, d => (con, d :: args) :: rest

def norm : Context → Except String Context
  | (con, args) :: rest => .ok (augment rest (.pos con args.reverse))
  | [] => .error "norm"

def buildtermd : Context → Termd → List Work → Except String Termd
  | [], d, [] => .ok d
  | (con, args) :: rest, d, (_, _, dargs) :: work =>
    buildtermd rest (.pos con (args.reverse ++ d :: dargs)) work
  | _, _, _ => .error "buildtermd"

inductive MatchResult where
  | yes
  | no
  | maybe
  deriving DecidableEq

def staticmatch (c : Con) : Termd → Except String MatchResult
  | .pos pcon _ =>
    .ok (if conEq c pcon then .yes
      -- different exception constructors may be one exception
      else if pcon.isExcon then .maybe
      else .no)
  | .neg n =>
    if n.member c then .ok .no
    else do
      let s ← span c
      .ok (if s.eqInt (n.size + 1) then .yes else .maybe)

/-! ## Decision dags -/

/-- The identifiers a rule declares, each with the component it names, and the
number of the rule. -/
abbrev Rhs := List (String × Path) × Nat

inductive Node where
  | success (lvar : Nat) (rhs : Rhs)
  | ifEq (lvar : Nat) (path : Path) (con : Con) (e1 e2 : Option Node)

abbrev Edge := Option Node

def Node.lvar : Node → Nat
  | .success lvar _ => lvar
  | .ifEq lvar _ _ _ _ => lvar

def edgeEq : Edge → Edge → Bool
  | none, none => true
  | some n, some m => n.lvar == m.lvar
  | _, _ => false

structure IfEq where
  path : Path
  con : Con
  e1 : Edge
  e2 : Edge

def ifeqEq (a b : IfEq) : Bool :=
  edgeEq a.e2 b.e2 && edgeEq a.e1 b.e1 && conEq a.con b.con && pathEq a.path b.path

/-- The supply of lvars and the map of the tests made so far. -/
structure DagState where
  lvars : Nat
  ifeqs : List (IfEq × Node)

def findIfeqNodeLikeThis (st : DagState) (k : IfEq) : Option Node :=
  (st.ifeqs.find? fun a => ifeqEq k a.1).map (·.2)

def mkIfeqNode (st : DagState) (k : IfEq) : Node × DagState :=
  let node := .ifEq st.lvars k.path k.con k.e1 k.e2
  (node, ⟨st.lvars + 1, (k, node) :: st.ifeqs⟩)

def ifeqNode (st : DagState) (k : IfEq) : Node × DagState :=
  match findIfeqNodeLikeThis st k with
  | some node => (node, st)
  | none => mkIfeqNode st k

abbrev Rule := Pat × Node

/-- The rows of a record pattern, as `makeList` collects them. -/
def makeRows (caller : String) : Patrow → Except String (List (Option TypeInfo × Pat))
  | .none => .ok []
  | .dotdotdot => .error (caller ++ ": DOTDOTDOT")
  | .row info p rest => do
    let rows ← makeRows caller rest
    .ok ((info, p) :: rows)

def labelled (caller : String) : List (Option TypeInfo × Pat) → Except String (List (Nat × Pat))
  | [] => .ok []
  | (some (.labInfo index), p) :: rows => do
    let args ← labelled caller rows
    .ok ((index, p) :: args)
  | _ :: _ => .error (caller ++ ": RECORDatpat info")

def recordArgs (caller : String) (rows : Patrow) : Except String (List (Nat × Pat)) := do
  let rows ← makeRows caller rows
  labelled caller rows

def sortArgs (args : List (Nat × Pat)) : List (Nat × Pat) :=
  sort (fun a b => decide (a.1 < b.1)) args

/-! ## Sizes

The recursion of the match compiler goes down on the number of rules left and,
for one rule, on the size of the patterns that are pending. -/

mutual

def Pat.size : Pat → Nat
  | .atpat a => a.size + 1
  | .cons _ a => a.size + 3
  | .typed p => p.size + 1
  | .layered _ p => p.size + 1
  | .unresInfix => 1

def Atpat.size : Atpat → Nat
  | .wildcard => 2
  | .scon _ => 2
  | .longid _ _ => 2
  | .record rows => rows.size + 2
  | .par p => p.size + 1

def Patrow.size : Patrow → Nat
  | .none => 0
  | .dotdotdot => 0
  | .row _ p rest => p.size + rest.size

end

theorem Pat.size_pos (p : Pat) : 0 < p.size := by
  cases p <;> simp [Pat.size]

theorem Atpat.two_le_size (a : Atpat) : 2 ≤ a.size := by
  cases a with
  | par p => exact Nat.succ_le_succ p.size_pos
  | wildcard | scon _ | longid _ _ | record _ => simp [Atpat.size]

def patsSize (ps : List Pat) : Nat := (ps.map Pat.size).sum

def workSize (work : List Work) : Nat := (work.map fun w => patsSize w.1 + 1).sum

variable {caller : String}

theorem makeRows_size : ∀ {rows : Patrow} {l},
    makeRows caller rows = .ok l → patsSize (l.map (·.2)) = rows.size
  | .none, l, h => by
    cases h
    rfl
  | .row info p rest, l, h => by
    obtain ⟨l', hl, h⟩ := bind_ok h
    cases h
    have ih := makeRows_size hl
    simp only [patsSize, map_cons, sum_cons, Patrow.size] at ih ⊢
    omega

theorem labelled_size : ∀ {rows : List (Option TypeInfo × Pat)} {l},
    labelled caller rows = .ok l → patsSize (l.map (·.2)) = patsSize (rows.map (·.2))
  | [], l, h => by
    cases h
    rfl
  | (some (.labInfo index), p) :: rows, l, h => by
    obtain ⟨l', hl, h⟩ := bind_ok h
    cases h
    have ih := labelled_size hl
    simp only [patsSize, map_cons, sum_cons] at ih ⊢
    omega

theorem sortArgs_size (args : List (Nat × Pat)) :
    patsSize ((sortArgs args).map (·.2)) = patsSize (args.map (·.2)) := by
  have hperm := sort_perm (fun a b : Nat × Pat => decide (a.1 < b.1)) args
  exact ((hperm.map (·.2)).map Pat.size).sum_nat

theorem recordArgs_size {rows : Patrow} {l : List (Nat × Pat)}
    (h : recordArgs caller rows = .ok l) :
    patsSize (l.map (·.2)) = rows.size := by
  obtain ⟨rs, hrs, h⟩ := bind_ok h
  exact (labelled_size h).trans (makeRows_size hrs)

/-! ## The compiler -/

def getdargs (argpats : List (Nat × Pat)) : Termd → List Termd
  | .neg _ => argpats.map fun _ => .neg .empty
  | .pos _ dargs => dargs

/-- What is left to match under `pcon`: its argument patterns, where their values are
and what is known of them. -/
def argWork (pcon : Con) (argpats : List (Nat × Pat)) (path : Path) (d : Termd) : Work :=
  (argpats.map (·.2), argpats.map fun a => .access a.1 pcon path, getdargs argpats d)

theorem workSize_argWork (pcon : Con) (argpats : List (Nat × Pat)) (path : Path) (d : Termd)
    (work : List Work) : workSize (argWork pcon argpats path d :: work) =
      patsSize (argpats.map (·.2)) + 1 + workSize work := by
  simp only [workSize, argWork, map_cons, sum_cons]

/-- The test of `con` at `path`, made once for each two edges. -/
def branch (st : DagState) (path : Path) (con : Con) (left right : Edge) : Edge × DagState :=
  if edgeEq left right then (left, st)
  else (some (ifeqNode st ⟨path, con, left, right⟩).1, (ifeqNode st ⟨path, con, left, right⟩).2)

mutual

def fail (st : DagState) (d : Termd) (rules : List Rule) : Except String (Edge × DagState) :=
  match rules with
  | [] => .ok (none, st)
  | (pat1, rhs1) :: rulerest => matchPat st pat1 .obj d [] [] rhs1 rulerest
termination_by (rules.length, 0, 0)
decreasing_by simp [Prod.lex_def]

def succeed (st : DagState) (ctx : Context) (work : List Work) (rhs : Node) (rules : List Rule) :
    Except String (Edge × DagState) :=
  match work with
  | [] => .ok (some rhs, st)
  | ([], [], []) :: workr => do
    let ctx' ← norm ctx
    succeed st ctx' workr rhs rules
  | (pat1 :: patr, path1 :: pathr, d1 :: dr) :: workr =>
    matchPat st pat1 path1 d1 ctx ((patr, pathr, dr) :: workr) rhs rules
  | _ => .error "succeed"
termination_by (rules.length, workSize work, 1)
decreasing_by all_goals simp [Prod.lex_def, workSize, patsSize] <;> omega

def matchPat (st : DagState) (pat : Pat) (path : Path) (d : Termd) (ctx : Context)
    (work : List Work) (rhs : Node) (rules : List Rule) : Except String (Edge × DagState) :=
  match pat with
  | .atpat a => matchAtpat st a path d ctx work rhs rules
  | .cons (some (.conInfo numCons x)) a =>
    matchCon st (.con x (.finite numCons) false) [(0, .atpat a)] path d ctx work rhs rules
  | .cons (some (.exconInfo x)) a =>
    matchCon st (.excon x false) [(0, .atpat a)] path d ctx work rhs rules
  | .cons _ _ => .error "match_pat (CONSpat ...)"
  | .typed p => matchPat st p path d ctx work rhs rules
  | .layered _ p => matchPat st p path d ctx work rhs rules
  | .unresInfix => .error "match_pat (UNRES_INFIXpat ...)"
termination_by (rules.length, pat.size + workSize work, 0)
decreasing_by all_goals simp [Prod.lex_def, Pat.size, patsSize]

def matchAtpat (st : DagState) (a : Atpat) (path : Path) (d : Termd) (ctx : Context)
    (work : List Work) (rhs : Node) (rules : List Rule) : Except String (Edge × DagState) :=
  match a with
  | .wildcard => succeed st (augment ctx d) work rhs rules
  | .scon s => matchCon st (.scon s) [] path d ctx work rhs rules
  | .longid (some .varPatInfo) _ => succeed st (augment ctx d) work rhs rules
  | .longid (some (.conInfo numCons x)) _ =>
    matchCon st (.con x (.finite numCons) true) [] path d ctx work rhs rules
  | .longid (some (.exconInfo x)) _ => matchCon st (.excon x true) [] path d ctx work rhs rules
  | .longid _ _ => .error "match_atpat (LONGIDatpat ...)"
  | .record rows =>
    match _ : recordArgs "match_atpat" rows with
    | .error e => .error e
    | .ok args =>
      matchCon st (.tuple (sortArgs args).length) (sortArgs args) path d ctx work rhs rules
  | .par p => matchPat st p path d ctx work rhs rules
termination_by (rules.length, a.size + workSize work, 0)
decreasing_by
  pick_goal 6
  · have hs := recordArgs_size (by assumption)
    simp [Prod.lex_def, Atpat.size, sortArgs_size, hs]
  all_goals simp [Prod.lex_def, Atpat.size, patsSize]

def matchCon (st : DagState) (pcon : Con) (argpats : List (Nat × Pat)) (path : Path) (d : Termd)
    (ctx : Context) (work : List Work) (rhs : Node) (rules : List Rule) :
    Except String (Edge × DagState) := do
  match ← staticmatch pcon d with
  | .yes => succeed st ((pcon, []) :: ctx) (argWork pcon argpats path d :: work) rhs rules
  | .no => do
    let d' ← buildtermd ctx d work
    fail st d' rules
  | .maybe => do
    let (left, st1) ←
      succeed st ((pcon, []) :: ctx) (argWork pcon argpats path d :: work) rhs rules
    let d' ← buildtermd ctx (addneg d pcon) work
    let (right, st2) ← fail st1 d' rules
    .ok (branch st2 path pcon left right)
termination_by (rules.length, patsSize (argpats.map (·.2)) + 1 + workSize work, 2)
decreasing_by all_goals simp [Prod.lex_def, workSize_argWork, Nat.add_right_comm _ 1]

end

theorem matchAtpat_record (st : DagState) (rows : Patrow) (path : Path) (d : Termd) (ctx : Context)
    (work : List Work) (rhs : Node) (rules : List Rule) :
    matchAtpat st (.record rows) path d ctx work rhs rules =
      (do
        let args ← recordArgs "match_atpat" rows
        matchCon st (.tuple (sortArgs args).length) (sortArgs args) path d ctx work rhs rules) := by
  rw [matchAtpat]
  split
  next e h =>
      rw [h]
      rfl
  next args h =>
      rw [h]
      rfl

/-! ## Success nodes -/

mutual

def declaredByPat : Pat → Path → Except String (List (String × Path))
  | .atpat a, path => declaredByAtpat a path
  | .cons (some (.conInfo numCons x)) a, path =>
    declaredByAtpat a (.access 0 (.con x (.finite numCons) false) path)
  | .cons (some (.exconInfo x)) a, path => declaredByAtpat a (.access 0 (.excon x false) path)
  | .cons _ _, _ => .error "declared_by_pat (CONSpat ...)"
  | .typed p, path => declaredByPat p path
  | .layered id p, path => do
    let ds ← declaredByPat p path
    .ok ((id, path) :: ds)
  | .unresInfix, _ => .error "declared_by_pat (UNRES_INFIXpat ...)"

def declaredByAtpat : Atpat → Path → Except String (List (String × Path))
  | .wildcard, _ => .ok []
  | .scon _, _ => .ok []
  | .longid (some .varPatInfo) x, path => .ok [(x.id, path)]
  | .longid (some (.conInfo _ _)) _, _ => .ok []
  | .longid (some (.exconInfo _)) _, _ => .ok []
  | .longid _ _, _ => .error "declared_by_atpat (LONGIDatpat ...)"
  | .record rows, path => do
    let args ← recordArgs "declared_by_atpat" rows
    declaredByRows rows (.tuple args.length) path
  | .par p, path => declaredByPat p path

/-- `declared_by_application`, which goes through the rows from the last to the first. -/
def declaredByRows : Patrow → Con → Path → Except String (List (String × Path))
  | .row (some (.labInfo index)) p rest, pcon, path => do
    let ds' ← declaredByRows rest pcon path
    let ds ← declaredByPat p (.access index pcon path)
    .ok (ds ++ ds')
  | _, _, _ => .ok []

end

/-- The rules of `compile_match`: each pattern with the success node of its number,
from `i` on. -/
def mkRules (lvars i : Nat) : List Pat → Except String (List Rule × Nat)
  | [] => .ok ([], lvars)
  | p :: ps => do
    let decls ← declaredByPat p .obj
    let (rules, lvars') ← mkRules (lvars + 1) (i + 1) ps
    .ok ((p, .success lvars (decls, i)) :: rules, lvars')

def mkDecdag (lvars : Nat) (rules : List Rule) : Except String Edge := do
  let (edge, _) ← fail ⟨lvars, []⟩ (.neg .empty) rules
  .ok edge

/-- The decision dag of a match with these patterns. -/
def decdagOf (lvars : Nat) (pats : List Pat) : Except String Edge := do
  let (rules, lvars') ← mkRules lvars 0 pats
  mkDecdag lvars' rules

end MLKit.Lambda.Match
