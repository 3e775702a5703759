import MLKit.Common.Lab
import Mathlib.Tactic.Basic

/-!
# Types of the elaborator

The types of `StatObject` are trees whose variables are cells of a store: unification overwrites a
cell by a link, and levels, ranks and the attributes of a variable are changed in place. A level
belongs to a node; a variable has one node, so that its level is kept with its cell.
-/

namespace MLKit.Elab

abbrev TyVar := Nat
abbrev RowVar := Nat
abbrev LevelRef := Nat

/-- A type name; `name` determines the other attributes. -/
structure TyName where
  name : Nat
  arity : Nat
  rank : Nat
  equality : Bool
  deriving DecidableEq, Repr

def tyNameRef : TyName := ⟨0, 1, 0, true⟩
def tyNameArray : TyName := ⟨1, 1, 0, true⟩

mutual

/-- `Type`: a description with the level of its node. -/
inductive Typ where
  | tyvar (tv : TyVar)
  | arrow (level : LevelRef) (ty ty' : Typ)
  | rectype (level : LevelRef) (r : RecType)
  | constype (level : LevelRef) (tys : List Typ) (tyname : TyName)

/-- `RecType`: a row of fields that is closed or ends in a row variable. -/
inductive RecType where
  | nil
  | var (rv : RowVar)
  | row (lab : Lab) (ty : Typ) (r : RecType)

end

/-- An explicit type variable of the program; `''a` admits equality. -/
structure ExplicitTyVar where
  name : String
  isEquality : Bool
  deriving DecidableEq, Repr

/-- `TyVarDesc`; the cell stands for the `id` and `base` that identify a variable. -/
structure TyVarDesc where
  equality : Bool
  rank : Nat
  overloaded : Option (List TyName)
  explicit : Option ExplicitTyVar
  deriving DecidableEq, Repr

inductive TyLink where
  | noTyLink (tvd : TyVarDesc)
  | tyLink (ty : Typ)

inductive RecLink where
  | noRecLink
  | recLink (r : RecType)

structure TyCell where
  link : TyLink
  level : Int

structure RowCell where
  link : RecLink
  level : Int

namespace Level

def generic : Int := -1
def nongeneric : Int := 0

end Level

/--
The cells that have been allocated, with the current level and the current rank. Two lists say what
has happened to equality attributes and are not part of the program's state: `carriers` holds every
variable that has carried the attribute, `openRows` every row variable at which `make_equality0`
has stopped.
-/
structure Store where
  tyvars : List TyCell
  rowvars : List RowCell
  levels : List Int
  currentLevel : Int
  currentRank : Nat
  carriers : List TyVar
  openRows : List RowVar

/-- Why a computation on types stops. -/
inductive Stop where
  /-- the exception `Unify` -/
  | unify (s : String)
  /-- the exception `Rank` -/
  | rank (tv : TyVar) (tyname : TyName)
  /-- `Crash.impossible` -/
  | die (s : String)
  /-- a reference that has not been allocated -/
  | dangling
  /-- the bound on the recursion is used up -/
  | fuel
  deriving DecidableEq

namespace Store

def empty : Store := ⟨[], [], [], 0, 0, [], []⟩

def tyCell (st : Store) (tv : TyVar) : Except Stop TyCell :=
  match st.tyvars[tv]? with
  | some cell => .ok cell
  | none => .error .dangling

def rowCell (st : Store) (rv : RowVar) : Except Stop RowCell :=
  match st.rowvars[rv]? with
  | some cell => .ok cell
  | none => .error .dangling

def levelOf (st : Store) (l : LevelRef) : Except Stop Int :=
  match st.levels[l]? with
  | some level => .ok level
  | none => .error .dangling

/-- `tv := link`. -/
def setTyLink (st : Store) (tv : TyVar) (link : TyLink) : Store :=
  { st with tyvars := st.tyvars.modify tv fun cell => { cell with link := link } }

/-- `level := lev` at the node of a type variable. -/
def setTyLevel (st : Store) (tv : TyVar) (lev : Int) : Store :=
  { st with tyvars := st.tyvars.modify tv fun cell => { cell with level := lev } }

/-- `rv := link`. -/
def setRecLink (st : Store) (rv : RowVar) (link : RecLink) : Store :=
  { st with rowvars := st.rowvars.modify rv fun cell => { cell with link := link } }

/-- `level := lev` at a row variable. -/
def setRowLevel (st : Store) (rv : RowVar) (lev : Int) : Store :=
  { st with rowvars := st.rowvars.modify rv fun cell => { cell with level := lev } }

/-- The description of a variable that is not linked. -/
def tyVarDesc (st : Store) (tv : TyVar) (s : String) : Except Stop TyVarDesc := do
  match (← st.tyCell tv).link with
  | .noTyLink tvd => .ok tvd
  | .tyLink _ => .error (.die s)

/-- `TyVar.fresh0` under `Type.from_TyVar`: the variable has the current rank and level. -/
def fresh0 (st : Store) (equality : Bool) (overloaded : Option (List TyName))
    (explicit : Option ExplicitTyVar) : Typ × Store :=
  (.tyvar st.tyvars.length,
    { st with
      tyvars := st.tyvars ++
        [⟨.noTyLink ⟨equality, st.currentRank, overloaded, explicit⟩, st.currentLevel⟩]
      carriers := if equality then st.tyvars.length :: st.carriers else st.carriers })

def freshNormal (st : Store) : Typ × Store := st.fresh0 false none none

def freshOverloaded (st : Store) (tynames : List TyName) : Typ × Store :=
  st.fresh0 false (some tynames) none

def fromExplicitTyVar (st : Store) (extv : ExplicitTyVar) : Typ × Store :=
  st.fresh0 extv.isEquality none (some extv)

def freshRow (st : Store) : RecType × Store :=
  (.var st.rowvars.length, { st with rowvars := st.rowvars ++ [⟨.noRecLink, st.currentLevel⟩] })

/-- The level reference of a new node that is not a variable. -/
def freshLevel (st : Store) : LevelRef × Store :=
  (st.levels.length, { st with levels := st.levels ++ [Level.nongeneric] })

end Store

end MLKit.Elab
