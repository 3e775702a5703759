import MLKit.Backend.LineStmt
import MLKit.Lib.Except
import Mathlib.Logic.Function.Basic

/-!
# Environments of closure conversion

Where closure conversion (`ClosConvEnv`, `ClosExp`) finds the value of a
variable, exception constructor or region in the code of a function.
-/

namespace MLKit.Backend

open Function

/-! ## Free variables -/

inductive FreeVar where
  | lvar (lv : Lvar)
  | excon (excon : Excon)
  | rho (place : Place)
  deriving DecidableEq

structure FreeVars where
  lvs : List Lvar
  excons : List Excon
  rhos : List Place

/-- `PhysSizeInf.get_fvs`: the unboxed floats come first. -/
def getFvs (lvarBucket : List Lvar) (exconBucket : List Excon) (placeBucket : List Place) :
    FreeVars :=
  { lvs := lvarBucket.filter (fun lv => lv.getUbf64) ++
      lvarBucket.filter (fun lv => !lv.getUbf64)
    excons := exconBucket
    rhos := placeBucket }

/-- The elements of a closure, given the operand of each free variable. -/
def FreeVars.elems {α : Type} (fvs : FreeVars) (operand : FreeVar → α) : Free α :=
  { lvs := fvs.lvs.map fun lv => operand (.lvar lv)
    excons := fvs.excons.map fun excon => operand (.excon excon)
    rhos := fvs.rhos.map fun place => operand (.rho place) }

def smashFree {α : Type} (elems : Free α) : List α := elems.rhos ++ elems.lvs ++ elems.excons

namespace ClosConv

def die {α : Type} (s : String) : Except String α := .error ("ClosExp." ++ s)

/-! ## Environments -/

/-- A variable, a region variable, a region nothing is put into, a field of a
closure, a global value, or a function with its code pointer, the access to
its shared closure (if it is not empty), the size of the shared closure and its
region parameters. -/
inductive AccessType where
  | lvar (lv : Lvar)
  | rvar (place : Place)
  | droppedRvar (place : Place)
  | select (lv : Lvar) (i : Nat)
  | label (lab : Label)
  | fix (lab : Label) (sclos : Option AccessType) (size : Nat) (formals : List Binder)

inductive ArityExcon where
  | nullaryExcon
  | unaryExcon
  deriving DecidableEq

/-- Formal or letregion-bound, finite or infinite. -/
inductive RhoKind where
  | ff | fi | lf | li
  deriving DecidableEq

structure Env where
  varEnv : Lvar → Option AccessType
  exconEnv : Excon → Option (AccessType × ArityExcon)
  rhoEnv : Place → Option AccessType
  rhoKindEnv : Place → Option RhoKind

def declareLvar (lvar : Lvar) (access : AccessType) (env : Env) : Env :=
  { env with varEnv := update env.varEnv lvar (some access) }

def declareExcon (excon : Excon) (access : AccessType × ArityExcon) (env : Env) : Env :=
  { env with exconEnv := update env.exconEnv excon (some access) }

def declareRho (place : Place) (access : AccessType) (env : Env) : Env :=
  { env with rhoEnv := update env.rhoEnv place (some access) }

def declareRhoKind (place : Place) (kind : RhoKind) (env : Env) : Env :=
  { env with rhoKindEnv := update env.rhoKindEnv place (some kind) }

def plusDeclWith {α β : Type} (env : Env) (declare : α → β → Env → Env) (pairs : List (α × β)) :
    Env :=
  pairs.foldr (fun pair env => declare pair.1 pair.2 env) env

def lookupVar (env : Env) (lvar : Lvar) : Except String AccessType :=
  match env.varEnv lvar with
  | some access => .ok access
  | none => .error ("ClosConvEnv.lookupVar(" ++ lvar.pr ++ ")")

def lookupExconArity (env : Env) (excon : Excon) : Except String ArityExcon :=
  match env.exconEnv excon with
  | some (_, arity) => .ok arity
  | none => .error ("ClosConvEnv.lookupExconArity(" ++ excon.name ++ ")")

def lookupRhoKind (env : Env) (place : Place) : Except String RhoKind :=
  match env.rhoKindEnv place with
  | some kind => .ok kind
  | none => .error ("ClosConvEnv.lookupRhoKind(" ++ toString place.key ++ ")")

/-- The access of a free variable of any sort. -/
def Env.access (env : Env) : FreeVar → Option AccessType
  | .lvar lv => env.varEnv lv
  | .excon excon => (env.exconEnv excon).map Prod.fst
  | .rho place => env.rhoEnv place

/-! ## Expressions -/

/-- The expressions that creating, entering and reading closures needs. -/
inductive ClosExp where
  | var (lv : Lvar)
  | rvar (place : Place)
  | droppedRvar (place : Place)
  | fetch (lab : Label)
  | select (i : Nat) (ce : ClosExp)
  | ubRecord (ces : List ClosExp)
  | closRecord (label : Label) (elems : Free ClosExp) (alloc : Sma ClosExp)
  | sclosRecord (elems : Free ClosExp) (alloc : Sma ClosExp)
  | letExp (pat : List Lvar) (bind scope : ClosExp)

/-- A value in a closure, `lv1 = #i(lv2)`, a global value, or no selection. -/
inductive SelectExp where
  | selectSe (lv1 : Lvar) (i : Nat) (lv2 : Lvar)
  | fetchSe (lv : Lvar) (lab : Label)
  | noneSe

/-- What `SEMap` compares: all but the variable that is bound. -/
inductive SeKey where
  | select (i : Nat) (lv : Lvar)
  | fetch (lab : Label)
  deriving DecidableEq

/-- The variable that is bound and what it is bound to. -/
def SelectExp.binding : SelectExp → Option (Lvar × SeKey)
  | .selectSe lv1 i lv2 => some (lv1, .select i lv2)
  | .fetchSe lv lab => some (lv, .fetch lab)
  | .noneSe => none

/-- Variables are numbered in the order in which they are made. -/
def freshLvar (next : Nat) : Lvar := .named next false

/-! ## Lookup -/

abbrev Access := ClosExp × SelectExp

/-- The result of an access through a field of a closure or a global. -/
def resolveSelect (next : Nat) (lv' : Lvar) (i : Nat) : Access × Nat :=
  ((.var (freshLvar next), .selectSe (freshLvar next) i lv'), next + 1)

def resolveFetch (next : Nat) (lab : Label) : Access × Nat :=
  ((.var (freshLvar next), .fetchSe (freshLvar next) lab), next + 1)

def resolveSe (next : Nat) : AccessType → Except String (Access × Nat)
  | .lvar lv' => .ok ((.var lv', .noneSe), next)
  | .select lv' i => .ok (resolveSelect next lv' i)
  | .label lab => .ok (resolveFetch next lab)
  | _ => die "resolve_se: wrong FIX or RVAR binding in VE"

def lookupVe (env : Env) (lv : Lvar) (next : Nat) : Except String (Access × Nat) :=
  match env.varEnv lv with
  | some (.fix _ (some a) _ _) => resolveSe next a
  | some (.fix _ none _ _) => die "lookup_ve: this case should be caught in APP."
  | some a => resolveSe next a
  | none => die ("lookup_ve: lvar(" ++ lv.pr ++ ") not bound in env.")

def lookupFun (env : Env) (lv : Lvar) : Except String (Label × Nat) :=
  match env.varEnv lv with
  | some (.fix lab _ size _) => .ok (lab, size)
  | _ => die ("lookup_fun: function(" ++ lv.pr ++ ") does not exists")

def lookupExcon (env : Env) (excon : Excon) (next : Nat) : Except String (Access × Nat) :=
  match (env.exconEnv excon).map Prod.fst with
  | some (.lvar lv') => .ok ((.var lv', .noneSe), next)
  | some (.select lv' i) => .ok (resolveSelect next lv' i)
  | some (.label lab) => .ok (resolveFetch next lab)
  | some _ => die "lookup_excon: excon bound to FIX or RVAR"
  | none => die ("lookup_excon: excon(" ++ excon.name ++ ") not bound")

def lookupRho (env : Env) (place : Place) (f : String) (next : Nat) :
    Except String (Access × Nat) :=
  match env.rhoEnv place with
  | some (.lvar lv') => .ok ((.var lv', .noneSe), next)
  | some (.rvar place) => .ok ((.rvar place, .noneSe), next)
  | some (.droppedRvar place) => .ok ((.droppedRvar place, .noneSe), next)
  | some (.select lv' i) => .ok (resolveSelect next lv' i)
  | some (.label lab) => .ok (resolveFetch next lab)
  | some _ => die ("lookup_rho: rho bound to FIX. " ++ f)
  | none => die ("lookup_rho: rho(" ++ toString place.key ++ ") not bound. " ++ f)

/-- Look the elements of a list up in turn. -/
def mapFresh {α β : Type} (f : α → Nat → Except String (β × Nat)) :
    List α → Nat → Except String (List β × Nat)
  | [], next => .ok ([], next)
  | a :: rest, next => do
    let (b, next) ← f a next
    let (bs, next) ← mapFresh f rest next
    return (b :: bs, next)

/-- The accesses to the free variables. -/
def genCesAndSesFree (env : Env) (free : FreeVars) (next : Nat) :
    Except String (Free Access × Nat) := do
  let (lvs, next) ← mapFresh (lookupVe env) free.lvs next
  let (excons, next) ← mapFresh (lookupExcon env) free.excons next
  let (rhos, next) ← mapFresh (fun place => lookupRho env place "gen_ces_and_ses_free")
    free.rhos next
  return ({ lvs := lvs, excons := excons, rhos := rhos }, next)

end ClosConv

end MLKit.Backend
