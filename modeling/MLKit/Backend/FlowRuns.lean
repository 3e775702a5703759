import MLKit.Backend.FlowPaths
import MLKit.Lib.WeakRuns

/-!
# Runs of bodies with flow variables

A configuration of a body is what is left to do and the values of the variables. What a statement
does is left open: a run records the values it reads, the values it writes and whether it raises an
exception. A definition of a flow variable is a jump to one of the two labels of the variable; the
switch on the variable sets them. A label stands for what is left to do behind it.
-/

namespace MLKit.Backend.FlowVars

open MLKit.Lib

/-- The values of a program, as far as switches see them. -/
structure Values (V : Type) where
  bool : Bool → V
  sel : SwitchKind → Selector → V → Bool

/-- A switch takes its branch for a boolean exactly when its code compares with the number that the
boolean is stored as. -/
def Values.Compiled {V : Type} (values : Values V) (flags : Flags) : Prop :=
  ∀ (kind : SwitchKind) (s : Selector) (i : Int) (v : Bool), comparesWith flags kind s = some i →
    values.sel kind s (values.bool v) = (boolNumber v == i)

abbrev Env (V : Type) := Lvar → Option V

/-- Where a boolean goes: into a variable, or to one of two labels. -/
inductive Dest where
  | var (lv : Lvar)
  | flow (ifTrue ifFalse : Label)

def destOf : Atom → Option Dest
  | .var lv => some (.var lv)
  | .flowVar _ ifTrue ifFalse => some (.flow ifTrue ifFalse)
  | _ => none

/-- A statement that delivers a boolean constant. -/
def constDef : BasicStmt Unit Atom → Option (Dest × Bool)
  | .assign pat (.con0 con _ [] .ignore) =>
    match destOf pat, conBool con with
    | some dest, some b => some (dest, b)
    | _, _ => none
  | _ => none

/-- A statement that delivers the result of a comparison. -/
def testDef : BasicStmt Unit Atom → Option (Dest × String × List Atom)
  | .prim name [aty1, aty2] [res] =>
    if isFlowPrim name then (destOf res).map fun dest => (dest, name, [aty1, aty2]) else none
  | _ => none

/-- The branch of a switch for a value. -/
def chosen {V : Type} (values : Values V) (kind : SwitchKind) (v : V) :
    List (Selector × List FvStmt) → List FvStmt → List FvStmt
  | [], default => default
  | (sel, lss) :: sels, default =>
    if values.sel kind sel v then lss else chosen values kind v sels default

/-- What is left to do in a handler: the function that handles is made first. -/
def handleItems (default handl : List FvStmt) (handlLv : Atom) (handlReturn : List FvStmt)
    (handlReturnLv : Atom) (K : List Item) : List Item :=
  stmts handl ++ .install handlLv ::
    (stmts default ++ .uninstall (returnItems handlReturn handlReturnLv K) :: K)

/-- What is left to do when an exception is raised. -/
def unwind : List Item → Option (List Item)
  | [] => none
  | .uninstall ret :: _ => some ret
  | _ :: K => unwind K

/-- What a run shows. -/
inductive Event (V : Type) where
  | basic (stmt : BasicStmt Unit Atom) (reads : List (Option V)) (writes : Lvar → V)
  | raised (stmt : BasicStmt Unit Atom) (reads : List (Option V))
  | left (stmt : BasicStmt Unit Atom) (reads : List (Option V))
  | cond (name : String) (args : List Atom) (reads : List (Option V)) (b : Bool)
  | select (arg : Atom) (v : V)
  | region (op : RegionOp) (rho : Binder × Unit)
  | install (handlLv : Atom) (reads : List (Option V))
  | uninstall
  | receive (aty : Atom) (v : V)
  | fall
  | stuck

section Runs

variable {V : Type} (code : RegionCode) (values : Values V) (places : List (Label × List Item))

abbrev Config (V : Type) := List Item × Env V

/-- The values written to some variables. -/
def Env.write (env : Env V) (lvs : List Lvar) (writes : Lvar → V) : Env V := fun lv =>
  if lv ∈ lvs then some (writes lv) else env lv

def deliver (dest : Dest) (b : Bool) (K : List Item) (env : Env V) : Option (Config V) :=
  match dest with
  | .var lv => some (K, env.write [lv] fun _ => values.bool b)
  | .flow ifTrue ifFalse =>
    (places.lookup (if b then ifTrue else ifFalse)).map fun target => (target, env)

/-- The step of a configuration that shows nothing. -/
def silent : Config V → Option (Config V)
  | (.stmt (.basic stmt) :: K, env) =>
    match constDef stmt with
    | some (dest, b) => deliver values places dest b K env
    | none => none
  | (.stmt (.letregion rhos body) :: K, env) =>
    some ((code.entry rhos).map (.region .alloc) ++ bodyItems code rhos body K, env)
  | (.stmt (.scope _ scope) :: K, env) => some (stmts scope ++ K, env)
  | (.stmt (.handle default handl handlLv handlReturn handlReturnLv _ _) :: K, env) =>
    some (handleItems default handl handlLv handlReturn handlReturnLv K, env)
  | (.stmt (.switch kind (.var lv) sels default) :: K, env) =>
    (env lv).map fun v => (stmts (chosen values kind v sels default) ++ K, env)
  -- the code of a switch on a flow variable begins with its branch for the selector
  | (.stmt (.switch _ (.flowVar _ _ _) ((_, lss) :: _) _) :: K, env) => some (stmts lss ++ K, env)
  | _ => none

/-- The other steps of a configuration, with what they show. -/
inductive Emits : Config V → Event V → Option (Config V) → Prop where
  | fall : Emits ([], env) .fall none
  | cond : testDef stmt = some (dest, name, args) →
      deliver values places dest b K env = some c →
      Emits (.stmt (.basic stmt) :: K, env)
        (.cond name args ((getVarAtoms args).map env) b) (some c)
  | basic :
      constDef stmt = none → testDef stmt = none →
      Emits (.stmt (.basic stmt) :: K, env) (.basic stmt ((useVarLs stmt).map env) writes)
        (some (K, env.write (defVarLs stmt) writes))
  | raised :
      constDef stmt = none → testDef stmt = none →
      Emits (.stmt (.basic stmt) :: K, env) (.raised stmt ((useVarLs stmt).map env))
        ((unwind K).map fun ret => (ret, env))
  | left :
      constDef stmt = none → testDef stmt = none →
      Emits (.stmt (.basic stmt) :: K, env) (.left stmt ((useVarLs stmt).map env)) none
  | select {kind : SwitchKind} {arg : Atom} {sels : List (Selector × List FvStmt)}
      {default : List FvStmt} {K : List Item} {env : Env V} {v : V} : destOf arg = none →
      Emits (.stmt (.switch kind arg sels default) :: K, env) (.select arg v)
        (some (stmts (chosen values kind v sels default) ++ K, env))
  | stuck {kind : SwitchKind} {lv : Lvar} {sels : List (Selector × List FvStmt)}
      {default : List FvStmt} {K : List Item} {env : Env V} : env lv = none →
      Emits (.stmt (.switch kind (.var lv) sels default) :: K, env) .stuck none
  | region :
      Emits (.region op rho :: K, env) (.region op rho) (some (K, env))
  | install :
      Emits (.install handlLv :: K, env) (.install handlLv ((getVarAtom handlLv).map env))
        (some (K, env))
  | uninstall :
      Emits (.uninstall ret :: K, env) .uninstall (some (K, env))
  | receive :
      Emits (.receive aty :: K, env) (.receive aty v)
        (some (K, env.write (getVarAtom aty) fun _ => v))

/-- The machine of a body whose labels stand for the given places. -/
def bodyMachine : Machine (Config V) (Event V) where
  silent := silent code values places
  emits := Emits values places

end Runs

/-! ## The places of the labels -/

/-- The labels that the code of a switch sets. -/
def switchPlaces (kind : SwitchKind) (arg : Atom) (sels : List (Selector × List FvStmt))
    (default : List FvStmt) (K : List Item) : List (Label × List Item) :=
  match arg, sels with
  | .flowVar _ ifTrue ifFalse, [(sel, lss)] =>
    let (tLab, fLab) :=
      if selBool kind sel = some true then (ifTrue, ifFalse) else (ifFalse, ifTrue)
    [(tLab, stmts lss ++ K), (fLab, stmts default ++ K)]
  | _, _ => []

section Places

variable (code : RegionCode)

mutual

def placesLs : FvStmt → List Item → List (Label × List Item)
  | .basic _, _ => []
  | .letregion rhos body, K => placesLss body ((code.exit rhos).map (.region .dealloc) ++ K)
  | .scope _ scope, K => placesLss scope K
  | .handle default handl handlLv handlReturn handlReturnLv _ _, K =>
    placesLss handl (.install handlLv ::
      (stmts default ++ .uninstall (returnItems handlReturn handlReturnLv K) :: K)) ++
    placesLss default (.uninstall (returnItems handlReturn handlReturnLv K) :: K) ++
    placesLss handlReturn K
  | .switch kind arg sels default, K =>
    switchPlaces kind arg sels default K ++ placesSels sels K ++ placesLss default K

/-- The labels set in a text, with what is left to do behind them. -/
def placesLss : List FvStmt → List Item → List (Label × List Item)
  | [], _ => []
  | ls :: lss, K => placesLs ls (stmts lss ++ K) ++ placesLss lss K

def placesSels : List (Selector × List FvStmt) → List Item → List (Label × List Item)
  | [], _ => []
  | (_, lss) :: sels, K => placesLss lss K ++ placesSels sels K

end

end Places

/-- The runs of a function body. -/
def BodyRuns {V : Type} (code : RegionCode) (values : Values V) (body : List FvStmt) (env : Env V)
    (events : List (Event V)) : Prop :=
  (bodyMachine code values (placesLss code body [])).Runs (stmts body, env) events

end MLKit.Backend.FlowVars
