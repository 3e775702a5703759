import MLKit.Backend.FlowVars
import MLKit.X64.CodeGenUtil

/-!
# From a definition to the switch

A place in a function body is what is left to do there: statements, the code at the ends of regions
and handlers. The text of a body says for every statement what is left to do after it. The variables
that `FV_CalcSets` finds are exactly those with one use, in a switch on booleans, whose definitions
all set a boolean and stand directly before that switch, where the regions that the analysis takes
to execute no code do not count.
-/

namespace MLKit.Backend.FlowVars

open MLKit.X64 (boxedNum maybeTagIntOrWord)

/-- The values that a region holds, as far as code generation asks. -/
inductive RunType where
  | pair | ref | triple | other
  deriving DecidableEq

/-- What decides which regions execute code. -/
structure Target where
  flags : Flags
  tagPairs : Bool
  placeTy : Place → Option RunType

def Target.valuesInRegionUntagged (target : Target) (place : Place) : Bool :=
  target.flags.tagValues && !target.tagPairs &&
    (match target.placeTy place with
      | some .pair => true
      | some .ref => true
      | some .triple => true
      | _ => false)

/-- `alloc_region_prim`: whether code is executed where the region is entered. -/
def Target.allocates (target : Target) (rho : Binder × Unit) : Bool :=
  match rho.1.2 with
  | .words 0 => false
  | .words _ => target.flags.regionProfiling || target.valuesInRegionUntagged rho.1.1
  | .inf => true

/-- `dealloc_region_prim`: whether code is executed where the region is left. -/
def Target.deallocates (target : Target) (rho : Binder × Unit) : Bool :=
  match rho.1.2 with
  | .words 0 => false
  | .words _ => target.flags.regionProfiling
  | .inf => true

/-- The number that a boolean is stored as. -/
def boolNumber (b : Bool) : Int := if b then mlTrue else mlFalse

/-- The number that the code of a switch with one selector compares its operand with. A boxed
operand is not compared itself, but the word it points to. -/
def comparesWith (flags : Flags) : SwitchKind → Selector → Option Int
  | .int precision, .num value =>
    if boxedNum flags precision then none else (maybeTagIntOrWord value precision).toOption
  | .con, .con _ (.enum i) => some i
  -- the code masks all but two bits, and a boolean has no others
  | .con, .con _ (.unboxed i) => some i
  | _, _ => none

inductive RegionOp where
  | alloc
  | dealloc
  deriving DecidableEq

/-- What is left to do: a statement, the code of a region, the installation of a handler, its
removal, with what is left to do if an exception is raised before it, and the result of a handler. -/
inductive Item where
  | stmt (ls : FvStmt)
  | region (op : RegionOp) (rho : Binder × Unit)
  | install (handlLv : Atom)
  | uninstall (ret : List Item)
  | receive (aty : Atom)

def stmts (lss : List FvStmt) : List Item := lss.map .stmt

/-- The regions whose code is executed, in the order of the code, and the switches whose code
compares with the boolean of the selector. -/
structure RegionCode where
  entry : List (Binder × Unit) → List (Binder × Unit)
  exit : List (Binder × Unit) → List (Binder × Unit)
  onBool : SwitchKind → Selector → Bool

/-- The code as the analysis sees it. -/
def analysisCode (regionProfiling : Bool) : RegionCode where
  entry rhos := codeRhos regionProfiling rhos
  exit rhos := codeRhos regionProfiling rhos.reverse
  onBool _ _ := true

/-- The code of the generated program. -/
def targetCode (target : Target) : RegionCode where
  entry rhos := rhos.filter target.allocates
  exit rhos := rhos.reverse.filter target.deallocates
  onBool kind sel :=
    (selBool kind sel).any fun b => comparesWith target.flags kind sel == some (boolNumber b)

/-- What is left to do in the body of a letregion. -/
def bodyItems (code : RegionCode) (rhos : List (Binder × Unit)) (body : List FvStmt)
    (K : List Item) : List Item :=
  stmts body ++ ((code.exit rhos).map (.region .dealloc) ++ K)

/-- What is left to do after an exception has been handled. -/
def returnItems (handlReturn : List FvStmt) (handlReturnLv : Atom) (K : List Item) : List Item :=
  .receive handlReturnLv :: (stmts handlReturn ++ K)

/-- Control comes to the switch on a variable without executing code. -/
inductive Leads (code : RegionCode) (lv : Lvar) : List Item → Prop where
  | switch {kind : SwitchKind} {sel : Selector} {b : Bool} {lss default : List FvStmt}
      {K : List Item} : selBool kind sel = some b →
      Leads code lv (.stmt (.switch kind (.var lv) [(sel, lss)] default) :: K)
  | scope {pat : List Sty} {scope : List FvStmt} {K : List Item} :
      Leads code lv (stmts scope ++ K) → Leads code lv (.stmt (.scope pat scope) :: K)
  | letregion {rhos : List (Binder × Unit)} {body : List FvStmt} {K : List Item} :
      code.entry rhos = [] → Leads code lv (bodyItems code rhos body K) →
      Leads code lv (.stmt (.letregion rhos body) :: K)

/-- The statement sets the variable to a boolean. -/
def setsBool (lv : Lvar) (stmt : BasicStmt Unit Atom) : Bool :=
  (match boolConst stmt with
    | some (lv', _) => lv' == lv
    | none => false) || boolPrim stmt == some lv

mutual

/-- Every definition of the variable in a statement sets a boolean and leads to a switch on the
variable, and every use of the variable is such a switch. -/
def FineLs (code : RegionCode) (lv : Lvar) : FvStmt → List Item → Prop
  | .basic stmt, K =>
    lv ∉ useVarLs stmt ∧ (lv ∈ defVarLs stmt → setsBool lv stmt = true ∧ Leads code lv K)
  | .letregion rhos body, K => FineLss code lv body ((code.exit rhos).map (.region .dealloc) ++ K)
  | .scope _ scope, K => FineLss code lv scope K
  | .handle default handl handlLv handlReturn handlReturnLv _ _, K =>
    lv ∉ getVarAtom handlLv ∧ lv ∉ getVarAtom handlReturnLv ∧
      FineLss code lv handl (.install handlLv ::
        (stmts default ++ .uninstall (returnItems handlReturn handlReturnLv K) :: K)) ∧
      FineLss code lv default (.uninstall (returnItems handlReturn handlReturnLv K) :: K) ∧
      FineLss code lv handlReturn K
  | .switch kind arg sels default, K =>
    (lv ∈ getVarAtom arg → ∃ sel lss b, sels = [(sel, lss)] ∧ arg = .var lv ∧
      selBool kind sel = some b ∧ code.onBool kind sel = true) ∧
    FineSels code lv sels K ∧ FineLss code lv default K

def FineLss (code : RegionCode) (lv : Lvar) : List FvStmt → List Item → Prop
  | [], _ => True
  | ls :: lss, K => FineLs code lv ls (stmts lss ++ K) ∧ FineLss code lv lss K

def FineSels (code : RegionCode) (lv : Lvar) : List (Selector × List FvStmt) → List Item → Prop
  | [], _ => True
  | (_, lss) :: sels, K => FineLss code lv lss K ∧ FineSels code lv sels K

end

mutual

/-- How many statements use the variable. -/
def usesLs (lv : Lvar) : FvStmt → Nat
  | .basic stmt => if lv ∈ useVarLs stmt then 1 else 0
  | .letregion _ body => usesLss lv body
  | .scope _ scope => usesLss lv scope
  | .handle default handl handlLv handlReturn _ _ _ =>
    (if lv ∈ getVarAtom handlLv then 1 else 0) + usesLss lv default + usesLss lv handl +
      usesLss lv handlReturn
  | .switch _ arg sels default =>
    (if lv ∈ getVarAtom arg then 1 else 0) + usesSels lv sels + usesLss lv default

def usesLss (lv : Lvar) : List FvStmt → Nat
  | [] => 0
  | ls :: lss => usesLs lv ls + usesLss lv lss

def usesSels (lv : Lvar) : List (Selector × List FvStmt) → Nat
  | [] => 0
  | (_, lss) :: sels => usesLss lv lss + usesSels lv sels

end

def isFlow : Atom → Bool
  | .flowVar _ _ _ => true
  | _ => false

/-- A boolean constant has the kind under which its number is stored. -/
def plainCon : SimpleExp Atom → Bool
  | .con0 con conKind _ _ => (conBool con).all fun b => conKind == .enum b.toNat
  | _ => true

/-- The statement does not set a flow variable. -/
def plainBasic : BasicStmt Unit Atom → Bool
  | .assign pat bind => !isFlow pat && plainCon bind
  | .prim _ _ res => res.all fun aty => !isFlow aty
  | _ => true

/-- The operand of a switch is neither a flow variable nor a register. -/
def plainOperand : Atom → Bool
  | .flowVar _ _ _ => false
  | .phreg _ => false
  | .var lv => !lv.isReg
  | _ => true

mutual

/-- The statement comes from linearisation: there are no flow variables yet, and variables are not
registers. -/
def PlainLs : FvStmt → Prop
  | .basic stmt => plainBasic stmt = true
  | .letregion _ body => PlainLss body
  | .scope _ scope => PlainLss scope
  | .handle default handl _ handlReturn _ _ _ =>
    PlainLss default ∧ PlainLss handl ∧ PlainLss handlReturn
  | .switch _ arg sels default => plainOperand arg = true ∧ PlainSels sels ∧ PlainLss default

def PlainLss : List FvStmt → Prop
  | [] => True
  | ls :: lss => PlainLs ls ∧ PlainLss lss

def PlainSels : List (Selector × List FvStmt) → Prop
  | [] => True
  | (_, lss) :: sels => PlainLss lss ∧ PlainSels sels

end

end MLKit.Backend.FlowVars
