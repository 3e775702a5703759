import MLKit.Backend.CallConv

/-!
# Access types

The operands of the code generator (`SubstAndSimplify`): where the value of an
atom is found at run time, given the places of variables and regions.
-/

namespace MLKit.Backend.SubstAndSimplify

open MLKit.Lib Function

def die {α : Type} (s : String) : Except String α := .error ("SubstAndSimplify." ++ s)

inductive Aty where
  | regI (offset : Int)
  | regF (offset : Int)
  | stack (offset : Int)
  | flowVar (lv : Lvar) (ifTrue ifFalse : Label)
  | droppedRvar
  | phreg (reg : Reg)
  | integer (value : Int) (precision : Nat)
  | word (value : Int) (precision : Nat)
  | unit
  deriving DecidableEq

abbrev AtyMap := Lvar → Option Aty
abbrev RhoMap := Place → Option Aty

/-- `RI.lv_to_reg`. -/
def lvToReg : Lvar → Except String Reg
  | .phreg reg => .ok reg
  | .named _ _ => .error "InstX64.lv_to_reg: lv not a register"

def lookupLvAty (atyMap : AtyMap) (lv : Lvar) : Except String Aty :=
  match atyMap lv with
  | some r => .ok r
  | none => die ("lookup_lv_aty(" ++ lv.pr ++ ")")

def lookupRhoAty (rhoMap : RhoMap) (place : Place) : Except String Aty :=
  match rhoMap place with
  | some r => .ok r
  | none => die ("lookup_binder_aty(" ++ toString place.key ++ ")")

def atomToAty : Atom → AtyMap → RhoMap → Except String Aty
  | .var lv, atyMap, _ => lookupLvAty atyMap lv
  | .rvar place, _, rhoMap => lookupRhoAty rhoMap place
  | .droppedRvar _, _, _ => .ok .droppedRvar
  | .phreg phreg, _, _ => do
    let reg ← lvToReg phreg
    return .phreg reg
  | .integer value precision, _, _ => .ok (.integer value precision)
  | .word value precision, _, _ => .ok (.word value precision)
  | .unit, _, _ => .ok .unit
  | .flowVar lv ifTrue ifFalse, _, _ => .ok (.flowVar lv ifTrue ifFalse)

/-- The places of variables at the start of a function body (`SS_top_decl`):
the arguments passed on the stack.  Results returned on the stack are not
entered. -/
def topLvEnv (cc : CallConv.CC) : Except String AtyMap := do
  let spilled ← CallConv.getSpilledArgsWithOffsets cc
  return spilled.foldl (fun env entry => update env entry.1 (some (.stack entry.2))) fun _ => none

end MLKit.Backend.SubstAndSimplify
