import Mathlib.Data.List.Basic
import Mathlib.Data.List.Nodup

/-!
# Back end information

The lambda variables the back end names values by, the register information of
the X64 target (structure `RI` of `InstsX64`) and the sizes of `BackendInfo`.
A machine register is itself used as a lambda variable; `Lvar.isReg` tells the
two apart.
-/

namespace MLKit.Backend

/-- The general purpose and floating point registers of the target. -/
inductive Reg where
  | rax | rbx | rcx | rdx | rsi | rdi | rbp | rsp
  | r8 | r9 | r10 | r11 | r12 | r13 | r14 | r15
  | xmm (index : Fin 16)
  deriving DecidableEq

def Reg.pr : Reg → String
  | .rax => "rax" | .rbx => "rbx" | .rcx => "rcx" | .rdx => "rdx"
  | .rsi => "rsi" | .rdi => "rdi" | .rbp => "rbp" | .rsp => "rsp"
  | .r8 => "r8" | .r9 => "r9" | .r10 => "r10" | .r11 => "r11"
  | .r12 => "r12" | .r13 => "r13" | .r14 => "r14" | .r15 => "r15"
  | .xmm index => "xmm" ++ toString index.val

/-- A lambda variable: an ordinary one, with its key and its flag for unboxed
64-bit floats, or the variable that stands for a machine register. -/
inductive Lvar where
  | named (key : Nat) (ubf64 : Bool)
  | phreg (reg : Reg)
  deriving DecidableEq

namespace Lvar

def isReg : Lvar → Bool
  | .named _ _ => false
  | .phreg _ => true

/-- `Lvars.get_ubf64`: register variables are created without the flag. -/
def getUbf64 : Lvar → Bool
  | .named _ ubf64 => ubf64
  | .phreg _ => false

/-- `Lvars.pr_lvar` of a variable that was given no name of its own. -/
def pr : Lvar → String
  | .named key _ => "v" ++ toString key
  | .phreg reg => reg.pr

end Lvar

namespace RI

def regArgs : List Reg := [.rax, .rbx, .rdi]
def argsPhreg : List Lvar := regArgs.map .phreg
def regRes : List Reg := [.rdi, .rbx, .rax]
def resPhreg : List Lvar := regRes.map .phreg

def argsRegCcall : List Reg := [.rdi, .rsi, .rdx, .rcx, .r8, .r9]
def argsPhregCcall : List Lvar := argsRegCcall.map .phreg
def resRegCcall : List Reg := [.rax]
def resPhregCcall : List Lvar := resRegCcall.map .phreg

/-- Scratch registers of the code generator; no variable is kept in them. -/
def tmpReg0 : Reg := .r10
def tmpReg1 : Reg := .r11

theorem argsPhreg_nodup : argsPhreg.Nodup := by decide

end RI

/-- The compiler flags the modelled passes read. -/
structure Flags where
  tagValues : Bool
  garbageCollection : Bool
  regionProfiling : Bool
  generationalGc : Bool

namespace BI

/-- Words of an exception handler in the frame. -/
def sizeOfHandle : Nat := 4

/-- Words of a region descriptor: the pages of one or two generations, the
pointer to the previous region, the profiling fields and the large objects. -/
def sizeOfRegDesc (flags : Flags) : Nat :=
  let sizeG0 := 2
  let sizeG1 := if flags.generationalGc then 2 else 0
  let sizePrevPtr := 1
  let sizeProf := if flags.regionProfiling then 3 else 0
  let sizeLobjs := 1
  sizeG0 + sizeG1 + sizePrevPtr + sizeProf + sizeLobjs

def finiteRegionDescSizeP : Nat := 2
def objectDescSizeP : Nat := 2

def initFrameOffset : Int := 0

def mlUnit : Int := 1

/-- The bit that marks the address of an infinite region. -/
def infBit : Int := 1

/-! Selectors of a switch: fewer than `minCodeInBinSearch` are tried in turn,
neighbours at most `maxDiff` apart go in one jump table, and a table has at
least `minJumpTabSize` of them. -/

def minCodeInBinSearch : Nat := 5
def maxDiff : Int := 10
def minJumpTabSize : Nat := 5

end BI

end MLKit.Backend
