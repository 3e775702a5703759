import MLKit.Backend.RootMaps
import Mathlib.Data.Nat.Bitwise

/-!
# The stack walk of the collector

The part of `gc` that finds the roots on the stack of the X64 target: the saved
registers, the spilled arguments of the function that was entered, and the frames
of the suspended calls with their descriptors.  The stack grows downwards and is
addressed in words; the quads that stand before a return label in the code are
counted from the label.
-/

namespace MLKit.Runtime

open MLKit.Backend (Reg Word32)
open MLKit.Backend.CalcOffset

/-! ## Entering the collector -/

abbrev Stack := Int → Nat

/-- `push`: the stack pointer goes down by one word, which receives the value. -/
def push (value : Nat) (s : Int × Stack) : Int × Stack :=
  (s.1 - 1, Function.update s.2 (s.1 - 1) value)

def pushAll (values : List Nat) (s : Int × Stack) : Int × Stack :=
  values.foldl (fun s value => push value s) s

/-- `RI.all_regs`. -/
def allRegs : List Reg :=
  [.rax, .rbx, .rcx, .rdx, .rsi, .rdi, .rbp, .rsp, .r8, .r9, .r10, .r11, .r12, .r13, .r14, .r15]

/-- `lv_to_reg_no`; the floating point registers have no number. -/
def lvToRegNo : Reg → Option Nat
  | .rax => some 0 | .rbx => some 1 | .rcx => some 2 | .rdx => some 3
  | .rsi => some 4 | .rdi => some 5 | .rbp => some 6 | .rsp => some 7
  | .r8 => some 8 | .r9 => some 9 | .r10 => some 10 | .r11 => some 11
  | .r12 => some 12 | .r13 => some 13 | .r14 => some 14 | .r15 => some 15
  | .xmm _ => none

/-- The sizes that a function pushes before it jumps to the stub. -/
structure Entered where
  sizeCcf : Nat
  sizeRcf : Nat
  sizeSpilledRegionArgs : Nat

/-- What `do_gc` pushes. -/
def doGc (fn : Entered) (s : Int × Stack) : Int × Stack :=
  pushAll [fn.sizeCcf, fn.sizeRcf, fn.sizeSpilledRegionArgs] s

/-- What `gc_stub` pushes; the stack pointer is then the argument of `gc`. -/
def gcStub (regs : Reg → Nat) (s : Int × Stack) : Int × Stack := pushAll (allRegs.map regs) s

/-! ## The loops of `gc` -/

def numRegs : Nat := 16

def uintptrMax : Nat := 2 ^ 64 - 1

/-- The cells of the saved registers in `reg_map`, from register `offset` on. -/
def liveRegisters (sp : Int) : (left offset w : Nat) → List Int
  | 0, _, _ => []
  | left + 1, offset, w =>
    if w &&& 1 = 1 then
      (sp + numRegs - 1 - offset) :: liveRegisters sp left (offset + 1) (w >>> 1)
    else liveRegisters sp left (offset + 1) (w >>> 1)

/-- The cells of the spilled arguments from `offset` on; the region arguments
come first on the way up the stack. -/
def spilledArguments (sizeSpilledRegionArgs : Nat) : (left offset : Nat) → (spPtr : Int) → List Int
  | 0, _, _ => []
  | left + 1, offset, spPtr =>
    if sizeSpilledRegionArgs ≤ offset then
      spPtr :: spilledArguments sizeSpilledRegionArgs left (offset + 1) (spPtr + 1)
    else spilledArguments sizeSpilledRegionArgs left (offset + 1) (spPtr + 1)

/-- The cells of one frame from `offset` on.  The word `w` holds the bits that are
left of the quad at distance `wPtr` from the return label. -/
def frameCells (quads : Nat → Nat) (spPtr : Int) (fdSize : Nat) :
    (left offset w wIdx wPtr : Nat) → List Int
  | 0, _, _, _, _ => []
  | left + 1, offset, w, wIdx, wPtr =>
    let rest :=
      if wIdx + 1 = 32 ∧ offset + 1 < fdSize then
        frameCells quads spPtr fdSize left (offset + 1) (quads (wPtr + 1)) 0 (wPtr + 1)
      else frameCells quads spPtr fdSize left (offset + 1) (w >>> 1) (wIdx + 1) wPtr
    if w &&& 1 = 1 then (spPtr + fdSize - offset) :: rest else rest

section Walk

variable {σ : Type} (evacuate : Nat → σ → Nat × σ)

/-- The stack and the heap while the collector runs. -/
structure GcState (σ : Type) where
  stack : Stack
  heap : σ

/-- `*value_ptr = evacuate(*value_ptr)`. -/
def evacuateCell (s : GcState σ) (valuePtr : Int) : GcState σ :=
  let moved := evacuate (s.stack valuePtr) s.heap
  { stack := Function.update s.stack valuePtr moved.1, heap := moved.2 }

def evacuateCells (s : GcState σ) (cells : List Int) : GcState σ :=
  cells.foldl (evacuateCell evacuate) s

/-- The loop over frame descriptors.  It returns, for every frame it analyses, the
return label its descriptor was found by and the cells it evacuated. -/
def frames (quad : Nat → Nat → Nat) (sizeRcf : Nat) :
    (fuel : Nat) → GcState σ → (spPtr : Int) → (fdPtr : Nat) →
      Option (List (Nat × List Int) × GcState σ)
  | 0, _, _, _ => none
  | fuel + 1, s, spPtr, fdPtr =>
    let fdSize := quad fdPtr 3
    if fdSize = uintptrMax then some ([], s)
    else
      let cells := frameCells (quad fdPtr) spPtr fdSize fdSize 0 (quad fdPtr 4) 0 4
      let s' := evacuateCells evacuate s cells
      let spPtr' := spPtr + quad fdPtr 2 + 1
      (frames quad sizeRcf fuel s' (spPtr' + sizeRcf) (s'.stack spPtr')).map
        fun r => ((fdPtr, cells) :: r.1, r.2)

/-- The cells that `gc` applies `evacuate` to. -/
structure Roots where
  registers : List Int
  arguments : List Int
  frames : List (Nat × List Int)
  deriving DecidableEq

/-- The search for roots in `gc`. -/
def gcRoots (quad : Nat → Nat → Nat) (fuel : Nat) (s : GcState σ) (sp : Int) (regMap : Nat) :
    Option Roots :=
  let registers := liveRegisters sp numRegs 0 regMap
  let s₁ := evacuateCells evacuate s registers
  let spPtr := sp + numRegs
  let sizeSpilledRegionArgs := s₁.stack spPtr
  let sizeRcf := s₁.stack (spPtr + 1)
  let sizeCcf := s₁.stack (spPtr + 2)
  let arguments := spilledArguments sizeSpilledRegionArgs sizeCcf 0 (spPtr + 3)
  let s₂ := evacuateCells evacuate s₁ arguments
  let ra := spPtr + 3 + sizeCcf
  (frames evacuate quad sizeRcf fuel s₂ (ra + sizeRcf) (s₂.stack ra)).map
    fun r => ⟨registers, arguments, r.1⟩

end Walk

/-! ## The stack as the code generator lays it out -/

/-- The words of the stack that belong to a function. -/
structure FnSizes where
  sizeFf : Nat
  sizeCcf : Nat
  sizeRcf : Nat
  deriving DecidableEq

def FnSizes.sizeFd (fn : FnSizes) : Nat := fn.sizeFf + fn.sizeCcf + fn.sizeRcf + 1

def FnSizes.frameSizes (fn : FnSizes) : FrameSizes := ⟨fn.sizeCcf, fn.sizeRcf, fn.sizeFf⟩

/-- A suspended call: the function that made it, and what its bit vector was made
from.  The word of the return address is never the slot of a variable. -/
structure Call where
  fn : FnSizes
  lSet : Finset Int
  funNr : Nat
  returnAddress_not_mem : (fn.sizeRcf : Int) ∉ lSet

def Call.bv (call : Call) : List Word32 := genBitvector call.lSet call.fn.frameSizes call.funNr

/-- `gen_bv` puts the first word of a vector right before the label, and the
others before it. -/
def GenBv (quad : Nat → Nat → Nat) (lab : Nat) (bv : List Word32) : Prop :=
  ∀ i w, bv[i]? = some w → quad lab (i + 1) = w.toNat

/-- The stack from a return address `ra` on: the result words of the function that
returns there, and then the frame of the call, up to its own return address. -/
def LaidOut (quad : Nat → Nat → Nat) (stack : Stack) : (ra : Int) → (sizeRcf : Nat) →
    List Call → Prop
  | ra, _, [] => quad (stack ra) 3 = uintptrMax
  | ra, sizeRcf, call :: calls =>
    GenBv quad (stack ra) call.bv ∧
      LaidOut quad stack (ra + sizeRcf + call.fn.sizeFf + call.fn.sizeCcf + 1) call.fn.sizeRcf calls

/-- The slots of a frame whose bit is set, as offsets from its highest word. -/
def Call.slots (call : Call) : List Nat :=
  (List.range call.fn.sizeFd).filter fun offset => (offset : Int) ∈ call.lSet

/-- The frames that are described from a return address on. -/
def describedFrames (stack : Stack) : (ra : Int) → (sizeRcf : Nat) → List Call →
    List (Nat × List Int)
  | _, _, [] => []
  | ra, sizeRcf, call :: calls =>
    (stack ra, call.slots.map fun offset : Nat => ra + sizeRcf + call.fn.sizeFd - offset) ::
      describedFrames stack (ra + sizeRcf + call.fn.sizeFf + call.fn.sizeCcf + 1)
        call.fn.sizeRcf calls

/-- The cell a register is saved in, for the stack pointer at the entry. -/
def savedCell (rsp : Int) (regNo : Nat) : Int := rsp - 4 - regNo

/-- The cells that are described as roots when a function with its arguments at
`rsp` enters the collector. -/
def describedRoots (fn : Entered) (regMap : Nat) (rsp : Int) (stack : Stack)
    (calls : List Call) : Roots where
  registers := ((List.range numRegs).filter fun regNo => regMap.testBit regNo).map (savedCell rsp)
  arguments :=
    ((List.range fn.sizeCcf).filter fun i => fn.sizeSpilledRegionArgs ≤ i).map fun i : Nat => rsp + i
  frames := describedFrames stack (rsp + fn.sizeCcf) fn.sizeRcf calls

end MLKit.Runtime
