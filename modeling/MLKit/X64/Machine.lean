import MLKit.Backend.LineStmt
import Mathlib.Data.Int.Bitwise
import Mathlib.Logic.Function.Basic

/-!
# Straight-line code of the X64 target

The instructions that calls and the building of objects are compiled to and
their effect on registers and memory.  Words are integers here: stack addresses
never wrap around, and the bits of a word are those of a signed integer.
-/

namespace MLKit.X64

open MLKit.Backend

inductive Lab where
  | mlFunLab (lab : Label)
  | localLab (name : String) (index : Nat)
  | numLab (value : Int)
  deriving DecidableEq

/-- Effective addresses: a register, the word at a label, the address of a
label, an immediate value, and a displacement (in bytes) from a register. -/
inductive Ea where
  | R (reg : Reg)
  | L (lab : Lab)
  | LA (lab : Lab)
  | I (value : Int)
  | D (offset : Int) (reg : Reg)
  deriving DecidableEq

inductive Inst where
  | movq (src dst : Ea)
  | movsd (src dst : Ea)
  | leaq (src dst : Ea)
  | xorq (src dst : Ea)
  | orq (src dst : Ea)
  | andq (src dst : Ea)
  | notq (dst : Ea)
  | push (ea : Ea)
  | pop (ea : Ea)
  | jmp (ea : Ea)
  | lab (lab : Lab)
  | dotQuad (word : Word32)
  deriving DecidableEq

/-! ## Encodings -/

/-- A displacement or an immediate value has 32 bits. -/
def Encodable (n : Int) : Prop := -2 ^ 31 ≤ n ∧ n < 2 ^ 31

instance (n : Int) : Decidable (Encodable n) := inferInstanceAs (Decidable (_ ∧ _))

def Ea.Encodes : Ea → Prop
  | .I value => Encodable value
  | .D offset _ => Encodable offset
  | _ => True

/-- The instruction has an encoding. Only `movq` into a register takes immediate values of 64 bits. -/
def Inst.Encodes : Inst → Prop
  | .movq (.I value) (.R _) => -2 ^ 63 ≤ value ∧ value < 2 ^ 64
  | .movq src dst => src.Encodes ∧ dst.Encodes
  | .movsd src dst => src.Encodes ∧ dst.Encodes
  | .leaq src dst => src.Encodes ∧ dst.Encodes
  | .xorq src dst => src.Encodes ∧ dst.Encodes
  | .orq src dst => src.Encodes ∧ dst.Encodes
  | .andq src dst => src.Encodes ∧ dst.Encodes
  | .notq dst => dst.Encodes
  | .push ea => ea.Encodes
  | .pop ea => ea.Encodes
  | .jmp ea => ea.Encodes
  | .lab _ => True
  | .dotQuad _ => True

/-- The assembler takes the code; `exec` runs other code too. -/
def Assembles (code : List Inst) : Prop := ∀ inst ∈ code, inst.Encodes

@[simp] theorem assembles_cons {inst : Inst} {code : List Inst} :
    Assembles (inst :: code) ↔ inst.Encodes ∧ Assembles code :=
  List.forall_mem_cons

/-! ## States -/

def isXmm : Reg → Bool
  | .xmm _ => true
  | _ => false

structure State where
  regs : Reg → Int
  mem : Int → Int

variable {reg' reg : Reg} {address' address : Int} {code rest : List Inst} {labAddr : Lab → Int}
  {lab : Lab}

namespace State

def setReg (s : State) (reg : Reg) (value : Int) : State :=
  { s with regs := Function.update s.regs reg value }

def setMem (s : State) (address value : Int) : State :=
  { s with mem := Function.update s.mem address value }

@[simp] theorem setReg_regs_self (s : State) (reg : Reg) (value : Int) :
    (s.setReg reg value).regs reg = value := by
  simp [setReg]

@[simp] theorem setReg_regs_ne (s : State) (value : Int) (h : reg' ≠ reg) :
    (s.setReg reg value).regs reg' = s.regs reg' := by
  simp [setReg, h]

@[simp] theorem setReg_mem (s : State) (reg : Reg) (value : Int) :
    (s.setReg reg value).mem = s.mem := rfl

@[simp] theorem setMem_regs (s : State) (address value : Int) :
    (s.setMem address value).regs = s.regs := rfl

@[simp] theorem setMem_mem_self (s : State) (address value : Int) :
    (s.setMem address value).mem address = value := by
  simp [setMem]

@[simp] theorem setMem_mem_ne (s : State) (value : Int) (h : address' ≠ address) :
    (s.setMem address value).mem address' = s.mem address' := by
  simp [setMem, h]

end State

section Execution

variable (labAddr : Lab → Int)

def readEa (s : State) : Ea → Int
  | .R reg => s.regs reg
  | .L lab => s.mem (labAddr lab)
  | .LA lab => labAddr lab
  | .I value => value
  | .D offset reg => s.mem (s.regs reg + offset)

/-- Writing to anything but a register or memory is not an instruction. -/
def writeEa (s : State) : Ea → Int → State
  | .R reg, value => s.setReg reg value
  | .L lab, value => s.setMem (labAddr lab) value
  | .D offset reg, value => s.setMem (s.regs reg + offset) value
  | .LA _, _ => s
  | .I _, _ => s

/-- The address an operand of `leaq` stands for. -/
def addressEa (s : State) : Ea → Int
  | .D offset reg => s.regs reg + offset
  | ea => readEa labAddr s ea

/-- One instruction of straight-line code.  `xorq` is only emitted on a
register and itself. -/
def execInst (s : State) : Inst → State
  | .movq src dst => writeEa labAddr s dst (readEa labAddr s src)
  | .movsd src dst => writeEa labAddr s dst (readEa labAddr s src)
  | .leaq src dst => writeEa labAddr s dst (addressEa labAddr s src)
  | .xorq _ dst => writeEa labAddr s dst 0
  | .orq src dst => writeEa labAddr s dst (Int.lor (readEa labAddr s dst) (readEa labAddr s src))
  | .andq src dst => writeEa labAddr s dst (Int.land (readEa labAddr s dst) (readEa labAddr s src))
  | .notq dst => writeEa labAddr s dst (Int.lnot (readEa labAddr s dst))
  | .push ea =>
    let value := readEa labAddr s ea
    let s := s.setReg .rsp (s.regs .rsp - 8)
    s.setMem (s.regs .rsp) value
  | .pop ea =>
    let value := s.mem (s.regs .rsp)
    let s := s.setReg .rsp (s.regs .rsp + 8)
    writeEa labAddr s ea value
  | .jmp _ => s
  | .lab _ => s
  | .dotQuad _ => s

def exec (s : State) (code : List Inst) : State := code.foldl (execInst labAddr) s

@[simp] theorem exec_nil (s : State) : exec labAddr s [] = s := rfl

@[simp] theorem exec_cons (s : State) (inst : Inst) (code : List Inst) :
    exec labAddr s (inst :: code) = exec labAddr (execInst labAddr s inst) code := rfl

theorem exec_append (s : State) (code code' : List Inst) :
    exec labAddr s (code ++ code') = exec labAddr (exec labAddr s code) code' :=
  List.foldl_append

/-- Run to the first jump: its target, and the state there. -/
def runToJmp : State → List Inst → Option (Ea × State)
  | _, [] => none
  | s, .jmp ea :: _ => some (ea, s)
  | s, inst :: code => runToJmp (execInst labAddr s inst) code

end Execution

/-- Straight-line instructions: no jump, label or data. -/
def isPlain : Inst → Bool
  | .jmp _ => false
  | .lab _ => false
  | .dotQuad _ => false
  | _ => true

theorem runToJmp_plain (s : State) (rest : List Inst) (hcode : ∀ inst ∈ code, isPlain inst = true) :
    runToJmp labAddr s (code ++ rest) = runToJmp labAddr (exec labAddr s code) rest := by
  induction code generalizing s with
  | nil => rfl
  | cons inst code ih =>
    have hinst := hcode inst (by simp)
    have hrest := ih (execInst labAddr s inst) fun inst hmem => hcode inst (by simp [hmem])
    cases inst with
    | jmp ea => cases hinst
    | _ => exact hrest

theorem runToJmp_append (labAddr : Lab → Int) (s : State) (ea : Ea) (rest : List Inst)
    (hcode : ∀ inst ∈ code, isPlain inst = true) :
    runToJmp labAddr s (code ++ .jmp ea :: rest) = some (ea, exec labAddr s code) :=
  runToJmp_plain s (.jmp ea :: rest) hcode

/-- The code from a label on. -/
def codeAt (lab : Lab) : List Inst → List Inst
  | [] => []
  | .lab lab' :: code => if lab' = lab then code else codeAt lab code
  | _ :: code => codeAt lab code

theorem codeAt_append (hcode : ∀ inst ∈ code, isPlain inst = true) :
    codeAt lab (code ++ rest) = codeAt lab rest := by
  induction code with
  | nil => rfl
  | cons inst code ih =>
    have hinst := hcode inst (by simp)
    have hrest := ih fun inst hmem => hcode inst (by simp [hmem])
    cases inst with
    | lab lab' => cases hinst
    | _ => exact hrest

end MLKit.X64
