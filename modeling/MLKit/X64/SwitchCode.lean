import MLKit.Backend.JumpTables
import MLKit.Lib.LabelledCode
import MLKit.X64.CodeGenUtil

/-!
# Switches on the X64 target

The instructions that switches are compiled to, what they do to 64-bit words,
and the target that `JumpTables` generates code for.  The code of a branch is
one instruction here, which records that the branch was run and falls through.
-/

namespace MLKit.X64.Switch

open MLKit.Backend MLKit.Backend.JumpTables MLKit.Lib

inductive Inst (β : Type) where
  | movq (src dst : Ea)
  | addq (src dst : Ea)
  | salq (src dst : Ea)
  | andq (src dst : Ea)
  | cmpq (src dst : Ea)
  | push (ea : Ea)
  | pop (ea : Ea)
  | jne (lab : Lab)
  | jl (lab : Lab)
  | jg (lab : Lab)
  | jmp (ea : Ea)
  | lab (lab : Lab)
  | dotQuad (lab : Lab)
  | body (branch : β)
  deriving DecidableEq

variable {β : Type}

/-! ## The machine -/

/-- A word, or an address at some distance from a label. -/
inductive Value where
  | num (word : BitVec 64)
  | ptr (lab : Lab) (offset : BitVec 64)
  deriving DecidableEq

def Value.shift (distance : Int) : Value → Value
  | .num word => .num (word + BitVec.ofInt 64 distance)
  | .ptr lab offset => .ptr lab (offset + BitVec.ofInt 64 distance)

def Value.add : Value → Value → Option Value
  | .num word, .num word' => some (.num (word + word'))
  | .num word, .ptr lab offset => some (.ptr lab (word + offset))
  | .ptr lab offset, .num word => some (.ptr lab (offset + word))
  | .ptr _ _, .ptr _ _ => none

/-- `flags` is how the destination of the last `cmpq` compares with its source,
as signed words; `trace` lists the branches that were run. -/
structure State (β : Type) where
  regs : Reg → Value
  mem : Value → Value
  flags : Ordering
  trace : List β

variable {reg' reg : Reg}

namespace State

def setReg (s : State β) (reg : Reg) (value : Value) : State β :=
  { s with regs := Function.update s.regs reg value }

def setMem (s : State β) (address value : Value) : State β :=
  { s with mem := Function.update s.mem address value }

@[simp] theorem setReg_regs_self (s : State β) (reg : Reg) (value : Value) :
    (s.setReg reg value).regs reg = value := by
  simp [setReg]

@[simp] theorem setReg_regs_ne (s : State β) (value : Value) (h : reg' ≠ reg) :
    (s.setReg reg value).regs reg' = s.regs reg' := by
  simp [setReg, h]

@[simp] theorem setReg_mem (s : State β) (reg : Reg) (value : Value) :
    (s.setReg reg value).mem = s.mem := rfl

end State

def address (s : State β) (displacement : Int) (reg : Reg) : Option Value :=
  if Encodable displacement then some ((s.regs reg).shift displacement) else none

def read (s : State β) : Ea → Option Value
  | .R reg => some (s.regs reg)
  | .L _ => none
  | .LA lab => some (.ptr lab 0)
  | .I value => some (.num (BitVec.ofInt 64 value))
  | .D displacement reg => (address s displacement reg).map s.mem

def Value.num? : Value → Option (BitVec 64)
  | .num word => some word
  | .ptr _ _ => none

def readNum (s : State β) (ea : Ea) : Option (BitVec 64) := (read s ea).bind Value.num?

def write (s : State β) : Ea → Value → Option (State β)
  | .R reg, value => some (s.setReg reg value)
  | .D displacement reg, value => (address s displacement reg).map (s.setMem · value)
  | _, _ => none

def labelOf : Inst β → Option Lab
  | .lab lab => some lab
  | _ => none

def quadOf : Inst β → Option Lab
  | .dotQuad lab => some lab
  | _ => none

/-- The word of a jump table at some distance (in bytes) from its label. -/
def tableWord (prog : List (Inst β)) (lab : Lab) (offset : BitVec 64) : Option Lab := do
  let code ← codeFrom labelOf lab prog
  let table := code.takeWhile fun inst => (quadOf inst).isSome
  if offset.toNat % 8 = 0 then table[offset.toNat / 8]?.bind quadOf else none

/-- Where an indirect jump through a word of memory goes. -/
def indirect (prog : List (Inst β)) : Value → Option Lab
  | .num _ => none
  | .ptr lab offset => tableWord prog lab offset

structure Config (β : Type) where
  code : List (Inst β)
  state : State β

def goto (prog : List (Inst β)) (lab : Lab) (s : State β) : Option (Config β) :=
  (codeFrom labelOf lab prog).map (⟨·, s⟩)

def jumpIf (prog : List (Inst β)) (taken : Bool) (lab : Lab) (code : List (Inst β))
    (s : State β) : Option (Config β) :=
  if taken then goto prog lab s else some ⟨code, s⟩

def step (prog : List (Inst β)) : Config β → Option (Config β)
  | ⟨[], _⟩ => none
  | ⟨.movq src dst :: code, s⟩ => do
    let value ← read s src
    return ⟨code, ← write s dst value⟩
  | ⟨.addq src dst :: code, s⟩ => do
    let value ← (← read s dst).add (← read s src)
    return ⟨code, ← write s dst value⟩
  | ⟨.salq src dst :: code, s⟩ => do
    let count ← readNum s src
    let word ← readNum s dst
    return ⟨code, ← write s dst (.num (word <<< count.toNat))⟩
  | ⟨.andq src dst :: code, s⟩ => do
    let word ← readNum s src
    let word' ← readNum s dst
    return ⟨code, ← write s dst (.num (word' &&& word))⟩
  | ⟨.cmpq src dst :: code, s⟩ => do
    let word ← readNum s src
    let word' ← readNum s dst
    return ⟨code, { s with flags := compare word'.toInt word.toInt }⟩
  | ⟨.push ea :: code, s⟩ => do
    let value ← read s ea
    let top := (s.regs .rsp).shift (-8)
    return ⟨code, (s.setReg .rsp top).setMem top value⟩
  | ⟨.pop ea :: code, s⟩ => do
    let value := s.mem (s.regs .rsp)
    return ⟨code, ← write (s.setReg .rsp ((s.regs .rsp).shift 8)) ea value⟩
  | ⟨.jne lab :: code, s⟩ => jumpIf prog (s.flags != .eq) lab code s
  | ⟨.jl lab :: code, s⟩ => jumpIf prog (s.flags == .lt) lab code s
  | ⟨.jg lab :: code, s⟩ => jumpIf prog (s.flags == .gt) lab code s
  | ⟨.jmp (.L lab) :: _, s⟩ => goto prog lab s
  | ⟨.jmp (.D displacement reg) :: _, s⟩ => do
    let lab ← indirect prog (← address s displacement reg)
    goto prog lab s
  | ⟨.jmp _ :: _, _⟩ => none
  | ⟨.lab _ :: code, s⟩ => some ⟨code, s⟩
  | ⟨.dotQuad _ :: _, _⟩ => none
  | ⟨.body branch :: code, s⟩ => some ⟨code, { s with trace := s.trace ++ [branch] }⟩

/-! ## The target -/

def remDeadCode : List (Inst β) → List (Inst β)
  | [] => []
  | .lab lab :: C => .lab lab :: C
  | .dotQuad lab :: C => .dotQuad lab :: C
  | _ :: C => remDeadCode C

def rep16bit (i : Int) : Bool := -0x8000 ≤ i && i ≤ 0x7FFF

def newLocalLab (name : String) (n : Nat) : Lab := .localLab name n

def jmp (lab : Lab) (C : List (Inst β)) : List (Inst β) := .jmp (.L lab) :: remDeadCode C

def inlineCont : List (Inst β) → Option (List (Inst β) → List (Inst β))
  | .jmp ea :: _ => some fun C => .jmp ea :: remDeadCode C
  | _ => none

def cmp (opr : Ea) (i : Int) (C : List (Inst β)) : List (Inst β) :=
  if rep16bit i then .cmpq (.I i) opr :: C
  else .movq (.I i) (.R RI.tmpReg0) :: .cmpq (.R RI.tmpReg0) opr :: C

def jumpTableHeader (opr : Ea) (lab : Lab) (sel : Int) (C : List (Inst β)) : List (Inst β) :=
  .movq opr (.R RI.tmpReg0) ::
  .salq (.I 3) (.R RI.tmpReg0) ::
  .push (.R RI.tmpReg1) ::
  .movq (.LA lab) (.R RI.tmpReg1) ::
  .addq (.R RI.tmpReg1) (.R RI.tmpReg0) ::
  .pop (.R RI.tmpReg1) ::
  .jmp (.D (-8 * sel) RI.tmpReg0) ::
  remDeadCode C

/-- The target of `binary_search`, for an operand.  Comments are off. -/
def target (opr : Ea) : Target Lab (Inst β) β where
  comment _ C := C
  newLabel := newLocalLab
  ifNotEqualGoLabSel lab i C := cmp opr i (.jne lab :: C)
  ifLessThanGoLabSel lab i C := cmp opr i (.jl lab :: C)
  ifGreaterThanGoLabSel lab i C := cmp opr i (.jg lab :: C)
  compileInsts branch C := .body branch :: C
  label lab C := .lab lab :: C
  jmp := jmp
  selDist sel1 sel2 := (sel1 - sel2).natAbs
  jumpTableHeader lab sel _ C := jumpTableHeader opr lab sel C
  addLabelToJumpTab lab C := .dotQuad lab :: C
  inlineCont := inlineCont

/-- `binary_search`, for selectors of type `τ`; `jump_tables` is on. -/
def binarySearch {τ : Type} (sels : List (τ × β)) (default : β) (opr : Ea)
    (toInt : τ → Except String Int) (C : List (Inst β)) (n : Nat) :
    Except String (List (Inst β) × Nat) := do
  let sels ← sels.mapM fun (i, e) => do return (← toInt i, e)
  binarySearchNew (target opr) sels default C n

end MLKit.X64.Switch
