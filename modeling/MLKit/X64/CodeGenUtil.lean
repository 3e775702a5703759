import MLKit.X64.Machine
import MLKit.Backend.SubstAndSimplify

/-!
# Moving operands

The functions of `CodeGenUtilX64` that move an operand to a register, to
another operand, and to and from the top of the stack.  Each takes the code
that follows.
-/

namespace MLKit.X64

open MLKit.Lib MLKit.Backend MLKit.Backend.SubstAndSimplify List

def die {α : Type} (s : String) : Except String α := .error ("CodeGenUtilX64." ++ s)

/-- A displacement, in words or in bytes. -/
inductive Offset where
  | words (n : Int)
  | bytes (n : Int)
  deriving DecidableEq

def isZeroOffset : Offset → Bool
  | .words 0 => true
  | .bytes 0 => true
  | _ => false

def offsetBytes : Offset → Int
  | .words w => 8 * w
  | .bytes b => b

def isXmmEa : Ea → Bool
  | .R reg => isXmm reg
  | _ => false

def copy (r1 r2 : Reg) (C : List Inst) : Except String (List Inst) :=
  if r1 = r2 then .ok C
  else match isXmm r1, isXmm r2 with
    | true, true => .ok (.movsd (.R r1) (.R r2) :: C)
    | false, false => .ok (.movq (.R r1) (.R r2) :: C)
    | _, _ => die "copy: incompatible registers"

def loadIndexed (d : Ea) (b : Reg) (n : Offset) (C : List Inst) : Except String (List Inst) :=
  if isXmm b then die "load_indexed: wrong kind of register"
  else if isXmmEa d then .ok (.movsd (.D (offsetBytes n) b) d :: C)
  else .ok (.movq (.D (offsetBytes n) b) d :: C)

def storeIndexed (b : Reg) (n : Offset) (s : Ea) (C : List Inst) : List Inst :=
  if isXmmEa s then .movsd s (.D (offsetBytes n) b) :: C
  else .movq s (.D (offsetBytes n) b) :: C

theorem offsetBytes_of_isZero {n : Offset} (h : isZeroOffset n = true) : offsetBytes n = 0 := by
  unfold isZeroOffset at h
  split at h <;> simp_all [offsetBytes]

def basePlusOffset (b : Reg) (n : Offset) (d : Reg) (C : List Inst) : List Inst :=
  if d = b ∧ isZeroOffset n = true then C
  else .leaq (.D (offsetBytes n) b) (.R d) :: C

/-- The machine representation of an integer or a word. -/
def maybeTagIntOrWord (value : Int) (precision : Nat) : Except String Int :=
  if precision = 31 ∨ precision = 63 then .ok (2 * value + 1)
  else if precision = 32 ∨ precision = 64 then .ok value
  else die "maybeTagIntOrWord"

def moveImmed (x : Int) (ea : Ea) (C : List Inst) : List Inst :=
  match x, ea with
  | 0, .R d => .xorq (.R d) (.R d) :: C
  | x, d => .movq (.I x) d :: C

def isReg : Ea → Bool
  | .R _ => true
  | _ => false

def moveNum (x : Int) (ea : Ea) (C : List Inst) : List Inst :=
  if x = 0 ∧ isReg ea = true then .xorq ea ea :: C
  else .movq (.I x) ea :: C

def boxedNum (flags : Flags) (precision : Nat) : Bool :=
  (precision == 32 || precision == 64) && flags.tagValues

/-- A boxed number is static data at a label of its own. -/
def moveNumBoxed (flags : Flags) (x : Int) (ea : Ea) (C : List Inst) : Except String (List Inst) :=
  if flags.tagValues then .ok (.movq (.LA (.numLab x)) ea :: C)
  else die "move_num_boxed.boxed integers/words necessary only when tagging is enabled"

def moveNumGeneric (flags : Flags) (precision : Nat) (num : Int) (ea : Ea) (C : List Inst) :
    Except String (List Inst) :=
  if boxedNum flags precision then moveNumBoxed flags num ea C
  else .ok (moveNum num ea C)

def moveUnit (flags : Flags) (ea : Ea) (C : List Inst) : List Inst :=
  if flags.tagValues then moveImmed BI.mlUnit ea C else C

/-- Make sure that the operand ends up in register `dstReg`. -/
def moveAtyIntoReg (flags : Flags) (aty : Aty) (dstReg : Reg) (sizeFf : Int) (C : List Inst) :
    Except String (List Inst) :=
  match aty with
  | .regI offset =>
    .ok (basePlusOffset .rsp (.bytes (sizeFf * 8 - offset * 8 - 8 + BI.infBit)) dstReg C)
  | .regF offset => .ok (basePlusOffset .rsp (.words (sizeFf - offset - 1)) dstReg C)
  | .stack offset => loadIndexed (.R dstReg) .rsp (.words (sizeFf - offset - 1)) C
  | .droppedRvar => .ok C
  | .phreg phreg => copy phreg dstReg C
  | .integer value precision => do
    let num ← maybeTagIntOrWord value precision
    moveNumGeneric flags precision num (.R dstReg) C
  | .word value precision => do
    let num ← maybeTagIntOrWord value precision
    moveNumGeneric flags precision num (.R dstReg) C
  | .unit => .ok (moveUnit flags (.R dstReg) C)
  | .flowVar _ _ _ => die "move_aty_into_reg: FLOW_VAR_ATY cannot be moved"

def moveRegIntoAty (srcReg : Reg) (dstAty : Aty) (sizeFf : Int) (C : List Inst) :
    Except String (List Inst) :=
  match dstAty with
  | .phreg dstReg => copy srcReg dstReg C
  | .stack offset => .ok (storeIndexed .rsp (.words (sizeFf - offset - 1)) (.R srcReg) C)
  | .unit => .ok C
  | _ => die "move_reg_into_aty: ATY not recognized"

/-- A register to compute the operand in, and the code that stores it. -/
def resolveAtyDef (aty : Aty) (t : Reg) (sizeFf : Int) (C : List Inst) :
    Except String (Reg × List Inst) :=
  match aty with
  | .stack offset => .ok (t, storeIndexed .rsp (.words (sizeFf - offset - 1)) (.R t) C)
  | .phreg phreg => .ok (phreg, C)
  | .unit => .ok (t, C)
  | _ => die "resolve_aty_def: ATY cannot be defined"

def moveAtyToAty (flags : Flags) (srcAty dstAty : Aty) (sizeFf : Int) (C : List Inst) :
    Except String (List Inst) :=
  match srcAty, dstAty with
  | .phreg srcReg, dstAty => moveRegIntoAty srcReg dstAty sizeFf C
  | srcAty, .phreg dstReg => moveAtyIntoReg flags srcAty dstReg sizeFf C
  | _, .unit => .ok C
  | srcAty, dstAty => do
    let (regForResult, C') ← resolveAtyDef dstAty RI.tmpReg1 sizeFf C
    moveAtyIntoReg flags srcAty regForResult sizeFf C'

/-- Push an operand; `sizeFf` is for the stack pointer before the push. -/
def pushAty (flags : Flags) (aty : Aty) (t : Reg) (sizeFf : Int) (C : List Inst) :
    Except String (List Inst) :=
  let default := moveAtyIntoReg flags aty t sizeFf (.push (.R t) :: C)
  match aty with
  | .phreg atyReg => .ok (.push (.R atyReg) :: C)
  | .integer value precision =>
    if boxedNum flags precision then default
    else do
      let num ← maybeTagIntOrWord value precision
      return .push (.I num) :: C
  | .word value precision =>
    if boxedNum flags precision then default
    else do
      let num ← maybeTagIntOrWord value precision
      return .push (.I num) :: C
  | _ => default

/-- Pop an operand; `sizeFf` is for the stack pointer after the pop. -/
def popAty (aty : Aty) (t : Reg) (sizeFf : Int) (C : List Inst) : Except String (List Inst) :=
  match aty with
  | .phreg atyReg => .ok (.pop (.R atyReg) :: C)
  | aty => do
    let C' ← moveRegIntoAty t aty sizeFf C
    return .pop (.R t) :: C'

/-! ## Operands with encodings -/

/-- The operand can be pushed: numbers are pushed as immediate values. -/
def Pushable (flags : Flags) (sizeFf : Int) : Aty → Prop
  | .regI offset => Encodable (sizeFf * 8 - offset * 8 - 8 + BI.infBit)
  | .regF offset => Encodable (8 * (sizeFf - offset - 1))
  | .stack offset => Encodable (8 * (sizeFf - offset - 1))
  | .integer value precision => unboxed value precision
  | .word value precision => unboxed value precision
  | _ => True
where
  unboxed (value : Int) (precision : Nat) : Prop :=
    boxedNum flags precision = false → ∀ num, maybeTagIntOrWord value precision = .ok num → Encodable num

theorem basePlusOffset_assembles {b d : Reg} {n : Offset} {C : List Inst} :
    Assembles (basePlusOffset b n d C) ↔ Encodable (offsetBytes n) ∧ Assembles C := by
  unfold basePlusOffset
  split
  · next hzero =>
      have hfits : Encodable (offsetBytes n) := by
        simp [Encodable, offsetBytes_of_isZero hzero.2]
      exact ⟨fun h => ⟨hfits, h⟩, And.right⟩
  · simp [Inst.Encodes, Ea.Encodes]

/-- The code that pushes an operand has an encoding exactly when the operand can be pushed. -/
theorem pushAty_assembles {flags : Flags} {aty : Aty} {t : Reg} {sizeFf : Int} {C code : List Inst}
    (h : pushAty flags aty t sizeFf C = .ok code) :
    Assembles code ↔ Pushable flags sizeFf aty ∧ Assembles C := by
  have hpush : Assembles (.push (.R t) :: C) ↔ Assembles C := by
    simp [Inst.Encodes, Ea.Encodes]
  have hnum : ∀ (value : Int) (precision : Nat),
      (if boxedNum flags precision then do
          let num ← maybeTagIntOrWord value precision
          moveNumGeneric flags precision num (.R t) (.push (.R t) :: C)
        else do
          let num ← maybeTagIntOrWord value precision
          return .push (.I num) :: C) = .ok code →
      (Assembles code ↔ Pushable.unboxed flags value precision ∧ Assembles C) := by
    intro value precision h
    by_cases hboxed : boxedNum flags precision = true
    · rw [if_pos hboxed] at h
      obtain ⟨num, -, h⟩ := bind_ok h
      rw [moveNumGeneric, if_pos hboxed, moveNumBoxed] at h
      split at h
      · cases h
        simp [Pushable.unboxed, hboxed, hpush, Inst.Encodes, Ea.Encodes]
      · cases h
    · rw [if_neg hboxed] at h
      obtain ⟨num, hnum, h⟩ := bind_ok h
      cases h
      simp [Pushable.unboxed, hboxed, hnum, Inst.Encodes, Ea.Encodes]
  cases aty with
  | regI offset | regF offset =>
    cases h
    rw [basePlusOffset_assembles, hpush]
    exact Iff.rfl
  | stack offset =>
    simp only [pushAty, moveAtyIntoReg, loadIndexed] at h
    have hrsp : ¬isXmm .rsp = true := by decide
    rw [if_neg hrsp] at h
    split at h <;> cases h <;> simp [Pushable, hpush, Inst.Encodes, Ea.Encodes, offsetBytes]
  | integer value precision | word value precision => exact hnum value precision h
  | phreg reg =>
    cases h
    simp [Pushable, Inst.Encodes, Ea.Encodes]
  | droppedRvar =>
    cases h
    simp [Pushable, hpush]
  | unit =>
    cases h
    simp only [Pushable, moveUnit, moveImmed, true_and]
    split
    · simp [hpush, Inst.Encodes, BI.mlUnit]
    · exact hpush
  | flowVar => cases h

/-! ## What the moved operand is -/

variable {sizeFf x value : Int} {aty : Aty} {s' s : State} {pre post : List Inst}
  {first rest gen gen' : List Inst → Except String (List Inst)} {n : Offset} {d dst src t : Reg}
  {precision : Nat} {inst : Inst}

section Values

variable (flags : Flags) (labAddr : Lab → Int)

/-- The value of an operand in a frame of `sizeFf` words whose stack pointer is
`base`.  A dropped region variable has none, and neither has unit when values
are not tagged: no code is emitted to move them. -/
def valueAt (base sizeFf : Int) (s : State) : Aty → Option Int
  | .regI offset => some (base + (sizeFf * 8 - offset * 8 - 8 + BI.infBit))
  | .regF offset => some (base + 8 * (sizeFf - offset - 1))
  | .stack offset => some (s.mem (base + 8 * (sizeFf - offset - 1)))
  | .flowVar _ _ _ => none
  | .droppedRvar => none
  | .phreg reg => some (s.regs reg)
  | .integer value precision => numValue value precision
  | .word value precision => numValue value precision
  | .unit => if flags.tagValues then some BI.mlUnit else none
where
  /-- An unboxed number, or the address of a boxed one. -/
  numValue (value : Int) (precision : Nat) : Option Int :=
    match maybeTagIntOrWord value precision with
    | .ok num => some (if boxedNum flags precision then labAddr (.numLab num) else num)
    | .error _ => none

/-- The value of an operand, the stack pointer being at the frame. -/
def atyValue (s : State) (sizeFf : Int) (aty : Aty) : Option Int :=
  valueAt flags labAddr (s.regs .rsp) sizeFf s aty

/-- With `n` words pushed below the frame, operands are addressed in a frame
that is `n` words larger. -/
theorem valueAt_shift (base sizeFf n : Int) (s : State) (aty : Aty) :
    valueAt flags labAddr (base - 8 * n) (sizeFf + n) s aty =
      valueAt flags labAddr base sizeFf s aty := by
  cases aty with
  | regI offset | regF offset =>
    simp only [valueAt]
    congr 1
    omega
  | stack offset =>
    simp only [valueAt]
    congr 2
    omega
  | _ => rfl

theorem atyValue_congr (hrsp : s'.regs .rsp = s.regs .rsp) (hmem : s'.mem = s.mem)
    (hreg : ∀ reg, aty = .phreg reg → s'.regs reg = s.regs reg) :
    atyValue flags labAddr s' sizeFf aty = atyValue flags labAddr s sizeFf aty := by
  cases aty with
  | phreg reg => simp only [atyValue, valueAt, hreg reg rfl]
  | _ => simp only [atyValue, valueAt, hrsp, hmem]

/-- Operands that fit a general register. -/
def IsOperand : Aty → Prop
  | .flowVar _ _ _ => False
  | .phreg reg => isXmm reg = false
  | .integer _ precision => precision ∈ [31, 32, 63, 64]
  | .word _ precision => precision ∈ [31, 32, 63, 64]
  | _ => True

/-- `gen` puts the straight-line code `pre` in front of the code that follows. -/
structure Emits (gen : List Inst → Except String (List Inst)) (pre : List Inst) : Prop where
  eq : ∀ C, gen C = .ok (pre ++ C)
  straight : ∀ inst ∈ pre, isPlain inst = true

/-- Register `reg` receives the operand's value, if it has one, and nothing
else changes. -/
def Loads (pre : List Inst) (aty : Aty) (reg : Reg) (sizeFf : Int) : Prop :=
  ∀ s, ∃ v, exec labAddr s pre = s.setReg reg v ∧
    ∀ w, atyValue flags labAddr s sizeFf aty = some w → v = w

theorem State.setReg_self (s : State) (reg : Reg) : s.setReg reg (s.regs reg) = s := by
  simp [State.setReg]

theorem emits_nil : Emits (fun C => .ok C) [] := ⟨fun _ => rfl, by simp⟩

theorem emits_single (h : isPlain inst = true) : Emits (fun C => .ok (inst :: C)) [inst] :=
  ⟨fun _ => rfl, by simpa using h⟩

/-- One piece of code in front of another. -/
theorem Emits.comp (hfirst : Emits first pre) (hrest : Emits rest post) :
    Emits (fun C => rest C >>= first) (pre ++ post) where
  eq C := by rw [ok_bind (hrest.eq C), hfirst.eq, append_assoc]
  straight := forall_mem_append.2 ⟨hfirst.straight, hrest.straight⟩

theorem Emits.congr (h : Emits gen pre) (heq : ∀ C, gen' C = gen C) : Emits gen' pre :=
  ⟨fun C => (heq C).trans (h.eq C), h.straight⟩

theorem Emits.snoc (h : Emits gen pre) (hinst : isPlain inst = true) :
    Emits (fun C => gen (inst :: C)) (pre ++ [inst]) :=
  h.comp (emits_single hinst)

theorem basePlusOffset_emits :
    ∃ pre, Emits (fun C => .ok (basePlusOffset .rsp n d C)) pre ∧
      ∀ s, exec labAddr s pre = s.setReg d (s.regs .rsp + offsetBytes n) := by
  by_cases hzero : d = .rsp ∧ isZeroOffset n = true
  · refine ⟨[], emits_nil.congr fun C => congrArg _ (if_pos hzero), fun s => ?_⟩
    rw [exec_nil, hzero.1, offsetBytes_of_isZero hzero.2, Int.add_zero, State.setReg_self]
  · exact ⟨[.leaq (.D (offsetBytes n) .rsp) (.R d)],
      (emits_single rfl).congr fun C => congrArg _ (if_neg hzero), fun s => rfl⟩

theorem moveNum_loads :
    ∃ pre, Emits (fun C => .ok (moveNum x (.R dst) C)) pre ∧
      ∀ s, exec labAddr s pre = s.setReg dst x := by
  by_cases hzero : x = 0
  · refine ⟨[.xorq (.R dst) (.R dst)],
      (emits_single rfl).congr fun C => congrArg _ (if_pos ⟨hzero, rfl⟩), fun s => ?_⟩
    rw [hzero]
    rfl
  · exact ⟨[.movq (.I x) (.R dst)],
      (emits_single rfl).congr fun C => congrArg _ (if_neg fun h => hzero h.1), fun s => rfl⟩

theorem maybeTag_ok (h : precision ∈ [31, 32, 63, 64]) :
    ∃ num, maybeTagIntOrWord value precision = .ok num := by
  simp only [mem_cons, not_mem_nil, or_false] at h
  rcases h with rfl | rfl | rfl | rfl <;> exact ⟨_, rfl⟩

/-- Integers and words are moved in the same way. -/
theorem moveNumber_loads (h : precision ∈ [31, 32, 63, 64]) :
    ∃ pre, Emits (fun C => do
        let num ← maybeTagIntOrWord value precision
        moveNumGeneric flags precision num (.R dst) C) pre ∧
      ∀ s, ∃ v, exec labAddr s pre = s.setReg dst v ∧
        ∀ w, valueAt.numValue flags labAddr value precision = some w → v = w := by
  obtain ⟨num, hnum⟩ := maybeTag_ok h
  by_cases hboxed : boxedNum flags precision = true
  · have htag : flags.tagValues = true := by
      unfold boxedNum at hboxed
      simp_all
    refine ⟨[.movq (.LA (.numLab num)) (.R dst)], (emits_single rfl).congr fun C => ?_, fun s =>
      ⟨labAddr (.numLab num), rfl, fun w hw => ?_⟩⟩
    · rw [ok_bind hnum, moveNumGeneric, if_pos hboxed, moveNumBoxed, if_pos htag]
    · simpa [valueAt.numValue, hnum, hboxed] using hw
  · obtain ⟨pre, hpre, hexec⟩ := moveNum_loads labAddr
    refine ⟨pre, hpre.congr fun C => ?_, fun s => ⟨num, hexec s, fun w hw => ?_⟩⟩
    · rw [ok_bind hnum, moveNumGeneric, if_neg hboxed]
    · simpa [valueAt.numValue, hnum, hboxed] using hw

theorem copy_loads (sizeFf : Int) (hsrc : isXmm src = false) (hdst : isXmm dst = false) :
    ∃ pre, Emits (copy src dst) pre ∧ Loads flags labAddr pre (.phreg src) dst sizeFf := by
  by_cases heq : src = dst
  · refine ⟨[], emits_nil.congr fun C => if_pos heq, fun s =>
      ⟨s.regs src, ?_, fun w hw => Option.some.inj hw⟩⟩
    rw [exec_nil, heq, State.setReg_self]
  · refine ⟨[.movq (.R src) (.R dst)], (emits_single rfl).congr fun C => ?_,
      fun s => ⟨s.regs src, rfl, fun w hw => Option.some.inj hw⟩⟩
    rw [copy, if_neg heq, hsrc, hdst]

theorem moveAtyIntoReg_loads (haty : IsOperand aty) (hdst : isXmm dst = false) :
    ∃ pre, Emits (moveAtyIntoReg flags aty dst sizeFf) pre ∧
      Loads flags labAddr pre aty dst sizeFf := by
  cases aty with
  | regI offset | regF offset =>
    obtain ⟨pre, hpre, hexec⟩ := basePlusOffset_emits labAddr
    exact ⟨pre, hpre, fun s => ⟨_, hexec s, fun w hw => Option.some.inj hw⟩⟩
  | stack offset =>
    refine ⟨[.movq (.D (8 * (sizeFf - offset - 1)) .rsp) (.R dst)],
      (emits_single rfl).congr fun C => ?_, fun s => ⟨_, rfl, fun w hw => Option.some.inj hw⟩⟩
    rw [moveAtyIntoReg, loadIndexed, if_neg (by decide), isXmmEa, hdst]
    rfl
  | flowVar lv ifTrue ifFalse => exact absurd haty id
  | droppedRvar =>
    refine ⟨[], emits_nil, fun s => ⟨s.regs dst, ?_, fun w hw => by cases hw⟩⟩
    rw [exec_nil, State.setReg_self]
  | phreg reg => exact copy_loads flags labAddr sizeFf haty hdst
  | integer value precision
  | word value precision => exact moveNumber_loads flags labAddr haty
  | unit =>
    by_cases htag : flags.tagValues = true
    · refine ⟨[.movq (.I BI.mlUnit) (.R dst)],
        (emits_single rfl).congr fun C => congrArg _ (if_pos htag),
        fun s => ⟨BI.mlUnit, rfl, fun w hw => ?_⟩⟩
      simpa [atyValue, valueAt, htag] using hw
    · refine ⟨[], emits_nil.congr fun C => congrArg _ (if_neg htag), fun s =>
        ⟨s.regs dst, ?_, fun w hw => ?_⟩⟩
      · rw [exec_nil, State.setReg_self]
      · simp [atyValue, valueAt, htag] at hw

/-- One word is pushed: the operand's value, if it has one.  Only the stack
pointer and the scratch register `t` change besides. -/
structure Pushes (pre : List Inst) (aty : Aty) (t : Reg) (sizeFf : Int) (s : State) (v : Int) :
    Prop where
  value : ∀ w, atyValue flags labAddr s sizeFf aty = some w → v = w
  rsp : (exec labAddr s pre).regs .rsp = s.regs .rsp - 8
  mem : (exec labAddr s pre).mem = Function.update s.mem (s.regs .rsp - 8) v
  regs : ∀ reg, reg ≠ .rsp → reg ≠ t → (exec labAddr s pre).regs reg = s.regs reg

/-- The general way to push an operand is through the scratch register. -/
theorem pushDefault_pushes (sizeFf : Int) (haty : IsOperand aty) (ht : isXmm t = false)
    (htrsp : t ≠ .rsp) :
    ∃ pre, Emits (fun C => moveAtyIntoReg flags aty t sizeFf (.push (.R t) :: C)) pre ∧
      ∀ s, ∃ v, Pushes flags labAddr pre aty t sizeFf s v := by
  obtain ⟨pre, hpre, hloads⟩ := moveAtyIntoReg_loads flags labAddr haty ht
  refine ⟨pre ++ [.push (.R t)], hpre.snoc rfl, fun s => ?_⟩
  obtain ⟨v, hexec, hvalue⟩ := hloads s
  refine ⟨v, hvalue, ?_, ?_, fun reg hrsp hreg => ?_⟩
  · simp [exec_append, hexec, execInst, htrsp.symm]
  · simp [exec_append, hexec, execInst, readEa, State.setMem, htrsp.symm]
  · simp [exec_append, hexec, execInst, hrsp, hreg]

/-- An unboxed number is pushed as an immediate value. -/
theorem pushImmediate_pushes (hprecision : precision ∈ [31, 32, 63, 64])
    (hboxed : boxedNum flags precision = false)
    (haty : ∀ s, atyValue flags labAddr s sizeFf aty =
      valueAt.numValue flags labAddr value precision) :
    ∃ pre, Emits (fun C => do
        let num ← maybeTagIntOrWord value precision
        return Inst.push (.I num) :: C) pre ∧
      ∀ s, ∃ v, Pushes flags labAddr pre aty t sizeFf s v := by
  obtain ⟨num, hnum⟩ := maybeTag_ok hprecision
  refine ⟨[.push (.I num)], (emits_single rfl).congr fun C => ok_bind hnum, fun s =>
    ⟨num, fun w hw => ?_, ?_, ?_, ?_⟩⟩
  · rw [haty] at hw
    simpa [valueAt.numValue, hnum, hboxed] using hw
  · simp [execInst]
  · simp [execInst, readEa, State.setMem]
  · intro reg hrsp _
    simp [execInst, hrsp]

theorem pushAty_pushes (haty : IsOperand aty) (ht : isXmm t = false) (htrsp : t ≠ .rsp) :
    ∃ pre, Emits (pushAty flags aty t sizeFf) pre ∧
      ∀ s, ∃ v, Pushes flags labAddr pre aty t sizeFf s v := by
  have hdefault := pushDefault_pushes flags labAddr sizeFf haty ht htrsp
  cases aty with
  | phreg reg =>
    refine ⟨[.push (.R reg)], emits_single rfl, fun s =>
      ⟨s.regs reg, fun w hw => Option.some.inj hw, ?_, ?_, ?_⟩⟩
    · simp [execInst]
    · simp [execInst, readEa, State.setMem]
    · intro reg' hrsp _
      simp [execInst, hrsp]
  | integer value precision | word value precision =>
    by_cases hboxed : boxedNum flags precision = true
    · obtain ⟨pre, hpre, hpushes⟩ := hdefault
      exact ⟨pre, hpre.congr fun C => if_pos hboxed, hpushes⟩
    · have hunboxed : boxedNum flags precision = false := by simpa using hboxed
      refine (pushImmediate_pushes flags labAddr haty hunboxed fun _ => ?_).imp fun pre hpre =>
        ⟨hpre.1.congr fun C => if_neg hboxed, hpre.2⟩
      rfl
  | _ => exact hdefault

end Values

end MLKit.X64
