import MLKit.Backend.LineStmt
import MLKit.Lib.Except

/-!
# Call conventions

The model of `CallConv`: how the formals and results of a function are placed
in registers and on the stack (`resolveCc`), and which actuals of a call are
passed on the stack (`resolveApp`, `resolveActCc`).  The counter of stack
offsets, a reference in the source, is passed explicitly.
-/

namespace MLKit.Backend.CallConv

open MLKit.Lib Bool

/-- `BI.down_growing_stack` of the X64 back end. -/
def downGrowingStack : Bool := true

def die {α : Type} (s : String) : Except String α := .error ("CallConv." ++ s)

inductive CCSty where
  | noSty (lv : Lvar)
  | stack (lv : Lvar) (offset : Int)
  | phreg (lv phreg : Lvar)
  deriving DecidableEq

structure CC where
  clos : Option CCSty
  args : List CCSty
  regVec : Option CCSty
  regArgs : List CCSty
  res : List CCSty
  frameSize : Option Int
  deriving DecidableEq

/-! ## Building a call convention -/

def mkStyOpt : Option Lvar → Option CCSty
  | some lv => some (.noSty lv)
  | none => none

def mkCcFun (args : List Lvar) (clos regVec : Option Lvar) (regArgs ress : List Lvar) : CC where
  clos := mkStyOpt clos
  args := args.map .noSty
  regVec := mkStyOpt regVec
  regArgs := regArgs.map .noSty
  res := ress.map .noSty
  frameSize := none

def getLvarSty : CCSty → Lvar
  | .noSty lv => lv
  | .stack lv _ => lv
  | .phreg lv _ => lv

def getResLvars (cc : CC) : List Lvar := cc.res.map getLvarSty

def getArgLvars (cc : CC) : List Lvar :=
  (cc.clos.toList ++ cc.args.reverse ++ cc.regVec.toList ++ cc.regArgs.reverse).map getLvarSty

def getFrameSize (cc : CC) : Except String Int :=
  match cc.frameSize with
  | none => die "get_frame_size: frame_size does not exists"
  | some fSize => .ok fSize

def filterOutPhreg : List CCSty → Except String (List CCSty)
  | [] => .ok []
  | .noSty _ :: _ =>
    die "filter_out_phreg: stack and machine registers not annotated yet"
  | .stack lv offset :: rest => do
    let rest' ← filterOutPhreg rest
    return .stack lv offset :: rest'
  | .phreg _ _ :: rest => filterOutPhreg rest

def filterOutPhregOpt : Option CCSty → Except String (List CCSty)
  | none => .ok []
  | some a => filterOutPhreg [a]

/-- Words of the frame that hold spilled results. -/
def getRcfSize (cc : CC) : Except String Nat := do
  let res ← filterOutPhreg cc.res
  return res.length

/-- Words of the frame that hold spilled arguments. -/
def getCcfSize (cc : CC) : Except String Nat := do
  let clos ← filterOutPhregOpt cc.clos
  let args ← filterOutPhreg cc.args
  let regVec ← filterOutPhregOpt cc.regVec
  let regArgs ← filterOutPhreg cc.regArgs
  return clos.length + args.length + regVec.length + regArgs.length

/-- The return label occupies one word on the stack. -/
def getCcSize (cc : CC) : Except String Nat := do
  let rcf ← getRcfSize cc
  let ccf ← getCcfSize cc
  return rcf + ccf + 1

def addFrameSize (cc : CC) (fSize : Int) : CC := { cc with frameSize := some fSize }

/-! ## Resolving a call convention -/

def getNextOffset (nextOffset : Int) : Int × Int := (nextOffset - 1, nextOffset - 1)

def getSpilledSty : CCSty → List (Lvar × Int) → Except String (List (Lvar × Int))
  | .noSty _, _ => die "get_spilled_sty: STY not resolved yet."
  | .stack lv offset, acc => .ok ((lv, offset) :: acc)
  | .phreg _ _, acc => .ok acc

def getSpilledStyOpt : Option CCSty → List (Lvar × Int) → Except String (List (Lvar × Int))
  | none, acc => .ok acc
  | some sty, acc => getSpilledSty sty acc

def getSpilledStys : List CCSty → List (Lvar × Int) → Except String (List (Lvar × Int))
  | [], acc => .ok acc
  | sty :: stys, acc => do
    let acc' ← getSpilledStys stys acc
    getSpilledSty sty acc'

def assignPhreg : CCSty → Lvar → Except String (CCSty × (Lvar × Lvar))
  | .noSty lv, phreg => .ok (.phreg lv phreg, (lv, phreg))
  | .stack _ _, _ => die "assign_phreg: sty is CC_STACK and not CC_NO_STY."
  | .phreg _ _, _ => die "assign_phreg: sty is CC_PHREG and not CC_NO_STY."

def assignStack : CCSty → Int → Except String (CCSty × Int)
  | .noSty lv, nextOffset =>
    let (offset, nextOffset') := getNextOffset nextOffset
    .ok (.stack lv offset, nextOffset')
  | .stack _ _, _ => die "assign_stack: sty is CC_STACK and not CC_NO_STY."
  | .phreg _ _, _ => die "assign_stack: sty is CC_PHREG and not CC_NO_STY."

/-- `map assign_stack`, from left to right. -/
def assignStacks : List CCSty → Int → Except String (List CCSty × Int)
  | [], nextOffset => .ok ([], nextOffset)
  | sty :: stys, nextOffset => do
    let (sty', nextOffset) ← assignStack sty nextOffset
    let (stys', nextOffset) ← assignStacks stys nextOffset
    return (sty' :: stys', nextOffset)

def resolveStys : List CCSty → List (Lvar × Lvar) → List Lvar → Int →
    Except String ((List CCSty × List (Lvar × Lvar) × List Lvar) × Int)
  | [], acc, phRegs, nextOffset => .ok (([], acc, phRegs), nextOffset)
  | sty :: stys, acc, [], nextOffset => do
    let (stys', nextOffset) ← assignStacks (sty :: stys) nextOffset
    return ((stys', acc, []), nextOffset)
  | sty :: stys, acc, phReg :: phRegs, nextOffset => do
    let ((styList, lvPhregList, phRegs'), nextOffset) ← resolveStys stys acc phRegs nextOffset
    let (sty', lvPhreg') ← assignPhreg sty phReg
    return ((sty' :: styList, lvPhreg' :: lvPhregList, phRegs'), nextOffset)

/-- Arguments and region arguments together; with a stack that grows downwards
those that find no register are numbered from the last one. -/
def resolveStysArgs : List CCSty → List CCSty → List (Lvar × Lvar) → List Lvar → Int →
    Except String ((List CCSty × List CCSty × List (Lvar × Lvar) × List Lvar) × Int)
  | [], [], acc, phRegs, nextOffset => .ok (([], [], acc, phRegs), nextOffset)
  | argsStys, regArgsStys, acc, [], nextOffset =>
    if downGrowingStack then do
      let (regArgs, nextOffset) ← assignStacks regArgsStys.reverse nextOffset
      let (args, nextOffset) ← assignStacks argsStys.reverse nextOffset
      return ((args, regArgs, acc, []), nextOffset)
    else do
      let (args, nextOffset) ← assignStacks argsStys nextOffset
      let (regArgs, nextOffset) ← assignStacks regArgsStys nextOffset
      return ((args, regArgs, acc, []), nextOffset)
  | asty :: astys, rastys, acc, phReg :: phRegs, nextOffset => do
    let ((astys', rastys', lvPhregList, phRegs'), nextOffset) ←
      resolveStysArgs astys rastys acc phRegs nextOffset
    let (asty', lvPhreg') ← assignPhreg asty phReg
    return ((asty' :: astys', rastys', lvPhreg' :: lvPhregList, phRegs'), nextOffset)
  | [], rasty :: rastys, acc, phReg :: phRegs, nextOffset => do
    let ((_, rastys', lvPhregList, phRegs'), nextOffset) ←
      resolveStysArgs [] rastys acc phRegs nextOffset
    let (rasty', lvPhreg') ← assignPhreg rasty phReg
    return (([], rasty' :: rastys', lvPhreg' :: lvPhregList, phRegs'), nextOffset)

def resolveStyOpt : Option CCSty → List (Lvar × Lvar) → List Lvar → Int →
    Except String ((Option CCSty × List (Lvar × Lvar) × List Lvar) × Int)
  | some sty, acc, [], nextOffset => do
    let (sty', nextOffset) ← assignStack sty nextOffset
    return ((some sty', acc, []), nextOffset)
  | some sty, acc, phreg :: phregs, nextOffset => do
    let (sty', lvPhreg') ← assignPhreg sty phreg
    return ((some sty', lvPhreg' :: acc, phregs), nextOffset)
  | none, acc, phregs, nextOffset => .ok ((none, acc, phregs), nextOffset)

/-- `resolve_cc`: the resolved convention, and the formals and the results
that are passed in registers. -/
def resolveCc (argsPhreg resPhreg : List Lvar) (cc : CC) :
    Except String (CC × List (Lvar × Lvar) × List (Lvar × Lvar)) := do
  let ((closStyOpt, lvPhregArgs, phregs), nextOffset) ← resolveStyOpt cc.clos [] argsPhreg 0
  let ((regVecStyOpt, lvPhregArgs, phregs), nextOffset) ←
    resolveStyOpt cc.regVec lvPhregArgs phregs nextOffset
  let ((argsStys, regArgsStys, lvPhregArgs, _), nextOffset) ←
    resolveStysArgs cc.args cc.regArgs lvPhregArgs phregs nextOffset
  -- the next offset is for the return address
  let (_, nextOffset) := getNextOffset nextOffset
  let ((resStys, lvPhregRes, _), _) ← resolveStys cc.res [] resPhreg nextOffset
  return ({ clos := closStyOpt, args := argsStys, regVec := regVecStyOpt,
            regArgs := regArgsStys, res := resStys, frameSize := cc.frameSize },
          lvPhregArgs, lvPhregRes)

def getSpilledArgsWithOffsets (cc : CC) : Except String (List (Lvar × Int)) := do
  let acc ← getSpilledStys cc.regArgs []
  let acc ← getSpilledStyOpt cc.regVec acc
  let acc ← getSpilledStys cc.args acc
  getSpilledStyOpt cc.clos acc

def getSpilledResWithOffsets (cc : CC) : Except String (List (Lvar × Int)) :=
  getSpilledStys cc.res []

/-! ## Resolving the actuals of a call -/

section Actuals

variable {α : Type} (phregToAlpha : Lvar → α)

def resolveList : List α → List (α × Lvar) → List Lvar → List α × List (α × Lvar) × List Lvar
  | [], assignList, phregs => ([], assignList, phregs)
  | alpha :: alphas, assignList, [] => (alpha :: alphas, assignList, [])
  | alpha :: alphas, assignList, phreg :: phregs =>
    let (alphaList, assignList, phregs') := resolveList alphas assignList phregs
    (phregToAlpha phreg :: alphaList, (alpha, phreg) :: assignList, phregs')

def resolveListAuto {β : Type} : List (α × β) → List (α × Lvar) → List Lvar →
    List (α × β) × List (α × Lvar) × List Lvar
  | [], assignList, phregs => ([], assignList, phregs)
  | alpha :: alphas, assignList, [] => (alpha :: alphas, assignList, [])
  | (alpha, ft) :: alphas, assignList, phreg :: phregs =>
    let (alphaList, assignList, phregs') := resolveListAuto alphas assignList phregs
    ((phregToAlpha phreg, ft) :: alphaList, (alpha, phreg) :: assignList, phregs')

def resolveOpt : Option α → List (α × Lvar) → List Lvar → Option α × List (α × Lvar) × List Lvar
  | some alpha, assignList, [] => (some alpha, assignList, [])
  | some alpha, assignList, phreg :: phregs =>
    (some (phregToAlpha phreg), (alpha, phreg) :: assignList, phregs)
  | none, assignList, phregs => (none, assignList, phregs)

def resolveAuto {β : Type} : α × β → List (α × Lvar) → List Lvar →
    (α × β) × List (α × Lvar) × List Lvar
  | alpha, assignList, [] => (alpha, assignList, [])
  | (alpha, ft), assignList, phreg :: phregs =>
    ((phregToAlpha phreg, ft), (alpha, phreg) :: assignList, phregs)

/-- The operands of a call. -/
structure App (α : Type) where
  clos : Option α
  args : List α
  regVec : Option α
  regArgs : List α
  res : List α

/-- The operands of a C call. -/
structure CcallApp (α : Type) where
  args : List α
  rhosForResult : List α
  res : List α

def resolveCcall (argsPhregCcall resPhregCcall : List Lvar) (app : CcallApp α) :
    CcallApp α × List (α × Lvar) × List (α × Lvar) :=
  let (rhosForResult', assignListArgs, phregs) :=
    resolveList phregToAlpha app.rhosForResult [] argsPhregCcall
  let (args', assignListArgs, _) := resolveList phregToAlpha app.args assignListArgs phregs
  let (res', assignListRes, _) := resolveList phregToAlpha app.res [] resPhregCcall
  ({ args := args', rhosForResult := rhosForResult', res := res' }, assignListArgs, assignListRes)

def resolveCcallAuto {β : Type} (argsPhregCcall resPhregCcall : List Lvar)
    (args : List (α × β)) (res : α × β) :
    (List (α × β) × (α × β)) × List (α × Lvar) × List (α × Lvar) :=
  let (args', assignListArgs, _) := resolveListAuto phregToAlpha args [] argsPhregCcall
  let (res', assignListRes, _) := resolveAuto phregToAlpha res [] resPhregCcall
  ((args', res'), assignListArgs, assignListRes)

def resolveApp (argsPhreg resPhreg : List Lvar) (app : App α) :
    App α × List (α × Lvar) × List (α × Lvar) :=
  let (clos', assignListArgs, phregs) := resolveOpt phregToAlpha app.clos [] argsPhreg
  let (regVec', assignListArgs, phregs) := resolveOpt phregToAlpha app.regVec assignListArgs phregs
  let (args', assignListArgs, phregs) := resolveList phregToAlpha app.args assignListArgs phregs
  let (regArgs', assignListArgs, _) := resolveList phregToAlpha app.regArgs assignListArgs phregs
  let (res', assignListRes, _) := resolveList phregToAlpha app.res [] resPhreg
  ({ clos := clos', args := args', regVec := regVec', regArgs := regArgs', res := res' },
    assignListArgs, assignListRes)

end Actuals

def appendToListOpt {α : Type} : Option α → List α → List α
  | none, l => l
  | some e, l => e :: l

def calcOffset {α : Type} : List α → Nat → List (α × Nat) → Nat × List (α × Nat)
  | [], offset, l => (offset, l.reverse)
  | a :: aa, offset, l => calcOffset aa (offset + 1) ((a, offset) :: l)

/-- `resolve_act_cc`: the actuals and the results passed on the stack, with
their offsets, and the offset of the return label. -/
def resolveActCc {α : Type} (argsPhreg resPhreg : List Lvar) (app : App α) :
    List (α × Nat) × List (α × Nat) × Nat :=
  -- `List.drop` of the source raises Subscript past the end, which is handled as []
  let res' := app.res.drop resPhreg.length
  let argsList := appendToListOpt app.clos (appendToListOpt app.regVec (app.args ++ app.regArgs))
  let args' := argsList.drop argsPhreg.length
  let (oRes, atyRes) := calcOffset res' 0 []
  let returnLabOffset := oRes
  let (_, atyArgs) := calcOffset args' (oRes + 1) []
  (atyArgs, atyRes, returnLabOffset)

/-! ## Resolved conventions -/

def isResolved : CCSty → Bool
  | .noSty _ => false
  | .stack _ _ => true
  | .phreg _ _ => true

/-- The variable and the offset of a parameter that is passed on the stack. -/
def spilledSty : CCSty → Option (Lvar × Int)
  | .noSty _ => none
  | .stack lv offset => some (lv, offset)
  | .phreg _ _ => none

namespace CC

/-- Every parameter and every result has its place. -/
def resolved (cc : CC) : Bool :=
  cc.clos.all isResolved && cc.args.all isResolved && cc.regVec.all isResolved &&
    cc.regArgs.all isResolved && cc.res.all isResolved

/-- The parameters that are passed on the stack. -/
def spilledArgs (cc : CC) : List (Lvar × Int) :=
  cc.clos.toList.filterMap spilledSty ++ cc.args.filterMap spilledSty ++
    cc.regVec.toList.filterMap spilledSty ++ cc.regArgs.filterMap spilledSty

def spilledRes (cc : CC) : List (Lvar × Int) := cc.res.filterMap spilledSty

end CC

theorem getSpilledSty_eq {sty : CCSty} (h : isResolved sty = true) (acc : List (Lvar × Int)) :
    getSpilledSty sty acc = .ok ((spilledSty sty).toList ++ acc) := by
  cases sty with
  | noSty lv => cases h
  | stack lv offset | phreg lv phreg => rfl

variable {sty : Option CCSty} {stys : List CCSty} {cc : CC}

theorem getSpilledStyOpt_eq (h : sty.all isResolved = true)
    (acc : List (Lvar × Int)) :
    getSpilledStyOpt sty acc = .ok (sty.toList.filterMap spilledSty ++ acc) := by
  cases sty with
  | none => rfl
  | some sty =>
    rw [getSpilledStyOpt, getSpilledSty_eq h]
    cases hsty : spilledSty sty <;> simp [hsty]

theorem getSpilledStys_eq (h : stys.all isResolved = true)
    (acc : List (Lvar × Int)) :
    getSpilledStys stys acc = .ok (stys.filterMap spilledSty ++ acc) := by
  induction stys with
  | nil => rfl
  | cons sty stys ih =>
    rw [List.all_cons, and_eq_true] at h
    rw [getSpilledStys, ok_bind (ih h.2), getSpilledSty_eq h.1]
    cases hsty : spilledSty sty <;> simp [hsty]

theorem getSpilledArgsWithOffsets_eq (h : cc.resolved = true) :
    getSpilledArgsWithOffsets cc = .ok cc.spilledArgs := by
  simp only [CC.resolved, and_eq_true] at h
  obtain ⟨⟨⟨⟨hclos, hargs⟩, hregVec⟩, hregArgs⟩, -⟩ := h
  rw [getSpilledArgsWithOffsets, ok_bind (getSpilledStys_eq hregArgs []),
    ok_bind (getSpilledStyOpt_eq hregVec _), ok_bind (getSpilledStys_eq hargs _),
    getSpilledStyOpt_eq hclos, CC.spilledArgs]
  simp

theorem getSpilledResWithOffsets_eq (h : cc.resolved = true) :
    getSpilledResWithOffsets cc = .ok cc.spilledRes := by
  simp only [CC.resolved, and_eq_true] at h
  rw [getSpilledResWithOffsets, getSpilledStys_eq h.2, CC.spilledRes, List.append_nil]

theorem filterOutPhreg_length (h : stys.all isResolved = true) :
    ∃ stys', filterOutPhreg stys = .ok stys' ∧
      stys'.length = (stys.filterMap spilledSty).length := by
  induction stys with
  | nil => exact ⟨[], rfl, rfl⟩
  | cons sty stys ih =>
    rw [List.all_cons, and_eq_true] at h
    obtain ⟨stys', hstys, hlen⟩ := ih h.2
    cases sty with
    | noSty lv => cases h.1
    | stack lv offset =>
      refine ⟨.stack lv offset :: stys', ?_, by simp [spilledSty, hlen]⟩
      rw [filterOutPhreg, ok_bind hstys]
      rfl
    | phreg lv phreg => exact ⟨stys', hstys, hlen⟩

theorem filterOutPhregOpt_length (h : sty.all isResolved = true) :
    ∃ stys', filterOutPhregOpt sty = .ok stys' ∧
      stys'.length = (sty.toList.filterMap spilledSty).length := by
  cases sty with
  | none => exact ⟨[], rfl, rfl⟩
  | some sty => exact filterOutPhreg_length (by simpa using h)

theorem getRcfSize_eq (h : cc.resolved = true) : getRcfSize cc = .ok cc.spilledRes.length := by
  simp only [CC.resolved, and_eq_true] at h
  obtain ⟨stys', hstys, hlen⟩ := filterOutPhreg_length h.2
  rw [getRcfSize, ok_bind hstys, hlen]
  rfl

theorem getCcfSize_eq (h : cc.resolved = true) : getCcfSize cc = .ok cc.spilledArgs.length := by
  simp only [CC.resolved, and_eq_true] at h
  obtain ⟨⟨⟨⟨hclos, hargs⟩, hregVec⟩, hregArgs⟩, -⟩ := h
  obtain ⟨clos, hclos, hclosLen⟩ := filterOutPhregOpt_length hclos
  obtain ⟨args, hargs, hargsLen⟩ := filterOutPhreg_length hargs
  obtain ⟨regVec, hregVec, hregVecLen⟩ := filterOutPhregOpt_length hregVec
  obtain ⟨regArgs, hregArgs, hregArgsLen⟩ := filterOutPhreg_length hregArgs
  rw [getCcfSize, ok_bind hclos, ok_bind hargs, ok_bind hregVec,
    ok_bind hregArgs, hclosLen, hargsLen, hregVecLen, hregArgsLen]
  simp [CC.spilledArgs, pure, Except.pure, Nat.add_assoc]

theorem getCcSize_eq (h : cc.resolved = true) :
    getCcSize cc = .ok (cc.spilledRes.length + cc.spilledArgs.length + 1) := by
  rw [getCcSize, ok_bind (getRcfSize_eq h), ok_bind (getCcfSize_eq h)]
  rfl

end MLKit.Backend.CallConv
