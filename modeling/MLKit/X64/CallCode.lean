import MLKit.X64.CodeGenUtil
import MLKit.Backend.CallConvPlaces
import Mathlib.Tactic.Ring

/-!
# The code of calls

What `CodeGenX64` emits for `FNCALL`, `FUNCALL`, `FNJMP` and `JMP`, and at the
end of a function.  The local return label is a parameter.
-/

namespace MLKit.X64

open MLKit.Lib MLKit.Backend MLKit.Backend.CallConv MLKit.Backend.SubstAndSimplify List

/-- The bit vector of a call site stands in front of the return label. -/
def genBv (flags : Flags) (ws : List Word32) (C : List Inst) : List Inst :=
  if flags.garbageCollection then gen ws C else C
where
  gen : List Word32 → List Inst → List Inst
    | [], C => C
    | w :: ws, C => gen ws (.dotQuad w :: C)

/-- Drop instructions that cannot be reached. -/
def remDeadCode : List Inst → List Inst
  | [] => []
  | .lab lab :: C => .lab lab :: C
  | .dotQuad word :: C => .dotQuad word :: C
  | _ :: C => remDeadCode C

/-- Push the actuals that are passed on the stack. -/
def flushArgs (flags : Flags) (sizeFf : Int) : List (Aty × Nat) → List Inst →
    Except String (List Inst)
  | [], C => .ok C
  | (aty, offset) :: spilled, C => do
    let C ← flushArgs flags sizeFf spilled C
    pushAty flags aty RI.tmpReg1 (sizeFf + offset) C

/-- The code of the actuals has an encoding exactly when each of them can be pushed. -/
theorem flushArgs_assembles {flags : Flags} {sizeFf : Int} {spilled : List (Aty × Nat)}
    {C code : List Inst} (h : flushArgs flags sizeFf spilled C = .ok code) :
    Assembles code ↔
      (∀ arg ∈ spilled, Pushable flags (sizeFf + arg.2) arg.1) ∧ Assembles C := by
  induction spilled generalizing code with
  | nil =>
    cases h
    simp
  | cons arg spilled ih =>
    obtain ⟨rest, hrest, h⟩ := bind_ok h
    rw [pushAty_assembles h, ih hrest, forall_mem_cons, and_assoc]

/-- Pop the given results, the first one first. -/
def fetchRes (sizeFf : Int) : List (Aty × Nat) → List Inst → Except String (List Inst)
  | [], C => .ok C
  | (aty, offset) :: spilled, C => do
    let C ← fetchRes sizeFf spilled C
    popAty aty RI.tmpReg1 (sizeFf + offset) C

def offsetCodeptr (flags : Flags) : Int := if flags.tagValues then 8 else 0

def fnApp (app : FnApp Aty) : App Aty :=
  { clos := app.clos, args := app.args, regVec := none, regArgs := [], res := app.res }

def funApp (app : FunApp Aty) : App Aty :=
  { clos := app.clos, args := app.args, regVec := app.regVec, regArgs := app.regArgs,
    res := app.res }

/-- The jump of a call through a closure; `opr` points at the closure. -/
def jmpClosure (flags : Flags) (opr : Aty) (sizeFf : Int) (C : List Inst) :
    Except String (List Inst) :=
  match opr with
  | .phreg oprReg =>
    .ok (.movq (.D (offsetCodeptr flags) oprReg) (.R RI.tmpReg1) :: .jmp (.R RI.tmpReg1) :: C)
  | opr =>
    moveAtyIntoReg flags opr RI.tmpReg1 sizeFf
      (.movq (.D (offsetCodeptr flags) RI.tmpReg1) (.R RI.tmpReg1) :: .jmp (.R RI.tmpReg1) :: C)

def cgFncall (flags : Flags) (sizeFf : Int) (returnLab : Lab) (app : FnApp Aty) (C : List Inst) :
    Except String (List Inst) := do
  let (spilledArgs, spilledRes, _) := resolveActCc RI.argsPhreg RI.resPhreg (fnApp app)
  let sizeRcf := spilledRes.length
  let sizeCcf := spilledArgs.length
  let sizeCc := sizeRcf + sizeCcf + 1
  let C ← fetchRes sizeFf spilledRes.reverse C
  let C ← jmpClosure flags app.opr (sizeFf + sizeCc) (genBv flags app.bv (.lab returnLab :: C))
  let C ← flushArgs flags sizeFf spilledArgs C
  return basePlusOffset .rsp (.words (-sizeRcf)) .rsp (.push (.LA returnLab) :: C)

def cgFuncall (flags : Flags) (sizeFf : Int) (returnLab : Lab) (app : FunApp Aty) (C : List Inst) :
    Except String (List Inst) := do
  let (spilledArgs, spilledRes, _) := resolveActCc RI.argsPhreg RI.resPhreg (funApp app)
  let sizeRcf := spilledRes.length
  let C ← fetchRes sizeFf spilledRes.reverse C
  let C := .jmp (.L (.mlFunLab app.opr)) :: genBv flags app.bv (.lab returnLab :: C)
  let C ← flushArgs flags sizeFf spilledArgs C
  return basePlusOffset .rsp (.words (-sizeRcf)) .rsp (.push (.LA returnLab) :: C)

/-- A closure is only jumped to when no actual is passed on the stack. -/
def cgFnjmp (flags : Flags) (sizeFf sizeCcf : Int) (returnLab : Lab) (app : FnApp Aty)
    (C : List Inst) : Except String (List Inst) :=
  let (spilledArgs, _, _) := resolveActCc RI.argsPhreg RI.resPhreg (fnApp app)
  if 0 < spilledArgs.length then cgFncall flags sizeFf returnLab app C
  else
    let jump := basePlusOffset .rsp (.words (sizeFf + sizeCcf)) .rsp
      (.jmp (.R RI.tmpReg1) :: remDeadCode C)
    match app.opr with
    | .phreg oprReg => .ok (.movq (.D (offsetCodeptr flags) oprReg) (.R RI.tmpReg1) :: jump)
    | opr =>
      moveAtyIntoReg flags opr RI.tmpReg1 sizeFf
        (.movq (.D (offsetCodeptr flags) RI.tmpReg1) (.R RI.tmpReg1) :: jump)

/-- Copy `n` words from the top of the stack over the frame that is given up,
the last one first. -/
def copyDown (sizeFf sizeCcf : Int) : Nat → List Inst → Except String (List Inst)
  | 0, C => .ok C
  | n + 1, C => do
    let C ← copyDown sizeFf sizeCcf n C
    loadIndexed (.R RI.tmpReg1) .rsp (.words n)
      (storeIndexed .rsp (.words (sizeFf + sizeCcf + (n + 1) - 1)) (.R RI.tmpReg1) C)

def cgJmp (flags : Flags) (sizeFf sizeCcf : Int) (app : FunApp Aty) (C : List Inst) :
    Except String (List Inst) := do
  let (spilledArgs, spilledRes, _) := resolveActCc RI.argsPhreg RI.resPhreg (funApp app)
  let sizeRcf : Int := spilledRes.length
  let sizeCcfNew := spilledArgs.length
  let C := .jmp (.L (.mlFunLab app.opr)) :: remDeadCode C
  let C := basePlusOffset .rsp (.words (sizeFf + sizeCcf)) .rsp C
  let C ← copyDown sizeFf sizeCcf sizeCcfNew C
  -- the return label and the words of the results are not pushed again
  flushArgs flags (sizeFf - 1 - sizeRcf) spilledArgs C

/-- The end of a function (`CG_top_decl`). -/
def exitCode (sizeFf sizeCcf : Int) : List Inst :=
  basePlusOffset .rsp (.words (sizeFf + sizeCcf)) .rsp [.pop (.R RI.tmpReg1), .jmp (.R RI.tmpReg1)]

/-! ## Pushing actuals -/

/-- Operands of calls: those of general registers other than the stack pointer
and the scratch register, and words of the frame. -/
def IsActual (sizeFf : Int) (aty : Aty) : Prop :=
  IsOperand aty ∧
    match aty with
    | .phreg reg => reg ≠ .rsp ∧ reg ≠ RI.tmpReg1
    | .stack offset => offset < sizeFf
    | _ => True

variable {sizeFf sizeFf' : Int} {aty : Aty} {s s' : State} {atys : List Aty} {returnLab : Lab}
  {fetch : List Inst}

theorem IsActual.mono (h : IsActual sizeFf aty) (hle : sizeFf ≤ sizeFf') :
    IsActual sizeFf' aty := by
  refine ⟨h.1, ?_⟩
  cases aty with
  | phreg reg => exact h.2
  | stack offset => exact lt_of_lt_of_le h.2 hle
  | _ => trivial

section Pushing

variable (flags : Flags) (labAddr : Lab → Int)

/-- Two states in which the operands of a frame at `base` have the same values;
`k` words may be pushed below the frame. -/
theorem valueAt_congr (base : Int) (k : Nat) (haty : IsActual (sizeFf + k) aty)
    (hregs : ∀ reg, reg ≠ .rsp → reg ≠ RI.tmpReg1 → s'.regs reg = s.regs reg)
    (hmem : ∀ address, base - 8 * k ≤ address → s'.mem address = s.mem address) :
    valueAt flags labAddr base sizeFf s' aty = valueAt flags labAddr base sizeFf s aty := by
  cases aty with
  | phreg reg => simp only [valueAt, hregs reg haty.2.1 haty.2.2]
  | stack offset =>
    have hoffset : offset < sizeFf + k := haty.2
    simp only [valueAt]
    rw [hmem _ (by omega)]
  | _ => rfl

/-- The actuals are pushed one below the other; all operands of the frame at
`base` keep their values. -/
structure PushesAll (base sizeFf : Int) (pre : List Inst) (atys : List Aty) (s : State) : Prop where
  rsp : (exec labAddr s pre).regs .rsp = s.regs .rsp - 8 * atys.length
  pushed : ∀ (j : Nat) (aty : Aty) (v : Int), atys[j]? = some aty →
    valueAt flags labAddr base sizeFf s aty = some v →
    (exec labAddr s pre).mem (s.regs .rsp - 8 * (j + 1)) = v
  above : ∀ address, s.regs .rsp ≤ address → (exec labAddr s pre).mem address = s.mem address
  regs : ∀ reg, reg ≠ .rsp → reg ≠ RI.tmpReg1 → (exec labAddr s pre).regs reg = s.regs reg

/-- The operands are those of the frame with `k` more words. -/
theorem flushArgs_pushesAll (k : Nat)
    (hact : ∀ aty ∈ atys, IsActual (sizeFf + k) aty) :
    ∃ pre, Emits (flushArgs flags sizeFf (atys.zipIdx k)) pre ∧
      ∀ (base : Int) (s : State), s.regs .rsp = base - 8 * k →
        PushesAll flags labAddr base sizeFf pre atys s := by
  induction atys generalizing k with
  | nil =>
    refine ⟨[], emits_nil, fun base s _ => ⟨by simp, ?_, fun _ _ => rfl, fun _ _ _ => rfl⟩⟩
    intro j aty v hj
    cases hj
  | cons aty atys ih =>
    have haty := hact aty (by simp)
    have hrestAct : ∀ aty ∈ atys, IsActual (sizeFf + k) aty :=
      fun aty hmem => hact aty (by simp [hmem])
    obtain ⟨preRest, hpreRest, hrest⟩ := ih (k + 1) fun aty hmem =>
      (hrestAct aty hmem).mono (by push_cast; omega)
    obtain ⟨preFirst, hpreFirst, hfirst⟩ := pushAty_pushes flags labAddr haty.1
      (show isXmm RI.tmpReg1 = false from rfl) (by decide)
    refine ⟨preFirst ++ preRest, hpreFirst.comp hpreRest, fun base s hbase => ?_⟩
    obtain ⟨v, hpush⟩ := hfirst s
    have hmem : ∀ address, s.regs .rsp ≤ address →
        (exec labAddr s preFirst).mem address = s.mem address := fun address haddress => by
      rw [hpush.mem, Function.update_of_ne (by omega)]
    have hpushes := hrest base (exec labAddr s preFirst)
      (by rw [hpush.rsp, hbase]; push_cast; omega)
    refine ⟨?_, ?_, ?_, ?_⟩
    · rw [exec_append, hpushes.rsp, hpush.rsp, length_cons]
      omega
    · intro j aty' w hj hw
      rw [exec_append]
      cases j with
      | zero =>
        -- the first word stays while the others are pushed below it
        obtain rfl : aty = aty' := Option.some.inj hj
        have hw' : atyValue flags labAddr s (sizeFf + k) aty = some w := by
          rw [atyValue, hbase, valueAt_shift, hw]
        rw [hpushes.above _ (by rw [hpush.rsp]; simp), hpush.mem]
        simpa using hpush.value w hw'
      | succ j =>
        have haty' : IsActual (sizeFf + k) aty' :=
          hrestAct aty' (mem_of_getElem? (by simpa using hj))
        have hsame := valueAt_congr flags labAddr base k haty' hpush.regs
          fun address haddress => hmem address (by omega)
        have hpushed := hpushes.pushed j aty' w hj (by rw [hsame, hw])
        rw [hpush.rsp] at hpushed
        rw [← hpushed]
        congr 1
        omega
    · intro address haddress
      rw [exec_append, hpushes.above address (by rw [hpush.rsp]; omega), hmem address haddress]
    · intro reg hrsp htmp
      rw [exec_append, hpushes.regs reg hrsp htmp, hpush.regs reg hrsp htmp]

end Pushing

/-! ## The state at a call -/

/-- The calls that return. -/
inductive Call where
  | fncall (app : FnApp Aty)
  | funcall (app : FunApp Aty)

namespace Call

def app : Call → App Aty
  | .fncall app => fnApp app
  | .funcall app => funApp app

/-- The operands in call order. -/
def actuals (call : Call) : List Aty :=
  formals call.app.clos call.app.regVec call.app.args call.app.regArgs

/-- The actuals and the results that are passed on the stack. -/
def spilledActuals (call : Call) : List Aty := call.actuals.drop 3
def spilledResults (call : Call) : List Aty := call.app.res.drop 3

/-- The closure a call goes through is an operand. -/
def OprOk : Call → Prop
  | .fncall app => IsOperand app.opr
  | .funcall _ => True

end Call

def cgCall (flags : Flags) (sizeFf : Int) (returnLab : Lab) : Call → List Inst →
    Except String (List Inst)
  | .fncall app, C => cgFncall flags sizeFf returnLab app C
  | .funcall app, C => cgFuncall flags sizeFf returnLab app C

variable {call : Call}

section AtCall

variable (flags : Flags) (labAddr : Lab → Int)

/-- The state `s'` in which the callee is entered from the frame of `s`: the
words for results, the return label and the actuals have been pushed. -/
structure AtCall (sizeFf : Int) (returnLab : Lab) (call : Call) (s s' : State) : Prop where
  rsp : s'.regs .rsp =
    s.regs .rsp - 8 * (call.spilledResults.length + 1) - 8 * call.spilledActuals.length
  ret : s'.mem (s.regs .rsp - 8 * (call.spilledResults.length + 1)) = labAddr returnLab
  args : ∀ (j : Nat) (aty : Aty) (v : Int), call.spilledActuals[j]? = some aty →
    valueAt flags labAddr (s.regs .rsp) sizeFf s aty = some v →
    s'.mem (s.regs .rsp - 8 * (call.spilledResults.length + 1) - 8 * (j + 1)) = v
  regs : ∀ reg, reg ≠ .rsp → reg ≠ RI.tmpReg1 → s'.regs reg = s.regs reg

/-- Loading the code pointer changes the scratch register only. -/
theorem jmpClosure_emits {opr : Aty} (hopr : IsOperand opr) (sizeFf : Int) :
    ∃ pre, (∀ C, jmpClosure flags opr sizeFf C = .ok (pre ++ .jmp (.R RI.tmpReg1) :: C)) ∧
      (∀ inst ∈ pre, isPlain inst = true) ∧
      ∀ s, ∃ v, exec labAddr s pre = s.setReg RI.tmpReg1 v := by
  obtain ⟨pre, hpre, hloads⟩ := moveAtyIntoReg_loads flags labAddr hopr
    (show isXmm RI.tmpReg1 = false from rfl)
  have hplain : isPlain (.movq (.D (offsetCodeptr flags) RI.tmpReg1) (.R RI.tmpReg1)) = true := rfl
  have hthrough := hpre.snoc hplain
  cases opr with
  | phreg reg =>
    exact ⟨[.movq (.D (offsetCodeptr flags) reg) (.R RI.tmpReg1)], fun C => rfl,
      by simp [isPlain], fun s => ⟨_, rfl⟩⟩
  | _ =>
    refine ⟨_, fun C => hthrough.eq _, hthrough.straight, fun s => ?_⟩
    obtain ⟨v, hexec, -⟩ := hloads s
    refine ⟨s.mem (v + offsetCodeptr flags), ?_⟩
    rw [exec_append, hexec]
    simp [execInst, writeEa, readEa, State.setReg]

theorem genBv_codeAt (ws : List Word32) (lab : Lab) (C : List Inst) :
    codeAt lab (genBv flags ws C) = codeAt lab C := by
  have hgen : ∀ (ws : List Word32) (C : List Inst), codeAt lab (genBv.gen ws C) = codeAt lab C := by
    intro ws
    induction ws with
    | nil => exact fun C => rfl
    | cons w ws ih => exact fun C => ih (.dotQuad w :: C)
  unfold genBv
  split
  · exact hgen ws C
  · rfl

/-- Making room for the results, pushing the return label and the actuals. -/
theorem enterCall_atCall (hact : ∀ aty ∈ call.spilledActuals, IsActual sizeFf aty) :
    ∃ pre, Emits (fun C => do
        let C ← flushArgs flags sizeFf
          (call.spilledActuals.zipIdx (call.spilledResults.length + 1)) C
        return basePlusOffset .rsp (.words (-(call.spilledResults.length : Int))) .rsp
          (.push (.LA returnLab) :: C)) pre ∧
      ∀ s, AtCall flags labAddr sizeFf returnLab call s (exec labAddr s pre) := by
  obtain ⟨room, hroom, hroomExec⟩ := basePlusOffset_emits labAddr
  have hact' : ∀ aty ∈ call.spilledActuals,
      IsActual (sizeFf + (call.spilledResults.length + 1 : Nat)) aty :=
    fun aty hmem => (hact aty hmem).mono (by push_cast; omega)
  obtain ⟨args, hargs, hpushes⟩ := flushArgs_pushesAll flags labAddr _ hact'
  have hlab : isPlain (.push (.LA returnLab)) = true := rfl
  refine ⟨_, ((hroom.snoc hlab).comp hargs).congr fun _ => rfl, fun s => ?_⟩
  obtain ⟨low, hlow⟩ : ∃ low, low = s.regs .rsp - 8 * (call.spilledResults.length + 1) := ⟨_, rfl⟩
  -- the state after the return label has been pushed
  have hstart : exec labAddr s (room ++ [.push (.LA returnLab)]) =
      (s.setReg .rsp low).setMem low (labAddr returnLab) := by
    have hrsp : s.regs .rsp + -(8 * (call.spilledResults.length : Int)) - 8 = low := by omega
    rw [exec_append, hroomExec]
    simp [execInst, readEa, State.setReg, offsetBytes, hrsp]
  have hall := hpushes (s.regs .rsp) ((s.setReg .rsp low).setMem low (labAddr returnLab))
    (by simp [hlow])
  rw [exec_append, hstart]
  refine ⟨?_, ?_, fun j aty v hj hv => ?_, fun reg hrsp htmp => ?_⟩
  · simpa [← hlow] using hall.rsp
  · simpa [← hlow] using hall.above low (by simp)
  · have haty := hact aty (mem_of_getElem? hj)
    have hpushed := hall.pushed j aty v hj (by
      rw [← hv]
      refine valueAt_congr flags labAddr (s.regs .rsp) 0 (by simpa using haty) ?_ ?_
      · intro reg hrsp _
        simp [hrsp]
      · intro address haddress
        have hne : address ≠ low := by omega
        simp [hne])
    simpa [← hlow] using hpushed
  · simpa [hrsp] using hall.regs reg hrsp htmp

theorem AtCall.setReg_tmp {flags : Flags} {labAddr : Lab → Int}
    (h : AtCall flags labAddr sizeFf returnLab call s s') (v : Int) :
    AtCall flags labAddr sizeFf returnLab call s (s'.setReg RI.tmpReg1 v) where
  rsp := h.rsp
  ret := h.ret
  args := h.args
  regs reg hrsp htmp := by
    rw [State.setReg_regs_ne _ _ htmp]
    exact h.regs reg hrsp htmp

/-- The code of a call: it enters the callee in a state as described by
`AtCall`, and continues at the return label with popping the results. -/
theorem cgCall_shape {call : Call}
    (hact : ∀ aty ∈ call.spilledActuals, IsActual sizeFf aty) (hopr : call.OprOk)
    (hfetch : Emits (fetchRes sizeFf (call.spilledResults.zipIdx 0).reverse) fetch)
    (C : List Inst) :
    ∃ code, cgCall flags sizeFf returnLab call C = .ok code ∧
      (∀ s, ∃ target s', runToJmp labAddr s code = some (target, s') ∧
        AtCall flags labAddr sizeFf returnLab call s s') ∧
      codeAt returnLab code = fetch ++ C := by
  obtain ⟨pre, hpre, hexec⟩ := enterCall_atCall flags labAddr hact
  have hend : ∀ bv, codeAt returnLab (genBv flags bv (.lab returnLab :: (fetch ++ C))) =
      fetch ++ C := by
    intro bv
    rw [genBv_codeAt, codeAt, if_pos rfl]
  cases call with
  | fncall app =>
    obtain ⟨load, hload, hplain, hloadExec⟩ := jmpClosure_emits flags labAddr hopr
      (sizeFf + (((fnApp app).res.drop 3).length + ((Call.fncall app).actuals.drop 3).length + 1 : Nat))
    refine ⟨pre ++ (load ++ .jmp (.R RI.tmpReg1) ::
      genBv flags app.bv (.lab returnLab :: (fetch ++ C))), ?_, fun s => ?_, ?_⟩
    · simp only [cgCall, cgFncall, resolveActCc_eq, length_zipIdx]
      refine (ok_bind (hfetch.eq C)).trans ((ok_bind (hload _)).trans ?_)
      exact hpre.eq _
    · obtain ⟨v, hv⟩ := hloadExec (exec labAddr s pre)
      refine ⟨.R RI.tmpReg1, (exec labAddr s pre).setReg RI.tmpReg1 v, ?_, (hexec s).setReg_tmp v⟩
      rw [← append_assoc, runToJmp_append, exec_append, hv]
      exact forall_mem_append.2 ⟨hpre.straight, hplain⟩
    · rw [codeAt_append hpre.straight, codeAt_append hplain]
      exact hend app.bv
  | funcall app =>
    refine ⟨pre ++ .jmp (.L (.mlFunLab app.opr)) ::
      genBv flags app.bv (.lab returnLab :: (fetch ++ C)), ?_, fun s => ?_, ?_⟩
    · simp only [cgCall, cgFuncall, resolveActCc_eq, length_zipIdx]
      refine (ok_bind (hfetch.eq C)).trans ?_
      exact hpre.eq _
    · exact ⟨_, _, runToJmp_append labAddr s _ _ hpre.straight, hexec s⟩
    · rw [codeAt_append hpre.straight]
      exact hend app.bv

end AtCall

end MLKit.X64
