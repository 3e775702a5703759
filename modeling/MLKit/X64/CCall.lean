import MLKit.X64.CallCode
import Mathlib.Data.List.Induction

/-!
# The arguments of C calls

The first arguments of a C call are moved to registers (`shuffle_args`), the
others are pushed after that (`push_args`).
-/

namespace MLKit.X64

open MLKit.Lib MLKit.Backend MLKit.Backend.SubstAndSimplify List

/-- The source collects the registers in `acc`, and then returns none of them. -/
def regsAtys : List Aty → List Reg → List Reg
  | [], _ => []
  | .phreg r :: atys, acc => regsAtys atys (r :: acc)
  | _ :: atys, acc => regsAtys atys acc

/-- Move the arguments to their registers, in front of the code `C`. -/
def shuffleArgs {α : Type} (sizeFf : Int)
    (mvAtyToReg : Aty → α → Reg → Int → List Inst → Except String (List Inst))
    (args : List (Aty × α × Reg)) (C : List Inst) : Except String (List Inst) := do
  let regs := regsAtys (args.map (·.1)) []
  let (C, args) ← loop regs args (C, [])
  match args with
  | [] => .ok C
  | _ :: _ => die "shuffle_args: not quite done"
where
  loop (regs : List Reg) : List (Aty × α × Reg) → List Inst × List (Aty × α × Reg) →
      Except String (List Inst × List (Aty × α × Reg))
    | [], acc => .ok acc
    | (aty, info, r) :: args, (C, rem) =>
      if r ∉ regs then do
        let (C, rem) ← loop regs args (C, rem)
        return (← mvAtyToReg aty info r sizeFf C, rem)
      else loop regs args (C, (aty, info, r) :: rem)

/-- Push the arguments, the last one first. -/
def pushArgs (pushArg : Aty → Int → List Inst → Except String (List Inst)) (sizeFf : Int)
    (args : List Aty) (C : List Inst) : Except String (List Inst) :=
  loop args.reverse sizeFf
where
  loop : List Aty → Int → Except String (List Inst)
    | [], _ => .ok C
    | arg :: rest, sizeFf => do pushArg arg sizeFf (← loop rest (sizeFf + 1))

section Prim

variable {α : Type} (flags : Flags) (labAddr : Lab → Int) (sizeFf : Int)

/-! The moves and the pushes of `compile_c_call_prim`; its scratch register is
`tmp_reg1` in the calls with more arguments than registers. -/

def mv (aty : Aty) (_ : α) (r : Reg) (sizeFf : Int) (C : List Inst) : Except String (List Inst) :=
  moveAtyIntoReg flags aty r sizeFf C

def pushArg (aty : Aty) (sizeFf : Int) (C : List Inst) : Except String (List Inst) :=
  pushAty flags aty RI.tmpReg1 sizeFf C

/-- The moves are a parallel assignment: they die, or each register receives
the value its source had before them, and each argument on the stack is pushed
with the value that it had before them. -/
def ParallelAssignment (args : List (Aty × α × Reg)) (stack : List Aty) : Prop :=
  (∀ C, ∃ msg, shuffleArgs sizeFf (mv flags) args C = .error msg) ∨
    ∃ pre post, (∀ C, shuffleArgs sizeFf (mv flags) args C = .ok (pre ++ C)) ∧
      (∀ C, pushArgs (pushArg flags) sizeFf stack C = .ok (post ++ C)) ∧
      ∀ s : State,
        (∀ a ∈ args, ∀ w, atyValue flags labAddr s sizeFf a.1 = some w →
          (exec labAddr s pre).regs a.2.2 = w) ∧
        ∀ (j : Nat) (aty : Aty) (w : Int), stack.reverse[j]? = some aty →
          atyValue flags labAddr s sizeFf aty = some w →
          (exec labAddr s (pre ++ post)).mem (s.regs .rsp - 8 * (j + 1)) = w

/-- Whether moving the operand changes the register. -/
def writes (r : Reg) : Aty → Bool
  | .droppedRvar => false
  | .unit => flags.tagValues
  | .phreg reg => reg != r
  | _ => true

/-- An operand that is read after the move has the value it had before. -/
def Intact (a : Aty × α × Reg) (aty : Aty) : Prop :=
  writes flags a.2.2 a.1 = true → aty ≠ .phreg a.2.2

/-! ## The code -/

theorem regsAtys_eq (atys : List Aty) (acc : List Reg) : regsAtys atys acc = [] := by
  fun_induction regsAtys atys acc <;> simp_all

variable {args rem : List (Aty × α × Reg)} {C : List Inst} {aty : Aty} {dst : Reg}
  {mvAtyToReg : Aty → α → Reg → Int → List Inst → Except String (List Inst)}

theorem shuffleArgs_loop :
    shuffleArgs.loop sizeFf mvAtyToReg [] args (C, rem) =
      (·, rem) <$> args.foldr (fun a C => C >>= mvAtyToReg a.1 a.2.1 a.2.2 sizeFf) (.ok C) := by
  induction args with
  | nil => rfl
  | cons a args ih =>
    rw [shuffleArgs.loop, if_pos (by simp), ih, foldr_cons]
    cases args.foldr (fun a C => C >>= mvAtyToReg a.1 a.2.1 a.2.2 sizeFf) (.ok C) <;> rfl

/-- No destination is taken for a source, so every move is emitted, in the
order of the arguments. -/
theorem shuffleArgs_eq (C : List Inst) :
    shuffleArgs sizeFf mvAtyToReg args C =
      args.foldr (fun a C => C >>= mvAtyToReg a.1 a.2.1 a.2.2 sizeFf) (.ok C) := by
  rw [shuffleArgs, regsAtys_eq, shuffleArgs_loop]
  cases args.foldr (fun a C => C >>= mvAtyToReg a.1 a.2.1 a.2.2 sizeFf) (.ok C) <;> rfl

theorem pushArgs_eq (stack : List Aty) (C : List Inst) :
    pushArgs (pushArg flags) sizeFf stack C = flushArgs flags sizeFf stack.reverse.zipIdx C := by
  have hloop (k : Nat) (atys : List Aty) : pushArgs.loop (pushArg flags) C atys (sizeFf + k) =
      flushArgs flags sizeFf (atys.zipIdx k) C := by
    induction atys generalizing k with
    | nil => rfl
    | cons aty atys ih =>
      rw [pushArgs.loop, Int.add_assoc, zipIdx_cons, flushArgs]
      exact congrArg (· >>= _) (ih (k + 1))
  rw [pushArgs, ← hloop 0 stack.reverse, Nat.cast_zero, Int.add_zero]

theorem pushArgs_assembles {flags : Flags} {sizeFf : Int} {stack : List Aty} {C code : List Inst}
    (h : pushArgs (pushArg flags) sizeFf stack C = .ok code) :
    Assembles code ↔
      (∀ arg ∈ stack.reverse.zipIdx, Pushable flags (sizeFf + arg.2) arg.1) ∧ Assembles C :=
  flushArgs_assembles (pushArgs_eq flags sizeFf stack C ▸ h)

theorem moveAtyIntoReg_dies (haty : ¬IsOperand aty) (hdst : isXmm dst = false) (C : List Inst) :
    ∃ msg, moveAtyIntoReg flags aty dst sizeFf C = .error msg := by
  cases aty with
  | phreg reg =>
    have hreg : isXmm reg = true := by simpa [IsOperand] using haty
    have hne : reg ≠ dst := by
      rintro rfl
      simp [hreg] at hdst
    rw [moveAtyIntoReg, copy, if_neg hne, hreg, hdst]
    exact ⟨_, rfl⟩
  | integer value precision | word value precision =>
    have hnum : maybeTagIntOrWord value precision = die "maybeTagIntOrWord" := by
      simp_all [IsOperand, maybeTagIntOrWord]
    rw [moveAtyIntoReg, hnum]
    exact ⟨_, rfl⟩
  | flowVar lv ifTrue ifFalse => exact ⟨_, rfl⟩
  | _ => exact absurd trivial haty

/-! ## The effect of the moves -/

def moved (s : State) (a : Aty × α × Reg) : State :=
  if writes flags a.2.2 a.1 then
    s.setReg a.2.2 ((atyValue flags labAddr s sizeFf a.1).getD 0)
  else s

variable {flags labAddr sizeFf} {a : Aty × α × Reg} {r reg : Reg} {s : State} {w : Int}

theorem atyValue_of_writes (haty : IsOperand aty) (h : writes flags r aty = true) (s : State) :
    ∃ w, atyValue flags labAddr s sizeFf aty = some w := by
  cases aty with
  | integer value precision | word value precision =>
    obtain ⟨num, hnum⟩ := @maybeTag_ok value _ haty
    simp [atyValue, valueAt, valueAt.numValue, hnum]
  | unit => exact ⟨BI.mlUnit, if_pos h⟩
  | flowVar lv ifTrue ifFalse => exact absurd haty id
  | droppedRvar => cases h
  | _ => exact ⟨_, rfl⟩

theorem moveAtyIntoReg_moved (haty : IsOperand a.1) (hdst : isXmm a.2.2 = false) :
    ∃ pre, Emits (moveAtyIntoReg flags a.1 a.2.2 sizeFf) pre ∧
      ∀ s, exec labAddr s pre = moved flags labAddr sizeFf s a := by
  obtain ⟨pre, hpre, hloads⟩ := moveAtyIntoReg_loads flags labAddr haty hdst
  refine ⟨pre, hpre, fun s => ?_⟩
  unfold moved
  split
  next hwrites =>
    obtain ⟨w, hw⟩ := atyValue_of_writes haty hwrites s
    obtain ⟨v, hexec, hv⟩ := hloads s
    rw [hexec, hv w hw, hw]
    rfl
  next hwrites =>
    have hnil : moveAtyIntoReg flags a.1 a.2.2 sizeFf [] = .ok [] := by
      revert hwrites
      cases a.1 <;> simp_all [writes, moveAtyIntoReg, copy, moveUnit]
    have hempty : pre = [] := by simpa [hnil] using hpre.eq []
    rw [hempty, exec_nil]

theorem moved_value (h : atyValue flags labAddr s sizeFf a.1 = some w) :
    (moved flags labAddr sizeFf s a).regs a.2.2 = w := by
  unfold moved
  split
  next => simp [h]
  next hwrites =>
    revert h hwrites
    cases a.1 <;> simp_all [writes, atyValue, valueAt]
    rintro hvalue rfl
    exact hvalue

theorem foldl_moved_regs (s : State)
    (h : ∀ a ∈ args, writes flags a.2.2 a.1 = true → reg ≠ a.2.2) :
    (args.foldl (moved flags labAddr sizeFf) s).regs reg = s.regs reg := by
  induction args generalizing s with
  | nil => rfl
  | cons a args ih =>
    rw [foldl_cons, ih _ fun a ha => h a (mem_cons_of_mem _ ha), moved]
    split
    next hwrites => exact State.setReg_regs_ne _ _ (h a mem_cons_self hwrites)
    next => rfl

theorem foldl_moved_mem (s : State) :
    (args.foldl (moved flags labAddr sizeFf) s).mem = s.mem := by
  induction args generalizing s with
  | nil => rfl
  | cons a args ih =>
    rw [foldl_cons, ih, moved]
    split <;> rfl

theorem atyValue_moved (hrsp : ∀ a ∈ args, a.2.2 ≠ .rsp) (h : ∀ a ∈ args, Intact flags a aty)
    (s : State) :
    atyValue flags labAddr (args.foldl (moved flags labAddr sizeFf) s) sizeFf aty =
      atyValue flags labAddr s sizeFf aty :=
  atyValue_congr flags labAddr (foldl_moved_regs s fun a ha _ => (hrsp a ha).symm)
    (foldl_moved_mem s) fun _ hreg => foldl_moved_regs s fun a ha hwrites heq =>
      h a ha hwrites (heq ▸ hreg)

variable (flags labAddr sizeFf) in
/-- The moves as a whole are a parallel assignment of the registers. -/
def Assigned (args : List (Aty × α × Reg)) : Prop :=
  ∀ s, ∀ a ∈ args, ∀ w, atyValue flags labAddr s sizeFf a.1 = some w →
    (args.foldl (moved flags labAddr sizeFf) s).regs a.2.2 = w

/-- A register that is assigned in parallel and always keeps its value is not
written: otherwise its source differs from it in some state. -/
theorem Assigned.writes_eq_false (h : Assigned flags labAddr sizeFf args) (ha : a ∈ args)
    (haty : IsOperand a.1) (hrsp : a.2.2 ≠ .rsp)
    (hkept : ∀ s, (args.foldl (moved flags labAddr sizeFf) s).regs a.2.2 = s.regs a.2.2) :
    writes flags a.2.2 a.1 = false := by
  by_contra hwrites
  have hwrites : writes flags a.2.2 a.1 = true := by simpa using hwrites
  obtain ⟨w, hw⟩ := @atyValue_of_writes flags labAddr sizeFf _ _ haty hwrites
    ⟨fun _ => 0, fun _ => 0⟩
  have hregs := h (State.setReg ⟨fun _ => 0, fun _ => 0⟩ a.2.2 (w + 1)) a ha w (by
    rw [← hw]
    refine atyValue_congr flags labAddr (State.setReg_regs_ne _ _ hrsp.symm) rfl fun _ hreg =>
      State.setReg_regs_ne _ _ ?_
    rintro rfl
    simp [writes, hreg] at hwrites)
  rw [hkept, State.setReg_regs_self] at hregs
  omega

theorem assigned_iff (hargs : ∀ a ∈ args, IsOperand a.1 ∧ a.2.2 ≠ .rsp)
    (hnodup : (args.map (·.2.2)).Nodup) :
    Assigned flags labAddr sizeFf args ↔ args.Pairwise fun a b => Intact flags a b.1 := by
  -- from the last move on: it reads what the moves before it have left
  induction args using List.reverseRecOn with
  | nil => simp [Assigned]
  | append_singleton args b ih =>
    rw [map_append, nodup_append] at hnodup
    have hne : ∀ a ∈ args, a.2.2 ≠ b.2.2 := fun a ha =>
      hnodup.2.2 _ (mem_map_of_mem ha) _ (by simp)
    have hargs' : ∀ a ∈ args, IsOperand a.1 ∧ a.2.2 ≠ .rsp := fun a ha =>
      hargs a (mem_append_left _ ha)
    have hfirst (s : State) : ∀ a ∈ args,
        ((args ++ [b]).foldl (moved flags labAddr sizeFf) s).regs a.2.2 =
          (args.foldl (moved flags labAddr sizeFf) s).regs a.2.2 := fun a ha => by
      rw [foldl_append]
      exact @foldl_moved_regs _ _ _ _ [b] _ _ (by simpa using fun _ => hne a ha)
    simp only [pairwise_append, mem_singleton, forall_eq, pairwise_singleton, true_and,
      ← ih hargs' hnodup.1]
    constructor
    · intro h
      have hassigned : Assigned flags labAddr sizeFf args := fun s a ha w hw => by
        rw [← hfirst s a ha]
        exact h s a (mem_append_left _ ha) w hw
      refine ⟨hassigned, fun a ha hwrites hb => ?_⟩
      rw [hassigned.writes_eq_false ha (hargs' a ha).1 (hargs' a ha).2 fun s => ?_] at hwrites
      · cases hwrites
      · have hvalue := h s b (by simp) (s.regs a.2.2) (by rw [hb]; rfl)
        rw [foldl_append, foldl_cons, foldl_nil, moved_value (by rw [hb]; rfl)] at hvalue
        exact hvalue
    · rintro ⟨hassigned, hintact⟩ s a ha w hw
      rcases mem_append.1 ha with ha | ha
      · rw [hfirst s a ha]
        exact hassigned s a ha w hw
      · obtain rfl : a = b := by simpa using ha
        rw [foldl_append, foldl_cons, foldl_nil]
        exact moved_value (by rw [atyValue_moved (fun a ha => (hargs' a ha).2) hintact, hw])

variable (flags labAddr sizeFf) in
theorem shuffleArgs_moved (hargs : ∀ a ∈ args, IsOperand a.1)
    (hdst : ∀ a ∈ args, isXmm a.2.2 = false) :
    ∃ pre, Emits (shuffleArgs sizeFf (mv flags) args) pre ∧
      ∀ s, exec labAddr s pre = args.foldl (moved flags labAddr sizeFf) s := by
  simp only [show shuffleArgs sizeFf (mv flags) args = _ from funext (shuffleArgs_eq sizeFf)]
  induction args with
  | nil => exact ⟨[], emits_nil, fun s => rfl⟩
  | cons a args ih =>
    simp only [forall_mem_cons] at hargs hdst
    obtain ⟨pre, hpre, hexec⟩ := ih hargs.2 hdst.2
    obtain ⟨pre', hpre', hexec'⟩ := moveAtyIntoReg_moved hargs.1 hdst.1
    refine ⟨pre' ++ pre, hpre'.comp hpre, fun s => ?_⟩
    rw [exec_append, hexec', hexec, foldl_cons]

theorem shuffleArgs_dies (hdst : ∀ a ∈ args, isXmm a.2.2 = false)
    (h : ∃ a ∈ args, ¬IsOperand a.1) (C : List Inst) :
    ∃ msg, shuffleArgs sizeFf (mv flags) args C = .error msg := by
  rw [shuffleArgs_eq]
  induction args with
  | nil => simp at h
  | cons a args ih =>
    simp only [forall_mem_cons] at hdst
    rw [foldr_cons]
    cases hrest : args.foldr (fun a C => C >>= mv flags a.1 a.2.1 a.2.2 sizeFf) (.ok C) with
    | error msg => exact ⟨msg, rfl⟩
    | ok C' =>
      have ha : ¬IsOperand a.1 := fun ha => by
        obtain ⟨msg, hmsg⟩ := ih hdst.2 (by simpa [ha] using h)
        rw [hrest] at hmsg
        cases hmsg
      exact moveAtyIntoReg_dies flags sizeFf ha hdst.1 C'

/-- The arguments of a C call are passed as in a parallel assignment exactly
when no operand is the register of an earlier move that changes it. -/
theorem shuffleArgs_parallel_iff (flags : Flags) (labAddr : Lab → Int) (sizeFf : Int)
    (args : List (Aty × α × Reg)) (stack : List Aty)
    (hdst : ∀ a ∈ args, isXmm a.2.2 = false ∧ a.2.2 ≠ .rsp)
    (hnodup : (args.map (·.2.2)).Nodup) (hstack : ∀ aty ∈ stack, IsActual sizeFf aty) :
    ParallelAssignment flags labAddr sizeFf args stack ↔
      (∃ a ∈ args, ¬IsOperand a.1) ∨
        (args.Pairwise fun a b => Intact flags a b.1) ∧
          ∀ aty ∈ stack, ∀ a ∈ args, Intact flags a aty := by
  by_cases hop : ∃ a ∈ args, ¬IsOperand a.1
  · exact iff_of_true (.inl (shuffleArgs_dies (fun a ha => (hdst a ha).1) hop)) (.inl hop)
  have hargs : ∀ a ∈ args, IsOperand a.1 := by simpa using hop
  have hrsp : ∀ a ∈ args, a.2.2 ≠ .rsp := fun a ha => (hdst a ha).2
  obtain ⟨pre, hpre, hexec⟩ := shuffleArgs_moved flags labAddr sizeFf hargs fun a ha =>
    (hdst a ha).1
  have hactual : ∀ aty ∈ stack.reverse, IsActual (sizeFf + (0 : Nat)) aty := by simpa using hstack
  obtain ⟨post, hpost, hpushes⟩ := flushArgs_pushesAll flags labAddr 0 hactual
  -- the words that are pushed are the operands after the moves
  have hpushed (s : State) (j : Nat) (aty : Aty) (w : Int) (hj : stack.reverse[j]? = some aty)
      (hw : atyValue flags labAddr (args.foldl (moved flags labAddr sizeFf) s) sizeFf aty = some w) :
      (exec labAddr s (pre ++ post)).mem (s.regs .rsp - 8 * (j + 1)) = w := by
    have hbase : (exec labAddr s pre).regs .rsp = s.regs .rsp := by
      rw [hexec, foldl_moved_regs s fun a ha _ => (hrsp a ha).symm]
    rw [← hexec] at hw
    have hmem := (hpushes _ (exec labAddr s pre) (by simp)).pushed j aty w hj hw
    rwa [hbase, ← exec_append] at hmem
  rw [or_iff_right hop, ← assigned_iff (fun a ha => ⟨hargs a ha, hrsp a ha⟩) hnodup]
  constructor
  · rintro (hdies | ⟨pre', post', hpre', hpost', h⟩)
    · obtain ⟨msg, hmsg⟩ := hdies []
      rw [hpre.eq] at hmsg
      cases hmsg
    obtain rfl : pre = pre' := by simpa using (hpre.eq []).symm.trans (hpre' [])
    obtain rfl : post = post' := by
      have hsame := hpost' []
      rw [pushArgs_eq, hpost.eq] at hsame
      simpa using hsame
    have hassigned : Assigned flags labAddr sizeFf args := fun s a ha w hw => by
      rw [← hexec]
      exact (h s).1 a ha w hw
    refine ⟨hassigned, fun aty haty a ha hwrites heq => ?_⟩
    obtain ⟨j, hj⟩ := mem_iff_getElem?.1 (mem_reverse.2 haty)
    rw [hassigned.writes_eq_false ha (hargs a ha) (hrsp a ha) fun s => ?_] at hwrites
    · cases hwrites
    · exact (hpushed s j aty _ hj (by rw [heq]; rfl)).symm.trans
        ((h s).2 j aty _ hj (by rw [heq]; rfl))
  · rintro ⟨hassigned, hintact⟩
    refine .inr ⟨pre, post, hpre.eq, fun C => by rw [pushArgs_eq, hpost.eq], fun s =>
      ⟨fun a ha w hw => ?_, fun j aty w hj hw => hpushed s j aty w hj ?_⟩⟩
    · rw [hexec]
      exact hassigned s a ha w hw
    · rw [atyValue_moved hrsp (hintact aty (mem_reverse.1 (mem_of_getElem? hj))), hw]

/-- A constant and a stack slot are passed in registers, and a register that is
no destination is pushed. -/
theorem shuffleArgs_parallel_three :
    ParallelAssignment ⟨true, true, false, false⟩ (fun _ => 0) 1
      [(.integer 7 63, (), .rdi), (.stack 0, (), .rsi)] [.phreg .rbx] :=
  (shuffleArgs_parallel_iff _ _ _ _ _ (by decide) (by decide)
    (by simp [IsActual, IsOperand, RI.tmpReg1, isXmm])).2 (.inr ⟨by simp [Intact], by simp [Intact]⟩)

/-- Two registers cannot be exchanged: the second move reads the first one's
result. -/
theorem exchange_not_parallel :
    ¬ParallelAssignment ⟨true, true, false, false⟩ (fun _ => 0) 0
      [(.phreg .rsi, (), .rdi), (.phreg .rdi, (), .rsi)] [] := by
  have hcode : shuffleArgs 0 (mv ⟨true, true, false, false⟩)
      [(.phreg .rsi, (), .rdi), (.phreg .rdi, (), .rsi)] [] =
        .ok [.movq (.R .rsi) (.R .rdi), .movq (.R .rdi) (.R .rsi)] := rfl
  rintro (hdies | ⟨pre, post, hpre, hpost, h⟩)
  · obtain ⟨msg, hmsg⟩ := hdies []
    rw [hcode] at hmsg
    cases hmsg
  · obtain rfl : pre = [.movq (.R .rsi) (.R .rdi), .movq (.R .rdi) (.R .rsi)] := by
      simpa [hcode] using (hpre []).symm
    have hregs := (h ⟨fun reg => if reg = .rdi then 1 else 0, fun _ => 0⟩).1
      (.phreg .rdi, (), .rsi) (by simp) 1 rfl
    exact absurd hregs (by decide)

end Prim

end MLKit.X64
