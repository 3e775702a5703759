import MLKit.X64.CallCode
import Mathlib.Data.List.Induction
import Mathlib.Tactic.Ring

/-!
# Results of calls

A call with its results: the caller's code up to the jump, the callee up to the
end of its body, the callee's exit code, and the caller's code from the return
label on.  Results in registers stay there; the results on the stack are popped
by the caller in the order opposite to the one the callee numbers them in.
-/

namespace MLKit.X64

open MLKit.Lib MLKit.Backend MLKit.Backend.CallConv MLKit.Backend.SubstAndSimplify List

/-! ## Popping results -/

/-- Where a result can be bound: a general register other than the stack
pointer and the scratch register, or a word of the frame. -/
def IsDest (sizeFf : Int) : Aty → Prop
  | .phreg reg => isXmm reg = false ∧ reg ≠ .rsp ∧ reg ≠ RI.tmpReg1
  | .stack offset => offset < sizeFf
  | _ => False

variable {sizeFf offset sizeCcf calleeFf : Int} {aty : Aty} {atys res : List Aty} {reg : Reg}
  {returnLab : Lab} {s1 s2 s3 : State} {fetch : List Inst}

section Popping

variable (flags : Flags) (labAddr : Lab → Int)

/-- One word is popped into `aty`: the effect on the stack pointer, on the
places of the frame at `base`, and on the words below it. -/
structure Pops (base sizeFf : Int) (pre : List Inst) (aty : Aty) (s : State) :
    Prop where
  rsp : (exec labAddr s pre).regs .rsp = s.regs .rsp + 8
  bound : valueAt flags labAddr base sizeFf (exec labAddr s pre) aty = some (s.mem (s.regs .rsp))
  other : ∀ aty', IsDest sizeFf aty' → aty' ≠ aty →
    valueAt flags labAddr base sizeFf (exec labAddr s pre) aty' = valueAt flags labAddr base sizeFf
      s aty'
  below : ∀ address, address < base → (exec labAddr s pre).mem address = s.mem address

theorem popAty_pops (haty : IsDest sizeFf aty) :
    ∃ pre, Emits (popAty aty RI.tmpReg1 (sizeFf + offset)) pre ∧
      ∀ (base : Int) (s : State), s.regs .rsp + 8 = base - 8 * offset → Pops flags labAddr base
        sizeFf pre aty s := by
  cases aty with
  | phreg reg =>
    obtain ⟨-, hrsp, -⟩ := haty
    refine ⟨[.pop (.R reg)], emits_single rfl, fun base s _ => ⟨?_, ?_, ?_, ?_⟩⟩
    · simp [execInst, writeEa, hrsp.symm]
    · simp [execInst, writeEa, valueAt]
    · intro aty' haty' hne
      cases aty' with
      | phreg reg' =>
        have hreg : reg' ≠ reg := fun h => hne (by rw [h])
        simp [execInst, writeEa, valueAt, hreg, haty'.2.1]
      | stack offset' => simp [execInst, writeEa, valueAt]
      | _ => exact absurd haty' id
    · intro address _
      simp [execInst, writeEa]
  | stack off =>
    have hoff : off < sizeFf := haty
    refine ⟨[.pop (.R RI.tmpReg1), .movq (.R RI.tmpReg1) (.D (8 * (sizeFf + offset - off - 1)) .rsp)],
      ⟨fun C => rfl, by simp [isPlain]⟩, fun base s hbase => ?_⟩
    -- the store hits the word of the frame, wherever the stack pointer is
    have haddr : s.regs .rsp + 8 + 8 * (sizeFf + offset - off - 1) =
        base + 8 * (sizeFf - off - 1) := by omega
    have hne : RI.tmpReg1 ≠ Reg.rsp := by decide
    refine ⟨?_, ?_, ?_, ?_⟩
    · simp [execInst, writeEa, hne.symm]
    · simp [execInst, writeEa, readEa, valueAt, hne.symm, haddr]
    · intro aty' haty' hne'
      cases aty' with
      | phreg reg' => simp [execInst, writeEa, valueAt, haty'.2.1, haty'.2.2]
      | stack off' =>
        have hoff' : off' ≠ off := fun h => hne' (by rw [h])
        have haddr' : base + 8 * (sizeFf - off' - 1) ≠ base + 8 * (sizeFf - off - 1) := by omega
        simp [execInst, writeEa, valueAt, hne.symm, haddr, haddr']
      | _ => exact absurd haty' id
    · intro address haddress
      have haddr' : address ≠ base + 8 * (sizeFf - off - 1) := by omega
      simp [execInst, writeEa, hne.symm, haddr, haddr']
  | _ => exact absurd haty id

/-- Places with the offsets that the code pops them at: the number of words
still to be popped. -/
def popOrder : List Aty → List (Aty × Nat)
  | [] => []
  | aty :: atys => (aty, atys.length) :: popOrder atys

theorem zipIdx_reverse (atys : List Aty) : (atys.zipIdx 0).reverse = popOrder atys.reverse := by
  induction atys using List.reverseRecOn with
  | nil => rfl
  | append_singleton atys aty ih =>
    rw [zipIdx_append, reverse_append, ih, reverse_append]
    simp [popOrder]

/-- Popping a list of places: the `k`th place receives the `k`th word of the
stack. -/
structure PopsAll (base sizeFf : Int) (pre : List Inst) (atys : List Aty) (s : State) : Prop where
  rsp : (exec labAddr s pre).regs .rsp = base
  bound : ∀ (k : Nat) (aty : Aty), atys[k]? = some aty →
    valueAt flags labAddr base sizeFf (exec labAddr s pre) aty = some (s.mem (s.regs .rsp + 8 * k))
  other : ∀ aty', IsDest sizeFf aty' → aty' ∉ atys →
    valueAt flags labAddr base sizeFf (exec labAddr s pre) aty' = valueAt flags labAddr base sizeFf
      s aty'

theorem fetchRes_popsAll (hdest : ∀ aty ∈ atys, IsDest sizeFf aty)
    (hnodup : atys.Nodup) :
    ∃ pre, Emits (fetchRes sizeFf (popOrder atys)) pre ∧
      ∀ (base : Int) (s : State), s.regs .rsp = base - 8 * atys.length →
        PopsAll flags labAddr base sizeFf pre atys s := by
  induction atys with
  | nil =>
    refine ⟨[], emits_nil, fun base s hbase => ⟨?_, ?_, fun _ _ _ => rfl⟩⟩
    · simpa using hbase
    · intro k aty hk
      cases hk
  | cons aty atys ih =>
    obtain ⟨hnotMem, hnodup⟩ := nodup_cons.mp hnodup
    obtain ⟨preRest, hpreRest, hrest⟩ := ih (fun aty hmem => hdest aty (by simp [hmem])) hnodup
    obtain ⟨preFirst, hpreFirst, hfirst⟩ := popAty_pops flags labAddr (hdest aty (by simp))
    refine ⟨preFirst ++ preRest, hpreFirst.comp hpreRest, fun base s hbase => ?_⟩
    rw [length_cons, Nat.cast_add, Nat.cast_one] at hbase
    have hpop := hfirst base s (by omega)
    have hpops := hrest base (exec labAddr s preFirst) (by rw [hpop.rsp]; omega)
    refine ⟨?_, ?_, ?_⟩
    · rw [exec_append]
      exact hpops.rsp
    · intro k aty' hk
      rw [exec_append]
      cases k with
      | zero =>
        obtain rfl : aty = aty' := Option.some.inj hk
        rw [hpops.other aty (hdest aty (by simp)) hnotMem, hpop.bound]
        simp
      | succ k =>
        have hlt : k < atys.length := by
          obtain ⟨hlt, -⟩ := List.getElem?_eq_some_iff.mp hk
          simpa using hlt
        rw [hpops.bound k aty' hk, hpop.rsp, hpop.below _ (by omega)]
        congr 2
        push_cast
        ring
    · intro aty' haty' hmem
      rw [exec_append]
      rw [mem_cons, not_or] at hmem
      rw [hpops.other aty' haty' hmem.2, hpop.other aty' haty' hmem.1]

end Popping

/-! ## A call and its return -/

/-- Value `v` is where the call convention puts a result of the function whose
frame of `sizeFf` words is at the stack pointer. -/
def styHolds (sizeFf : Int) (s : State) : CCSty → Int → Prop
  | .phreg _ (.phreg reg), v => s.regs reg = v
  | .stack _ offset, v => s.mem (s.regs .rsp + 8 * (sizeFf - offset - 1)) = v
  | _, _ => False

/-- A callee that was entered in state `s` has come to the end of its body in
state `s'`: its frame is in place, the return label is still there and its
results are stored where its call convention says. -/
structure Finished (cc : CC) (sizeFf : Int) (values : List Int) (s s' : State) : Prop where
  rsp : s'.regs .rsp = s.regs .rsp - 8 * sizeFf
  ret : s'.mem (s.regs .rsp + 8 * cc.spilledArgs.length) =
    s.mem (s.regs .rsp + 8 * cc.spilledArgs.length)
  length : values.length = cc.res.length
  stored : ∀ (i : Nat) (sty : CCSty) (v : Int), cc.res[i]? = some sty → values[i]? = some v →
    styHolds sizeFf s' sty v

/-- Whatever values the callee returns, it gets back to the caller, and the
code the caller has at the return label leaves the `i`th of them in the `i`th
result operand. -/
def BindsResults (flags : Flags) (labAddr : Lab → Int) (sizeFf : Int) (returnLab : Lab) (call : Call)
    (cc : CC) (calleeFf : Int) : Prop :=
  ∃ code, cgCall flags sizeFf returnLab call [] = .ok code ∧
    ∀ s target s1 values s2, runToJmp labAddr s code = some (target, s1) →
      Finished cc calleeFf values s1 s2 →
      ∃ s3, runToJmp labAddr s2 (exitCode calleeFf cc.spilledArgs.length) =
          some (.R RI.tmpReg1, s3) ∧
        s3.regs RI.tmpReg1 = labAddr returnLab ∧
        ∀ (i : Nat) (aty : Aty) (v : Int), call.app.res[i]? = some aty → values[i]? = some v →
          atyValue flags labAddr (exec labAddr s3 (codeAt returnLab code)) sizeFf aty = some v

variable {s : State} {labAddr : Lab → Int} {cc : CC} {values : List Int} {base : Int} {i : Nat}

/-- The exit code gives up the frame and goes to the return label. -/
theorem exitCode_run :
    runToJmp labAddr s (exitCode sizeFf sizeCcf) = some (.R RI.tmpReg1,
      (s.setReg .rsp (s.regs .rsp + 8 * (sizeFf + sizeCcf) + 8)).setReg RI.tmpReg1
        (s.mem (s.regs .rsp + 8 * (sizeFf + sizeCcf)))) := by
  obtain ⟨pre, hpre, hexec⟩ := basePlusOffset_emits labAddr
  have hcode := hpre.eq [.pop (.R RI.tmpReg1), .jmp (.R RI.tmpReg1)]
  rw [exitCode, Except.ok.inj hcode]
  have hplain : ∀ inst ∈ pre ++ [.pop (.R RI.tmpReg1)], isPlain inst = true := by
    exact (hpre.snoc rfl).straight
  have hrun := runToJmp_append labAddr s (.R RI.tmpReg1) [] hplain
  rw [append_assoc] at hrun
  refine hrun.trans ?_
  rw [exec_append, hexec, offsetBytes]
  simp [execInst, writeEa, State.setReg]

/-- The results of a call and those of the callee's convention belong
together: as many actuals as formals, as many results, the first three results
in the result registers (where `resolveApp` puts them) and all result operands
different. -/
structure CallMatches (sizeFf : Int) (call : Call) (formals ress : List Lvar) : Prop where
  nargs : call.actuals.length = formals.length
  nres : call.app.res.length = ress.length
  actuals : ∀ aty ∈ call.spilledActuals, IsActual sizeFf aty
  opr : call.OprOk
  regs : call.app.res.take 3 = (RI.regRes.take ress.length).map .phreg
  dest : ∀ aty ∈ call.app.res, IsDest sizeFf aty
  nodup : call.app.res.Nodup

variable {call : Call}

section Return

variable {flags : Flags} {labAddr : Lab → Int} {formals ress : List Lvar}

section

variable (hmatch : CallMatches sizeFf call formals ress)

include hmatch

theorem CallMatches.spilledArgs_length (hplaces : Places cc formals ress) :
    (cc.spilledArgs.length : Int) = call.spilledActuals.length := by
  rw [hplaces.spilledArgs_length, Call.spilledActuals, length_drop, length_drop, hmatch.nargs]
  rfl

theorem CallMatches.spilledResults_length : call.spilledResults.length = ress.length - 3 := by
  rw [Call.spilledResults, length_drop, hmatch.nres]

theorem CallMatches.reg_mem {i : Nat} (hi : (RI.regRes.take ress.length)[i]? = some reg) :
    Aty.phreg reg ∈ call.app.res.take 3 := by
  rw [hmatch.regs]
  exact mem_map_of_mem (mem_of_getElem? hi)

/-- The state after the exit code, seen from the caller: the words of the
results are on top of the stack. -/
theorem return_state (hplaces : Places cc formals ress)
    (hcall : AtCall flags labAddr sizeFf returnLab call s s1)
    (hfin : Finished cc calleeFf values s1 s2) :
    ∃ s3, runToJmp labAddr s2 (exitCode calleeFf cc.spilledArgs.length) = some (.R RI.tmpReg1, s3) ∧
      s3.regs RI.tmpReg1 = labAddr returnLab ∧
      s3.regs .rsp = s.regs .rsp - 8 * call.spilledResults.length ∧
      s3.mem = s2.mem ∧ ∀ reg, reg ≠ .rsp → reg ≠ RI.tmpReg1 → s3.regs reg = s2.regs reg := by
  have hccf := hmatch.spilledArgs_length hplaces
  have hrsp : s2.regs .rsp + 8 * (calleeFf + cc.spilledArgs.length) =
      s1.regs .rsp + 8 * cc.spilledArgs.length := by
    rw [hfin.rsp]
    omega
  have hret : s1.regs .rsp + 8 * cc.spilledArgs.length =
      s.regs .rsp - 8 * (call.spilledResults.length + 1) := by
    rw [hcall.rsp, hccf]
    omega
  refine ⟨_, exitCode_run, ?_, ?_, rfl, ?_⟩
  · rw [State.setReg_regs_self, hrsp, hfin.ret, hret]
    exact hcall.ret
  · rw [State.setReg_regs_ne _ _ (by decide), State.setReg_regs_self, hrsp, hret]
    omega
  · intro reg hne htmp
    rw [State.setReg_regs_ne _ _ htmp, State.setReg_regs_ne _ _ hne]

/-- In the state `s3` of `return_state`, popping leaves the `i`th register
result where it is, and gives the `j`th result operand on the stack the word
that lies as deep as the operand is from the last one. -/
theorem fetched_values
    (hpops : PopsAll flags labAddr base sizeFf fetch call.spilledResults.reverse s3) :
    (∀ (i : Nat) (reg : Reg), (RI.regRes.take ress.length)[i]? = some reg →
      atyValue flags labAddr (exec labAddr s3 fetch) sizeFf (.phreg reg) = some (s3.regs reg)) ∧
    ∀ (j : Nat) (aty : Aty), call.spilledResults[j]? = some aty →
      atyValue flags labAddr (exec labAddr s3 fetch) sizeFf aty =
        some (s3.mem (s3.regs .rsp + 8 * (call.spilledResults.length - 1 - j : Nat))) := by
  constructor
  · intro i reg hi
    have hmem := hmatch.reg_mem hi
    have hnotMem : Aty.phreg reg ∉ call.spilledResults.reverse := by
      rw [mem_reverse]
      have hnodup := hmatch.nodup
      rw [← take_append_drop 3 call.app.res] at hnodup
      exact fun h => (nodup_append.mp hnodup).2.2 _ hmem _ h rfl
    rw [atyValue, hpops.rsp, hpops.other _ (hmatch.dest _ (mem_of_mem_take hmem)) hnotMem]
    rfl
  · intro j aty hj
    have hlt : j < call.spilledResults.length := (List.getElem?_eq_some_iff.mp hj).1
    have hrev : call.spilledResults.reverse[call.spilledResults.length - 1 - j]? = some aty := by
      rw [getElem?_reverse (by omega), ← hj]
      congr 1
      omega
    rw [atyValue, hpops.rsp, hpops.bound _ aty hrev]

/-- Where the callee stores its results, in terms of the caller's frame. -/
theorem stored_places (hplaces : Places cc formals ress) {values : List Int}
    (hcall : AtCall flags labAddr sizeFf returnLab call s s1)
    (hrsp : s2.regs .rsp = s1.regs .rsp - 8 * calleeFf) :
    (∀ (i : Nat) (sty : CCSty) (v : Int), cc.res[i]? = some sty → values[i]? = some v →
      styHolds calleeFf s2 sty v) ↔
    (∀ (i : Nat) (reg : Reg) (v : Int), (RI.regRes.take ress.length)[i]? = some reg →
      values[i]? = some v → s2.regs reg = v) ∧
    ∀ (j : Nat) (v : Int), j < call.spilledResults.length → values[3 + j]? = some v →
      s2.mem (s.regs .rsp - 8 * call.spilledResults.length + 8 * j) = v := by
  have hlen := hmatch.spilledResults_length
  have hccf := hmatch.spilledArgs_length hplaces
  have haddr : ∀ j : Nat, s2.regs .rsp + 8 * (calleeFf - (-cc.spilledArgs.length - 1 - 1 - j) - 1) =
      s.regs .rsp - 8 * call.spilledResults.length + 8 * j := by
    intro j
    rw [hrsp, hcall.rsp, hccf]
    omega
  constructor
  · intro h
    refine ⟨fun i reg v hreg hv => ?_, fun j v hj hv => ?_⟩
    · have hi : i < ress.length := by
        have := (List.getElem?_eq_some_iff.mp hreg).1
        rw [length_take] at this
        omega
      rw [getElem?_take_of_lt hi] at hreg
      obtain ⟨lv, hlv⟩ : ∃ lv, ress[i]? = some lv := ⟨_, getElem?_eq_getElem hi⟩
      exact h i _ v (hplaces.res_phreg hlv hreg) hv
    · obtain ⟨lv, hlv⟩ : ∃ lv, ress[3 + j]? = some lv := ⟨_, getElem?_eq_getElem (by omega)⟩
      have hholds := h (3 + j) _ v (hplaces.res_stack hlv) hv
      rw [styHolds, haddr] at hholds
      exact hholds
  · rintro ⟨hregs, hstack⟩ i sty v hsty hv
    have hi : i < ress.length := by
      rw [← hplaces.res_length]
      exact (List.getElem?_eq_some_iff.mp hsty).1
    obtain ⟨lv, hlv⟩ : ∃ lv, ress[i]? = some lv := ⟨_, getElem?_eq_getElem hi⟩
    by_cases hlow : i < 3
    · obtain ⟨reg, hreg⟩ : ∃ reg, RI.regRes[i]? = some reg := ⟨_, getElem?_eq_getElem hlow⟩
      rw [hplaces.res_phreg hlv hreg] at hsty
      cases hsty
      exact hregs i reg v (by rw [getElem?_take_of_lt hi, hreg]) hv
    · obtain ⟨j, rfl⟩ : ∃ j, i = 3 + j := ⟨i - 3, by omega⟩
      rw [hplaces.res_stack hlv] at hsty
      cases hsty
      rw [styHolds, haddr]
      exact hstack j v (by omega) hv

end

/-- A whole call: the code, and for every state the state after the return, in
terms of the state `s2` at the end of the callee. -/
theorem call_return (hmatch : CallMatches sizeFf call formals ress)
    (hplaces : Places cc formals ress) :
    ∃ code, cgCall flags sizeFf returnLab call [] = .ok code ∧ ∀ s, ∃ target s1,
      runToJmp labAddr s code = some (target, s1) ∧
      AtCall flags labAddr sizeFf returnLab call s s1 ∧
      ∀ values s2, Finished cc calleeFf values s1 s2 → ∃ s3,
        runToJmp labAddr s2 (exitCode calleeFf cc.spilledArgs.length) = some (.R RI.tmpReg1, s3) ∧
        s3.regs RI.tmpReg1 = labAddr returnLab ∧
        (∀ (i : Nat) (reg : Reg), (RI.regRes.take ress.length)[i]? = some reg →
          atyValue flags labAddr (exec labAddr s3 (codeAt returnLab code)) sizeFf (.phreg reg) =
            some (s2.regs reg)) ∧
        ∀ (j : Nat) (aty : Aty), call.spilledResults[j]? = some aty →
          atyValue flags labAddr (exec labAddr s3 (codeAt returnLab code)) sizeFf aty =
            some (s2.mem (s.regs .rsp - 8 * call.spilledResults.length +
              8 * (call.spilledResults.length - 1 - j : Nat))) := by
  have hdest : ∀ aty ∈ call.spilledResults.reverse, IsDest sizeFf aty := fun aty hmem =>
    hmatch.dest aty (mem_of_mem_drop (mem_reverse.mp hmem))
  have hnodup : call.spilledResults.reverse.Nodup :=
    nodup_reverse.mpr (hmatch.nodup.sublist (drop_sublist _ _))
  obtain ⟨fetch, hfetch, hpops⟩ := fetchRes_popsAll flags labAddr hdest hnodup
  have hfetch' : Emits (fetchRes sizeFf (call.spilledResults.zipIdx 0).reverse) fetch := by
    rw [zipIdx_reverse]
    exact hfetch
  obtain ⟨code, hcode, hrun, hat⟩ := cgCall_shape flags labAddr hmatch.actuals hmatch.opr hfetch' []
  refine ⟨code, hcode, fun s => ?_⟩
  obtain ⟨target, s1, hs1, hcall⟩ := hrun s
  refine ⟨target, s1, hs1, hcall, fun values s2 hfin => ?_⟩
  obtain ⟨s3, hs3, hret, hrsp, hmem, hregs⟩ := return_state hmatch hplaces hcall hfin
  refine ⟨s3, hs3, hret, ?_⟩
  have hvalues := fetched_values hmatch (hpops (s.regs .rsp) s3 (by rw [hrsp, length_reverse]))
  rw [hat, append_nil]
  refine ⟨fun i reg hi => ?_, fun j aty hj => ?_⟩
  · have hdest := hmatch.dest _ (mem_of_mem_take (hmatch.reg_mem hi))
    rw [hvalues.1 i reg hi, hregs reg hdest.2.1 hdest.2.2]
  · rw [hvalues.2 j aty hj, hmem, hrsp]

theorem res_operand (hmatch : CallMatches sizeFf call formals ress)
    (hi : call.app.res[i]? = some aty) :
    (∃ reg, (RI.regRes.take ress.length)[i]? = some reg ∧ aty = .phreg reg) ∨
    ∃ j, i = 3 + j ∧ call.spilledResults[j]? = some aty := by
  by_cases hlow : i < 3
  · left
    have htake : (call.app.res.take 3)[i]? = some aty := by rw [getElem?_take_of_lt hlow, hi]
    rw [hmatch.regs, getElem?_map, Option.map_eq_some_iff] at htake
    obtain ⟨reg, hreg, rfl⟩ := htake
    exact ⟨reg, hreg, rfl⟩
  · right
    refine ⟨i - 3, by omega, ?_⟩
    rw [Call.spilledResults, getElem?_drop, ← hi]
    congr 1
    omega

theorem bindsResults_of_le (hmatch : CallMatches sizeFf call formals ress)
    (hplaces : Places cc formals ress) (hle : ress.length ≤ 4) :
    BindsResults flags labAddr sizeFf returnLab call cc calleeFf := by
  have hlen := hmatch.spilledResults_length
  obtain ⟨code, hcode, hcall⟩ := call_return hmatch hplaces
  refine ⟨code, hcode, fun s target s1 values s2 hrun hfin => ?_⟩
  obtain ⟨target', s1', hrun', hat, hreturn⟩ := hcall s
  rw [hrun'] at hrun
  cases hrun
  obtain ⟨s3, hs3, hret, hregs, hstack⟩ := hreturn values s2 hfin
  obtain ⟨hstoredRegs, hstoredStack⟩ := (stored_places hmatch hplaces hat hfin.rsp).mp hfin.stored
  refine ⟨s3, hs3, hret, fun i aty v hi hv => ?_⟩
  rcases res_operand hmatch hi with ⟨reg, hreg, rfl⟩ | ⟨j, rfl, hj⟩
  · rw [hregs i reg hreg, hstoredRegs i reg v hreg hv]
  · -- with a single word on the stack the two orders agree
    have hlt : j < call.spilledResults.length := (List.getElem?_eq_some_iff.mp hj).1
    have hdepth : call.spilledResults.length - 1 - j = j := by omega
    rw [hstack j aty hj, hdepth, hstoredStack j v hlt hv]

/-- A callee that returns the numbers 0, 1, 2, ... -/
def counting (spRes : Int) (sp : Int) (s : State) : State where
  regs := fun
    | .rsp => sp
    | .rdi => 0
    | .rbx => 1
    | _ => 2
  mem := fun address => if spRes ≤ address then (address - spRes) / 8 + 3 else s.mem address

theorem counting_finished (calleeFf : Int) (hmatch : CallMatches sizeFf call formals ress)
    (hplaces : Places cc formals ress) (hat : AtCall flags labAddr sizeFf returnLab call s s1) :
    Finished cc calleeFf ((List.range ress.length).map Int.ofNat) s1
      (counting (s.regs .rsp - 8 * call.spilledResults.length) (s1.regs .rsp - 8 * calleeFf) s1)
    where
  rsp := rfl
  ret := by
    have hccf := hmatch.spilledArgs_length hplaces
    have hbelow : ¬ (s.regs .rsp - 8 * call.spilledResults.length ≤
        s1.regs .rsp + 8 * cc.spilledArgs.length) := by
      rw [hat.rsp, hccf]
      omega
    simp only [counting, if_neg hbelow]
  length := by simp [hplaces.res_length]
  stored := by
    refine (stored_places hmatch hplaces hat rfl).mpr ⟨fun i reg v hreg hv => ?_,
      fun j v hj hv => ?_⟩
    · obtain ⟨_, hget⟩ := List.getElem?_eq_some_iff.mp hv
      have hval : v = i := by
        rw [← hget]
        simp
      have hlt := (List.getElem?_eq_some_iff.mp hreg).1
      rw [length_take, Nat.lt_min] at hlt
      rw [getElem?_take_of_lt hlt.1] at hreg
      rw [hval]
      match i, hlt.2 with
      | 0, _ | 1, _ | 2, _ => cases hreg; rfl
    · obtain ⟨_, hget⟩ := List.getElem?_eq_some_iff.mp hv
      have hval : v = 3 + j := by
        rw [← hget]
        simp
      simp only [counting]
      omega

theorem not_bindsResults_of_lt (hmatch : CallMatches sizeFf call formals ress)
    (hplaces : Places cc formals ress) (hlt : 4 < ress.length) :
    ¬ BindsResults flags labAddr sizeFf returnLab call cc calleeFf := by
  rintro ⟨code, hcode, hbinds⟩
  have hlen := hmatch.spilledResults_length
  obtain ⟨code', hcode', hcall⟩ := call_return hmatch hplaces
  rw [hcode] at hcode'
  cases hcode'
  obtain ⟨target, s1, hrun, hat, hreturn⟩ := hcall ⟨fun _ => 0, fun _ => 0⟩
  have hfin := counting_finished calleeFf hmatch hplaces hat
  obtain ⟨s3, hs3, -, -, hstack⟩ := hreturn _ _ hfin
  obtain ⟨s3', hs3', -, hbound⟩ := hbinds _ _ _ _ _ hrun hfin
  rw [hs3] at hs3'
  cases hs3'
  -- the first result on the stack receives the last one
  obtain ⟨aty, haty⟩ : ∃ aty, call.spilledResults[0]? = some aty :=
    ⟨_, getElem?_eq_getElem (by omega)⟩
  have hres : call.app.res[3]? = some aty := by
    rw [Call.spilledResults, getElem?_drop] at haty
    exact haty
  have hvalue : ((List.range ress.length).map Int.ofNat)[3]? = some 3 := by
    rw [getElem?_map, getElem?_range (by omega)]
    rfl
  have hthree := hbound 3 aty 3 hres hvalue
  rw [hstack 0 aty haty] at hthree
  have hlast := Option.some.inj hthree
  simp only [counting] at hlast
  omega

end Return

/-! ## Results on the callee's side -/

theorem topLvEnv_eq {formals ress : List Lvar} (hplaces : Places cc formals ress) :
    ∃ env, topLvEnv cc = .ok env ∧ ∀ lv, lv ∉ formals → env lv = none := by
  refine ⟨_, ok_bind (getSpilledArgsWithOffsets_eq hplaces.resolved), fun lv hlv => ?_⟩
  have hmem : ∀ entry ∈ cc.spilledArgs, entry.1 ≠ lv := fun entry hmem heq =>
    hlv (heq ▸ (hplaces.spilledArgs_mem hmem).1)
  generalize cc.spilledArgs = spilled at hmem
  suffices h : ∀ env : AtyMap, env lv = none → spilled.foldl
      (fun (env : AtyMap) entry => Function.update env entry.1 (some (Aty.stack entry.2))) env lv =
        none from
    h _ rfl
  induction spilled with
  | nil => exact fun env henv => henv
  | cons entry spilled ih =>
    intro env henv
    refine ih (fun entry hentry => hmem entry (by simp [hentry])) _ ?_
    exact (Function.update_of_ne (hmem entry (by simp)).symm _ _).trans henv

/-- The two sides of a function's results, for a function and a call that fit
together.  The caller binds every result to its value exactly when there are
at most four of them, so that at most one is returned on the stack.  The
callee's own access to its results is narrower still: a result that is returned
on the stack has no place in the environment its body is compiled in, so every
result can be addressed exactly when there are at most three. -/
theorem call_results_agree_iff (flags : Flags) (labAddr : Lab → Int) (sizeFf calleeFf : Int)
    (returnLab : Lab) (call : Call) (args : List Lvar) (clos regVec : Option Lvar)
    (regArgs ress : List Lvar) {cc : CC} {formalRegs resRegs : List (Lvar × Lvar)}
    (hcc : resolveCc RI.argsPhreg RI.resPhreg (mkCcFun args clos regVec regArgs ress) =
      .ok (cc, formalRegs, resRegs))
    (hmatch : CallMatches sizeFf call (formals clos regVec args regArgs) ress)
    (hfresh : ∀ lv ∈ ress, lv ∉ formals clos regVec args regArgs) :
    (BindsResults flags labAddr sizeFf returnLab call cc calleeFf ↔ ress.length ≤ 4) ∧
    ∃ env, topLvEnv cc = .ok env ∧
      ((∀ lv ∈ ress.drop 3, ∃ aty, lookupLvAty env lv = .ok aty) ↔ ress.length ≤ 3) := by
  obtain ⟨cc', formalRegs', hcc', hplaces⟩ := resolveCc_places args clos regVec regArgs ress
  rw [hcc] at hcc'
  cases hcc'
  refine ⟨⟨fun hbinds => ?_, bindsResults_of_le hmatch hplaces⟩, ?_⟩
  · by_contra hgt
    exact not_bindsResults_of_lt hmatch hplaces (by omega) hbinds
  · obtain ⟨env, henv, hnone⟩ := topLvEnv_eq hplaces
    refine ⟨env, henv, fun hall => ?_, fun hle lv hmem => ?_⟩
    · by_contra hgt
      obtain ⟨lv, hlv⟩ : ∃ lv, lv ∈ ress.drop 3 :=
        exists_mem_of_length_pos (by rw [length_drop]; omega)
      obtain ⟨aty, haty⟩ := hall lv hlv
      rw [lookupLvAty, hnone lv (hfresh lv (mem_of_mem_drop hlv))] at haty
      cases haty
    · rw [drop_eq_nil_of_le hle] at hmem
      cases hmem

/-- A call of a function of one argument whose results go to the given operands. -/
def callFor (res : List Aty) : Call :=
  .funcall { opr := ⟨0⟩, args := [.phreg .rsi], regVec := none, regArgs := [], clos := none,
             res := res, bv := [] }

/-- The convention of that function, with result variables `1`, ..., `n`. -/
def ccFor (n : Nat) : CC :=
  { clos := none, args := [.phreg (.named 0 false) (.phreg .rax)], regVec := none, regArgs := [],
    res := List.zipWith .phreg ((List.range n).map fun i => .named (i + 1) false) RI.resPhreg ++
      stackFrom (-1) (((List.range n).map fun i => .named (i + 1) false).drop 3),
    frameSize := none }

def plainFlags : Flags :=
  { tagValues := true, garbageCollection := true, regionProfiling := false,
    generationalGc := false }

theorem callFor_matches (extra : List Aty)
    (hres : res = [.phreg .rdi, .phreg .rbx, .phreg .rax] ++ extra)
    (hdest : ∀ aty ∈ extra, IsDest 2 aty) (hnodup : res.Nodup) :
    CallMatches 2 (callFor res) [.named 0 false]
      ((List.range res.length).map fun i => .named (i + 1) false) where
  nargs := rfl
  nres := by simp [callFor, Call.app, funApp]
  actuals := by simp [callFor, Call.spilledActuals, Call.actuals, Call.app, funApp, formals,
    appendToListOpt]
  opr := trivial
  regs := by
    subst hres
    simp [callFor, Call.app, funApp, RI.regRes]
  dest := by
    subst hres
    simp only [callFor, Call.app, funApp, mem_append, mem_cons, not_mem_nil, or_false]
    rintro aty ((rfl | rfl | rfl) | hmem)
    iterate 3 exact ⟨rfl, by decide, by decide⟩
    exact hdest aty hmem
  nodup := hnodup

/-- Four results are bound, the fourth one from the stack. -/
theorem four_results_agree :
    BindsResults plainFlags (fun _ => 0) 2 (.localLab "return_from_app" 0)
      (callFor [.phreg .rdi, .phreg .rbx, .phreg .rax, .stack 0]) (ccFor 4) 6 :=
  (call_results_agree_iff plainFlags (fun _ => 0) 2 6 (.localLab "return_from_app" 0) _
    [.named 0 false] none none [] [.named 1 false, .named 2 false, .named 3 false, .named 4 false]
    rfl (callFor_matches [.stack 0] rfl (by simp [IsDest]) (by decide)) (by decide)).1.mpr (by decide)

/-- Five results are not: the last two are exchanged. -/
theorem five_results_disagree :
    ¬ BindsResults plainFlags (fun _ => 0) 2 (.localLab "return_from_app" 0)
      (callFor [.phreg .rdi, .phreg .rbx, .phreg .rax, .stack 0, .stack 1]) (ccFor 5) 6 := by
  obtain ⟨cc, formalRegs, hcc, hplaces⟩ := resolveCc_places [.named 0 false] none none []
    ((List.range 5).map fun i => .named (i + 1) false)
  have heq : cc = ccFor 5 := by
    cases hcc
    rfl
  rw [heq] at hplaces
  exact not_bindsResults_of_lt
    (callFor_matches [.stack 0, .stack 1] rfl (by simp [IsDest]) (by decide)) hplaces (by decide)

end MLKit.X64
