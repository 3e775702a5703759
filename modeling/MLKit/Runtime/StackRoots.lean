import MLKit.Runtime.StackWalk

/-!
# The roots that the stack walk finds

The walk finds its way from frame to frame with the number of result words of the
function that entered the collector.  It therefore reaches the described frames
exactly when all the suspended functions that return into a frame have that number
of result words.
-/

namespace MLKit.Runtime

open Function List BitVec Nat

open MLKit.Backend (Reg Word32)
open MLKit.Backend.CalcOffset

/-! ## Pushes -/

theorem pushAll_fst (values : List Nat) (s : Int × Stack) :
    (pushAll values s).1 = s.1 - values.length := by
  induction values generalizing s with
  | nil => simp [pushAll]
  | cons value values ih =>
    have h := ih (push value s)
    simp only [push] at h
    simp only [pushAll, foldl_cons, length_cons] at h ⊢
    rw [show push value s = (s.1 - 1, update s.2 (s.1 - 1) value) from rfl, h]
    omega

variable {a base spPtr : Int} {s : Int × Stack} {values : List Nat} {quad quad' : Nat → Nat → Nat}
  {lab fuel lab' : Nat} {calls : List Call} {cells : List Int} {visits : List (Nat × List Int)}
  {fns : List FnSizes} {b c d : Word32}

theorem pushAll_above (values : List Nat) (h : s.1 ≤ a) : (pushAll values s).2 a = s.2 a := by
  induction values generalizing s with
  | nil => rfl
  | cons value values ih =>
    have hpush : (push value s).1 ≤ a := by
      simp only [push]
      omega
    have hne : a ≠ s.1 - 1 := by omega
    exact (ih hpush).trans (update_of_ne hne _ _)

theorem pushAll_value {i value : Nat} (h : values[i]? = some value) (s : Int × Stack) :
    (pushAll values s).2 (s.1 - 1 - i) = value := by
  induction values generalizing i s with
  | nil => cases h
  | cons top values ih =>
    cases i with
    | zero =>
      have htop : top = value := by simpa using h
      subst htop
      have habove := pushAll_above values (s := push top s) (a := s.1 - 1) (Int.le_refl _)
      simp only [Int.ofNat_zero, Int.sub_zero]
      exact habove.trans (update_self _ _ _)
    | succ i =>
      have hrest := ih h (push top s)
      have haddr : (push top s).1 - 1 - i = s.1 - 1 - ((i + 1 : Nat) : Int) := by
        simp only [push]
        omega
      rw [haddr] at hrest
      exact hrest

/-- The stack as `gc` finds it. -/
structure Pushed (fn : Entered) (rsp : Int) (stack stack' : Stack) : Prop where
  spilledRegionArgs : stack' (rsp - 3) = fn.sizeSpilledRegionArgs
  rcf : stack' (rsp - 3 + 1) = fn.sizeRcf
  ccf : stack' (rsp - 3 + 2) = fn.sizeCcf
  above : ∀ a, rsp ≤ a → stack' a = stack a

theorem gcStub_fst (regs : Reg → Nat) (fn : Entered) (rsp : Int) (stack : Stack) :
    (gcStub regs (doGc fn (rsp, stack))).1 = rsp - 19 := by
  have hsp : (doGc fn (rsp, stack)).1 = rsp - 3 := pushAll_fst _ _
  have hstub : (gcStub regs (doGc fn (rsp, stack))).1 = (doGc fn (rsp, stack)).1 - 16 :=
    pushAll_fst _ _
  omega

/-- The collector finds a register in the saved cell of its number. -/
theorem gcStub_register (regs : Reg → Nat) (s : Int × Stack) {r : Reg} {n : Nat}
    (h : lvToRegNo r = some n) :
    (gcStub regs s).2 ((gcStub regs s).1 + numRegs - 1 - n) = regs r := by
  have hget : (allRegs.map regs)[n]? = some (regs r) := by
    cases r <;> cases h <;> rfl
  have hsp : (gcStub regs s).1 = s.1 - 16 := pushAll_fst _ _
  have hcell : (gcStub regs s).1 + numRegs - 1 - n = s.1 - 1 - n := by
    rw [hsp, numRegs]
    omega
  rw [hcell]
  exact pushAll_value hget s

theorem gcStub_pushed (regs : Reg → Nat) (fn : Entered) (rsp : Int) (stack : Stack) :
    Pushed fn rsp stack (gcStub regs (doGc fn (rsp, stack))).2 := by
  have hsp : (doGc fn (rsp, stack)).1 = rsp - 3 := pushAll_fst _ _
  have hstub : ∀ a, rsp - 3 ≤ a →
      (gcStub regs (doGc fn (rsp, stack))).2 a = (doGc fn (rsp, stack)).2 a := by
    intro a ha
    exact pushAll_above _ (by omega)
  have hsize : ∀ i : Nat, ∀ value,
      [fn.sizeCcf, fn.sizeRcf, fn.sizeSpilledRegionArgs][i]? = some value →
      (doGc fn (rsp, stack)).2 (rsp - 1 - i) = value :=
    fun i value h => pushAll_value h (rsp, stack)
  constructor
  · rw [hstub _ (by omega), show rsp - 3 = rsp - 1 - ((2 : Nat) : Int) by omega]
    exact hsize 2 _ rfl
  · rw [hstub _ (by omega), show rsp - 3 + 1 = rsp - 1 - ((1 : Nat) : Int) by omega]
    exact hsize 1 _ rfl
  · rw [hstub _ (by omega), show rsp - 3 + 2 = rsp - 1 - ((0 : Nat) : Int) by omega]
    exact hsize 0 _ rfl
  · intro a ha
    rw [hstub a (by omega)]
    exact pushAll_above _ ha

/-! ## The cells of the loops -/

theorem shiftRight_and_one (m i : Nat) : (m >>> i) &&& 1 = 1 ↔ m.testBit i = true := by
  rw [Nat.testBit, Nat.and_comm 1, Nat.and_one_is_mod]
  simp

theorem liveRegisters_eq (sp : Int) (m left offset : Nat) :
    liveRegisters sp left offset (m >>> offset) =
      ((List.range' offset left).filter fun k => m.testBit k).map
        fun k : Nat => sp + numRegs - 1 - (k : Int) := by
  induction left generalizing offset with
  | zero => rfl
  | succ left ih =>
    have hrest := ih (offset + 1)
    rw [Nat.shiftRight_succ_inside, ← Nat.shiftRight_succ_inside, Nat.shiftRight_add] at hrest
    rw [liveRegisters, List.range'_succ, filter_cons, hrest]
    by_cases hbit : m.testBit offset = true
    · rw [if_pos ((shiftRight_and_one m offset).2 hbit), if_pos hbit, map_cons]
    · rw [if_neg (mt (shiftRight_and_one m offset).1 hbit), if_neg hbit]

theorem spilledArguments_eq (spilled left offset : Nat) (rsp : Int) :
    spilledArguments spilled left offset (rsp + offset) =
      ((List.range' offset left).filter fun i => spilled ≤ i).map fun i : Nat => rsp + (i : Int) :=
    by
  induction left generalizing offset with
  | zero => rfl
  | succ left ih =>
    have hnext : rsp + (offset : Int) + 1 = rsp + ((offset + 1 : Nat) : Int) := by omega
    rw [spilledArguments, List.range'_succ, filter_cons, hnext, ih (offset + 1)]
    by_cases hle : spilled ≤ offset
    · simp [hle]
    · simp [hle]

/-- The bit of a slot in the quads before a return label. -/
def slotBit (quads : Nat → Nat) (offset : Nat) : Bool :=
  (quads (4 + offset / 32)).testBit (offset % 32)

theorem frameCells_eq (quads : Nat → Nat) (spPtr : Int) (fdSize left offset : Nat)
    (h : offset + left = fdSize) :
    frameCells quads spPtr fdSize left offset (quads (4 + offset / 32) >>> (offset % 32))
        (offset % 32) (4 + offset / 32) =
      ((List.range' offset left).filter (slotBit quads)).map
        fun o : Nat => spPtr + fdSize - (o : Int) := by
  induction left generalizing offset with
  | zero => rfl
  | succ left ih =>
    have hrest : (if offset % 32 + 1 = 32 ∧ offset + 1 < fdSize then
          frameCells quads spPtr fdSize left (offset + 1) (quads (4 + offset / 32 + 1)) 0
            (4 + offset / 32 + 1)
        else frameCells quads spPtr fdSize left (offset + 1)
          (quads (4 + offset / 32) >>> (offset % 32) >>> 1) (offset % 32 + 1) (4 + offset / 32)) =
        ((List.range' (offset + 1) left).filter (slotBit quads)).map
          fun o : Nat => spPtr + fdSize - (o : Int) := by
      have hnext := ih (offset + 1) (by omega)
      rcases lt_or_ge (offset % 32 + 1) 32 with hlt | hge
      · rw [if_neg (by omega)]
        rw [show (offset + 1) / 32 = offset / 32 by omega,
          show (offset + 1) % 32 = offset % 32 + 1 by omega, Nat.shiftRight_add] at hnext
        exact hnext
      · cases left with
        | zero => simp [frameCells]
        | succ left =>
          rw [if_pos (by omega)]
          rw [show (offset + 1) / 32 = offset / 32 + 1 by omega,
            show (offset + 1) % 32 = 0 by omega, shiftRight_zero] at hnext
          exact hnext
    rw [frameCells, List.range'_succ, filter_cons]
    simp only [hrest]
    have hbit := shiftRight_and_one (quads (4 + offset / 32)) (offset % 32)
    by_cases hslot : slotBit quads offset = true
    · rw [if_pos (hbit.2 hslot), if_pos hslot, map_cons]
    · rw [if_neg (mt hbit.1 hslot), if_neg hslot]

/-! ## Descriptors -/

theorem length_postfixWords (numWords : Int) (ws : List Word32) :
    numWords ≤ (postfixWords numWords ws).length := by
  simp only [postfixWords, length_append, length_replicate]
  omega

/-- What the loop reads in the descriptor of a call. -/
structure Described (quads : Nat → Nat) (call : Call) : Prop where
  offsetToReturn : quads 2 = (call.fn.sizeFf + call.fn.sizeCcf) % 2 ^ 32
  size : quads 3 = call.fn.sizeFd % 2 ^ 32
  bits : ∀ offset < call.fn.sizeFd, slotBit quads offset = decide ((offset : Int) ∈ call.lSet)

variable {call : Call} {quads : Nat → Nat} {stack stack' : Stack} {rcf : Nat} {fn : Entered}

theorem genBv_described (h : GenBv quad lab call.bv) : Described (quad lab) call := by
  have hsize : (call.fn.frameSizes.sizeFf + call.fn.frameSizes.sizeCcf +
      call.fn.frameSizes.sizeRcf + 1 : Int) = (call.fn.sizeFd : Nat) := by
    simp [FnSizes.frameSizes, FnSizes.sizeFd]
  constructor
  · rw [h 1 _ rfl]
    simp only [FnSizes.frameSizes, ← Int.natCast_add, ofInt_natCast, toNat_ofNat]
  · rw [h 2 _ rfl]
    simp only [hsize, ofInt_natCast, toNat_ofNat]
  · intro offset hlt
    -- the vector is long enough, so the quad of the slot is one of its words
    obtain ⟨w, hw⟩ : ∃ w, (call.bv.drop 3)[offset / 32]? = some w := by
      refine ⟨_, List.getElem?_eq_getElem ?_⟩
      have hlong := length_postfixWords
        (if (call.fn.sizeFd : Int) % 32 = 0 then (call.fn.sizeFd : Int) / 32
          else (call.fn.sizeFd : Int) / 32 + 1)
        (genWords (offsetsSorted call.lSet) 0 0)
      simp only [Call.bv, genBitvector, drop_succ_cons, drop_zero, hsize]
      split at hlong <;> split <;> omega
    have hquad : quad lab (4 + offset / 32) = w.toNat := by
      have hget : call.bv[3 + offset / 32]? = some w := by rw [← hw, List.getElem?_drop]
      rw [← h _ _ hget]
      congr 1
      omega
    have hroot := genBitvector_rootBit call.lSet call.fn.frameSizes call.funNr offset
    have hbit : RootBit call.bv offset ↔ w.getLsbD (offset % 32) = true := by
      simp [RootBit, HasBit, hw]
    rw [slotBit, hquad, testBit_toNat, Bool.eq_iff_iff, decide_eq_true_iff, ← hbit]
    exact hroot

/-- The loop over a frame visits the slots of the descriptor. -/
theorem Described.frameCells_eq (h : Described quads call) (hfits : call.fn.sizeFd < 2 ^ 32)
    (spPtr : Int) :
    frameCells quads spPtr (quads 3) (quads 3) 0 (quads 4) 0 4 =
      call.slots.map fun offset : Nat => spPtr + call.fn.sizeFd - offset := by
  have hsize : quads 3 = call.fn.sizeFd := by rw [h.size, mod_eq_of_lt hfits]
  have hcells := Runtime.frameCells_eq quads spPtr call.fn.sizeFd call.fn.sizeFd 0 (by omega)
  simp only [zero_mod, shiftRight_zero] at hcells
  rw [hsize, hcells, ← range_eq_range']
  congr 1
  refine filter_congr fun offset hmem => ?_
  exact h.bits offset (mem_range.1 hmem)

/-! ## Frames that agree with their descriptors -/

variable {sizeRcf : Nat} {ra : Int}

/-- Nothing that the walk reads from a return address on depends on the other
words of the stack. -/
theorem laidOut_congr
    (hkept : ∀ a, a = ra ∨ ra + sizeRcf < a → quad' (stack' a) = quad (stack a))
    (h : LaidOut quad stack ra sizeRcf calls) : LaidOut quad' stack' ra sizeRcf calls := by
  induction calls generalizing ra sizeRcf with
  | nil =>
    simp only [LaidOut] at h ⊢
    rw [hkept ra (.inl rfl)]
    exact h
  | cons call calls ih =>
    obtain ⟨hbv, hrest⟩ := h
    refine ⟨fun i w hw => ?_, ih (fun a ha => hkept a (by omega)) hrest⟩
    rw [hkept ra (.inl rfl)]
    exact hbv i w hw

theorem laidOut_congr_stack (hkept : ∀ a, a = ra ∨ ra + sizeRcf < a → stack' a = stack a) :
    LaidOut quad stack ra sizeRcf calls → LaidOut quad stack' ra sizeRcf calls :=
  laidOut_congr fun a ha => congrArg quad (hkept a ha)

theorem describedFrames_congr (hkept : ∀ a, a = ra ∨ ra + sizeRcf < a → stack' a = stack a) :
    describedFrames stack' ra sizeRcf calls = describedFrames stack ra sizeRcf calls := by
  induction calls generalizing ra sizeRcf with
  | nil => rfl
  | cons call calls ih =>
    rw [describedFrames, describedFrames, hkept ra (.inl rfl), ih fun a ha => hkept a (by omega)]

theorem Call.mem_slots {offset : Nat} :
    offset ∈ call.slots ↔ offset < call.fn.sizeFd ∧ (offset : Int) ∈ call.lSet := by
  simp [Call.slots]

section Walk

variable {σ : Type} (evacuate : Nat → σ → Nat × σ)

theorem evacuateCells_stack (h : a ∉ cells) (s : GcState σ) :
    (evacuateCells evacuate s cells).stack a = s.stack a := by
  induction cells generalizing s with
  | nil => rfl
  | cons cell cells ih =>
    have hrest := ih (fun hmem => h (.tail _ hmem)) (evacuateCell evacuate s cell)
    have hne : a ≠ cell := fun heq => h (heq ▸ mem_cons_self)
    exact hrest.trans (update_of_ne hne _ _)

/-- The slots of a frame are neither its return address nor above its result words. -/
theorem evacuate_slots_stack {a : Int} (s : GcState σ)
    (h : a = base + call.fn.sizeFf + call.fn.sizeCcf + 1 ∨
      base + call.fn.sizeFf + call.fn.sizeCcf + 1 + call.fn.sizeRcf < a) :
    (evacuateCells evacuate s
      (call.slots.map fun offset : Nat => base + call.fn.sizeFd - offset)).stack a =
      s.stack a := by
  apply evacuateCells_stack
  intro hmem
  obtain ⟨offset, hslot, rfl⟩ := mem_map.1 hmem
  obtain ⟨hlt, hset⟩ := Call.mem_slots.1 hslot
  simp only [FnSizes.sizeFd] at h hlt
  rcases h with hra | habove
  · have hoffset : offset = call.fn.sizeRcf := by omega
    exact call.returnAddress_not_mem (hoffset ▸ hset)
  · omega

/-- One turn of the loop, from the frame of a call to its return address. -/
theorem frames_step (hbv : GenBv quad lab call.bv) (hfits : call.fn.sizeFd < 2 ^ 32)
    (sizeRcf fuel : Nat) (s : GcState σ) (base : Int) :
    let cells := call.slots.map fun offset : Nat => base + call.fn.sizeFd - offset
    let s' := evacuateCells evacuate s cells
    let ra := base + call.fn.sizeFf + call.fn.sizeCcf + 1
    frames evacuate quad sizeRcf (fuel + 1) s base lab =
      (frames evacuate quad sizeRcf fuel s' (ra + sizeRcf) (s'.stack ra)).map
        fun r => ((lab, cells) :: r.1, r.2) := by
  intro cells s' ra
  have hdesc := genBv_described hbv
  have hcells : frameCells (quad lab) base (quad lab 3) (quad lab 3) 0 (quad lab 4) 0 4 = cells :=
    hdesc.frameCells_eq hfits base
  have hsize : quad lab 3 ≠ uintptrMax := by
    rw [hdesc.size, mod_eq_of_lt hfits, uintptrMax]
    omega
  have hreturn : quad lab 2 = call.fn.sizeFf + call.fn.sizeCcf := by
    rw [hdesc.offsetToReturn, mod_eq_of_lt]
    simp only [FnSizes.sizeFd] at hfits
    omega
  have hra : base + ((call.fn.sizeFf + call.fn.sizeCcf : Nat) : Int) + 1 = ra := by
    omega
  simp only [frames, if_neg hsize, hcells, hreturn, hra]
  rfl

variable {s : GcState σ}

/-- The whole loop, when the functions that return into frames have the number of
result words that the loop assumes. -/
theorem frames_eq (hlaid : LaidOut quad s.stack ra rcf calls)
    (hfits : ∀ call ∈ calls, call.fn.sizeFd < 2 ^ 32) (hhead : calls ≠ [] → rcf = sizeRcf)
    (hrcf : ∀ call ∈ calls.dropLast, call.fn.sizeRcf = sizeRcf) :
    ∃ s', frames evacuate quad sizeRcf (calls.length + 1) s (ra + sizeRcf) (s.stack ra) =
      some (describedFrames s.stack ra rcf calls, s') := by
  induction calls generalizing ra rcf s with
  | nil => exact ⟨s, by simp only [frames, if_pos (show quad (s.stack ra) 3 = uintptrMax from hlaid),
      describedFrames, length_nil]⟩
  | cons call calls ih =>
    obtain ⟨hbv, hrest⟩ := hlaid
    obtain rfl : rcf = sizeRcf := hhead (by simp)
    have hcallFits := hfits call (.head _)
    -- the frame is visited at its own place, and its return address is kept
    let cells := call.slots.map fun offset : Nat => ra + rcf + call.fn.sizeFd - offset
    let s1 := evacuateCells evacuate s cells
    let next := ra + rcf + call.fn.sizeFf + call.fn.sizeCcf + 1
    have hkept : ∀ a, a = next ∨ next + call.fn.sizeRcf < a → s1.stack a = s.stack a :=
      fun a ha => evacuate_slots_stack evacuate s ha
    have hnext : calls ≠ [] → call.fn.sizeRcf = rcf := by
      intro hne
      apply hrcf
      obtain ⟨second, calls, rfl⟩ := exists_cons_of_ne_nil hne
      simp
    have hdrop : ∀ other ∈ calls.dropLast, other.fn.sizeRcf = rcf := by
      intro other hmem
      apply hrcf
      cases calls with
      | nil => cases hmem
      | cons second calls => exact .tail _ hmem
    obtain ⟨s', hs'⟩ := ih (s := s1) (laidOut_congr_stack hkept hrest)
      (fun other hmem => hfits other (.tail _ hmem)) hnext hdrop
    rw [describedFrames_congr hkept] at hs'
    have hstep := frames_step evacuate hbv hcallFits rcf (calls.length + 1) s (ra + rcf)
    refine ⟨s', ?_⟩
    rw [length_cons, hstep, hs']
    rfl

/-! ## What the frames that were found say about the walk -/

theorem length_frameCells_le (quads : Nat → Nat) (spPtr : Int)
    (fdSize left offset w wIdx wPtr : Nat) :
    (frameCells quads spPtr fdSize left offset w wIdx wPtr).length ≤ left := by
  induction left generalizing offset w wIdx wPtr with
  | zero => exact le_refl 0
  | succ left ih =>
    simp only [frameCells]
    split <;> split
    all_goals first
      | exact succ_le_succ (ih _ _ _ _)
      | exact le_succ_of_le (ih _ _ _ _)

variable {s' : GcState σ}

section

variable (h : frames evacuate quad sizeRcf fuel s spPtr lab = some (visits, s'))

include h

theorem frames_inv :
    visits = [] ∧ quad lab 3 = uintptrMax ∨
      ∃ cells rest, visits = (lab, cells) :: rest ∧ cells.length ≤ quad lab 3 ∧
        ∃ fuel' s1 spPtr' lab', fuel = fuel' + 1 ∧
          frames evacuate quad sizeRcf fuel' s1 spPtr' lab' = some (rest, s') := by
  cases fuel with
  | zero => cases h
  | succ fuel =>
    simp only [frames] at h
    split at h
    · rename_i hend
      cases h
      exact .inl ⟨rfl, hend⟩
    · obtain ⟨⟨rest, last⟩, hrest, heq⟩ := Option.map_eq_some_iff.1 h
      cases heq
      exact .inr ⟨_, rest, rfl, length_frameCells_le _ _ _ _ _ _ _ _, fuel, _, _, _, rfl, hrest⟩

/-- No more cells are evacuated in a frame than its descriptor has room for. -/
theorem frames_length_le : ∀ visit ∈ visits, visit.2.length ≤ quad visit.1 3 := by
  induction fuel generalizing s spPtr lab visits with
  | zero => cases h
  | succ fuel ih =>
    obtain ⟨rfl, -⟩ | ⟨cells, rest, rfl, hle, fuel', s1, spPtr', lab', hfuel, hrest⟩ :=
      frames_inv evacuate h
    · simp
    · cases hfuel
      exact forall_mem_cons.2 ⟨hle, ih hrest⟩

end

/-- The walk that finds the described frames has started with their descriptor. -/
theorem frames_label
    (hend : ∀ lab lab', quad lab 3 = uintptrMax → quad lab' 3 = uintptrMax → lab = lab')
    (hlaid : LaidOut quad stack ra rcf calls)
    (h : frames evacuate quad sizeRcf fuel s spPtr lab =
      some (describedFrames stack ra rcf calls, s')) :
    lab = stack ra := by
  cases calls with
  | nil =>
    obtain ⟨-, hlab⟩ | ⟨cells, rest, heq, -⟩ := frames_inv evacuate h
    · exact hend _ _ hlab hlaid
    · cases heq
  | cons call calls =>
    obtain ⟨heq, -⟩ | ⟨cells, rest, heq, -⟩ := frames_inv evacuate h
    · cases heq
    · simp only [describedFrames, List.cons.injEq, Prod.mk.injEq] at heq
      exact heq.1.1.symm

theorem Call.slots_eq_nil (h : call.lSet = ∅) : call.slots = [] := by
  simp [Call.slots, h]

/-- One turn of the loop over a frame without roots leaves the stack alone. -/
theorem frames_step_empty (hbv : GenBv quad lab call.bv) (hfits : call.fn.sizeFd < 2 ^ 32)
    (hempty : call.lSet = ∅)
    (h : frames evacuate quad sizeRcf fuel s base lab = some ((lab, cells) :: visits, s')) :
    ∃ fuel', frames evacuate quad sizeRcf fuel' s
      (base + call.fn.sizeFf + call.fn.sizeCcf + 1 + sizeRcf)
      (s.stack (base + call.fn.sizeFf + call.fn.sizeCcf + 1)) = some (visits, s') := by
  cases fuel with
  | zero => cases h
  | succ fuel =>
    have hstep := frames_step evacuate hbv hfits sizeRcf fuel s base
    simp only [Call.slots_eq_nil hempty, map_nil, evacuateCells, foldl_nil] at hstep
    rw [hstep] at h
    obtain ⟨⟨rest, last⟩, hrest, heq⟩ := Option.map_eq_some_iff.1 h
    cases heq
    exact ⟨fuel, hrest⟩

/-- On a stack whose return labels are all different, the walk that finds the
described frames has used the right number of result words for each of them. -/
theorem frames_rcf (hpos : 0 ≤ ra) (hid : ∀ a, ra ≤ a → s.stack a = a.toNat)
    (hend : ∀ lab lab', quad lab 3 = uintptrMax → quad lab' 3 = uintptrMax → lab = lab')
    (hlaid : LaidOut quad s.stack ra rcf calls) (hfits : ∀ call ∈ calls, call.fn.sizeFd < 2 ^ 32)
    (hempty : ∀ call ∈ calls, call.lSet = ∅)
    (hrun : frames evacuate quad sizeRcf fuel s (ra + rcf) (s.stack ra) =
      some (describedFrames s.stack ra rcf calls, s')) :
    ∀ call ∈ calls.dropLast, call.fn.sizeRcf = sizeRcf := by
  induction calls generalizing ra rcf fuel with
  | nil => simp
  | cons call calls ih =>
    obtain ⟨hbv, hrest⟩ := hlaid
    obtain ⟨hcallFits, hfits⟩ := forall_mem_cons.1 hfits
    obtain ⟨hcallEmpty, hempty⟩ := forall_mem_cons.1 hempty
    obtain ⟨fuel1, hrun1⟩ := frames_step_empty evacuate hbv hcallFits hcallEmpty hrun
    cases calls with
    | nil => simp
    | cons second calls =>
      obtain ⟨hbv2, hrest2⟩ := id hrest
      have hfits2 := hfits second (.head _)
      have hempty2 := hempty second (.head _)
      obtain ⟨fuel2, hrun2⟩ := frames_step_empty evacuate hbv2 hfits2 hempty2 hrun1
      -- the return label behind the second frame tells where the walk thought that frame was
      have hlab := frames_label evacuate hend hrest2 hrun2
      rw [hid _ (by omega), hid _ (by omega)] at hlab
      have hrcf : call.fn.sizeRcf = sizeRcf := by omega
      subst hrcf
      have hothers := ih (by omega) (fun a ha => hid a (by omega)) hrest hfits hempty hrun1
      exact forall_mem_cons.2 ⟨rfl, hothers⟩

/-- The loops before the one over frames do what is described, and keep the stack
from the first return address on. -/
theorem gcRoots_entered (fn : Entered) (regMap : Nat) (rsp : Int) (stack : Stack)
    (calls : List Call) (regs : Reg → Nat) (heap : σ) :
    ∃ s2 : GcState σ, (∀ a, rsp + fn.sizeCcf ≤ a → s2.stack a = stack a) ∧
      ∀ fuel, gcRoots evacuate quad fuel ⟨(gcStub regs (doGc fn (rsp, stack))).2, heap⟩
          (gcStub regs (doGc fn (rsp, stack))).1 regMap =
        (frames evacuate quad fn.sizeRcf fuel s2 (rsp + fn.sizeCcf + fn.sizeRcf)
          (s2.stack (rsp + fn.sizeCcf))).map
          fun r => { describedRoots fn regMap rsp stack calls with frames := r.1 } := by
  have hpushed := gcStub_pushed regs fn rsp stack
  rw [gcStub_fst]
  generalize (gcStub regs (doGc fn (rsp, stack))).2 = stack' at hpushed
  -- the registers lie below the three sizes
  have hregs : liveRegisters (rsp - 19) numRegs 0 regMap =
      (describedRoots fn regMap rsp stack calls).registers := by
    have h := liveRegisters_eq (rsp - 19) regMap numRegs 0
    rw [shiftRight_zero, ← range_eq_range'] at h
    rw [h]
    refine map_congr_left fun k _ => ?_
    simp only [numRegs, savedCell]
    omega
  let registers := (describedRoots fn regMap rsp stack calls).registers
  let s1 := evacuateCells evacuate ⟨stack', heap⟩ registers
  have hs1 : ∀ a, rsp - 3 ≤ a → s1.stack a = stack' a := by
    intro a ha
    apply evacuateCells_stack
    intro hmem
    obtain ⟨k, -, rfl⟩ := mem_map.1 hmem
    simp only [savedCell] at ha
    omega
  have hspilled := (hs1 (rsp - 3) (by omega)).trans hpushed.spilledRegionArgs
  have hrcf := (hs1 (rsp - 3 + 1) (by omega)).trans hpushed.rcf
  have hccf := (hs1 (rsp - 3 + 2) (by omega)).trans hpushed.ccf
  have hsizes : rsp - 19 + (numRegs : Int) = rsp - 3 := by
    simp only [numRegs]
    omega
  have hargs : spilledArguments fn.sizeSpilledRegionArgs fn.sizeCcf 0 rsp =
      (describedRoots fn regMap rsp stack calls).arguments := by
    have h := spilledArguments_eq fn.sizeSpilledRegionArgs fn.sizeCcf 0 rsp
    rw [← range_eq_range', Int.ofNat_zero, Int.add_zero] at h
    exact h
  let arguments := (describedRoots fn regMap rsp stack calls).arguments
  let s2 := evacuateCells evacuate s1 arguments
  refine ⟨s2, ?_, ?_⟩
  · intro a ha
    have hargsBelow : a ∉ arguments := by
      intro hmem
      obtain ⟨i, hi, rfl⟩ := mem_map.1 hmem
      have hlt := mem_range.1 (mem_of_mem_filter hi)
      omega
    rw [evacuateCells_stack evacuate hargsBelow, hs1 a (by omega)]
    exact hpushed.above a (by omega)
  · intro fuel
    simp only [gcRoots, hregs]
    rw [hsizes, hspilled, hrcf, hccf, Int.sub_add_cancel, hargs]

end Walk

/-! ## A stack for any suspended calls

Every word of the stack from the first return address on is its own address, so
the return labels are all different. -/

/-- The quads before the return labels of such a stack. -/
def quadsOf : (ra : Int) → (sizeRcf : Nat) → List Call → Nat → Nat → Nat
  | ra, _, [], lab, _ => if (lab : Int) = ra then uintptrMax else 0
  | ra, sizeRcf, call :: calls, lab, k =>
    if (lab : Int) = ra then ((call.bv[k - 1]?).map BitVec.toNat).getD 0
    else quadsOf (ra + sizeRcf + call.fn.sizeFf + call.fn.sizeCcf + 1) call.fn.sizeRcf calls lab k

theorem laidOut_quadsOf (sizeRcf : Nat) (calls : List Call) (hpos : 0 ≤ ra)
    (hid : ∀ a, ra ≤ a → stack a = a.toNat) :
    LaidOut (quadsOf ra sizeRcf calls) stack ra sizeRcf calls := by
  induction calls generalizing ra sizeRcf with
  | nil =>
    simp only [LaidOut, quadsOf, hid ra (Int.le_refl ra)]
    exact if_pos (by omega)
  | cons call calls ih =>
    have hra : (stack ra : Int) = ra := by
      rw [hid ra (Int.le_refl ra)]
      omega
    constructor
    · intro i w hw
      simp only [quadsOf, if_pos hra, Nat.add_sub_cancel, hw, Option.map_some, Option.getD_some]
    · have hrest : ∀ a, ra < a → quadsOf ra sizeRcf (call :: calls) (stack a) = quadsOf
          (ra + sizeRcf + call.fn.sizeFf + call.fn.sizeCcf + 1) call.fn.sizeRcf calls (stack a) := by
        intro a ha
        funext k
        rw [quadsOf, if_neg]
        rw [hid a (by omega)]
        omega
      exact laidOut_congr (fun a ha => hrest a (by omega))
        (ih call.fn.sizeRcf (by omega) fun a ha => hid a (by omega))

theorem quadsOf_end (h : quadsOf ra sizeRcf calls lab 3 = uintptrMax)
    (h' : quadsOf ra sizeRcf calls lab' 3 = uintptrMax) : lab = lab' := by
  induction calls generalizing ra sizeRcf with
  | nil =>
    simp only [quadsOf, uintptrMax] at h h'
    split at h <;> split at h' <;> omega
  | cons call calls ih =>
    have hword : ((call.bv[3 - 1]?).map BitVec.toNat).getD 0 ≠ uintptrMax := by
      cases hget : call.bv[3 - 1]? with
      | none => simp [uintptrMax]
      | some w =>
        simp only [Option.map_some, Option.getD_some, uintptrMax]
        omega
    simp only [quadsOf] at h h'
    split at h
    · exact absurd h hword
    · split at h'
      · exact absurd h' hword
      · exact ih h h'

def emptyCall (fn : FnSizes) : Call := ⟨fn, ∅, 0, by simp⟩

/-- Every word of a frame but the return address. -/
def FnSizes.slotSet (fn : FnSizes) : Finset Int :=
  ((Finset.range fn.sizeFd).erase fn.sizeRcf).image fun offset : Nat => (offset : Int)

theorem FnSizes.mem_slotSet {fn : FnSizes} {offset : Nat} :
    (offset : Int) ∈ fn.slotSet ↔ offset ≠ fn.sizeRcf ∧ offset < fn.sizeFd := by
  rw [FnSizes.slotSet, Finset.mem_image]
  constructor
  · rintro ⟨x, hx, heq⟩
    obtain rfl : x = offset := Int.ofNat_inj.1 heq
    simpa using hx
  · intro h
    exact ⟨offset, by simpa using h, rfl⟩

def fullCall (fn : FnSizes) : Call where
  fn := fn
  lSet := fn.slotSet
  funNr := 0
  returnAddress_not_mem := fun h => (FnSizes.mem_slotSet.1 h).1 rfl

theorem length_slots_fullCall (fn : FnSizes) : (fullCall fn).slots.length = fn.sizeFd - 1 := by
  have hslots : (fullCall fn).slots = (List.range fn.sizeFd).erase fn.sizeRcf := by
    rw [nodup_range.erase_eq_filter]
    refine filter_congr fun offset hmem => ?_
    have hlt : offset < fn.sizeFd := mem_range.1 hmem
    have hset : (offset : Int) ∈ (fullCall fn).lSet ↔ offset ≠ fn.sizeRcf := by
      rw [show (fullCall fn).lSet = fn.slotSet from rfl, FnSizes.mem_slotSet]
      exact and_iff_left hlt
    rw [Bool.eq_iff_iff, decide_eq_true_iff, bne_iff_ne]
    exact hset
  have hmem : fn.sizeRcf ∈ List.range fn.sizeFd := by
    simp only [mem_range, FnSizes.sizeFd]
    omega
  rw [hslots, length_erase_of_mem hmem, length_range]

theorem laidOut_described (h : LaidOut quad stack ra sizeRcf calls) (hmem : call ∈ calls) :
    ∃ visit ∈ describedFrames stack ra sizeRcf calls,
      visit.2.length = call.slots.length ∧ GenBv quad visit.1 call.bv := by
  induction calls generalizing ra sizeRcf with
  | nil => cases hmem
  | cons head calls ih =>
    obtain ⟨hbv, hrest⟩ := h
    rcases mem_cons.1 hmem with rfl | hmem
    · exact ⟨_, .head _, length_map _, hbv⟩
    · obtain ⟨visit, hvisit, hspec⟩ := ih hrest hmem
      exact ⟨visit, .tail _ hvisit, hspec⟩

/-! ## The walk as a whole -/

section Walk

variable {σ : Type} (evacuate : Nat → σ → Nat × σ)

/-- For suspended functions of these sizes, whatever their calls describe as roots
and whatever else is on the stack: when the function that was entered calls the
collector, its search ends and evacuates the described cells, frame by frame. -/
def WalksExactly (heap : σ) (fn : Entered) (fns : List FnSizes) : Prop :=
  ∀ calls : List Call, calls.map Call.fn = fns →
    ∀ (quad : Nat → Nat → Nat) (stack : Stack) (rsp : Int) (regs : Reg → Nat) (regMap : Nat),
      LaidOut quad stack (rsp + fn.sizeCcf) fn.sizeRcf calls →
        let entered := gcStub regs (doGc fn (rsp, stack))
        ∃ fuel, gcRoots evacuate quad fuel ⟨entered.2, heap⟩ entered.1 regMap =
          some (describedRoots fn regMap rsp stack calls)

variable {heap : σ}

theorem walksExactly_of (hfits : ∀ f ∈ fns, f.sizeFd < 2 ^ 32)
    (hrcf : ∀ f ∈ fns.dropLast, f.sizeRcf = fn.sizeRcf) : WalksExactly evacuate heap fn fns := by
  rintro calls rfl quad stack rsp regs regMap hlaid
  obtain ⟨s2, habove, hroots⟩ := gcRoots_entered evacuate fn regMap rsp stack calls regs heap
  rw [← map_dropLast] at hrcf
  obtain ⟨s', hframes⟩ := frames_eq evacuate
    (laidOut_congr_stack (fun a ha => habove a (by omega)) hlaid) (fun call hmem => hfits _ (mem_map_of_mem hmem))
    (fun _ => rfl) (fun call hmem => hrcf _ (mem_map_of_mem hmem))
  rw [describedFrames_congr fun a ha => habove a (by omega)] at hframes
  refine ⟨calls.length + 1, ?_⟩
  rw [hroots, hframes]
  rfl

section

variable (h : WalksExactly evacuate heap fn fns)

include h

/-- A walk that is exact finds the described frames of the calls on such a stack. -/
theorem WalksExactly.frames {c : FnSizes → Call} (hfn : ∀ f, (c f).fn = f) :
    ∃ quad fuel, ∃ s s' : GcState σ, ∃ ra : Int, 0 ≤ ra ∧ (∀ a, ra ≤ a → s.stack a = a.toNat) ∧
      (∀ lab lab', quad lab 3 = uintptrMax → quad lab' 3 = uintptrMax → lab = lab') ∧
      LaidOut quad s.stack ra fn.sizeRcf (fns.map c) ∧
      frames evacuate quad fn.sizeRcf fuel s (ra + fn.sizeRcf) (s.stack ra) =
        some (describedFrames s.stack ra fn.sizeRcf (fns.map c), s') := by
  let stack : Stack := fun a => a.toNat
  have hid : ∀ a, (0 : Int) + fn.sizeCcf ≤ a → stack a = a.toNat := fun a _ => rfl
  have hlaid := laidOut_quadsOf fn.sizeRcf (fns.map c) (by omega) hid
  have hcalls : (fns.map c).map Call.fn = fns := by
    rw [map_map, show Call.fn ∘ c = id from funext hfn, map_id]
  obtain ⟨fuel, hroots⟩ := h _ hcalls _ stack 0 (fun _ => 0) 0 hlaid
  obtain ⟨s2, habove, hentered⟩ := gcRoots_entered evacuate fn 0 0 stack (fns.map c)
    (fun _ => 0) heap
  have hkept : ∀ a, a = 0 + (fn.sizeCcf : Int) ∨ 0 + (fn.sizeCcf : Int) + fn.sizeRcf < a →
    s2.stack a = stack a := fun a ha => habove a (by omega)
  rw [hentered fuel] at hroots
  obtain ⟨⟨visits, s'⟩, hrun, hvisits⟩ := Option.map_eq_some_iff.1 hroots
  have hframes : visits = describedFrames stack (0 + fn.sizeCcf) fn.sizeRcf (fns.map c) :=
    congrArg Roots.frames hvisits
  rw [hframes, ← describedFrames_congr hkept] at hrun
  exact ⟨_, fuel, s2, s', 0 + fn.sizeCcf, by omega, fun a ha => habove a ha,
    fun lab lab' => quadsOf_end, laidOut_congr_stack hkept hlaid, hrun⟩

theorem WalksExactly.sizeFd_lt : ∀ f ∈ fns, f.sizeFd < 2 ^ 32 := by
  intro f hf
  obtain ⟨quad, fuel, s, s', ra, -, -, -, hlaid, hrun⟩ :=
    h.frames evacuate (c := fullCall) fun _ => rfl
  obtain ⟨visit, hvisit, hlength, hbv⟩ := laidOut_described hlaid (mem_map_of_mem hf)
  have hle := frames_length_le evacuate hrun visit hvisit
  have hsize : quad visit.1 3 = f.sizeFd % 2 ^ 32 := (genBv_described hbv).size
  rw [hlength, length_slots_fullCall, hsize] at hle
  omega

theorem WalksExactly.sizeRcf_eq : ∀ f ∈ fns.dropLast, f.sizeRcf = fn.sizeRcf := by
  obtain ⟨quad, fuel, s, s', ra, hpos, hid, hend, hlaid, hrun⟩ :=
    h.frames evacuate (c := emptyCall) fun _ => rfl
  have hfits : ∀ call ∈ fns.map emptyCall, call.fn.sizeFd < 2 ^ 32 := by
    intro call hmem
    obtain ⟨f, hf, rfl⟩ := mem_map.1 hmem
    exact h.sizeFd_lt evacuate f hf
  have hempty : ∀ call ∈ fns.map emptyCall, call.lSet = ∅ := by
    intro call hmem
    obtain ⟨f, -, rfl⟩ := mem_map.1 hmem
    rfl
  have hrcf := frames_rcf evacuate hpos hid hend hlaid hfits hempty hrun
  intro f hf
  rw [← map_dropLast] at hrcf
  exact hrcf (emptyCall f) (mem_map_of_mem hf)

end

/-- The collector evacuates exactly the described roots if and only if descriptors
can hold the sizes of the frames, and every suspended function but the outermost one
has as many result words as the function that entered the collector. -/
theorem walksExactly_iff (heap : σ) (fn : Entered) (fns : List FnSizes) :
    WalksExactly evacuate heap fn fns ↔
      (∀ f ∈ fns, f.sizeFd < 2 ^ 32) ∧ ∀ f ∈ fns.dropLast, f.sizeRcf = fn.sizeRcf := by
  constructor
  · intro h
    exact ⟨h.sizeFd_lt evacuate, h.sizeRcf_eq evacuate⟩
  · rintro ⟨hfits, hrcf⟩
    exact walksExactly_of evacuate hfits hrcf

end Walk

/-! ## A function with a result on the stack

A function with one word of its own calls a function that returns a result in a
word of the stack, and that function calls one that enters the collector. -/

def resultCalls : List Call := [⟨⟨0, 0, 1⟩, ∅, 0, by simp⟩, ⟨⟨1, 0, 0⟩, {1}, 1, by simp⟩]

/-- The return labels are 10, 11 and 12; the root is the word at address 3. -/
def resultStack : Stack
  | 0 => 10
  | 1 => 11
  | 3 => 7
  | 4 => 12
  | _ => 1

def resultQuads : Nat → Nat → Nat
  | 10, 3 => 2
  | 10, _ => 0
  | 11, 1 => 1
  | 11, 2 => 1
  | 11, 3 => 2
  | 11, 4 => 2
  | 11, _ => 0
  | _, _ => uintptrMax

theorem resultCalls_bv : resultCalls.map Call.bv = [[0, 0, 2, 0], [1, 1, 2, 2]] := by
  simp [resultCalls, Call.bv, genBitvector, FnSizes.frameSizes, postfixWords, offsetsSorted,
    Edlib.sort, genWords, setBit]

theorem genBv_four {a : Word32} (ha : quad lab 1 = a.toNat) (hb : quad lab 2 = b.toNat)
    (hc : quad lab 3 = c.toNat) (hd : quad lab 4 = d.toNat) : GenBv quad lab [a, b, c, d] := by
  rintro (_ | _ | _ | _ | i) w h
  · cases h; exact ha
  · cases h; exact hb
  · cases h; exact hc
  · cases h; exact hd
  · cases h

theorem resultStack_laidOut : LaidOut resultQuads resultStack 0 0 resultCalls := by
  have hbv := resultCalls_bv
  simp only [resultCalls, map_cons, map_nil, List.cons.injEq, and_true] at hbv
  refine ⟨?_, ?_, rfl⟩
  · rw [hbv.1]
    exact genBv_four rfl rfl rfl rfl
  · rw [hbv.2]
    exact genBv_four rfl rfl rfl rfl

/-- The word of the result is evacuated in place of the root. -/
theorem result_word_shifts_frame :
    LaidOut resultQuads resultStack 0 0 resultCalls ∧
      (let entered := gcStub (fun _ => 0) (doGc ⟨0, 0, 0⟩ (0, resultStack))
      gcRoots (fun value (heap : Unit) => (value, heap)) resultQuads 3 ⟨entered.2, ()⟩ entered.1 0 =
        some ⟨[], [], [(10, []), (11, [2])]⟩) ∧
      describedRoots ⟨0, 0, 0⟩ 0 0 resultStack resultCalls = ⟨[], [], [(10, []), (11, [3])]⟩ := by
  exact ⟨resultStack_laidOut, rfl, rfl⟩

end MLKit.Runtime
