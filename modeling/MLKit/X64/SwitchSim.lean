import MLKit.Backend.SelectorGroups
import MLKit.X64.SwitchCode

/-!
# The search code runs the search

The code that `genBinarySwitch` emits for a list of groups is a search tree over
signed words.  Running it from a state that holds the operand ends where
searching the tree ends: at a branch, at the default branch, or at an indirect
jump that has no encoding.
-/

namespace MLKit.X64.Switch

open MLKit.Backend MLKit.Backend.JumpTables MLKit.Lib

variable {β : Type}

/-- The signed word that a number is compared as. -/
def signed (i : Int) : Int := (BitVec.ofInt 64 i).toInt

/-! ## Tests -/

/-- An operand that does not depend on `tmpReg0`. -/
def AvoidsTmp : Ea → Prop
  | .R reg => reg ≠ RI.tmpReg0
  | .D _ reg => reg ≠ RI.tmpReg0
  | _ => False

def Holds (opr : Ea) (x : BitVec 64) (s : State β) : Prop := read s opr = some (.num x)

variable {opr src out : Ea} {x word : BitVec 64} {s : State β}
  {prog code last code' C : List (Inst β)} {c' c : Config β} {lab leftLab rightLab : Lab}

theorem Holds.setTmp (hopr : AvoidsTmp opr) (hs : Holds opr x s) (value : Value) :
    Holds opr x (s.setReg RI.tmpReg0 value) := by
  cases opr with
  | R reg => simpa [Holds, read, State.setReg_regs_ne _ _ hopr] using hs
  | D displacement reg => simpa [Holds, read, address, State.setReg_regs_ne _ _ hopr] using hs
  | _ => exact hopr.elim

theorem Holds.setFlags (hs : Holds opr x s) (flags : Ordering) : Holds opr x { s with flags } := by
  cases opr with
  | _ => exact hs

section Tests

theorem cmpq_step (C : List (Inst β)) (hs : Holds opr x s)
    (hsrc : read s src = some (.num word)) :
    step prog ⟨.cmpq src opr :: C, s⟩ =
      some ⟨C, { s with flags := compare x.toInt word.toInt }⟩ := by
  rw [Holds] at hs
  simp [step, readNum, Value.num?, hs, hsrc]

theorem cmp_run (hopr : AvoidsTmp opr) (hs : Holds opr x s) (i : Int) (C : List (Inst β)) :
    ∃ s', Reaches (step prog) ⟨cmp opr i C, s⟩ ⟨C, s'⟩ ∧ Holds opr x s' ∧
      s'.trace = s.trace ∧ s'.flags = compare x.toInt (signed i) := by
  rw [cmp]
  split
  · exact ⟨_, .single (cmpq_step C hs rfl), hs.setFlags _, rfl, rfl⟩
  · have htmp := hs.setTmp hopr (.num (BitVec.ofInt 64 i))
    refine ⟨_, .trans (.single rfl) (.single (cmpq_step C htmp ?_)), htmp.setFlags _, rfl, rfl⟩
    simp [read]

/-- A test of the operand and a conditional jump. -/
theorem test_run (hopr : AvoidsTmp opr) (hs : Holds opr x s) (i : Int) (jump : Lab → Inst β)
    (taken : Ordering → Bool)
    (hjump : ∀ lab C s, step prog ⟨jump lab :: C, s⟩ = jumpIf prog (taken s.flags) lab C s)
    (hlab : codeFrom labelOf lab prog = some code) (C : List (Inst β)) :
    ∃ s', Reaches (step prog) ⟨cmp opr i (jump lab :: C), s⟩
        ⟨if taken (compare x.toInt (signed i)) then code else C, s'⟩ ∧
      Holds opr x s' ∧ s'.trace = s.trace := by
  obtain ⟨s', hrun, hs', htrace, hflags⟩ := cmp_run hopr hs i (jump lab :: C)
  refine ⟨s', hrun.trans (.single ?_), hs', htrace⟩
  rw [hjump, jumpIf, hflags]
  split <;> simp [goto, hlab]

end Tests

/-! ## Where a search ends -/

inductive Outcome (β : Type) where
  | branch (branch : β)
  | default
  | stuck
  deriving DecidableEq

/-- The run from a configuration comes to an outcome with no branch run so far:
to a branch that leaves the switch through `out`, to the code of the default
branch, or to an instruction that cannot be run. -/
def Lands (prog : List (Inst β)) (out : Ea) (last : List (Inst β)) (c : Config β) : Outcome β → Prop
  | .branch branch => ∃ rest s', Reaches (step prog) c ⟨.body branch :: .jmp out :: rest, s'⟩ ∧
      s'.trace = c.state.trace
  | .default => ∃ s', Reaches (step prog) c ⟨last, s'⟩ ∧ s'.trace = c.state.trace
  | .stuck => ∃ c', Reaches (step prog) c c' ∧ step prog c' = none ∧
      c'.state.trace = c.state.trace

variable {outcome : Outcome β}

theorem Lands.of_reaches (hlands : Lands prog out last c' outcome)
    (hrun : Reaches (step prog) c c') (htrace : c'.state.trace = c.state.trace) :
    Lands prog out last c outcome := by
  cases outcome with
  | branch branch =>
    obtain ⟨rest, s', hrun', htrace'⟩ := hlands
    exact ⟨rest, s', hrun.trans hrun', htrace'.trans htrace⟩
  | default =>
    obtain ⟨s', hrun', htrace'⟩ := hlands
    exact ⟨s', hrun.trans hrun', htrace'.trans htrace⟩
  | stuck =>
    obtain ⟨c'', hrun', hstuck, htrace'⟩ := hlands
    exact ⟨c'', hrun.trans hrun', hstuck, htrace'.trans htrace⟩

/-- Groups as the code tests them: the middle one first. -/
inductive Tree (β : Type) where
  | leaf
  | node (left : Tree β) (group : JumpTables.Group β) (right : Tree β)

def Tree.groups : Tree β → List (JumpTables.Group β)
  | .leaf => []
  | .node left group right => left.groups ++ group :: right.groups

/-- Inside the bounds of a group the operand stands for one of its selectors or
for a hole of its table. -/
def enter (x : BitVec 64) (group : JumpTables.Group β) : Outcome β :=
  if 1 < group.sels.length ∧ ¬ Encodable (-8 * group.startSel) then .stuck
  else
    match group.sels.lookup (group.startSel + (x.toInt - signed group.startSel)) with
    | some branch => .branch branch
    | none => .default

def Tree.search (x : BitVec 64) : Tree β → Outcome β
  | .leaf => .default
  | .node left group right =>
    if x.toInt < signed group.startSel then left.search x
    else if signed group.finishSel < x.toInt then right.search x
    else enter x group

/-- The code ends where `outcome` says, from every state with the operand. -/
def Simulates (prog : List (Inst β)) (opr : Ea) (x : BitVec 64) (out : Ea)
    (last code : List (Inst β)) (outcome : Outcome β) : Prop :=
  ∀ s, Holds opr x s → Lands prog out last ⟨code, s⟩ outcome

variable {group : JumpTables.Group β} {left right : Tree β}

section Node

variable {prog : List (Inst β)}

theorem Simulates.of_run
    (hrun : ∀ s, Holds opr x s → ∃ s', Reaches (step prog) ⟨code, s⟩ ⟨code', s'⟩ ∧ Holds opr x s' ∧
      s'.trace = s.trace)
    (hsim : Simulates prog opr x out last code' outcome) :
    Simulates prog opr x out last code outcome := by
  intro s hs
  obtain ⟨s', hreach, hs', htrace⟩ := hrun s hs
  exact (hsim s' hs').of_reaches hreach htrace

variable (hopr : AvoidsTmp opr)

include hopr

section Jumps

variable {s : State β} (hs : Holds opr x s) (i : Int) {code : List (Inst β)}
  (hlab : codeFrom labelOf lab prog = some code) (C : List (Inst β))

include hs hlab

theorem goNotEqual_run :
    ∃ s', Reaches (step prog) ⟨(target opr).ifNotEqualGoLabSel lab i C, s⟩
        ⟨if x.toInt = signed i then C else code, s'⟩ ∧ Holds opr x s' ∧ s'.trace = s.trace := by
  have hrun := test_run hopr hs i .jne (· != .eq) (fun _ _ _ => rfl) hlab C
  simpa [target, compare_eq_iff_eq, ite_not] using hrun

theorem goLess_run :
    ∃ s', Reaches (step prog) ⟨(target opr).ifLessThanGoLabSel lab i C, s⟩
        ⟨if x.toInt < signed i then code else C, s'⟩ ∧ Holds opr x s' ∧ s'.trace = s.trace := by
  have hrun := test_run hopr hs i .jl (· == .lt) (fun _ _ _ => rfl) hlab C
  simpa [target, compare_lt_iff_lt] using hrun

theorem goGreater_run :
    ∃ s', Reaches (step prog) ⟨(target opr).ifGreaterThanGoLabSel lab i C, s⟩
        ⟨if signed i < x.toInt then code else C, s'⟩ ∧ Holds opr x s' ∧ s'.trace = s.trace := by
  have hrun := test_run hopr hs i .jg (· == .gt) (fun _ _ _ => rfl) hlab C
  simpa [target, compare_gt_iff_gt] using hrun

end Jumps

variable {leftCode rightCode : List (Inst β)}
  (hleft : codeFrom labelOf leftLab prog = some leftCode)
  (hright : codeFrom labelOf rightLab prog = some rightCode)

include hleft hright

theorem twoTests_run (start finish : Int) (C : List (Inst β)) (hs : Holds opr x s) :
    ∃ s', Reaches (step prog) ⟨(target opr).ifLessThanGoLabSel leftLab start
          ((target opr).ifGreaterThanGoLabSel rightLab finish C), s⟩
        ⟨if x.toInt < signed start then leftCode
          else if signed finish < x.toInt then rightCode else C, s'⟩ ∧
      Holds opr x s' ∧ s'.trace = s.trace := by
  obtain ⟨s1, hrun1, hs1, htrace1⟩ := goLess_run hopr hs start hleft
    ((target opr).ifGreaterThanGoLabSel rightLab finish C)
  by_cases hlt : x.toInt < signed start
  · rw [if_pos hlt] at hrun1 ⊢
    exact ⟨s1, hrun1, hs1, htrace1⟩
  · rw [if_neg hlt] at hrun1 ⊢
    obtain ⟨s2, hrun2, hs2, htrace2⟩ := goGreater_run hopr hs1 finish hright C
    exact ⟨s2, hrun1.trans hrun2, hs2, htrace2.trans htrace1⟩

theorem binSearchCode_run (start finish : Int) (C : List (Inst β)) (hs : Holds opr x s) :
    ∃ s', Reaches (step prog) ⟨binSearchCode (target opr) leftLab start finish rightLab C, s⟩
        ⟨if x.toInt < signed start then leftCode
          else if signed finish < x.toInt then rightCode else C, s'⟩ ∧
      Holds opr x s' ∧ s'.trace = s.trace := by
  rw [binSearchCode]
  split
  · rename_i heq
    subst heq
    split
    · -- Both sides are the default branch, so one test is enough.
      rename_i hlab
      subst hlab
      obtain rfl := Option.some.inj (hleft.symm.trans hright)
      obtain ⟨s', hrun, h⟩ := goNotEqual_run hopr hs start hleft C
      refine ⟨s', ?_, h⟩
      rcases lt_trichotomy x.toInt (signed start) with hlt | heq | hgt
      · simpa [hlt, hlt.ne] using hrun
      · simpa [heq] using hrun
      · simpa [hgt, hgt.ne', not_lt.2 hgt.le] using hrun
    · exact twoTests_run hopr hleft hright start start C hs
  · exact twoTests_run hopr hleft hright start finish C hs

/-- The code of a node, from the code of its parts. -/
theorem simulates_node (hsimLeft : Simulates prog opr x out last leftCode (left.search x))
    (hsimRight : Simulates prog opr x out last rightCode (right.search x))
    (henter : signed group.startSel ≤ x.toInt → x.toInt ≤ signed group.finishSel →
      Simulates prog opr x out last C (enter x group)) :
    Simulates prog opr x out last
      (binSearchCode (target opr) leftLab group.startSel group.finishSel rightLab C)
      ((Tree.node left group right).search x) := by
  refine Simulates.of_run
    (fun s hs => binSearchCode_run hopr hleft hright group.startSel group.finishSel C hs) ?_
  rw [Tree.search]
  split
  · exact hsimLeft
  · rename_i hge
    split
    · exact hsimRight
    · rename_i hle
      exact henter (not_lt.1 hge) (not_lt.1 hle)

end Node

end MLKit.X64.Switch
