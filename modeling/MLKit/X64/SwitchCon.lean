import MLKit.X64.ConCode
import MLKit.X64.SwitchCorrect

/-!
# Switches on constructors

The code of `SWITCH_C`: the operand is prepared so that a switch on numbers can
compare it with the tags of the selectors.
-/

namespace MLKit.X64.Switch

open MLKit.Backend MLKit.Backend.SubstAndSimplify MLKit.Backend.JumpTables MLKit.Lib List BitVec

variable {β : Type}

/-! ## The code -/

/-- Moves of operands are instructions of switches. -/
def ofInst : X64.Inst → Except String (Inst β)
  | .movq src dst => .ok (.movq src dst)
  | _ => die "SWITCH_C: operand"

/-- Put code that moves an operand in front. -/
def front (gen : List X64.Inst → Except String (List X64.Inst)) (C : List (Inst β)) :
    Except String (List (Inst β)) := do
  let pre ← gen []
  return (← pre.mapM ofInst) ++ C

def compileNumSwitch (flags : Flags) (oprAty : Aty) (sels : List (Int × β)) (default : β)
    (sizeFf : Int) (C : List (Inst β)) (n : Nat) : Except String (List (Inst β) × Nat) :=
  match oprAty with
  | .phreg reg => binarySearch sels default (.R reg) .ok C n
  | _ => do
    let (C, n) ← binarySearch sels default (.R RI.tmpReg1) .ok C n
    return (← front (moveAtyIntoReg flags oprAty RI.tmpReg1 sizeFf) C, n)

/-- The two low bits of the operand, or all of it if they are set. -/
def ubTagCon (flags : Flags) (srcAty : Aty) (sizeFf : Int) (C : List (Inst β)) (n : Nat) :
    Except String (List (Inst β) × Nat) := do
  let contLab := newLocalLab "cont" n
  let C ← front (copy RI.tmpReg0 RI.tmpReg1) (.lab contLab :: C)
  let C ← front (copy RI.tmpReg0 RI.tmpReg1)
    (.andq (.I 3) (.R RI.tmpReg1) :: .cmpq (.I 3) (.R RI.tmpReg1) :: .jne contLab :: C)
  return (← front (moveAtyIntoReg flags srcAty RI.tmpReg0 sizeFf) C, n + 1)

def selNumber : ConKind → Int
  | .enum i => i
  | .unboxed i => i
  | .boxed i => i

/-- The operand is prepared as the representation of the selectors asks for. -/
def switchOn (flags : Flags) (conKind : ConKind) (oprAty : Aty) (sels : List (Int × β))
    (default : β) (sizeFf : Int) (C : List (Inst β)) (n : Nat) :
    Except String (List (Inst β) × Nat) :=
  match conKind with
  | .enum _ => compileNumSwitch flags oprAty sels default sizeFf C n
  | .unboxed _ => do
    let (C, n) ← compileNumSwitch flags (.phreg RI.tmpReg1) sels default sizeFf C n
    ubTagCon flags oprAty sizeFf C n
  | .boxed _ => do
    let (C, n) ← compileNumSwitch flags (.phreg RI.tmpReg1) sels default sizeFf C n
    return (← front (moveIndexAtyToAty flags oprAty (.phreg RI.tmpReg1) (.words 0) RI.tmpReg1
      sizeFf) C, n)

/-- `SWITCH_C` on a value.  The other form, on a flow variable, is a comparison
and not a switch on a constructed value. -/
def cgSwitchC (flags : Flags) (oprAty : Aty) (sels : List ((Con × ConKind) × β)) (default : β)
    (sizeFf : Int) (C : List (Inst β)) (n : Nat) : Except String (List (Inst β) × Nat) :=
  match sels with
  | [] => .ok (.body default :: C, n)
  | ((_, conKind), _) :: _ =>
    switchOn flags conKind oprAty (sels.map fun sel => (selNumber sel.1.2, sel.2)) default sizeFf C n

/-- A switch of the source, through closure conversion. -/
def switchC (flags : Flags) (env : CE.ConEnv) (oprAty : Aty) (sels : List (Con × β))
    (default : Option β) (sizeFf : Int) (C : List (Inst β)) (n : Nat) :
    Except String (List (Inst β) × Nat) := do
  let (sels, default) ← compileSelsAndDefault sels default (switchTag flags env)
  cgSwitchC flags oprAty sels default sizeFf C n

/-! ## Moving the operand -/

/-- The operand of a switch is a variable; the scratch registers hold none. -/
def IsSwitchOperand : Aty → Prop
  | .phreg reg => isXmm reg = false ∧ reg ≠ RI.tmpReg0 ∧ reg ≠ RI.tmpReg1
  | .stack _ => True
  | _ => False

/-- The value of the operand. -/
def OperandHolds (oprAty : Aty) (sizeFf : Int) (x : BitVec 64) (s : State β) : Prop :=
  match oprAty with
  | .phreg reg => Holds (.R reg) x s
  | .stack offset => Holds (.D (8 * (sizeFf - offset - 1)) .rsp) x s
  | _ => False

variable {reg : Reg} {gen g : List X64.Inst → Except String (List X64.Inst)} {src : Ea}
  {s s' : State β} {prog code C code' pre : List (Inst β)} {value : Value} {oprAty : Aty}
  {flags : Flags} {sizeFf w : Int} {branch : β} {lo hi : Nat} {R R' : State β → β → Prop}
  {selectors : List Int} {kind : CE.ConKind} {con : Con} {sels : List (Con × β)}

theorem front_movq (hgen : gen [] = .ok [.movq src (.R reg)]) (C : List (Inst β)) :
    front gen C = .ok (.movq src (.R reg) :: C) :=
  ok_bind hgen

theorem movq_step (h : read s src = some value) (reg : Reg) (C : List (Inst β)) :
    step prog ⟨.movq src (.R reg) :: C, s⟩ = some ⟨C, s.setReg reg value⟩ := by
  simp [step, h, write]

/-- The operand is moved to a register. -/
theorem moveAtyIntoReg_front (hopr : IsSwitchOperand oprAty) (hreg : isXmm reg = false)
    (hne : reg = RI.tmpReg0 ∨ reg = RI.tmpReg1) :
    ∃ src, (∀ C : List (Inst β), front (moveAtyIntoReg flags oprAty reg sizeFf) C =
        .ok (.movq src (.R reg) :: C)) ∧
      ∀ (x : BitVec 64) (s : State β), OperandHolds oprAty sizeFf x s →
        read s src = some (.num x) := by
  cases oprAty with
  | phreg r =>
    refine ⟨.R r, front_movq ?_, fun x s h => h⟩
    have hdiff : r ≠ reg := by
      rcases hne with rfl | rfl
      · exact hopr.2.1
      · exact hopr.2.2
    rw [moveAtyIntoReg, copy, if_neg hdiff, hopr.1, hreg]
  | stack offset =>
    refine ⟨.D (8 * (sizeFf - offset - 1)) .rsp, front_movq ?_, fun x s h => h⟩
    rw [moveAtyIntoReg, loadIndexed, if_neg (by decide), isXmmEa, hreg]
    rfl
  | _ => exact absurd hopr id

/-! ## Switches that run a branch -/

/-- The code `gen` emits, in any program that holds it, runs the branch that `R`
relates to the state. -/
def SwitchRuns (gen : List (Inst β) → Nat → Except String (List (Inst β) × Nat))
    (R : State β → β → Prop) : Prop :=
  ∀ C n, ∃ code hi, gen C n = .ok (code, hi) ∧ Adds n hi code C ∧
    ∀ prog, (labelsIn labelOf prog).Nodup → code <:+ prog → ∀ s branch, R s branch →
      RunsBranch prog code C s branch

theorem RunsBranch.of_reaches (h : RunsBranch prog code' C s' branch)
    (hreaches : Reaches (step prog) ⟨code, s⟩ ⟨code', s'⟩) (htrace : s'.trace = s.trace) :
    RunsBranch prog code C s branch := by
  obtain ⟨c, hrun, hexit, hc⟩ := h
  exact ⟨c, hreaches.trans hrun, hexit, by rw [hc, htrace]⟩

theorem Adds.append (h : Adds lo hi code C) (hpre : labelsIn labelOf pre = []) :
    Adds lo hi (pre ++ code) C := by
  induction pre with
  | nil => exact h
  | cons inst pre ih =>
    rw [labelsIn_cons, append_eq_nil_iff] at hpre
    exact (ih hpre.2).inst (Option.toList_eq_nil_iff.mp hpre.1)

variable {gen : List (Inst β) → Nat → Except String (List (Inst β) × Nat)}

/-- Code without labels in front. -/
theorem SwitchRuns.after (h : SwitchRuns gen R) (hlabels : labelsIn labelOf pre = [])
    (hg : ∀ C, front g C = .ok (pre ++ C))
    (hR : ∀ (prog C : List (Inst β)) s branch, R' s branch →
      ∃ s', Reaches (step prog) ⟨pre ++ C, s⟩ ⟨C, s'⟩ ∧ R s' branch ∧ s'.trace = s.trace) :
    SwitchRuns (fun C n => do
      let (C, n) ← gen C n
      return (← front g C, n)) R' := by
  intro C n
  obtain ⟨code, hi, hgen, hadds, hruns⟩ := h C n
  refine ⟨pre ++ code, hi, ?_, hadds.append hlabels, fun prog hnodup hsuffix s branch hs => ?_⟩
  · exact (ok_bind hgen).trans (ok_bind (hg code))
  · obtain ⟨s', hreaches, hs', htrace⟩ := hR prog code s branch hs
    exact (hruns prog hnodup ((suffix_append _ _).trans hsuffix) s' branch hs').of_reaches
      hreaches htrace

/-! ## The bits of the word -/

theorem and_three (w : Int) : BitVec.ofInt 64 w &&& 3#64 = BitVec.ofInt 64 (w % 4) := by
  apply eq_of_toNat_eq
  rw [toNat_and, show (3#64).toNat = 2 ^ 2 - 1 from rfl, Nat.and_two_pow_sub_one_eq_mod,
    toNat_ofInt, toNat_ofInt]
  omega

/-- The word that `UbTagCon` leaves in the scratch register. -/
def ubWord (w : Int) : Int := if w % 4 = 3 then w else w % 4

/-- The low bits are compared with 3, in the scratch register. -/
theorem lowBits_run (hs : Holds (.R RI.tmpReg1) (BitVec.ofInt 64 w) s) :
    ∃ s', Reaches (step prog)
        ⟨.andq (.I 3) (.R RI.tmpReg1) :: .cmpq (.I 3) (.R RI.tmpReg1) :: C, s⟩ ⟨C, s'⟩ ∧
      Holds (.R RI.tmpReg1) (BitVec.ofInt 64 (w % 4)) s' ∧
      s'.regs RI.tmpReg0 = s.regs RI.tmpReg0 ∧ s'.trace = s.trace ∧
      (s'.flags = .eq ↔ w % 4 = 3) := by
  have hregs : s.regs RI.tmpReg1 = .num (BitVec.ofInt 64 w) := Option.some.inj hs
  have hand : step prog ⟨.andq (.I 3) (.R RI.tmpReg1) :: .cmpq (.I 3) (.R RI.tmpReg1) :: C, s⟩ =
      some ⟨.cmpq (.I 3) (.R RI.tmpReg1) :: C,
        s.setReg RI.tmpReg1 (.num (BitVec.ofInt 64 (w % 4)))⟩ := by
    simp [step, readNum, read, Value.num?, write, hregs, ← and_three]
  have hholds : Holds (.R RI.tmpReg1) (BitVec.ofInt 64 (w % 4))
      (s.setReg RI.tmpReg1 (.num (BitVec.ofInt 64 (w % 4)))) := by
    simp [Holds, read]
  have hcmp : step prog ⟨.cmpq (.I 3) (.R RI.tmpReg1) :: C, _⟩ = _ :=
    cmpq_step C hholds (show read _ (.I 3) = some (.num (3#64)) from rfl)
  refine ⟨_, .trans (.single hand) (.single hcmp), hholds.setFlags _, ?_, rfl, ?_⟩
  · exact State.setReg_regs_ne s (.num (BitVec.ofInt 64 (w % 4)))
      (show RI.tmpReg0 ≠ RI.tmpReg1 by decide)
  · have htoInt : (BitVec.ofInt 64 (w % 4)).toInt = w % 4 := by
      rw [toInt_ofInt, Int.bmod_eq_of_le_mul_two (by omega) (by omega)]
    simp only [htoInt, compare_eq_iff_eq]
    exact Iff.rfl

theorem ubTagCon_runs (hopr : IsSwitchOperand oprAty) (h : SwitchRuns gen R)
    (hR : ∀ s branch, R' s branch → ∃ w, OperandHolds oprAty sizeFf (BitVec.ofInt 64 w) s ∧
      ∀ s', Holds (.R RI.tmpReg1) (BitVec.ofInt 64 (ubWord w)) s' → R s' branch) :
    SwitchRuns (fun C n => do
      let (C, n) ← gen C n
      ubTagCon flags oprAty sizeFf C n) R' := by
  intro C n
  obtain ⟨code, hi, hgen, hadds, hruns⟩ := h C n
  obtain ⟨src, hsrc, hread⟩ : ∃ src, (∀ C : List (Inst β), _ = _) ∧ _ :=
    moveAtyIntoReg_front hopr (show isXmm RI.tmpReg0 = false from rfl) (.inl rfl)
  have hcopy : ∀ C : List (Inst β), front (copy RI.tmpReg0 RI.tmpReg1) C =
      .ok (.movq (.R RI.tmpReg0) (.R RI.tmpReg1) :: C) := front_movq rfl
  let cont := newLocalLab "cont" hi
  let tail : List (Inst β) := .movq (.R RI.tmpReg0) (.R RI.tmpReg1) :: .lab cont :: code
  let whole : List (Inst β) := .movq src (.R RI.tmpReg0) :: .movq (.R RI.tmpReg0) (.R RI.tmpReg1) ::
    .andq (.I 3) (.R RI.tmpReg1) :: .cmpq (.I 3) (.R RI.tmpReg1) :: .jne cont :: tail
  refine ⟨whole, hi + 1, ?_, ?_, fun prog hnodup hsuffix s branch hs => ?_⟩
  · refine (ok_bind hgen).trans ?_
    refine (ok_bind (hcopy (.lab cont :: code))).trans ?_
    exact (ok_bind (hcopy _)).trans (ok_bind (hsrc _))
  · have hlabel := hadds.label_above "cont"
    exact (((((hlabel.inst rfl).inst rfl).inst rfl).inst rfl).inst rfl).inst rfl
  · obtain ⟨w, hw, hnext⟩ := hR s branch hs
    let s1 := s.setReg RI.tmpReg0 (.num (BitVec.ofInt 64 w))
    let s2 := s1.setReg RI.tmpReg1 (.num (BitVec.ofInt 64 w))
    have hfirst : step prog ⟨whole, s⟩ = some ⟨_, s1⟩ := movq_step (hread _ s hw) _ _
    have hs1 : read s1 (.R RI.tmpReg0) = some (.num (BitVec.ofInt 64 w)) := by simp [s1, read]
    have hs2 : Holds (.R RI.tmpReg1) (BitVec.ofInt 64 w) s2 := by simp [s2, Holds, read]
    obtain ⟨s3, hbits, hlow, htmp, htrace, hflags⟩ := lowBits_run hs2
    have hcode : code <:+ prog := (suffix_append (whole.take 7) code).trans hsuffix
    have hto3 : Reaches (step prog) ⟨whole, s⟩ ⟨.jne cont :: tail, s3⟩ :=
      .trans (.single hfirst) (.trans (.single (movq_step hs1 _ _)) hbits)
    by_cases hthree : w % 4 = 3
    · -- the bits are set: all of the word is copied once more
      have hjne : step prog ⟨.jne cont :: tail, s3⟩ = some ⟨tail, s3⟩ := by
        simp [step, jumpIf, hflags.mpr hthree]
      have hs3 : read s3 (.R RI.tmpReg0) = some (.num (BitVec.ofInt 64 w)) := by
        rw [read, htmp]
        simp [s2, s1, RI.tmpReg0, RI.tmpReg1]
      have hcopyBack : step prog ⟨tail, s3⟩ = _ := movq_step hs3 RI.tmpReg1 (.lab cont :: code)
      refine (hruns prog hnodup hcode (s3.setReg RI.tmpReg1 (.num (BitVec.ofInt 64 w))) branch
        (hnext _ ?_)).of_reaches ?_ htrace
      · simp [Holds, read, ubWord, hthree]
      · exact hto3.trans (.trans (.single hjne) (.trans (.single hcopyBack) (.single rfl)))
    · have hlab : codeFrom labelOf cont prog = some code :=
        codeFrom_of_suffix hnodup rfl
          ((suffix_append (whole.take 6) (.lab cont :: code)).trans hsuffix)
      have hne : (s3.flags != .eq) = true := by
        simpa using fun h => hthree (hflags.mp h)
      have hjne : step prog ⟨.jne cont :: tail, s3⟩ = some ⟨code, s3⟩ := by
        simp only [step, jumpIf, hne, if_true, goto, hlab, Option.map_some]
      refine (hruns prog hnodup hcode s3 branch (hnext _ ?_)).of_reaches
        (hto3.trans (.single hjne)) htrace
      rwa [ubWord, if_neg hthree]

/-! ## The switch on the tags -/

/-- What a switch on numbers needs to find each of them. -/
structure Searchable (nums : List (Int × β)) : Prop where
  range : ∀ sel ∈ nums, InRange true 64 sel.1
  distinct : (nums.map Prod.fst).Nodup
  size : nums.length ≤ 2 ^ 56
  tables : ∀ i, TableStart (nums.map Prod.fst) i → Encodable (-8 * i)

variable {nums : List (Int × β)}

theorem numSwitch_runs (hreg : reg ≠ RI.tmpReg0) (hnums : Searchable nums) (default : β) :
    SwitchRuns (fun C n => binarySearch nums default (.R reg) .ok C n)
      (fun s branch => ∃ v, InRange true 64 v ∧ Holds (.R reg) (BitVec.ofInt 64 v) s ∧
        branch = (nums.lookup v).getD default) := by
  intro C n
  have hrep : (nums.map Prod.fst).map (rep 64) = nums.map Prod.fst := by
    rw [map_congr_left (g := id) fun i _ => by simp [rep], map_id]
  have hsigned : OneSided (nums.map Prod.fst) := by
    left
    intro i hi
    obtain ⟨sel, hsel, rfl⟩ := mem_map.mp hi
    exact (hnums.range sel hsel).2
  obtain ⟨outcome, ⟨code, hi, hok, hadds, hruns⟩, hright⟩ :=
    binary_generates (.inr (.inr (.inr rfl))) hnums.range
      hnums.distinct hnums.size (show AvoidsTmp (.R reg) from hreg) (by simp [Compared])
      (.inr (by rw [hrep]; exact ⟨hsigned, hnums.tables⟩)) default C n
  refine ⟨code, hi, hok, hadds, fun prog hnodup hsuffix s branch hs => ?_⟩
  obtain ⟨v, hv, hholds, rfl⟩ := hs
  exact (hruns prog hnodup hsuffix _ s hholds _).2 (hright v hv _ (by simp [Held, rep]))

theorem compileNumSwitch_runs (hopr : IsSwitchOperand oprAty) (hnums : Searchable nums)
    (default : β) :
    SwitchRuns (fun C n => compileNumSwitch flags oprAty nums default sizeFf C n)
      (fun s branch => ∃ v, InRange true 64 v ∧ OperandHolds oprAty sizeFf (BitVec.ofInt 64 v) s ∧
        branch = (nums.lookup v).getD default) := by
  cases oprAty with
  | phreg reg => exact numSwitch_runs hopr.2.1 hnums default
  | stack offset =>
    obtain ⟨src, hsrc, hread⟩ : ∃ src, (∀ C : List (Inst β), _ = _) ∧ _ :=
      moveAtyIntoReg_front hopr (show isXmm RI.tmpReg1 = false from rfl) (.inr rfl)
    refine (numSwitch_runs (show RI.tmpReg1 ≠ RI.tmpReg0 by decide) hnums default).after
      (show labelsIn labelOf [Inst.movq src (.R RI.tmpReg1)] = [] from rfl) hsrc ?_
    rintro prog C s branch ⟨v, hv, hholds, rfl⟩
    exact ⟨_, .single (movq_step (hread _ s hholds) _ C), ⟨v, hv, by simp [Holds, read], rfl⟩, rfl⟩
  | _ => exact absurd hopr id

/-- The number that the values of a datatype are told apart by. -/
def discriminant (layout : Layout) (mem : Int → Int) (w : Int) : Int :=
  match layout with
  | .enum => w
  | .unboxed => ubWord w
  | .boxed => mem w

/-- The operand is the word, and if it points to an object the tag is there. -/
structure Sees (oprAty : Aty) (sizeFf : Int) (layout : Layout) (mem : Int → Int) (w : Int)
    (s : State β) : Prop where
  operand : OperandHolds oprAty sizeFf (BitVec.ofInt 64 w) s
  object : layout = .boxed → s.mem (.num (BitVec.ofInt 64 w)) = .num (BitVec.ofInt 64 (mem w))

theorem loadTag_front (hopr : IsSwitchOperand oprAty) :
    ∃ pre : List (Inst β), labelsIn labelOf pre = [] ∧
      (∀ C, front (moveIndexAtyToAty flags oprAty (.phreg RI.tmpReg1)
      (.words 0) RI.tmpReg1 sizeFf) C =
        .ok (pre ++ C)) ∧
      ∀ (prog C : List (Inst β)) (mem : Int → Int) (w : Int) (s : State β),
        Sees oprAty sizeFf .boxed mem w s →
        ∃ s', Reaches (step prog) ⟨pre ++ C, s⟩ ⟨C, s'⟩ ∧
          Holds (.R RI.tmpReg1) (BitVec.ofInt 64 (mem w)) s' ∧ s'.trace = s.trace := by
  have hload : ∀ {s : State β} {reg : Reg} {mem : Int → Int} {w : Int},
      s.regs reg = .num (BitVec.ofInt 64 w) →
      s.mem (.num (BitVec.ofInt 64 w)) = .num (BitVec.ofInt 64 (mem w)) →
      read s (.D (8 * 0) reg) = some (.num (BitVec.ofInt 64 (mem w))) := by
    intro s reg mem w hreg hmem
    have haddress : address s (8 * 0) reg = some (.num (BitVec.ofInt 64 w)) := by
      rw [address, if_pos (by decide), hreg]
      simp [Value.shift]
    rw [read, haddress, Option.map_some, hmem]
  cases oprAty with
  | phreg reg =>
    refine ⟨[.movq (.D (8 * 0) reg) (.R RI.tmpReg1)], rfl, front_movq ?_, ?_⟩
    · rw [moveIndexAtyToAty, loadIndexed, hopr.1]
      rfl
    · intro prog C mem w s hs
      have hreg : s.regs reg = .num (BitVec.ofInt 64 w) := Option.some.inj hs.operand
      exact ⟨_, .single (movq_step (hload hreg (hs.object rfl)) RI.tmpReg1 C),
        by simp [Holds, read], rfl⟩
  | stack offset =>
    refine ⟨[.movq (.D (8 * (sizeFf - offset - 1)) .rsp) (.R RI.tmpReg1),
      .movq (.D (8 * 0) RI.tmpReg1) (.R RI.tmpReg1)], rfl, fun C => ?_, ?_⟩
    · exact ok_bind rfl
    · intro prog C mem w s hs
      have hreg := State.setReg_regs_self s RI.tmpReg1 (.num (BitVec.ofInt 64 w))
      exact ⟨_, .trans (.single (movq_step hs.operand RI.tmpReg1 _))
        (.single (movq_step (hload hreg (hs.object rfl)) RI.tmpReg1 C)), by simp [Holds, read], rfl⟩
  | _ => exact absurd hopr id

/-! ## Selecting a constructor -/

variable {layout : Layout}

section Select

variable (flags : Flags) (kindOf : Con → CE.ConKind)

/-- The selections as closure conversion tags them, and as they are compared. -/
def tagSels (sels : List (Con × β)) : List ((Con × ConKind) × β) :=
  sels.map fun sel => ((sel.1, taggedKind flags sel.1 (kindOf sel.1)), sel.2)

def numSels (sels : List (Con × β)) : List (Int × β) :=
  sels.map fun sel => ((tagNumber flags sel.1 (kindOf sel.1) : Int), sel.2)

theorem selNumber_taggedKind (con : Con) (kind : CE.ConKind) :
    selNumber (taggedKind flags con kind) = tagNumber flags con kind := by
  cases kind <;> rfl

theorem tagSels_numbers (sels : List (Con × β)) :
    (tagSels flags kindOf sels).map (fun sel => (selNumber sel.1.2, sel.2)) =
      numSels flags kindOf sels := by
  rw [tagSels, map_map]
  refine map_congr_left fun sel _ => ?_
  simp only [Function.comp, selNumber_taggedKind]

/-- The selections are on constructors of one datatype. -/
structure OfDatatype (layout : Layout) (sels : List (Con × β)) : Prop where
  kinds : ∀ sel ∈ sels, InDatatype (kindOf sel.1) layout
  names : ∀ sel ∈ sels, sel.1 ≠ Con.conTRUE ∧ sel.1 ≠ Con.conFALSE
  inj : ∀ sel ∈ sels, ∀ sel' ∈ sels, kindOf sel.1 = kindOf sel'.1 → sel.1 = sel'.1
  distinct : (sels.map Prod.fst).Nodup
  size : sels.length ≤ maxConstructors

variable {flags kindOf}

/-- Tags of objects come in pairs, with a distance of 64. -/
theorem boxed_no_table (htags : ∀ i ∈ selectors, i % 64 = 2 ∨ i % 64 = 3) (i : Int) :
    ¬ TableStart selectors i := by
  rintro ⟨hmem, -, i1, hmem1, hlt1, hle1, i2, hmem2, hlt2, hle2, -⟩
  have h := htags i hmem
  have h2 := htags i2 hmem2
  simp only [BI.maxDiff] at hle1 hle2
  omega

theorem tagNumber_boxed (h : kind.layout = .boxed) :
    (tagNumber flags con kind : Int) % 64 = 2 ∨ (tagNumber flags con kind : Int) % 64 = 3 := by
  cases kind with
  | bNullary i =>
    left
    rw [tagNumber, BI.tagCon0, BI.toNat_genStringTag (by decide)]
    omega
  | bUnary i =>
    right
    rw [tagNumber, BI.tagCon1, BI.toNat_genStringTag (by decide)]
    omega
  | _ => cases h

theorem tagNumber_small (h : InDatatype kind layout) (hlayout : layout ≠ .boxed) :
    tagNumber flags con kind < 2 ^ 28 := by
  have hindex := h.index
  have hkind := h.layout
  simp only [maxConstructors] at hindex
  cases kind with
  | enum i =>
    simp only [CE.ConKind.index] at hindex
    simp only [tagNumber, enumTag]
    split <;> omega
  | ubNullary i | ubUnary i =>
    simp only [CE.ConKind.index] at hindex
    simp only [tagNumber]
    omega
  | bNullary i | bUnary i => exact absurd hkind.symm hlayout

theorem OfDatatype.searchable (h : OfDatatype kindOf layout sels) :
    Searchable (numSels flags kindOf sels) := by
  constructor
  · intro num hnum
    obtain ⟨sel, hsel, rfl⟩ := mem_map.mp hnum
    have hlt : tagNumber flags sel.1 (kindOf sel.1) < 2 ^ 31 := tagNumber_lt (h.kinds sel hsel)
    simp only [InRange, if_true]
    omega
  · have hkeys : (numSels flags kindOf sels).map Prod.fst =
        (sels.map Prod.fst).map fun con => (tagNumber flags con (kindOf con) : Int) := by
      simp only [numSels, map_map]
      rfl
    rw [hkeys]
    refine List.Nodup.map_on ?_ h.distinct
    intro con hcon con' hcon' heq
    obtain ⟨sel, hsel, rfl⟩ := mem_map.mp hcon
    obtain ⟨sel', hsel', rfl⟩ := mem_map.mp hcon'
    exact h.inj sel hsel sel' hsel' (tagNumber_inj (h.kinds sel hsel) (h.kinds sel' hsel')
      (h.names sel hsel) (h.names sel' hsel') (Int.ofNat.inj heq))
  · have hsize := h.size
    simp only [maxConstructors] at hsize
    rw [numSels, length_map]
    omega
  · intro i hstart
    by_cases hlayout : layout = .boxed
    · refine absurd hstart (boxed_no_table (fun i hi => ?_) i)
      obtain ⟨num, hnum, rfl⟩ := mem_map.mp hi
      obtain ⟨sel, hsel, rfl⟩ := mem_map.mp hnum
      exact tagNumber_boxed ((h.kinds sel hsel).layout.trans hlayout)
    · obtain ⟨num, hnum, rfl⟩ := mem_map.mp hstart.1
      obtain ⟨sel, hsel, rfl⟩ := mem_map.mp hnum
      have hlt : tagNumber flags sel.1 (kindOf sel.1) < 2 ^ 28 :=
        tagNumber_small (h.kinds sel hsel) hlayout
      simp only [Encodable]
      omega

theorem switchOn_runs (hopr : IsSwitchOperand oprAty) (layout : Layout) (i : Nat)
    (hnums : Searchable nums) (default : β) :
    SwitchRuns (fun C n => switchOn flags (layout.conKind i) oprAty nums default sizeFf C n)
      (fun s branch => ∃ mem w, Sees oprAty sizeFf layout mem w s ∧
        InRange true 64 (discriminant layout mem w) ∧
        branch = (nums.lookup (discriminant layout mem w)).getD default) := by
  have htmp : RI.tmpReg1 ≠ RI.tmpReg0 := by decide
  cases layout with
  | enum =>
    intro C n
    obtain ⟨code, hi, hgen, hadds, hruns⟩ := compileNumSwitch_runs hopr hnums default C n
    refine ⟨code, hi, hgen, hadds, fun prog hnodup hsuffix s branch hs => ?_⟩
    obtain ⟨mem, w, hsees, hrange, rfl⟩ := hs
    exact hruns prog hnodup hsuffix s _ ⟨w, hrange, hsees.operand, rfl⟩
  | unboxed =>
    refine ubTagCon_runs hopr (numSwitch_runs htmp hnums default) ?_
    rintro s branch ⟨mem, w, hsees, hrange, rfl⟩
    exact ⟨w, hsees.operand, fun s' hs' => ⟨ubWord w, hrange, hs', rfl⟩⟩
  | boxed =>
    obtain ⟨pre, hlabels, hpre, hload⟩ := loadTag_front hopr
    refine (numSwitch_runs htmp hnums default).after hlabels hpre ?_
    rintro prog C s branch ⟨mem, w, hsees, hrange, rfl⟩
    obtain ⟨s', hreaches, hholds, htrace⟩ := hload prog C mem w s hsees
    exact ⟨s', hreaches, ⟨mem w, hrange, hholds, rfl⟩, htrace⟩

/-- The code of `SWITCH_C` compares the number that tells the values apart. -/
theorem cgSwitchC_runs (hopr : IsSwitchOperand oprAty)
    (h : OfDatatype kindOf layout sels) (default : β) :
    SwitchRuns (fun C n => cgSwitchC flags oprAty (tagSels flags kindOf sels) default sizeFf C n)
      (fun s branch => ∃ mem w, Sees oprAty sizeFf layout mem w s ∧
        InRange true 64 (discriminant layout mem w) ∧
        branch = ((numSels flags kindOf sels).lookup (discriminant layout mem w)).getD default) :=
      by
  have hnums : Searchable (numSels flags kindOf sels) := h.searchable
  have htags := tagSels_numbers flags kindOf sels
  cases sels with
  | nil =>
    intro C n
    refine ⟨.body default :: C, n, rfl, (Adds.refl n C).inst rfl, fun prog _ _ s branch hs => ?_⟩
    obtain ⟨mem, w, -, -, rfl⟩ := hs
    exact ⟨_, .single rfl, .inl rfl, rfl⟩
  | cons sel rest =>
    have hcode : (fun C n => cgSwitchC flags oprAty (tagSels flags kindOf (sel :: rest)) default
        sizeFf C n) = fun C n => switchOn flags
          (layout.conKind (tagNumber flags sel.1 (kindOf sel.1))) oprAty
          (numSels flags kindOf (sel :: rest)) default sizeFf C n := by
      funext C n
      rw [← htags, ← (h.kinds sel (.head _)).layout]
      rfl
    rw [hcode]
    exact switchOn_runs hopr layout _ hnums default

/-- The tag of a constructor finds the branch of the constructor. -/
theorem numSels_lookup (h : OfDatatype kindOf layout sels) (hkind : InDatatype (kindOf con) layout)
    (hname : con ≠ Con.conTRUE ∧ con ≠ Con.conFALSE)
    (hinj : ∀ sel ∈ sels, kindOf sel.1 = kindOf con → sel.1 = con) :
    (numSels flags kindOf sels).lookup (tagNumber flags con (kindOf con) : Int) =
      sels.lookup con := by
  obtain ⟨hkinds, hnames, -, -, -⟩ := h
  induction sels with
  | nil => rfl
  | cons sel rest ih =>
    have hbeq : ((tagNumber flags con (kindOf con) : Int) ==
      (tagNumber flags sel.1 (kindOf sel.1) : Int)) = (con == sel.1) := by
      rw [Bool.eq_iff_iff, beq_iff_eq, beq_iff_eq]
      constructor
      · intro heq
        exact (hinj sel (.head _) (tagNumber_inj (hkinds sel (.head _)) hkind
          (hnames sel (.head _)) hname (Int.ofNat.inj heq).symm)).symm
      · rintro rfl
        rfl
    rw [numSels, map_cons, lookup_cons, lookup_cons, hbeq]
    rw [← ih (fun sel hsel => hinj sel (.tail _ hsel))
      (fun sel hsel => hkinds sel (.tail _ hsel))
      (fun sel hsel => hnames sel (.tail _ hsel))]
    rfl

end Select

end MLKit.X64.Switch
