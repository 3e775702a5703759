import MLKit.Backend.BackendInfo
import MLKit.Edlib.ListSort

/-!
# Compilation of switches

A switch on numbers becomes a linear search when it has few selectors, and
otherwise a binary search over groups of neighbouring selectors, a group being
one selector or a jump table.  The generator is parameterised by the
instructions of the target; label numbers are handed out from an explicit
counter.
-/

namespace MLKit.Backend.JumpTables

open MLKit.Edlib

variable {κ ι β σ : Type}

def die {α : Type} (msg : String) : Except String α := .error ("JumpTables." ++ msg)

/-- What the generator needs from the target: labels, tests of the operand
against a selector, the code of a branch, and jump tables.  `compileInsts` and
the others put their instructions before the given code. -/
structure Target (κ ι β : Type) where
  comment : String → List ι → List ι
  newLabel : String → Nat → κ
  ifNotEqualGoLabSel : κ → Int → List ι → List ι
  ifLessThanGoLabSel : κ → Int → List ι → List ι
  ifGreaterThanGoLabSel : κ → Int → List ι → List ι
  compileInsts : β → List ι → List ι
  label : κ → List ι → List ι
  jmp : κ → List ι → List ι
  selDist : Int → Int → Int
  jumpTableHeader : κ → Int → Int → List ι → List ι
  addLabelToJumpTab : κ → List ι → List ι
  inlineCont : List ι → Option (List ι → List ι)

variable (t : Target κ ι β)

/-- `endsel` and `endswitch`: how a branch leaves the switch, and what stands at
its end.  A continuation that starts with a jump is inlined instead of jumped
to. -/
def exits (C : List ι) (n : Nat) : (List ι → List ι) × (List ι → List ι) × Nat :=
  match t.inlineCont C with
  | none =>
    let labExit := t.newLabel "exitSwitchLab" n
    (t.jmp labExit, t.label labExit, n + 1)
  | some f => (f, id, n)

/-- One selector of a linear search, in front of the others. -/
def linearSel (ifNoMatchGoLabSel : κ → σ → List ι → List ι) (endsel : List ι → List ι) :
    σ × β → List ι × Nat → List ι × Nat
  | (sel, insts), (C, n) =>
    let newLab := t.newLabel "newSelLab" n
    (ifNoMatchGoLabSel newLab sel (t.compileInsts insts (endsel (t.label newLab C))), n + 1)

def linearSearchNew (sels : List (σ × β)) (default : β)
    (ifNoMatchGoLabSel : κ → σ → List ι → List ι) (C : List ι) (n : Nat) : List ι × Nat :=
  let (endsel, endswitch, n) := exits t C n
  let last := t.compileInsts default (endswitch (t.comment "end linear switch" C))
  let (code, n) := sels.foldr (linearSel t ifNoMatchGoLabSel endsel) (last, n)
  (t.comment "begin linear switch" code, n)

/-- Selectors handled together: the least, the greatest, and all of them with
their branches in ascending order. -/
structure Group (β : Type) where
  startSel : Int
  finishSel : Int
  sels : List (Int × β)
  deriving DecidableEq

def addGroup' : List (Int × β) → List (Group β) → List (Group β)
  | [], acc => acc
  | (sel, selCode) :: rest, acc => addGroup' rest (⟨sel, sel, [(sel, selCode)]⟩ :: acc)

/-- A group too small for a table is taken apart. -/
def addGroup (group : Group β) (acc : List (Group β)) : List (Group β) :=
  if 1 < group.sels.length ∧ group.sels.length < BI.minJumpTabSize then
    addGroup' group.sels.reverse acc
  else group :: acc

/-- Group selectors that are given in descending order. -/
def groupSelList : Option Int → Option Int → List (Int × β) → List (Int × β) → List (Group β) →
    Except String (List (Group β))
  | none, none, [], [], acc => .ok acc
  | some startSel, some finishSel, [], accGrp, acc =>
    .ok (addGroup ⟨startSel, finishSel, accGrp⟩ acc)
  | none, none, (sel, selCode) :: rest, [], acc =>
    groupSelList (some sel) (some sel) rest [(sel, selCode)] acc
  | some startSel, some finishSel, (sel, selCode) :: rest, accGrp, acc =>
    if t.selDist startSel sel ≤ BI.maxDiff then
      groupSelList (some sel) (some finishSel) rest ((sel, selCode) :: accGrp) acc
    else
      groupSelList (some sel) (some sel) rest [(sel, selCode)]
        (addGroup ⟨startSel, finishSel, accGrp⟩ acc)
  | _, _, _, _, _ => die "JumpTables.group_sel_list"

/-- The elements before the middle one, the middle one, and those after it. -/
abbrev Split (α : Type) := Option (List α) × Option α × Option (List α)

def nonEmpty {α : Type} : List α → Option (List α)
  | [] => none
  | xs => some xs

def splitList' {α : Type} : Nat → List α → List α → Except String (Split α)
  | n, xs1, x :: rest =>
    if n = 0 then .ok (nonEmpty xs1, some x, nonEmpty rest)
    else splitList' (n - 1) (xs1 ++ [x]) rest
  | _, _, [] => die "JumpTables:split_list"

def splitList {α : Type} : List α → Except String (Split α)
  | [] => .ok (none, none, none)
  | xs => splitList' (xs.length / 2) [] xs

/-- The words of a jump table from selector `next` on, and the code of its
branches.  `fuel` bounds the number of words. -/
def makeSelCode (endsel : List ι → List ι) (defaultLab : κ) :
    Nat → Int → List (Int × β) → List ι → Nat → Except String (List ι × List ι × Nat)
  | _, _, [], C, n => .ok ([], C, n)
  | 0, _, _ :: _, _, _ => die "make_sel_code: out of fuel"
  | fuel + 1, next, (sel, selCode) :: rest, C, n =>
    if next = sel then do
      let (jumpTable, C', n) ← makeSelCode endsel defaultLab fuel (next + 1) rest C n
      let selLabel := t.newLabel "selLab" n
      .ok (t.addLabelToJumpTab selLabel jumpTable,
        t.label selLabel (t.compileInsts selCode (endsel C')), n + 1)
    else do
      let (jumpTable, C', n) ←
        makeSelCode endsel defaultLab fuel (next + 1) ((sel, selCode) :: rest) C n
      .ok (t.addLabelToJumpTab defaultLab jumpTable, C', n)

def switchWithJumpTable (endsel : List ι → List ι) (defaultLab : κ) (C : List ι) (n : Nat) :
    List (Int × β) → Except String (List ι × Nat)
  | [] => die "JumpTables: switch_with_jump_table has no selections."
  | [(_, selCode)] => .ok (t.compileInsts selCode (endsel C), n)
  | (sel, selCode) :: next :: rest => do
    let sels := (sel, selCode) :: next :: rest
    let jumpTableLab := t.newLabel "jumpTabLab" n
    -- Holes of the table count in its length.
    let len := ((next :: rest).getLast (List.cons_ne_nil next rest)).1 - sel + 1
    let (jumpTableCode, switchCode, n) ←
      makeSelCode t endsel defaultLab len.toNat sel sels C (n + 1)
    let jumpTableCode' := t.label jumpTableLab (jumpTableCode ++ switchCode)
    if sels.length < BI.minJumpTabSize then
      die "JumpTables:switch_with_jump_table has too few table entries"
    else .ok (t.jumpTableHeader jumpTableLab sel len jumpTableCode', n)

/-- Go left below `start`, right above `finish`, and on otherwise. -/
def binSearchCode [DecidableEq κ] (leftLab : κ) (start finish : Int) (rightLab : κ)
    (C : List ι) : List ι :=
  if start = finish then
    if leftLab = rightLab then t.ifNotEqualGoLabSel leftLab start C
    else t.ifLessThanGoLabSel leftLab start (t.ifGreaterThanGoLabSel rightLab start C)
  else t.ifLessThanGoLabSel leftLab start (t.ifGreaterThanGoLabSel rightLab finish C)

/-- The search code for the groups of a split.  `fuel` bounds its depth. -/
def genBinarySwitch [DecidableEq κ] (endsel : List ι → List ι) (defaultLab : κ) :
    Nat → Split (Group β) → List ι → Nat → Except String (List ι × Nat)
  | 0, _, _, _ => die "gen_binary_switch: out of fuel"
  | fuel + 1, (some leftSels, some group, some rightSels), C, n => do
    let leftSideLab := t.newLabel "" n
    let rightSideLab := t.newLabel "" (n + 1)
    let left ← splitList leftSels
    let right ← splitList rightSels
    let (C, n) ← genBinarySwitch endsel defaultLab fuel right C (n + 2)
    let (C, n) ← genBinarySwitch endsel defaultLab fuel left (t.label rightSideLab C) n
    let (C, n) ← switchWithJumpTable t endsel defaultLab (t.label leftSideLab C) n group.sels
    .ok (binSearchCode t leftSideLab group.startSel group.finishSel rightSideLab C, n)
  | fuel + 1, (some leftSels, some group, none), C, n => do
    let leftSideLab := t.newLabel "" n
    let left ← splitList leftSels
    let (C, n) ← genBinarySwitch endsel defaultLab fuel left C (n + 1)
    let (C, n) ← switchWithJumpTable t endsel defaultLab (t.label leftSideLab C) n group.sels
    .ok (binSearchCode t leftSideLab group.startSel group.finishSel defaultLab C, n)
  | fuel + 1, (none, some group, some rightSels), C, n => do
    let rightSideLab := t.newLabel "" n
    let right ← splitList rightSels
    let (C, n) ← genBinarySwitch endsel defaultLab fuel right C (n + 1)
    let (C, n) ← switchWithJumpTable t endsel defaultLab (t.label rightSideLab C) n group.sels
    .ok (binSearchCode t defaultLab group.startSel group.finishSel rightSideLab C, n)
  | _ + 1, (none, some group, none), C, n => do
    let (C, n) ← switchWithJumpTable t endsel defaultLab C n group.sels
    .ok (binSearchCode t defaultLab group.startSel group.finishSel defaultLab C, n)
  | _ + 1, (none, none, none), _, _ => die "JumpTables. genBinarySwitch, no selections."
  | _ + 1, _, _, _ => die "JumpTables.genBinarySwitch"

def selsSorted (sels : List (Int × β)) : List (Int × β) :=
  sort (fun sel1 sel2 => decide (sel1.1 > sel2.1)) sels

def binarySearchNew [DecidableEq κ] (sels : List (Int × β)) (default : β) (C : List ι) (n : Nat) :
    Except String (List ι × Nat) :=
  if sels.length < BI.minCodeInBinSearch then
    .ok (linearSearchNew t sels default t.ifNotEqualGoLabSel C n)
  else do
    let (endsel, endswitch, n) := exits t C n
    let groupSels ← groupSelList t none none (selsSorted sels) [] []
    let defaultLab := t.newLabel "defaultLab" n
    let split ← splitList groupSels
    let last := t.compileInsts default
      (endswitch (t.comment "End binary switch with jump tables" C))
    let (code, n) ← genBinarySwitch t endsel defaultLab groupSels.length split
      (t.label defaultLab last) (n + 1)
    .ok (t.comment "Begin binary switch with jump tables" code, n)

end MLKit.Backend.JumpTables
