import MLKit.Backend.CalcOffset
import MLKit.Backend.DefUse
import MLKit.Edlib.ListSort
import Mathlib.Data.Finset.Sort

/-!
# Bit vectors for the garbage collector

The model of `CBV` in `CalcOffset`: every call gets a bit vector that has the bit
of each word of the frame that holds a live value while the call runs.  The
counter of `new_fun_nr` is passed explicitly as `funNr`.
-/

namespace MLKit.Backend.CalcOffset

/-- Words of the frame for spilled arguments, for spilled results, and for the
function itself. -/
structure FrameSizes where
  sizeCcf : Int
  sizeRcf : Int
  sizeFf : Int

/-- With the return address. -/
def FrameSizes.sizeCc (sz : FrameSizes) : Int := sz.sizeCcf + sz.sizeRcf + 1

def addSty (sizeCc : Int) (lvMap : LvMap) : StoreType Int → LvMap
  | .stackSty lv offset => addLv lvMap (offset + sizeCc) lv
  | .phregSty _ _ => lvMap
  | .flushedCalleeSty _ _ => lvMap
  | .flushedCallerSty lv _ offset => addLv lvMap (offset + sizeCc) lv
  | .fvSty _ _ _ => lvMap

def addStys (sizeCc : Int) (lvMap : LvMap) (pat : List (StoreType Int)) : LvMap :=
  pat.foldl (addSty sizeCc) lvMap

def lookupLvs (lvMap : LvMap) (lvs : List Lvar) : List Int := lvs.filterMap lvMap

def lvsetDifference (lvSet : Finset Int) (lvs : List Lvar) (lvMap : LvMap) : Finset Int :=
  (lookupLvs lvMap lvs).foldr (fun offset set => set.erase offset) lvSet

def lvsetAdd (lvSet : Finset Int) (lvs : List Lvar) (lvMap : LvMap) : Finset Int :=
  (lookupLvs lvMap lvs).foldr (fun offset set => insert offset set) lvSet

/-! ## The vector of a set of offsets -/

/-- A shift by 32 or more, or by a negative number taken as a word, gives 0. -/
def setBit (bitNo : Int) (w : Word32) : Word32 :=
  if 0 ≤ bitNo ∧ bitNo < 32 then w ||| 1#32 <<< bitNo.toNat else w

def genWords : List Int → Int → Word32 → List Word32
  | [], _, word => [word]
  | offset :: offsets, adjust, word =>
    if offset - adjust < 32 then genWords offsets adjust (setBit (offset - adjust) word)
    else word :: genWords (offset :: offsets) (adjust + 32) 0
termination_by offsets adjust => (offsets.length, ((offsets.headD 0) - adjust).toNat)
decreasing_by
  all_goals simp_wf
  · exact .left _ _ (by omega)
  · exact .right _ (by omega)

def postfixWords (numWords : Int) (ws : List Word32) : List Word32 :=
  ws ++ List.replicate (numWords - ws.length).toNat 0

/-- The offsets of a set in order, whatever the order in which `IntSet.list` lists them. -/
def offsetsSorted (lSet : Finset Int) : List Int :=
  Edlib.sort (fun i1 i2 => i1 < i2) (lSet.sort (· ≤ ·))

@[simp] theorem mem_offsetsSorted {lSet : Finset Int} {o : Int} :
    o ∈ offsetsSorted lSet ↔ o ∈ lSet := by
  rw [offsetsSorted, (Edlib.sort_perm _ _).mem_iff, Finset.mem_sort]

theorem offsetsSorted_pairwise (lSet : Finset Int) : (offsetsSorted lSet).Pairwise (· ≤ ·) := by
  have htrans : ∀ a b c : Int, decide (a < b) = true → decide (b < c) = true →
      decide (a < c) = true := by
    simp only [decide_eq_true_eq]
    exact fun a b c => lt_trans
  refine (Edlib.sort_pairwise htrans _ ((lSet.sort_nodup (· ≤ ·)).imp fun hne => ?_)).imp ?_
  · simpa using lt_or_gt_of_ne hne
  · intro a b hlt
    exact (of_decide_eq_true hlt).le

/-- The number of the vector, the words up to the return address, the size of
the frame, and the words of bits. -/
def genBitvector (lSet : Finset Int) (sz : FrameSizes) (funNr : Nat) : List Word32 :=
  let sizeFd := sz.sizeFf + sz.sizeCcf + sz.sizeRcf + 1
  let numWords := if sizeFd % 32 = 0 then sizeFd / 32 else sizeFd / 32 + 1
  let ws := postfixWords numWords (genWords (offsetsSorted lSet) 0 0)
  BitVec.ofNat 32 funNr :: BitVec.ofInt 32 (sz.sizeFf + sz.sizeCcf) :: BitVec.ofInt 32 sizeFd :: ws

/-! ## The pass -/

/-- What a statement does to slots: a `FLUSH` defines its slot, and a `FETCH` is
not counted, its variable being used later. -/
def slotDefUse : BasicStmt Int Atom → List Lvar × List Lvar
  | .flush atom _ => (getVarAtom atom, [])
  | .fetch _ _ => ([], [])
  | ls => defUseVarLsCbv ls

/-- The set without the slots that a statement defines: for a call, the slots
that are live while it runs. -/
def killDef (ls : BasicStmt Int Atom) (lvEnv : LvMap) (lSet : Finset Int) : Finset Int :=
  lvsetDifference lSet (slotDefUse ls).1 lvEnv

/-- The bit vector of a call. -/
def setBv (bv : List Word32) : BasicStmt Int Atom → BasicStmt Int Atom
  | .fnjmp app => .fnjmp { app with bv }
  | .fncall app => .fncall { app with bv }
  | .jmp app => .jmp { app with bv }
  | .funcall app => .funcall { app with bv }
  | ls => ls

def isApp : BasicStmt Int Atom → Bool
  | .fnjmp _ => true
  | .fncall _ => true
  | .jmp _ => true
  | .funcall _ => true
  | _ => false

/-- A statement without statements, given the set after it. -/
def cbvBasic (sz : FrameSizes) (ls : BasicStmt Int Atom) (lvEnv : LvMap) (lSet : Finset Int)
    (funNr : Nat) : Finset Int × BasicStmt Int Atom × Nat :=
  let kill := killDef ls lvEnv lSet
  let lSet' := lvsetAdd kill (slotDefUse ls).2 lvEnv
  if isApp ls then (lSet', setBv (genBitvector kill sz funNr) ls, funNr + 1)
  else (lSet', ls, funNr)

/-- The word of a handler that holds its closure. -/
def handleLvOffset (sz : FrameSizes) (offset : Int) : Int := offset - 1 + sz.sizeCc

mutual

/-- One statement: `lSet'` is the set after it, and `lSet` the set at the end of
its list, which is the one that `CBV_sw` gives to the branches of a switch. -/
def cbvLs (sz : FrameSizes) : CoStmt → LvMap → Finset Int → Finset Int → Nat →
    Finset Int × CoStmt × Nat
  | .basic ls, lvEnv, lSet', _, funNr =>
    let (lSet, ls', funNr) := cbvBasic sz ls lvEnv lSet' funNr
    (lSet, .basic ls', funNr)
  | .letregion rhos body, lvEnv, lSet', _, funNr =>
    let (lSetLetregion, body', funNr) := cbvLss sz body lvEnv lSet' funNr
    (lSetLetregion, .letregion rhos body', funNr)
  | .scope pat scope, lvEnv, lSet', _, funNr =>
    let (lSetScope, scope', funNr) :=
      cbvLss sz scope (addStys sz.sizeCc lvEnv pat) lSet' funNr
    (lSetScope, .scope pat scope', funNr)
  | .handle default handl handlLv handlReturn handlReturnLv _ offset, lvEnv, lSet', _, funNr =>
    let (lSetHandlReturn, handlReturn', funNr) := cbvLss sz handlReturn lvEnv
      (lvsetDifference lSet' (getVarAtom handlReturnLv) lvEnv) funNr
    let bvHandlReturn := genBitvector lSetHandlReturn sz funNr
    let (lSetDefault, default', funNr) :=
      cbvLss sz default lvEnv (insert (handleLvOffset sz offset) lSet') (funNr + 1)
    let (lSetHandl, handl', funNr) :=
      cbvLss sz handl lvEnv (lSetDefault.erase (handleLvOffset sz offset)) funNr
    (lSetHandl, .handle default' handl' handlLv handlReturn' handlReturnLv bvHandlReturn offset,
      funNr)
  | .switch kind arg sels default, lvEnv, _, lSet, funNr =>
    let (lSetSels, sels', funNr) := cbvSels sz sels lvEnv lSet funNr
    let (lSetDef, default', funNr) := cbvLss sz default lvEnv lSet funNr
    (lvsetAdd (lSetDef ∪ lSetSels) (getVarAtom arg) lvEnv, .switch kind arg sels' default', funNr)

def cbvLss (sz : FrameSizes) : List CoStmt → LvMap → Finset Int → Nat →
    Finset Int × List CoStmt × Nat
  | [], _, lSet, funNr => (lSet, [], funNr)
  | ls :: lss, lvEnv, lSet, funNr =>
    let (lSet', lss', funNr) := cbvLss sz lss lvEnv lSet funNr
    let (lSet'', ls', funNr) := cbvLs sz ls lvEnv lSet' lSet funNr
    (lSet'', ls' :: lss', funNr)

/-- The branches of a switch, the last one first (`foldr` of `CBV_sw`). -/
def cbvSels (sz : FrameSizes) : List (Selector × List CoStmt) → LvMap → Finset Int → Nat →
    Finset Int × List (Selector × List CoStmt) × Nat
  | [], _, _, funNr => (∅, [], funNr)
  | (sel, lss) :: sels, lvEnv, lSet, funNr =>
    let (lSetAcc, sels', funNr) := cbvSels sz sels lvEnv lSet funNr
    let (lSetLss', lss', funNr) := cbvLss sz lss lvEnv lSet funNr
    (lSetAcc ∪ lSetLss', (sel, lss') :: sels', funNr)

end

/-- The sizes and the environment of a call convention. -/
def cbvFrame (cc : CallConv.CC) : Except String (FrameSizes × LvMap) := do
  let sizeRcf ← CallConv.getRcfSize cc
  let sizeCcf ← CallConv.getCcfSize cc
  let sizeCc ← CallConv.getCcSize cc
  let sizeFf ← CallConv.getFrameSize cc
  let argsOnStack ← CallConv.getSpilledArgsWithOffsets cc
  let resOnStack ← CallConv.getSpilledResWithOffsets cc
  let shift := List.map fun entry : Lvar × Int => (entry.1, entry.2 + (sizeCc : Int))
  return (⟨sizeCcf, sizeRcf, sizeFf⟩,
    addList (shift resOnStack) (addList (shift argsOnStack) fun _ => none))

/-- `do_top_decl`. -/
def cbvTopDecl (cc : CallConv.CC) (lss : List CoStmt) (funNr : Nat) :
    Except String (List CoStmt × Nat) := do
  let (sz, lvEnvCc) ← cbvFrame cc
  let (_, lssCbv, funNr) := cbvLss sz lss lvEnvCc ∅ funNr
  return (lssCbv, funNr)

end MLKit.Backend.CalcOffset
