import MLKit.Backend.CallConv
import MLKit.Lib.Slots

/-!
# Frame offsets

The model of `CO` in `CalcOffset`: every variable that lives on the stack, every
region bound by a letregion and every handler gets an offset in the frame.  The
reference `max_offset` of the source is passed explicitly as `maxOffset`.
-/

namespace MLKit.Backend.CalcOffset

open MLKit.Lib

/-- Statements before frame offsets are calculated. -/
abbrev IffStmt := LineStmt (StoreType Unit) Unit Atom

/-- Statements with frame offsets. -/
abbrev CoStmt := LineStmt (StoreType Int) Int Atom

def die {α : Type} (s : String) : Except String α := .error ("CalcOffset." ++ s)

/-- The source's `offset ++ inc`: the sum, and the new maximum. -/
def bump (maxOffset offset inc : Int) : Int × Int :=
  if offset + inc < maxOffset then (offset + inc, maxOffset)
  else (offset + inc, offset + inc)

abbrev LvMap := Lvar → Option Int

def addLv (lvMap : LvMap) (r : Int) (lv : Lvar) : LvMap := Function.update lvMap lv (some r)

def lookupLv (lvMap : LvMap) (lv : Lvar) : Except String Int :=
  match lvMap lv with
  | some r => .ok r
  | none => die ("lookup_lv(" ++ lv.pr ++ ")")

def assignOffsetAtom : Atom → LvMap → LvMap → Except String Int
  | .var lv, lvMap, _ => lookupLv lvMap lv
  | .phreg phreg, _, phMap => lookupLv phMap phreg
  | _, _, _ => die "assign_offset_atom: not a VAR or PHREG."

/-- The words a binder takes and the offset it is annotated with, when the
next free word is `offset`. -/
def assignBinder (flags : Flags) (phsize : PhSize) (maxOffset offset : Int) : Int × Int × Int :=
  match phsize with
  | .inf =>
    let size := BI.sizeOfRegDesc flags
    let (offset', maxOffset') := bump maxOffset offset size
    (offset + size - 1, offset', maxOffset')
  | .words 0 => (offset - 1, offset, maxOffset)
  | .words objSize =>
    if flags.regionProfiling then
      let size := objSize + BI.objectDescSizeP + BI.finiteRegionDescSizeP
      let (offset', maxOffset') := bump maxOffset offset size
      (offset + objSize - 1, offset', maxOffset')
    else
      let (offset', maxOffset') := bump maxOffset offset objSize
      (offset + objSize - 1, offset', maxOffset')

/-- The last binder gets the lowest offset (`foldr`). -/
def assignBinders (flags : Flags) : List (Binder × Unit) → Int → Int →
    List (Binder × Int) × Int × Int
  | [], offset, maxOffset => ([], offset, maxOffset)
  | ((place, phsize), _) :: binders, offset, maxOffset =>
    let (acc, offset, maxOffset) := assignBinders flags binders offset maxOffset
    let (annOffset, offset, maxOffset) := assignBinder flags phsize maxOffset offset
    (((place, phsize), annOffset) :: acc, offset, maxOffset)

/-- `lvMapOuter` is the map at the start of the pattern: the flow variable case
of the source returns that one, its own parameter being misspelt. -/
def assignSty (lvMapOuter : LvMap) : StoreType Unit → LvMap → LvMap → Int → Int →
    StoreType Int × LvMap × LvMap × Int × Int
  | .stackSty lv _, lvMap, phMap, offset, maxOffset =>
    (.stackSty lv offset, addLv lvMap offset lv, phMap, bump maxOffset offset 1)
  | .phregSty lv phreg, lvMap, phMap, offset, maxOffset =>
    (.phregSty lv phreg, lvMap, phMap, offset, maxOffset)
  | .flushedCalleeSty phreg _, lvMap, phMap, offset, maxOffset =>
    (.flushedCalleeSty phreg offset, lvMap, addLv phMap offset phreg, bump maxOffset offset 1)
  | .flushedCallerSty lv phreg _, lvMap, phMap, offset, maxOffset =>
    (.flushedCallerSty lv phreg offset, addLv lvMap offset lv, phMap, bump maxOffset offset 1)
  | .fvSty lv ifTrue ifFalse, _, phMap, offset, maxOffset =>
    (.fvSty lv ifTrue ifFalse, lvMapOuter, phMap, offset, maxOffset)

/-- The loop of `assign_stys`; the pattern comes out reversed. -/
def assignStysLoop (lvMapOuter : LvMap) : List (StoreType Unit) → List (StoreType Int) →
    LvMap → LvMap → Int → Int →
    List (StoreType Int) × LvMap × LvMap × Int × Int
  | [], stysAcc, lvMap, phMap, offset, maxOffset => (stysAcc, lvMap, phMap, offset, maxOffset)
  | sty :: stys, stysAcc, lvMap, phMap, offset, maxOffset =>
    let (sty', lvMap', phMap', offset', maxOffset') :=
      assignSty lvMapOuter sty lvMap phMap offset maxOffset
    assignStysLoop lvMapOuter stys (sty' :: stysAcc) lvMap' phMap' offset' maxOffset'

def assignStys (stys : List (StoreType Unit)) (lvMap phMap : LvMap) (offset maxOffset : Int) :
    List (StoreType Int) × LvMap × LvMap × Int × Int :=
  assignStysLoop lvMap stys [] lvMap phMap offset maxOffset

/-- Statements without statements: only `FLUSH` and `FETCH` get an offset. -/
def coBasic : BasicStmt Unit Atom → LvMap → LvMap → Except String (BasicStmt Int Atom)
  | .assign pat bind, _, _ => .ok (.assign pat bind)
  | .flush atom _, lvMap, phMap => do
    let offset ← assignOffsetAtom atom lvMap phMap
    return .flush atom offset
  | .fetch atom _, lvMap, phMap => do
    let offset ← assignOffsetAtom atom lvMap phMap
    return .fetch atom offset
  | .fnjmp app, _, _ => .ok (.fnjmp app)
  | .fncall app, _, _ => .ok (.fncall app)
  | .jmp app, _, _ => .ok (.jmp app)
  | .funcall app, _, _ => .ok (.funcall app)
  | .raise arg definedAtys, _, _ => .ok (.raise arg definedAtys)
  | .resetRegions force regions, _, _ => .ok (.resetRegions force regions)
  | .prim name args res, _, _ => .ok (.prim name args res)
  | .ccall name args rhosForResult res, _, _ => .ok (.ccall name args rhosForResult res)
  | .ccallAuto name args res, _, _ => .ok (.ccallAuto name args res)
  | .exportFn name closLab arg, _, _ => .ok (.exportFn name closLab arg)

mutual

/-- One statement of `CO_lss`; the accumulator of the source is always `[]`. -/
def coLs (flags : Flags) : IffStmt → LvMap → LvMap → Int → Int → Except String (CoStmt × Int)
  | .basic stmt, lvMap, phMap, _, maxOffset => do
    let stmt' ← coBasic stmt lvMap phMap
    return (.basic stmt', maxOffset)
  | .letregion rhos body, lvMap, phMap, offset, maxOffset => do
    let (binders', offset', maxOffset) := assignBinders flags rhos offset maxOffset
    let (body', maxOffset) ← coLss flags body lvMap phMap offset' maxOffset
    return (.letregion binders' body', maxOffset)
  | .scope pat scope, lvMap, phMap, offset, maxOffset => do
    let (pat', lvMap', phMap', offset', maxOffset) := assignStys pat lvMap phMap offset maxOffset
    let (scope', maxOffset) ← coLss flags scope lvMap' phMap' offset' maxOffset
    return (.scope pat' scope', maxOffset)
  | .handle default handl handlLv handlReturn handlReturnLv bv _, lvMap, phMap, offset,
      maxOffset => do
      let objSize : Int := BI.sizeOfHandle
      let annOffset := offset + objSize - 1
      let (offset', maxOffset) := bump maxOffset offset objSize
      let (handl', maxOffset) ← coLss flags handl lvMap phMap offset' maxOffset
      let (offset', maxOffset) := bump maxOffset offset objSize
      let (default', maxOffset) ← coLss flags default lvMap phMap offset' maxOffset
      let (handlReturn', maxOffset) ← coLss flags handlReturn lvMap phMap offset maxOffset
      return (.handle default' handl' handlLv handlReturn' handlReturnLv bv annOffset, maxOffset)
  | .switch kind arg sels default, lvMap, phMap, offset, maxOffset => do
    let (sels', maxOffset) ← coSels flags sels lvMap phMap offset maxOffset
    let (default', maxOffset) ← coLss flags default lvMap phMap offset maxOffset
    return (.switch kind arg sels' default', maxOffset)

def coLss (flags : Flags) : List IffStmt → LvMap → LvMap → Int → Int →
    Except String (List CoStmt × Int)
  | [], _, _, _, maxOffset => .ok ([], maxOffset)
  | ls :: lss, lvMap, phMap, offset, maxOffset => do
    let (ls', maxOffset) ← coLs flags ls lvMap phMap offset maxOffset
    let (lss', maxOffset) ← coLss flags lss lvMap phMap offset maxOffset
    return (ls' :: lss', maxOffset)

/-- The branches of a switch, the last one first (`foldr` of `CO_sw`). -/
def coSels (flags : Flags) : List (Selector × List IffStmt) → LvMap → LvMap → Int → Int →
    Except String (List (Selector × List CoStmt) × Int)
  | [], _, _, _, maxOffset => .ok ([], maxOffset)
  | (sel, lss) :: sels, lvMap, phMap, offset, maxOffset => do
    let (sels', maxOffset) ← coSels flags sels lvMap phMap offset maxOffset
    let (lss', maxOffset) ← coLss flags lss lvMap phMap offset maxOffset
    return ((sel, lss') :: sels', maxOffset)

end

def addList (entries : List (Lvar × Int)) (lvMap : LvMap) : LvMap :=
  entries.foldl (fun lvMap entry => addLv lvMap entry.2 entry.1) lvMap

/-- `do_top_decl`: the call convention with its frame size, and the body. -/
def coTopDecl (flags : Flags) (cc : CallConv.CC) (lss : List IffStmt) :
    Except String (CallConv.CC × List CoStmt) := do
  let spilledArgs ← CallConv.getSpilledArgsWithOffsets cc
  let lvMapArgs := addList spilledArgs fun _ => none
  let spilledRes ← CallConv.getSpilledResWithOffsets cc
  let lvMapRes := addList spilledRes lvMapArgs
  let (lssCo, sizeFf0) ←
    coLss flags lss lvMapRes (fun _ => none) BI.initFrameOffset BI.initFrameOffset
  let sizeCc ← CallConv.getCcSize cc
  let sizeFf := if (sizeFf0 + sizeCc) % 2 = 0 then sizeFf0 else sizeFf0 + 1
  return (CallConv.addFrameSize cc sizeFf, lssCo)

end MLKit.Backend.CalcOffset
