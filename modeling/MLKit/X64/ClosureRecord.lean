import MLKit.X64.CodeGenUtil
import MLKit.Backend.Tags
import MLKit.Backend.ClosConvEnv

/-!
# Closure records

The code `CodeGenX64` emits for `CLOS_RECORD` and `SCLOS_RECORD`.  What
allocates the words of the object is a parameter: it is given the register
that receives the address, the number of words and the code that follows.
-/

namespace MLKit.X64

open MLKit.Lib MLKit.Backend MLKit.Backend.SubstAndSimplify Function List Nat

def storeImmed (w : Word32) (r : Reg) (offset : Offset) (C : List Inst) : List Inst :=
  .movq (.I w.toNat) (.D (offsetBytes offset) r) :: C

def loadLabelAddr (lab : Lab) (dstAty : Aty) (t : Reg) (sizeFf : Int) (C : List Inst) :
    Except String (List Inst) :=
  match dstAty with
  | .phreg d => .ok (.movq (.LA lab) (.R d) :: C)
  | .stack offset =>
    .ok (.movq (.LA lab) (.R t) :: storeIndexed .rsp (.words (sizeFf - offset - 1)) (.R t) C)
  | _ => die "load_label_addr.wrong ATY"

/-- Whether a word is small enough to be stored as an immediate value. -/
def directWord (flags : Flags) (value : Int) (precision : Nat) : Except String Bool :=
  if boxedNum flags precision then .ok false
  else match precision with
    | 31 => .ok (value ≤ 0x7FFF)
    | 32 => .ok (value ≤ 0xFFFF)
    | 63 => .ok (value ≤ 0x7FFF)
    | 64 => .ok (value ≤ 0xFFFF)
    | _ => die "store_aty_indexed.direct_word - weird precision"

def directInt (flags : Flags) (value : Int) (precision : Nat) : Except String Bool :=
  if boxedNum flags precision then .ok false
  else match precision with
    | 31 => .ok (value ≤ 0x3FFF ∧ value > -0x4000)
    | 32 => .ok (value ≤ 0x7FFF ∧ value > -0x8000)
    | 63 => .ok (value ≤ 0x3FFF ∧ value > -0x4000)
    | 64 => .ok (value ≤ 0x7FFF ∧ value > -0x8000)
    | _ => die "store_aty_indexed.direct_int - weird precision"

/-- Store a number, as an immediate value if it is `direct`. -/
def storeNum (flags : Flags) (direct : Bool) (value : Int) (precision : Nat) (ea : Ea)
    (default : Except String (List Inst)) (C : List Inst) : Except String (List Inst) :=
  if direct then do
    let num ← maybeTagIntOrWord value precision
    moveNumGeneric flags precision num ea C
  else default

/-- `b[n] = aty`, through register `t` where the operand needs one. -/
def storeAtyIndexed (flags : Flags) (b : Reg) (n : Offset) (aty : Aty) (t : Reg) (sizeFf : Int)
    (C : List Inst) : Except String (List Inst) :=
  let ea := Ea.D (offsetBytes n) b
  let default := moveAtyIntoReg flags aty t sizeFf (storeIndexed b n (.R t) C)
  match aty with
  | .phreg s => .ok ((if isXmm s then .movsd (.R s) ea else .movq (.R s) ea) :: C)
  | .integer value precision => do
    let direct ← directInt flags value precision
    storeNum flags direct value precision ea default C
  | .word value precision => do
    let direct ← directWord flags value precision
    storeNum flags direct value precision ea default C
  | .unit => .ok (moveUnit flags ea C)
  | _ => default

def storeAtyInRegRecord (flags : Flags) (aty : Aty) (t b : Reg) (n : Offset) (sizeFf : Int)
    (C : List Inst) : Except String (List Inst) :=
  storeAtyIndexed flags b n aty t sizeFf C

/-- Store the elements in consecutive words, the last one at `lastOffset`. -/
def storeElems (flags : Flags) (regForResult : Reg) (sizeFf lastOffset : Int) (elems : List Aty)
    (C' : List Inst) : Except String (Int × List Inst) :=
  elems.foldr
    (fun aty acc => do
      let (offset, C) ← acc
      let C ← storeAtyInRegRecord flags aty RI.tmpReg0 regForResult (.words offset) sizeFf C
      return (offset - 1, C))
    (.ok (lastOffset, C'))

/-- `alloc_ap_kill_tmp01` at the storage mode of the record. -/
abbrev Alloc := Reg → Nat → List Inst → Except String (List Inst)

def cgClosRecord (flags : Flags) (alloc : Alloc) (label : Label) (elems : Free Aty) (pat : Aty)
    (sizeFf : Int) (C : List Inst) : Except String (List Inst) := do
  let (regForResult, C') ← resolveAtyDef pat RI.tmpReg1 sizeFf C
  let numElems := (smashFree elems).length
  -- the code pointer and the region pointers are not traversed
  let nSkip := elems.rhos.length + 1
  if flags.tagValues then
    let (_, C) ← storeElems flags regForResult sizeFf (numElems + 1) (smashFree elems) C'
    let C ← loadLabelAddr (.mlFunLab label) (.phreg RI.tmpReg0) RI.tmpReg0 sizeFf
      (storeIndexed regForResult (.words 1) (.R RI.tmpReg0) C)
    alloc regForResult (numElems + 2)
      (storeImmed (BI.tagClos false (numElems + 1) nSkip) regForResult (.words 0) C)
  else
    let (_, C) ← storeElems flags regForResult sizeFf numElems (smashFree elems) C'
    let C ← loadLabelAddr (.mlFunLab label) (.phreg RI.tmpReg0) RI.tmpReg0 sizeFf
      (storeIndexed regForResult (.words 0) (.R RI.tmpReg0) C)
    alloc regForResult (numElems + 1) C

def cgSclosRecord (flags : Flags) (alloc : Alloc) (elems : Free Aty) (pat : Aty) (sizeFf : Int)
    (C : List Inst) : Except String (List Inst) := do
  let (regForResult, C') ← resolveAtyDef pat RI.tmpReg1 sizeFf C
  let numElems := (smashFree elems).length
  let nSkip := elems.rhos.length
  if flags.tagValues then
    let (_, C) ← storeElems flags regForResult sizeFf numElems (smashFree elems) C'
    alloc regForResult (numElems + 1)
      (storeImmed (BI.tagSclos false numElems nSkip) regForResult (.words 0) C)
  else
    let (_, C) ← storeElems flags regForResult sizeFf (numElems - 1) (smashFree elems) C'
    alloc regForResult numElems C

/-! ## What the stores leave in memory -/

variable {b : Reg} {s s' : State} {sizeFf n v value obj : Int} {aty pat : Aty} {inst : Inst}
  {precision first : Nat} {direct : Bool} {preFirst preRest C C' hd : List Inst} {alloc : Alloc}

section Stores

variable (flags : Flags) (labAddr : Lab → Int)

/-- Operands that can be stored in a record. -/
def IsElem : Aty → Prop
  | .flowVar _ _ _ => False
  | .phreg reg => reg ≠ RI.tmpReg0
  | .integer _ precision => precision ∈ [31, 32, 63, 64]
  | .word _ precision => precision ∈ [31, 32, 63, 64]
  | _ => True

/-- Word `n` behind register `b` receives the operand's value, if it has one;
only the scratch register changes besides. -/
structure Stores (pre : List Inst) (aty : Aty) (b : Reg) (n sizeFf : Int) (s : State) (v : Int) :
    Prop where
  value : ∀ w, atyValue flags labAddr s sizeFf aty = some w → v = w
  mem : (exec labAddr s pre).mem = update s.mem (s.regs b + 8 * n) v
  regs : ∀ reg, reg ≠ RI.tmpReg0 → (exec labAddr s pre).regs reg = s.regs reg

/-- One instruction that writes a value that is known beforehand. -/
theorem stores_of_write (hinst : execInst labAddr s inst = s.setMem (s.regs b + 8 * n) v)
    (hvalue : ∀ w, atyValue flags labAddr s sizeFf aty = some w → v = w) :
    Stores flags labAddr [inst] aty b n sizeFf s v := by
  constructor
  · exact hvalue
  · rw [exec_cons, exec_nil, hinst]
    rfl
  · intro reg _
    rw [exec_cons, exec_nil, hinst]
    rfl

/-- The general way to store an operand is through the scratch register. -/
theorem storeDefault_stores (aty : Aty) (n sizeFf : Int) (haty : IsOperand aty)
    (hb : b ≠ RI.tmpReg0) :
    ∃ pre, Emits (fun C => moveAtyIntoReg flags aty RI.tmpReg0 sizeFf
        (storeIndexed b (.words n) (.R RI.tmpReg0) C)) pre ∧
      ∀ s, ∃ v, Stores flags labAddr pre aty b n sizeFf s v := by
  obtain ⟨pre, hpre, hloads⟩ := moveAtyIntoReg_loads flags labAddr haty
    (show isXmm RI.tmpReg0 = false from rfl)
  refine ⟨pre ++ [.movq (.R RI.tmpReg0) (.D (8 * n) b)], hpre.snoc rfl, fun s => ?_⟩
  obtain ⟨v, hexec, hvalue⟩ := hloads s
  refine ⟨v, hvalue, ?_, fun reg hreg => ?_⟩
  · simp [exec_append, hexec, execInst, readEa, writeEa, State.setMem, hb]
  · simp [exec_append, hexec, execInst, readEa, writeEa, hreg]

/-- A number is stored as it is moved to a register, or as an immediate value. -/
theorem storeNum_stores (aty : Aty) (n sizeFf : Int) (haty : IsOperand aty) (hb : b ≠ RI.tmpReg0)
    (hprecision : precision ∈ [31, 32, 63, 64])
    (hdirect : direct = true → boxedNum flags precision = false)
    (hvalue : ∀ s, atyValue flags labAddr s sizeFf aty =
      valueAt.numValue flags labAddr value precision) :
    ∃ pre, Emits (fun C => storeNum flags direct value precision (.D (8 * n) b)
        (moveAtyIntoReg flags aty RI.tmpReg0 sizeFf
          (storeIndexed b (.words n) (.R RI.tmpReg0) C)) C) pre ∧
      ∀ s, ∃ v, Stores flags labAddr pre aty b n sizeFf s v := by
  cases direct with
  | false => exact storeDefault_stores flags labAddr aty n sizeFf haty hb
  | true =>
    obtain ⟨num, hnum⟩ := maybeTag_ok hprecision
    have hboxed := hdirect rfl
    refine ⟨[.movq (.I num) (.D (8 * n) b)], ⟨fun C => ?_, by simp [isPlain]⟩, fun s => ?_⟩
    · have hmem : ¬ (num = 0 ∧ isReg (.D (8 * n) b) = true) := fun h => Bool.noConfusion h.2
      rw [storeNum, if_pos rfl, ok_bind hnum, moveNumGeneric, hboxed, moveNum, if_neg hmem]
      rfl
    · refine ⟨num, stores_of_write flags labAddr rfl fun w hw => ?_⟩
      rw [hvalue] at hw
      simpa [valueAt.numValue, hnum, hboxed] using hw

/-- The limits apply to numbers that are not boxed. -/
theorem direct_ok {f limit : Nat → Except String Bool} (h : precision ∈ [31, 32, 63, 64])
    (hf : ∀ p, f p = if boxedNum flags p then .ok false else limit p)
    (hlimit : ∀ p ∈ [31, 32, 63, 64], ∃ direct, limit p = .ok direct) :
    ∃ direct, f precision = .ok direct ∧ (direct = true → boxedNum flags precision = false) := by
  rw [hf]
  by_cases hboxed : boxedNum flags precision = true
  · exact ⟨false, if_pos hboxed, fun h => Bool.noConfusion h⟩
  · obtain ⟨direct, hdirect⟩ := hlimit precision h
    exact ⟨direct, (if_neg hboxed).trans hdirect, fun _ => by simpa using hboxed⟩

theorem storeAtyInRegRecord_stores (haty : IsElem aty) (hb : b ≠ RI.tmpReg0) :
    ∃ pre, Emits (storeAtyInRegRecord flags aty RI.tmpReg0 b (.words n) sizeFf) pre ∧
      ∀ s, ∃ v, Stores flags labAddr pre aty b n sizeFf s v := by
  have hdefault := fun h => storeDefault_stores flags labAddr aty n sizeFf h hb
  cases aty with
  | flowVar lv ifTrue ifFalse => exact absurd haty id
  | phreg reg =>
    refine ⟨[if isXmm reg then .movsd (.R reg) (.D (8 * n) b) else .movq (.R reg) (.D (8 * n) b)],
      ⟨fun C => rfl, ?_⟩, fun s => ⟨s.regs reg, ?_⟩⟩
    · cases h : isXmm reg <;> simp [isPlain]
    · apply stores_of_write
      · cases h : isXmm reg <;> rfl
      · intro w hw
        exact Option.some.inj hw
  | integer value precision =>
    obtain ⟨direct, hdirect, hboxed⟩ := direct_ok (f := directInt flags value) flags haty
      (fun _ => rfl) (by simp; omega)
    obtain ⟨pre, hpre, hstores⟩ := storeNum_stores flags labAddr (.integer value precision)
      n sizeFf haty hb haty hboxed fun _ => rfl
    exact ⟨pre, hpre.congr fun C => ok_bind hdirect, hstores⟩
  | word value precision =>
    obtain ⟨direct, hdirect, hboxed⟩ := direct_ok (f := directWord flags value) flags haty
      (fun _ => rfl) (by simp; omega)
    obtain ⟨pre, hpre, hstores⟩ := storeNum_stores flags labAddr (.word value precision) n
      sizeFf haty hb haty hboxed fun _ => rfl
    exact ⟨pre, hpre.congr fun C => ok_bind hdirect, hstores⟩
  | unit =>
    by_cases htag : flags.tagValues = true
    · refine ⟨[.movq (.I BI.mlUnit) (.D (8 * n) b)], ⟨fun C => ?_, by simp [isPlain]⟩,
        fun s => ⟨BI.mlUnit, stores_of_write flags labAddr rfl fun w hw => ?_⟩⟩
      · rw [storeAtyInRegRecord, storeAtyIndexed, moveUnit, if_pos htag]
        rfl
      · simpa [atyValue, valueAt, htag] using hw
    · refine ⟨[], ⟨fun C => ?_, by simp⟩, fun s => ⟨s.mem (s.regs b + 8 * n), ?_, ?_, ?_⟩⟩
      · rw [storeAtyInRegRecord, storeAtyIndexed, moveUnit, if_neg htag]
        rfl
      · intro w hw
        simp [atyValue, valueAt, htag] at hw
      · rw [exec_nil, update_eq_self]
      · intro reg _
        rfl
  | regI offset | regF offset | stack offset | droppedRvar => exact hdefault haty

/-- The operand is no word of the object of `n` words at `obj`. -/
def Outside (obj : Int) (n : Nat) (base sizeFf : Int) : Aty → Prop
  | .stack offset => ∀ i : Nat, i < n → base + 8 * (sizeFf - offset - 1) ≠ obj + 8 * i
  | _ => True

theorem elemValue_congr {n : Nat} (haty : IsElem aty)
    (hout : Outside obj n (s.regs .rsp) sizeFf aty)
    (hregs : ∀ reg, reg ≠ RI.tmpReg0 → s'.regs reg = s.regs reg)
    (hmem : ∀ address, (∀ i : Nat, i < n → address ≠ obj + 8 * i) → s'.mem address = s.mem address)
    :
    atyValue flags labAddr s' sizeFf aty = atyValue flags labAddr s sizeFf aty := by
  have hrsp := hregs .rsp (by decide)
  unfold atyValue
  rw [hrsp]
  cases aty with
  | phreg reg => simp only [valueAt, hregs reg haty]
  | stack offset => simp only [valueAt, hmem _ hout]
  | _ => rfl

/-- The elements stand in consecutive words of the object, from word `first`
on. -/
structure StoresAll (pre : List Inst) (elems : List Aty) (b : Reg) (first : Nat) (sizeFf : Int)
    (s : State) : Prop where
  values : ∀ (i : Nat) (aty : Aty) (v : Int), elems[i]? = some aty →
    atyValue flags labAddr s sizeFf aty = some v →
    (exec labAddr s pre).mem (s.regs b + 8 * ((first + i : Nat) : Int)) = v
  others : ∀ address,
    (∀ i : Nat, i < elems.length → address ≠ s.regs b + 8 * ((first + i : Nat) : Int)) →
    (exec labAddr s pre).mem address = s.mem address

theorem storesAll_nil : StoresAll flags labAddr [] [] b first sizeFf s := by
  constructor
  · intro i aty v hi
    cases hi
  · intro address _
    rfl

theorem storesAll_cons {elems : List Aty} {first n : Nat} (hb : b ≠ RI.tmpReg0)
    (hfirst : Stores flags labAddr preFirst aty b first sizeFf s v)
    (hrest : StoresAll flags labAddr preRest elems b (first + 1) sizeFf (exec labAddr s preFirst))
    (helems : ∀ aty ∈ elems, IsElem aty ∧ Outside (s.regs b) n (s.regs .rsp) sizeFf aty)
    (hn : first < n) :
    StoresAll flags labAddr (preFirst ++ preRest) (aty :: elems) b first sizeFf s := by
  have hobj : (exec labAddr s preFirst).regs b = s.regs b := hfirst.regs b hb
  have hafter : ∀ address, address ≠ s.regs b + 8 * (first : Int) →
      (exec labAddr s preFirst).mem address = s.mem address := by
    intro address hne
    rw [hfirst.mem, update_of_ne hne]
  have hkept : ∀ aty ∈ elems, atyValue flags labAddr (exec labAddr s preFirst) sizeFf aty =
      atyValue flags labAddr s sizeFf aty := by
    intro aty hmem
    apply elemValue_congr flags labAddr (helems aty hmem).1 (helems aty hmem).2 hfirst.regs
    intro address hout
    exact hafter address (hout first hn)
  constructor
  · intro i aty' w hi hw
    rw [exec_append]
    cases i with
    | zero =>
      cases hi
      rw [hrest.others, hfirst.mem, ← hfirst.value w hw]
      · exact update_self ..
      · intro i _ heq
        omega
    | succ i =>
      have hget : elems[i]? = some aty' := by simpa using hi
      have hvalue := hrest.values i aty' w hget ((hkept aty' (mem_of_getElem? hget)).trans hw)
      rw [hobj] at hvalue
      rw [show first + (i + 1) = first + 1 + i by omega]
      exact hvalue
  · intro address hout
    rw [exec_append, hrest.others]
    · apply hafter
      simpa using hout 0 (by simp)
    · intro i hi
      have hne := hout (i + 1) (by simpa using hi)
      rw [hobj, show first + 1 + i = first + (i + 1) by omega]
      exact hne

theorem storeElems_emits {elems : List Aty} (sizeFf : Int) (first : Nat) (hb : b ≠ RI.tmpReg0)
    (helems : ∀ aty ∈ elems, IsElem aty) :
    ∃ pre, (∀ C', storeElems flags b sizeFf (first + elems.length - 1) elems C' =
        .ok ((first : Int) - 1, pre ++ C')) ∧
      ∀ (s : State) (n : Nat), first + elems.length ≤ n →
        (∀ aty ∈ elems, Outside (s.regs b) n (s.regs .rsp) sizeFf aty) →
        StoresAll flags labAddr pre elems b first sizeFf s := by
  induction elems generalizing first with
  | nil =>
    refine ⟨[], fun C' => ?_, fun s _ _ _ => storesAll_nil flags labAddr⟩
    simp [storeElems]
  | cons aty elems ih =>
    obtain ⟨preRest, hrestEq, hrest⟩ := ih (first + 1) fun aty hmem => helems aty (by simp [hmem])
    obtain ⟨preFirst, hpreFirst, hfirst⟩ := storeAtyInRegRecord_stores flags labAddr
      (helems aty (by simp)) hb
    refine ⟨preFirst ++ preRest, fun C' => ?_, fun s n hn hout => ?_⟩
    · have hlast : (first : Int) + (aty :: elems).length - 1 =
          ((first + 1 : Nat) : Int) + elems.length - 1 := by
        simp only [length_cons]
        omega
      have hoffset : ((first + 1 : Nat) : Int) - 1 = first := by omega
      rw [hlast]
      refine (ok_bind (hrestEq C')).trans ?_
      rw [hoffset]
      refine (ok_bind (hpreFirst.eq (preRest ++ C'))).trans ?_
      rw [append_assoc]
      rfl
    · obtain ⟨v, hstores⟩ := hfirst s
      have hlen : first + 1 + elems.length ≤ n := by
        simp only [length_cons] at hn
        omega
      have hobj := hstores.regs b hb
      have hrsp := hstores.regs .rsp (by decide)
      apply storesAll_cons flags labAddr hb hstores
      · apply hrest _ n hlen
        intro aty hmem
        rw [hobj, hrsp]
        exact hout aty (by simp [hmem])
      · intro aty hmem
        exact ⟨helems aty (by simp [hmem]), hout aty (by simp [hmem])⟩
      · omega

end Stores

/-! ## The fields of a closure -/

/-- A field of a closure, its descriptor apart. -/
inductive Field (α : Type) where
  | code (label : Label)
  | elem (a : α)

def Field.map {α β : Type} (f : α → β) : Field α → Field β
  | .code label => .code label
  | .elem a => .elem (f a)

/-- An ordinary closure starts with its code pointer, a shared one has none. -/
def closFields {α : Type} (label : Option Label) (elems : Free α) : List (Field α) :=
  (label.map Field.code).toList ++ (smashFree elems).map .elem

/-- `CLOS_RECORD` if there is a label, `SCLOS_RECORD` otherwise. -/
def cgRecord (flags : Flags) (alloc : Alloc) (label : Option Label) (elems : Free Aty) (pat : Aty)
    (sizeFf : Int) (C : List Inst) : Except String (List Inst) :=
  match label with
  | some label => cgClosRecord flags alloc label elems pat sizeFf C
  | none => cgSclosRecord flags alloc elems pat sizeFf C

/-- The words in front of the fields. -/
def descriptorSize (flags : Flags) : Nat := if flags.tagValues then 1 else 0

/-- The descriptor of a closure: its size, and how many fields to pass over. -/
def descriptor {α : Type} (label : Option Label) (elems : Free α) : Word32 :=
  match label with
  | some _ => BI.tagClos false ((smashFree elems).length + 1) (elems.rhos.length + 1)
  | none => BI.tagSclos false (smashFree elems).length elems.rhos.length

variable {α : Type} {elems : Free Aty} {pre : List Inst} {reg : Reg} {label : Option Label}
  {i : Nat}

section Records

variable (flags : Flags) (labAddr : Lab → Int)

def fieldValue (s : State) (sizeFf : Int) : Field Aty → Option Int
  | .code label => some (labAddr (.mlFunLab label))
  | .elem aty => atyValue flags labAddr s sizeFf aty

/-- The object register `b` points at has the fields, behind the descriptor if
values are tagged. -/
structure StoresRecord (pre : List Inst) (label : Option Label) (elems : Free Aty) (b : Reg)
    (sizeFf : Int) (s : State) : Prop where
  tag : flags.tagValues = true →
    (exec labAddr s pre).mem (s.regs b) = ((descriptor label elems).toNat : Int)
  fields : ∀ (i : Nat) (field : Field Aty) (v : Int), (closFields label elems)[i]? = some field →
    fieldValue flags labAddr s sizeFf field = some v →
    (exec labAddr s pre).mem (s.regs b + 8 * ((descriptorSize flags + i : Nat) : Int)) = v

/-- What can be given a closure: a register other than the scratch register, a
word of the frame, or nothing. -/
def IsRecordDest : Aty → Prop
  | .stack _ => True
  | .phreg reg => reg ≠ RI.tmpReg0
  | .unit => True
  | _ => False

theorem resolveAtyDef_dest (hpat : IsRecordDest pat) :
    ∃ reg C', resolveAtyDef pat RI.tmpReg1 sizeFf C = .ok (reg, C') ∧ reg ≠ RI.tmpReg0 := by
  cases pat with
  | stack offset | unit => exact ⟨_, _, rfl, by decide⟩
  | phreg reg => exact ⟨reg, C, rfl, hpat⟩
  | _ => exact absurd hpat id

/-- The stores in front of those of the elements. -/
def headCode (flags : Flags) (label : Option Label) (tag : Word32) (b : Reg) : List Inst :=
  let code := match label with
    | some label =>
      [.movq (.LA (.mlFunLab label)) (.R RI.tmpReg0),
        .movq (.R RI.tmpReg0) (.D (8 * (descriptorSize flags : Int)) b)]
    | none => []
  if flags.tagValues then .movq (.I tag.toNat) (.D 0 b) :: code else code

/-- `movq` stores numbers of 32 bits, with their sign. -/
theorem headCode_assembles (label : Option Label) (tag : Word32) (b : Reg) :
    Assembles (headCode flags label tag b) ↔ (flags.tagValues = true → tag.toNat < 2 ^ 31) := by
  have hoffset : Encodable (8 * (descriptorSize flags : Int)) := by
    unfold Encodable descriptorSize
    split <;> decide
  have htag : Encodable (tag.toNat : Int) ↔ tag.toNat < 2 ^ 31 := by
    unfold Encodable
    omega
  have hzero : Encodable 0 := by decide
  cases label <;> cases hflag : flags.tagValues <;>
    simp [headCode, hflag, Assembles, Inst.Encodes, Ea.Encodes, hoffset, htag, hzero]

/-- The descriptor of a closure with fewer than `2 ^ 12` fields can be stored. -/
theorem descriptor_lt {label : Option Label} {elems : Free Aty}
    (h : (closFields label elems).length < 2 ^ 12) : (descriptor label elems).toNat < 2 ^ 31 := by
  have hrhos : elems.rhos.length ≤ (smashFree elems).length := by
    simp only [smashFree, length_append]
    omega
  cases label with
  | some label =>
    have hsize : (smashFree elems).length + 1 < 2 ^ 12 := by simpa [closFields] using h
    exact BI.genRecordTag_lt hsize (by omega) (by decide)
  | none =>
    have hsize : (smashFree elems).length < 2 ^ 12 := by simpa [closFields] using h
    exact BI.genRecordTag_lt hsize (by omega) (by decide)

/-- The words in front of the elements. -/
def headSize (flags : Flags) (label : Option Label) : Nat :=
  descriptorSize flags + label.toList.length

structure StoresHead (label : Option Label) (tag : Word32) (b : Reg) (s s' : State) : Prop where
  tag : flags.tagValues = true → s'.mem (s.regs b) = (tag.toNat : Int)
  code : ∀ lab, label = some lab →
    s'.mem (s.regs b + 8 * (descriptorSize flags : Int)) = labAddr (.mlFunLab lab)
  others : ∀ address, (∀ i : Nat, i < headSize flags label → address ≠ s.regs b + 8 * (i : Int)) →
    s'.mem address = s.mem address
  regs : ∀ reg, reg ≠ RI.tmpReg0 → s'.regs reg = s.regs reg

theorem headCode_stores (label : Option Label) (tag : Word32) (hb : b ≠ RI.tmpReg0) (s : State) :
    StoresHead flags labAddr label tag b s (exec labAddr s (headCode flags label tag b)) := by
  cases htag : flags.tagValues with
  | false =>
    have hsize : descriptorSize flags = 0 := by rw [descriptorSize, htag]; rfl
    have hno : ¬ flags.tagValues = true := by simp [htag]
    cases label with
    | none => exact ⟨fun h => absurd h hno, nofun, by simp [headCode, htag], by simp [headCode, htag]⟩
    | some label =>
      constructor
      · exact fun h => absurd h hno
      · intro lab hlab
        cases hlab
        simp [headCode, htag, hsize, execInst, writeEa, readEa, hb]
      · intro address hout
        have hne : address ≠ s.regs b := by simpa using hout 0 (by simp [headSize, hsize])
        simp [headCode, htag, hsize, execInst, writeEa, readEa, hb, hne]
      · intro reg hreg
        simp [headCode, htag, hsize, execInst, writeEa, readEa, hreg]
  | true =>
    have hsize : descriptorSize flags = 1 := by rw [descriptorSize, htag]; rfl
    cases label with
    | none =>
      constructor
      · intro _
        simp [headCode, htag, execInst, writeEa, readEa]
      · intro lab hlab
        cases hlab
      · intro address hout
        have hne : address ≠ s.regs b := by simpa using hout 0 (by simp [headSize, hsize])
        simp [headCode, htag, execInst, writeEa, readEa, hne]
      · intro reg _
        simp [headCode, htag, execInst, writeEa, readEa]
    | some label =>
      constructor
      · intro _
        have hne : s.regs b ≠ s.regs b + 8 := by omega
        simp [headCode, htag, hsize, execInst, writeEa, readEa, hb, hne]
      · intro lab hlab
        cases hlab
        simp [headCode, htag, hsize, execInst, writeEa, readEa, hb]
      · intro address hout
        have hne : address ≠ s.regs b := by simpa using hout 0 (by simp [headSize, hsize])
        have hne' : address ≠ s.regs b + 8 := by simpa using hout 1 (by simp [headSize, hsize])
        simp [headCode, htag, hsize, execInst, writeEa, readEa, hb, hne, hne']
      · intro reg hreg
        simp [headCode, htag, hsize, execInst, writeEa, readEa, hreg]

/-- The words of the object. -/
def recordSize (flags : Flags) (label : Option Label) (elems : Free Aty) : Nat :=
  headSize flags label + (smashFree elems).length

theorem cgRecord_eq (hreg : resolveAtyDef pat RI.tmpReg1 sizeFf C = .ok (reg, C'))
    (hpre : ∀ C', storeElems flags reg sizeFf ((headSize flags label : Int) + (smashFree
    elems).length - 1) (smashFree elems) C' = .ok ((headSize flags label : Int) - 1, pre ++ C')) :
    cgRecord flags alloc label elems pat sizeFf C =
      alloc reg (recordSize flags label elems)
        (headCode flags label (descriptor label elems) reg ++ pre ++ C') := by
  have helems : ∀ last : Int, last = (headSize flags label : Int) + (smashFree elems).length - 1 →
      storeElems flags reg sizeFf last (smashFree elems) C' =
        .ok ((headSize flags label : Int) - 1, pre ++ C') :=
    fun last hlast => hlast ▸ hpre C'
  have hsize : descriptorSize flags = if flags.tagValues then 1 else 0 := rfl
  cases htag : flags.tagValues <;> cases label
  all_goals
    rw [htag] at hsize
    refine (ok_bind hreg).trans ?_
    simp only [htag, Bool.false_eq_true, if_false, if_true]
    refine (ok_bind (helems _ ?_)).trans ?_
    · simp [headSize, hsize]
      try omega
    simp [recordSize, headSize, hsize, headCode, htag, loadLabelAddr, storeIndexed, isXmmEa, isXmm,
      RI.tmpReg0, storeImmed, descriptor, offsetBytes, bind, Except.bind, add_comm]

/-- A field is the code pointer or one of the elements behind the head. -/
theorem closFields_cases {elems : Free α} {field : Field α}
    (h : (closFields label elems)[i]? = some field) :
    (i = 0 ∧ ∃ lab, label = some lab ∧ field = .code lab) ∨
      ∃ (j : Nat) (a : α), i = label.toList.length + j ∧ (smashFree elems)[j]? = some a ∧
        field = .elem a := by
  have helem : ∀ j : Nat, ((smashFree elems).map Field.elem)[j]? = some field →
      ∃ a, (smashFree elems)[j]? = some a ∧ field = .elem a := by
    intro j hj
    obtain ⟨a, ha, heq⟩ := Option.map_eq_some_iff.mp ((List.getElem?_map ..).symm.trans hj)
    exact ⟨a, ha, heq.symm⟩
  cases label with
  | none =>
    obtain ⟨a, ha, heq⟩ := helem i h
    exact Or.inr ⟨i, a, (zero_add i).symm, ha, heq⟩
  | some lab =>
    cases i with
    | zero =>
      cases h
      exact Or.inl ⟨rfl, lab, rfl, rfl⟩
    | succ i =>
      obtain ⟨a, ha, heq⟩ := helem i h
      exact Or.inr ⟨i, a, add_comm i 1, ha, heq⟩

theorem storesRecord_of_parts (hb : b ≠ RI.tmpReg0)
    (hhead : StoresHead flags labAddr label (descriptor label elems) b s (exec labAddr s hd))
    (hpre : StoresAll flags labAddr pre (smashFree elems) b (headSize flags label) sizeFf
      (exec labAddr s hd))
    (helems : ∀ aty ∈ smashFree elems, IsElem aty ∧
      Outside (s.regs b) (recordSize flags label elems) (s.regs .rsp) sizeFf aty) :
    StoresRecord flags labAddr (hd ++ pre) label elems b sizeFf s := by
  have hobj : (exec labAddr s hd).regs b = s.regs b := hhead.regs b hb
  -- the stores of the elements leave the words of the head alone
  have hkeep : ∀ i : Nat, i < headSize flags label →
      (exec labAddr (exec labAddr s hd) pre).mem (s.regs b + 8 * (i : Int)) =
        (exec labAddr s hd).mem (s.regs b + 8 * (i : Int)) := by
    intro i hi
    apply hpre.others
    intro j _ heq
    omega
  have hkept : ∀ aty ∈ smashFree elems, atyValue flags labAddr (exec labAddr s hd) sizeFf aty =
      atyValue flags labAddr s sizeFf aty := by
    intro aty hmem
    apply elemValue_congr flags labAddr (helems aty hmem).1 (helems aty hmem).2 hhead.regs
    intro address hout
    apply hhead.others
    intro i hi
    exact hout i (lt_of_lt_of_le hi (Nat.le_add_right ..))
  constructor
  · intro htag
    have hpos : 0 < headSize flags label := by
      unfold headSize descriptorSize
      rw [if_pos htag]
      omega
    have hword := hkeep 0 hpos
    simp only [Int.natCast_zero, Int.mul_zero, Int.add_zero] at hword
    rw [exec_append, hword]
    exact hhead.tag htag
  · intro i field v hfield hv
    rw [exec_append]
    rcases closFields_cases hfield with ⟨rfl, lab, rfl, rfl⟩ | ⟨j, aty, rfl, hj, rfl⟩
    · rw [add_zero, hkeep _ (by simp [headSize]), hhead.code lab rfl]
      exact Option.some.inj hv
    · have hvalue := hpre.values j aty v hj ((hkept aty (mem_of_getElem? hj)).trans hv)
      rw [hobj] at hvalue
      rw [← add_assoc]
      exact hvalue

/-- The emitted code allocates the object and stores descriptor and fields. -/
theorem cgRecord_stores (hpat : IsRecordDest pat) (helems : ∀ aty ∈ smashFree elems, IsElem aty) :
    ∃ reg pre C', resolveAtyDef pat RI.tmpReg1 sizeFf C = .ok (reg, C') ∧
      cgRecord flags alloc label elems pat sizeFf C =
        alloc reg (recordSize flags label elems) (pre ++ C') ∧
      ∀ s : State, (∀ aty ∈ smashFree elems,
          Outside (s.regs reg) (recordSize flags label elems) (s.regs .rsp) sizeFf aty) →
        StoresRecord flags labAddr pre label elems reg sizeFf s := by
  obtain ⟨reg, C', hreg, hb⟩ := resolveAtyDef_dest hpat
  obtain ⟨pre, hpreEq, hstores⟩ := storeElems_emits flags labAddr sizeFf
    (headSize flags label) hb helems
  refine ⟨reg, headCode flags label (descriptor label elems) reg ++ pre, C', hreg,
    cgRecord_eq flags hreg hpreEq, fun s hout => ?_⟩
  have hhead := headCode_stores flags labAddr label (descriptor label elems) hb s
  apply storesRecord_of_parts flags labAddr hb hhead
  · apply hstores _ (recordSize flags label elems) (le_refl _)
    rw [hhead.regs reg hb, hhead.regs .rsp (by decide)]
    exact hout
  · intro aty hmem
    exact ⟨helems aty hmem, hout aty hmem⟩

end Records

end MLKit.X64
