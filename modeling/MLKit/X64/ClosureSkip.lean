import MLKit.X64.ClosureRecord

/-!
# What the collector passes over in a closure

The descriptor of a closure tells the garbage collector how many fields to
pass over.  They should be the fields that are no ML values: the code pointer,
the region pointers and the variables that hold unboxed 64-bit floats.
-/

namespace MLKit.X64

open MLKit.Backend MLKit.Backend.SubstAndSimplify List Nat

variable {α : Type} {n : Nat} {back : List α} {fvs : FreeVars} {label : Option Label}
  {operand : FreeVar → α}

/-- The elements of a list that are below `n` are those with the property, the
list being split in a first part that has it and the rest. -/
theorem belowIff_append {front : List α} {p : α → Prop} (hfront : ∀ a ∈ front, p a)
    (hn : n ≤ front.length) :
    (∀ (k : Nat) (a : α), (front ++ back)[k]? = some a → (k < n ↔ p a)) ↔
      n = front.length ∧ ∀ a ∈ back, ¬ p a := by
  constructor
  · intro h
    have heq : n = front.length := by
      by_contra hne
      have hlt : n < front.length := by omega
      have hget : (front ++ back)[n]? = some front[n] := by simp [getElem?_append_left hlt, hlt]
      exact lt_irrefl n ((h n _ hget).mpr (hfront _ (getElem_mem hlt)))
    constructor
    · exact heq
    · intro a ha hp
      obtain ⟨j, hj⟩ := mem_iff_getElem?.mp ha
      have hget : (front ++ back)[front.length + j]? = some a := by
        rw [getElem?_append_right (Nat.le_add_right ..), Nat.add_sub_cancel_left]
        exact hj
      have hlt := (h _ a hget).mpr hp
      omega
  · rintro ⟨rfl, hback⟩ k a hget
    by_cases hk : k < front.length
    · rw [getElem?_append_left hk] at hget
      simp only [hk, true_iff]
      exact hfront a (mem_of_getElem? hget)
    · rw [getElem?_append_right (by omega)] at hget
      simp only [hk, false_iff]
      exact hback a (mem_of_getElem? hget)

/-! ## The fields of a closure over free variables -/

/-- The fields of a closure, each with the variable it holds. -/
def freeFields (fvs : FreeVars) (label : Option Label) : List (Field FreeVar) :=
  closFields label (fvs.elems id)

/-- Fields that hold no ML value. -/
def Field.IsRaw : Field FreeVar → Prop
  | .code _ => True
  | .elem (.rho _) => True
  | .elem (.lvar lv) => lv.getUbf64 = true
  | .elem (.excon _) => False

/-- Passing over `skip` fields passes over exactly those that hold no ML value. -/
def SkipsRaw (skip : Nat) (fields : List (Field FreeVar)) : Prop :=
  ∀ (k : Nat) (field : Field FreeVar), fields[k]? = some field → (k < skip ↔ field.IsRaw)

/-- The code pointer and the regions. -/
def frontFields (fvs : FreeVars) (label : Option Label) : List (Field FreeVar) :=
  (label.map Field.code).toList ++ fvs.rhos.map fun place => .elem (.rho place)

/-- The variables and exception constructors. -/
def backFields (fvs : FreeVars) : List (Field FreeVar) :=
  (fvs.lvs.map fun lv => .elem (.lvar lv)) ++ fvs.excons.map fun excon => .elem (.excon excon)

theorem freeFields_eq (fvs : FreeVars) (label : Option Label) :
    freeFields fvs label = frontFields fvs label ++ backFields fvs := by
  simp [freeFields, closFields, smashFree, FreeVars.elems, frontFields, backFields,
    Function.comp_def]

theorem front_raw :
    ∀ field ∈ frontFields fvs label, field.IsRaw := by
  intro field hmem
  rcases mem_append.mp hmem with hmem | hmem
  · cases label with
    | none => cases hmem
    | some label =>
      rw [mem_singleton.mp hmem]
      trivial
  · obtain ⟨place, -, rfl⟩ := mem_map.mp hmem
    trivial

theorem back_not_raw_iff (fvs : FreeVars) :
    (∀ field ∈ backFields fvs, ¬ field.IsRaw) ↔ ∀ lv ∈ fvs.lvs, lv.getUbf64 = false := by
  constructor
  · intro h lv hlv
    have hraw := h (.elem (.lvar lv)) (mem_append_left _ (mem_map.mpr ⟨lv, hlv, rfl⟩))
    simpa [Field.IsRaw] using hraw
  · intro h field hmem
    rcases mem_append.mp hmem with hmem | hmem
    · obtain ⟨lv, hlv, rfl⟩ := mem_map.mp hmem
      simp [Field.IsRaw, h lv hlv]
    · obtain ⟨excon, -, rfl⟩ := mem_map.mp hmem
      exact id

theorem front_length :
    (frontFields fvs label).length = label.toList.length + fvs.rhos.length := by
  cases label <;> simp [frontFields, add_comm]

/-! ## The descriptor -/

/-- The number of fields the descriptor should cover if no variable holds an
unboxed float. -/
theorem getRecordSkip_descriptor {α : Type} (label : Option Label) (elems : Free α) :
    BI.getRecordSkip (descriptor label elems).toNat =
      (label.toList.length + elems.rhos.length) % 2 ^ 13 := by
  cases label with
  | none => exact (BI.getRecordSkip_genRecordTag (by decide)).trans (by simp)
  | some label =>
    exact (BI.getRecordSkip_genRecordTag (by decide)).trans (by simp [add_comm])

theorem descriptor_skipsRaw_iff :
    SkipsRaw (BI.getRecordSkip (descriptor label (fvs.elems operand)).toNat)
    (freeFields fvs label) ↔
      (∀ lv ∈ fvs.lvs, lv.getUbf64 = false) ∧ label.toList.length + fvs.rhos.length < 2 ^ 13 := by
  have hskip : BI.getRecordSkip (descriptor label (fvs.elems operand)).toNat =
      (frontFields fvs label).length % 2 ^ 13 := by
    rw [getRecordSkip_descriptor, front_length]
    simp [FreeVars.elems]
  unfold SkipsRaw
  rw [hskip, freeFields_eq, belowIff_append (front_raw) (mod_le _ _),
    back_not_raw_iff fvs, ← front_length, and_comm, mod_eq_iff_lt (by decide)]

/-- With values tagged, the code of a closure leaves each field behind the
descriptor, and the collector passes over exactly the fields without an ML
value if and only if no free variable holds an unboxed float and the number
fits its 13 bits. -/
theorem closure_skipsRaw_iff (flags : Flags) (htag : flags.tagValues = true) (labAddr : Lab → Int)
    (alloc : Alloc) (label : Option Label) (fvs : FreeVars) (operand : FreeVar → Aty) (pat : Aty)
    (sizeFf : Int) (C : List Inst) (hpat : IsRecordDest pat)
    (helems : ∀ aty ∈ smashFree (fvs.elems operand), IsElem aty) :
    ∃ reg pre C' words, resolveAtyDef pat RI.tmpReg1 sizeFf C = .ok (reg, C') ∧
      cgRecord flags alloc label (fvs.elems operand) pat sizeFf C = alloc reg words (pre ++ C') ∧
      ∀ s : State, (∀ aty ∈ smashFree (fvs.elems operand),
          Outside (s.regs reg) words (s.regs .rsp) sizeFf aty) →
        (∀ (k : Nat) (field : Field FreeVar) (v : Int), (freeFields fvs label)[k]? = some field →
          fieldValue flags labAddr s sizeFf (field.map operand) = some v →
          (exec labAddr s pre).mem (s.regs reg + 8 * ((1 + k : Nat) : Int)) = v) ∧
        (SkipsRaw (BI.getRecordSkip ((exec labAddr s pre).mem (s.regs reg)).toNat)
            (freeFields fvs label) ↔
          (∀ lv ∈ fvs.lvs, lv.getUbf64 = false) ∧
            label.toList.length + fvs.rhos.length < 2 ^ 13) := by
  obtain ⟨reg, pre, C', hreg, hcode, hstores⟩ := cgRecord_stores flags labAddr hpat helems
  refine ⟨reg, pre, C', recordSize flags label (fvs.elems operand), hreg, hcode, fun s hout => ?_⟩
  have hrecord := hstores s hout
  have hsize : descriptorSize flags = 1 := by rw [descriptorSize, if_pos htag]
  have hfields : closFields label (fvs.elems operand) = (freeFields fvs label).map
    (Field.map operand) := by
    cases label <;>
      simp [freeFields, closFields, smashFree, FreeVars.elems, Field.map, Function.comp_def]
  constructor
  · intro k field v hk hv
    rw [← hsize]
    apply hrecord.fields k (field.map operand) v _ hv
    rw [hfields, getElem?_map, hk]
    rfl
  · rw [hrecord.tag htag, Int.toNat_natCast]
    exact descriptor_skipsRaw_iff

def taggedFlags : Flags :=
  { tagValues := true, garbageCollection := true, regionProfiling := false, generationalGc := false }

/-- Regions are passed in `rsi`, floats in `xmm2` and other variables in `rdi`. -/
def sampleOperand : FreeVar → Aty
  | .rho _ => .phreg .rsi
  | .lvar lv => if lv.getUbf64 then .phreg (.xmm 2) else .phreg .rdi
  | .excon _ => .phreg .rdi

/-- A closure over a region, a variable and an exception constructor. -/
theorem boxed_closure_skipsRaw :
    ∃ pre, cgRecord taggedFlags (fun _ _ C => .ok C) (some ⟨0⟩)
        ((getFvs [.named 1 false] [⟨"E"⟩] [⟨2⟩]).elems sampleOperand) (.phreg .rax) 0 [] = .ok pre ∧
      ∀ s : State, SkipsRaw (BI.getRecordSkip ((exec (fun _ => 0) s pre).mem (s.regs .rax)).toNat)
        (freeFields (getFvs [.named 1 false] [⟨"E"⟩] [⟨2⟩]) (some ⟨0⟩)) := by
  obtain ⟨reg, pre, C', words, hreg, hcode, hrun⟩ := closure_skipsRaw_iff taggedFlags rfl
    (fun _ => 0) (fun _ _ C => .ok C) (some ⟨0⟩) (getFvs [.named 1 false] [⟨"E"⟩] [⟨2⟩])
    sampleOperand (.phreg .rax) 0 [] (by simp [IsRecordDest, RI.tmpReg0])
    (by simp [smashFree, FreeVars.elems, getFvs, sampleOperand, Lvar.getUbf64, IsElem, RI.tmpReg0])
  cases hreg
  refine ⟨pre, by simpa using hcode, fun s => ?_⟩
  have hout : ∀ aty ∈ smashFree ((getFvs [.named 1 false] [⟨"E"⟩] [⟨2⟩]).elems sampleOperand),
      Outside (s.regs .rax) words (s.regs .rsp) 0 aty := by
    simp [smashFree, FreeVars.elems, getFvs, sampleOperand, Lvar.getUbf64, Outside]
  exact (hrun s hout).2.mpr (by decide)

/-- The code of a closure over an unboxed float and a variable. -/
def floatClosureCode : List Inst :=
  [.movq (.I (BI.tagClos false 3 1).toNat) (.D 0 .rax),
    .movq (.LA (.mlFunLab ⟨0⟩)) (.R .r10), .movq (.R .r10) (.D 8 .rax),
    .movsd (.R (.xmm 2)) (.D 16 .rax), .movq (.R .rdi) (.D 24 .rax)]

/-- The float is the second field, but only one field is passed over. -/
theorem captured_float_traversed :
    cgRecord taggedFlags (fun _ _ C => .ok C) (some ⟨0⟩)
        ((getFvs [.named 2 false, .named 1 true] [] []).elems sampleOperand) (.phreg .rax) 0 [] =
      .ok floatClosureCode ∧
    ¬ SkipsRaw (BI.getRecordSkip
        ((exec (fun _ => 0) ⟨fun _ => 0, fun _ => 0⟩ floatClosureCode).mem 0).toNat)
      (freeFields (getFvs [.named 2 false, .named 1 true] [] []) (some ⟨0⟩)) := by
  constructor
  · rfl
  · intro h
    have hskip := (h 1 (.elem (.lvar (.named 1 true))) rfl).mpr rfl
    revert hskip
    decide

end MLKit.X64
