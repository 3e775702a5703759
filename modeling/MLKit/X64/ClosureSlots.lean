import MLKit.X64.ClosureRecord
import MLKit.Backend.ClosureContexts

/-!
# Closure slots

Functions read their free variables, through the environments of closure
conversion, from the records the code generator lays out.
-/

namespace MLKit.X64

open MLKit.Lib MLKit.Backend MLKit.Backend.SubstAndSimplify MLKit.Backend.ClosConv List

/-! ## Reading a field -/

/-- `dstAty = srcAty[offset]`. -/
def moveIndexAtyToAty (flags : Flags) (srcAty dstAty : Aty) (offset : Offset) (t : Reg)
    (sizeFf : Int) (C : List Inst) : Except String (List Inst) :=
  match srcAty, dstAty with
  | .phreg srcReg, .phreg dstReg => loadIndexed (.R dstReg) srcReg offset C
  | .phreg srcReg, dstAty => do
    let C ← moveRegIntoAty t dstAty sizeFf C
    loadIndexed (.R t) srcReg offset C
  | srcAty, .phreg dstReg => do
    let C ← loadIndexed (.R dstReg) dstReg offset C
    moveAtyIntoReg flags srcAty dstReg sizeFf C
  | srcAty, dstAty => do
    let C ← moveRegIntoAty t dstAty sizeFf C
    let C ← loadIndexed (.R t) t offset C
    moveAtyIntoReg flags srcAty t sizeFf C

/-- The code of `SELECT`. -/
def cgSelect (flags : Flags) (i : Nat) (aty pat : Aty) (sizeFf : Int) (C : List Inst) :
    Except String (List Inst) :=
  if flags.tagValues then moveIndexAtyToAty flags aty pat (.words (i + 1)) RI.tmpReg1 sizeFf C
  else moveIndexAtyToAty flags aty pat (.words i) RI.tmpReg1 sizeFf C

/-- Field `i` of an object in memory. -/
def memFields (flags : Flags) (mem : Int → Int) (obj : Int) (i : Nat) : Int :=
  mem (obj + 8 * ((descriptorSize flags + i : Nat) : Int))

variable {pat aty : Aty} {sizeFf n : Int} {b reg : Reg}
  {gen : List Inst → Except String (List Inst)} {pre : List Inst} {i : Nat} {globalEnv env : Env}
  {φ : Frame} {ρ : Vals}

section Select

variable {flags : Flags} {labAddr : Lab → Int}

/-- A general register or a word of the frame; a selection is bound to a fresh
variable, which is not an unboxed float. -/
def IsGeneral : Aty → Prop
  | .phreg reg => isXmm reg = false
  | .stack _ => True
  | _ => False

theorem cgSelect_eq (i : Nat) (aty pat : Aty) (sizeFf : Int) (C : List Inst) :
    cgSelect flags i aty pat sizeFf C =
      moveIndexAtyToAty flags aty pat (.words ((descriptorSize flags + i : Nat) : Int)) RI.tmpReg1
        sizeFf C := by
  unfold cgSelect descriptorSize
  split
  · rw [show ((1 + i : Nat) : Int) = i + 1 by omega]
  · rw [zero_add]

/-- Load the word behind a register, and put it where it belongs. -/
theorem loadStore_reads (n : Int) (b : Reg) (hb : isXmm b = false) (hpat : IsGeneral pat) :
    ∃ pre, Emits (fun C => do
        let C ← moveRegIntoAty RI.tmpReg1 pat sizeFf C
        loadIndexed (.R RI.tmpReg1) b (.words n) C) pre ∧
      ∀ s, atyValue flags labAddr (exec labAddr s pre) sizeFf pat =
        some (s.mem (s.regs b + 8 * n)) := by
  have hload : Emits (loadIndexed (.R RI.tmpReg1) b (.words n))
      [.movq (.D (8 * n) b) (.R RI.tmpReg1)] :=
    ⟨fun C => if_neg (by rw [hb]; decide), by simp [isPlain]⟩
  cases pat with
  | phreg reg =>
    obtain ⟨pre, hpre, hloads⟩ := copy_loads flags labAddr sizeFf
      (show isXmm RI.tmpReg1 = false from rfl) (show isXmm reg = false from hpat)
    refine ⟨_, hload.comp hpre, fun s => ?_⟩
    obtain ⟨v, hexec, hvalue⟩ := hloads (execInst labAddr s (.movq (.D (8 * n) b) (.R RI.tmpReg1)))
    rw [cons_append, exec_cons, nil_append, hexec]
    have hv := hvalue _ rfl
    simp only [atyValue, valueAt, State.setReg_regs_self, hv]
    simp [execInst, writeEa, readEa]
  | stack offset =>
    refine ⟨[_, .movq (.R RI.tmpReg1) (.D (8 * (sizeFf - offset - 1)) .rsp)], hload.snoc rfl,
      fun s => ?_⟩
    have hrsp : Reg.rsp ≠ RI.tmpReg1 := by decide
    simp [atyValue, valueAt, execInst, writeEa, readEa, hrsp]
  | _ => exact absurd hpat id

/-- An operand that is no register is moved to register `b` first. -/
theorem loadBase_reads (haty : IsOperand aty) (hb : isXmm b = false) (hpre : Emits gen pre)
    (hreads : ∀ s, atyValue flags labAddr (exec labAddr s pre) sizeFf pat =
      some (s.mem (s.regs b + 8 * n))) :
    ∃ pre', Emits (fun C => do
        let C ← gen C
        moveAtyIntoReg flags aty b sizeFf C) pre' ∧
      ∀ s obj, atyValue flags labAddr s sizeFf aty = some obj →
        atyValue flags labAddr (exec labAddr s pre') sizeFf pat = some (s.mem (obj + 8 * n)) := by
  obtain ⟨first, hfirst, hloads⟩ := moveAtyIntoReg_loads flags labAddr haty hb
  refine ⟨first ++ pre, hfirst.comp hpre, fun s obj hobj => ?_⟩
  obtain ⟨v, hexec, hvalue⟩ := hloads s
  rw [exec_append, hreads, hexec, hvalue obj hobj]
  simp

theorem loadReg_reads (hb : isXmm b = false) (hreg : isXmm reg = false) :
    ∃ pre, Emits (loadIndexed (.R reg) b (.words n)) pre ∧
      ∀ s, atyValue flags labAddr (exec labAddr s pre) sizeFf (.phreg reg) =
        some (s.mem (s.regs b + 8 * n)) := by
  refine ⟨[.movq (.D (8 * n) b) (.R reg)], ⟨fun C => ?_, by simp [isPlain]⟩, fun s => ?_⟩
  · rw [loadIndexed, if_neg (by rw [hb]; decide), isXmmEa, if_neg (by rw [hreg]; decide)]
    rfl
  · simp [atyValue, valueAt, execInst, writeEa, readEa]

theorem moveIndexAtyToAty_reads (haty : IsOperand aty) (hpat : IsGeneral pat) :
    ∃ pre, Emits (moveIndexAtyToAty flags aty pat (.words n) RI.tmpReg1 sizeFf) pre ∧
      ∀ s obj, atyValue flags labAddr s sizeFf aty = some obj →
        atyValue flags labAddr (exec labAddr s pre) sizeFf pat = some (s.mem (obj + 8 * n)) := by
  cases pat with
  | phreg reg =>
    cases aty with
    | phreg srcReg =>
      obtain ⟨pre, hpre, hreads⟩ := loadReg_reads haty hpat
      refine ⟨pre, hpre, fun s obj hobj => ?_⟩
      rw [hreads, ← Option.some.inj hobj]
    | _ =>
      obtain ⟨pre, hpre, hreads⟩ := loadReg_reads hpat hpat
      exact loadBase_reads haty hpat hpre hreads
  | stack offset =>
    cases aty with
    | phreg srcReg =>
      obtain ⟨pre, hpre, hreads⟩ := loadStore_reads n srcReg haty hpat
      refine ⟨pre, hpre, fun s obj hobj => ?_⟩
      rw [hreads, ← Option.some.inj hobj]
    | _ =>
      obtain ⟨pre, hpre, hreads⟩ := loadStore_reads n RI.tmpReg1 rfl hpat
      obtain ⟨pre', hpre', hreads'⟩ := loadBase_reads haty
        (show isXmm RI.tmpReg1 = false from rfl) hpre hreads
      exact ⟨pre', hpre'.congr fun _ => rfl, hreads'⟩
  | _ => exact absurd hpat id

/-- `SELECT` reads the field, with or without a descriptor in front. -/
theorem cgSelect_reads (haty : IsOperand aty) (hpat : IsGeneral pat) :
    ∃ pre, Emits (cgSelect flags i aty pat sizeFf) pre ∧
      ∀ s obj, atyValue flags labAddr s sizeFf aty = some obj →
        atyValue flags labAddr (exec labAddr s pre) sizeFf pat =
          some (memFields flags s.mem obj i) := by
  obtain ⟨pre, hpre, hreads⟩ := moveIndexAtyToAty_reads haty hpat
  exact ⟨pre, hpre.congr (cgSelect_eq i aty pat sizeFf), hreads⟩

end Select

/-! ## Closures and their slots -/

section Slots

variable (flags : Flags) (labAddr : Lab → Int) (fetch : Label → Int)

/-- The code of a record leaves an object whose fields hold the values of the
elements, as long as its words are not overwritten. -/
def RecordsHold : Prop :=
  ∀ (alloc : Alloc) (label : Option Label) (elems : Free Aty) (pat : Aty) (sizeFf : Int)
    (C : List Inst), IsRecordDest pat → (∀ aty ∈ smashFree elems, IsElem aty) →
    ∃ reg pre C', resolveAtyDef pat RI.tmpReg1 sizeFf C = .ok (reg, C') ∧
      cgRecord flags alloc label elems pat sizeFf C =
        alloc reg (recordSize flags label elems) (pre ++ C') ∧
      ∀ (s : State) (ces : List ClosExp) (φ₁ φ' : Frame) (mem : Int → Int),
        (∀ aty ∈ smashFree elems,
          Outside (s.regs reg) (recordSize flags label elems) (s.regs .rsp) sizeFf aty) →
        List.Forall₂ (fun ce aty => evalCe fetch φ₁ ce = atyValue flags labAddr s sizeFf aty) ces
          (smashFree elems) →
        (∀ i : Nat, i < recordSize flags label elems → mem (s.regs reg + 8 * (i : Int)) =
          (exec labAddr s pre).mem (s.regs reg + 8 * (i : Int))) →
        φ'.fields = memFields flags mem →
        StoresElems fetch φ₁ ces label.toList.length φ' (s.regs reg)

/-- The code of `SELECT` reads a field of the object. -/
def SelectReads : Prop :=
  ∀ (i : Nat) (aty pat : Aty) (sizeFf : Int), IsOperand aty → IsGeneral pat →
    ∃ pre, Emits (cgSelect flags i aty pat sizeFf) pre ∧
      ∀ s obj, atyValue flags labAddr s sizeFf aty = some obj →
        atyValue flags labAddr (exec labAddr s pre) sizeFf pat = some (memFields flags s.mem obj i)

variable (program : Label → Option Fun)

/-- Every access gives the value of its variable. -/
def AccessesAgree (env : Env) (φ : Frame) (ρ : Vals) (next : Nat) : Prop :=
  ∀ (x : FreeVar) (n : Nat) (r : Access × Nat) (v : Int), next ≤ n → lookup env x n = .ok r →
    ρ x = some v → evalCe fetch (bindSes fetch φ [r.1.2]) r.1.1 = some v

/-- A call of a known function passes a closure exactly when its code has a
parameter for one, and passes the closure of the function. -/
def CallsAgree (env : Env) (φ : Frame) (ρ : Vals) (next : Nat) : Prop :=
  ∀ (lvar : Lvar) (accesses : List Access) (lo n : Nat)
    (r : (Option ClosExp × List ClosExp × List SelectExp × Label) × Nat),
    next ≤ lo → lo ≤ n → (∀ access ∈ accesses, IsAccess access) →
    BindsFresh lo n (accesses.map Prod.snd) → compileLetrecApp env lvar accesses n = .ok r →
    ∃ f, program r.1.2.2.2 = some f ∧ (r.1.1 = none ↔ f.clos = none) ∧
      ∀ ce v, r.1.1 = some ce → ρ (.lvar lvar) = some v →
        evalCe fetch (bindSes fetch φ r.1.2.2.1) ce = some v

/-- The code of an `FN` has a parameter for its closure, and a call through a
closure passes it. -/
def FnsAgree (globalEnv env : Env) : Prop :=
  (∀ newLab args free alloc ccBody next result,
    ccFn globalEnv env newLab args free alloc ccBody next = .ok result →
    result.2.1.clos ≠ none) ∧
  ∀ opr accesses r, compileFnApp opr accesses = .ok r → r.1 ≠ none

/-- The size recorded for a shared closure is the number of its elements; a
closure that is not empty is made in front of the scope. -/
def SizesAgree (globalEnv env : Env) (φ : Frame) (next : Nat) : Prop :=
  ∀ dropRho free stored sharedClos functions ccScope result,
    (∀ f ∈ functions, ∀ env n r, f.ccBody env n = .ok r → n ≤ r.2) →
    ccFix globalEnv env dropRho free sharedClos functions ccScope next = .ok result →
    removeZeroSizedRegionClosureLvars env free = .ok stored →
    (∀ g ∈ result.2.1, g.clos = none ↔ size3 stored = 0) ∧
      (size3 stored ≠ 0 → ∃ φ₁ ces sma scope,
        enter fetch φ result.1 = (φ₁, .letExp [freshLvar next] (.sclosRecord ces sma) scope) ∧
        (smashFree ces).length = size3 stored)

theorem recordsHold : RecordsHold flags labAddr fetch := by
  intro alloc label elems pat sizeFf C hpat helems
  obtain ⟨reg, pre, C', hreg, hcode, hstores⟩ := cgRecord_stores flags labAddr hpat helems
  refine ⟨reg, pre, C', hreg, hcode, fun s ces φ₁ φ' mem hout hvalues hmem hfields => ?_⟩
  have hrecord := hstores s hout
  intro p ce v hp hv
  obtain ⟨hlt, hget⟩ := List.getElem?_eq_some_iff.mp hp
  have hlt' : p < (smashFree elems).length := by rwa [← hvalues.length_eq]
  have hvalue := List.Forall₂.get hvalues hlt hlt'
  simp only [List.get_eq_getElem, hget] at hvalue
  have hfield : (closFields label elems)[label.toList.length + p]? =
      some (.elem (smashFree elems)[p]) := by
    unfold closFields
    have hhead : ((label.map (Field.code : Label → Field Aty)).toList).length =
        label.toList.length := by
      cases label <;> rfl
    rw [getElem?_append_right (by rw [hhead]; exact Nat.le_add_right ..), hhead,
      Nat.add_sub_cancel_left, getElem?_map, getElem?_eq_getElem hlt']
    rfl
  have hword := hrecord.fields (label.toList.length + p) _ v hfield (hvalue.symm.trans hv)
  have hsize : descriptorSize flags + (label.toList.length + p) < recordSize flags label elems := by
    unfold recordSize headSize
    omega
  rw [hfields, memFields, hmem _ hsize, hword]

theorem fnsAgree : FnsAgree globalEnv env := by
  constructor
  · intro newLab args free alloc ccBody next result hcc
    obtain ⟨stored, envBody, accesses, body, sma, parts, -, -, -, -, -, -, rfl⟩ := ccFn_ok hcc
    exact Option.some_ne_none _
  · intro opr accesses r h
    unfold compileFnApp at h
    split at h
    · cases h
      exact Option.some_ne_none _
    · cases h

theorem sizesAgree {next : Nat} (h : EnvOk fetch program env φ ρ next) :
    SizesAgree fetch globalEnv env φ next := by
  intro dropRho free stored sharedClos functions ccScope result hbodies hcc hstored
  constructor
  · obtain ⟨stored', accesses, funs, hstored', -, hfuns, hresult, -⟩ := ccFix_ok hcc
    rw [hstored] at hstored'
    cases hstored'
    rw [hresult]
    intro g hg
    obtain ⟨f, n, n', hcompiled⟩ := mapFresh_mem hfuns g hg
    obtain ⟨-, -, -, -, -, hclos, -⟩ := compileFn_ok hcompiled
    rw [hclos]
    by_cases hsize : size3 stored = 0 <;> simp [hsize]
  · intro hsize
    obtain ⟨φ₁, ces, sma, scope, henter, helems⟩ := ccFix_elems hcc hstored h hbodies hsize
    exact ⟨φ₁, ces, sma, scope, henter,
      (List.Forall₂.length_eq helems).symm.trans (inClosure_length)⟩

/-- At every point of every function, however deeply nested, free variables are
read from the slots they were stored in. -/
theorem closure_slots_agree (globalEnv : Env) (globals : Vals)
    (hglobal : ∀ φ next, EnvOk fetch program globalEnv φ globals next) :
    RecordsHold flags labAddr fetch ∧ SelectReads flags labAddr ∧
      ∀ env φ ρ next, Context fetch program globalEnv globals env φ ρ next →
        AccessesAgree fetch env φ ρ next ∧ CallsAgree fetch program env φ ρ next ∧
          FnsAgree globalEnv env ∧ SizesAgree fetch globalEnv env φ next := by
  refine ⟨recordsHold flags labAddr fetch, ?_, fun env φ ρ next hcontext => ?_⟩
  · intro i aty pat sizeFf haty hpat
    exact cgSelect_reads haty hpat
  · have henv := hcontext.envOk hglobal
    refine ⟨?_, ?_, fnsAgree, sizesAgree fetch program henv⟩
    · intro x n r v hle hlookup hv
      exact henv.lookup hle hlookup hv
    · intro lvar accesses lo n r hlo hlon haccesses hfresh hcall
      exact henv.call hlo hlon haccesses hfresh hcall

end Slots

/-- The environment of a program without other units. -/
def emptyEnv : Env := ⟨fun _ => none, fun _ => none, fun _ => none, fun _ => none⟩

/-- A frame of a function that captured a variable with value 7. -/
def capturedFrame : Frame := ⟨fun _ => 1000, fun _ => 0, fun _ _ => 7⟩

/-- In the body of a function that captures a variable, the field of the closure
gives the value of the variable. -/
theorem captured_slot_agrees :
    ∃ env ρ acc, Context (fun _ => 0) (fun _ => none) emptyEnv (fun _ => none) env capturedFrame ρ
        6 ∧
      lookup env (.lvar (.named 0 false)) 6 = .ok acc ∧
      acc.1.2 = .selectSe (.named 6 false) 1 (.named 5 false) ∧
      evalCe (fun _ => 0) (bindSes (fun _ => 0) capturedFrame [acc.1.2]) acc.1.1 = some 7 := by
  have htop : Context (fun _ => 0) (fun _ => none) emptyEnv (fun _ => none) emptyEnv capturedFrame
      (fun _ => none) 5 := .top capturedFrame 5
  have hlet := htop.letVar (.named 0 false) 7
    (by intro x a ha; cases x <;> cases ha)
    (by intro k hk heq; cases heq; exact absurd hk (by decide))
  have hcc : ccFn emptyEnv (declareLvar (.named 0 false) (.lvar (.named 0 false)) emptyEnv) ⟨0⟩ []
      ⟨[.named 0 false], [], []⟩ none (fun _ n => .ok (.var (.named 0 false), n)) 5 = .ok _ := rfl
  have hbody : Context _ _ _ _ _ capturedFrame _ 6 :=
    hlet.fnBody (fun env n r h => by cases h; exact le_refl _) hcc rfl
      (by
        intro lv hlv p ce v hp hv
        cases hlv
        match p, hp with
        | 0, hp =>
          cases hp
          exact Option.some.inj hv)
      (by simp) (Nat.lt_succ_self 5)
  have hagree := ((closure_slots_agree ⟨true, true, false, false⟩ (fun _ => 0) (fun _ => 0)
    (fun _ => none)
    emptyEnv (fun _ => none) (fun φ next x a ha => by cases x <;> cases ha)).2.2 _ _ _ _ hbody).1
  exact ⟨_, _, _, hbody, rfl, rfl, hagree (.lvar (.named 0 false)) 6 _ 7 (le_refl _) rfl rfl⟩
end MLKit.X64
