import MLKit.X64.ClosureSlots
import MLKit.Backend.ConKinds

/-!
# Code for constructors

The code of `CON0`, `CON1` and `DECON` in `CodeGenX64`, and what represents a
constructed value: a number, a pointer to the argument itself, or a pointer to
an object whose first word is the tag of the constructor.
-/

namespace MLKit.X64

open MLKit.Lib MLKit.Backend MLKit.Backend.SubstAndSimplify List

/-! ## The code -/

/-- `resetRegions` is the code that resets the auxiliary regions. -/
def cgCon0 (flags : Flags) (resetRegions : List Inst → Except String (List Inst)) (alloc : Alloc)
    (con : Con) (conKind : ConKind) (pat : Aty) (sizeFf : Int) (C : List Inst) :
    Except String (List Inst) :=
  match conKind with
  | .enum i => do
    let tag := enumTag flags con i
    let (regForResult, C') ← resolveAtyDef pat RI.tmpReg1 sizeFf C
    return moveImmed tag (.R regForResult) C'
  | .unboxed i => do
    let tag := 4 * i + 3
    let (regForResult, C') ← resolveAtyDef pat RI.tmpReg1 sizeFf C
    resetRegions (moveImmed tag (.R regForResult) C')
  | .boxed i => do
    let tag := (BI.tagCon0 false i).toNat
    let (regForResult, C') ← resolveAtyDef pat RI.tmpReg1 sizeFf C
    let C ← alloc regForResult 1 (.movq (.I tag) (.D 0 regForResult) :: C')
    resetRegions C

def cgCon1 (flags : Flags) (alloc : Alloc) (conKind : ConKind) (arg pat : Aty) (sizeFf : Int)
    (C : List Inst) : Except String (List Inst) :=
  match conKind with
  | .unboxed 0 => moveAtyToAty flags arg pat sizeFf C
  | .unboxed i => do
    let (regForResult, C') ← resolveAtyDef pat RI.tmpReg1 sizeFf C
    match i with
    | 1 => moveAtyIntoReg flags arg regForResult sizeFf (.orq (.I 1) (.R regForResult) :: C')
    | 2 => moveAtyIntoReg flags arg regForResult sizeFf (.orq (.I 2) (.R regForResult) :: C')
    | _ => die "CG_ls: UNBOXED CON1 with i > 2"
  | .boxed i => do
    let (regForResult, C') ← resolveAtyDef pat RI.tmpReg1 sizeFf C
    let tag := (BI.tagCon1 false i).toNat
    if pat = arg then
      -- the argument must survive the allocation
      let C ← copy RI.tmpReg1 regForResult C'
      let C ← storeAtyInRegRecord flags arg RI.tmpReg0 RI.tmpReg1 (.words 1) sizeFf C
      alloc RI.tmpReg1 2 (.movq (.I tag) (.D 0 RI.tmpReg1) :: C)
    else
      let C ← storeAtyInRegRecord flags arg RI.tmpReg0 regForResult (.words 1) sizeFf C'
      alloc regForResult 2 (.movq (.I tag) (.D 0 regForResult) :: C)
  | .enum _ => die "CON1.con not unary in env."

def cgDecon (flags : Flags) (conKind : ConKind) (conAty pat : Aty) (sizeFf : Int)
    (C : List Inst) : Except String (List Inst) :=
  match conKind with
  | .unboxed 0 => moveAtyToAty flags conAty pat sizeFf C
  | .unboxed _ => do
    let (regForResult, C') ← resolveAtyDef pat RI.tmpReg1 sizeFf C
    moveAtyIntoReg flags conAty regForResult sizeFf
      (.movq (.I 3) (.R RI.tmpReg0) :: .notq (.R RI.tmpReg0) ::
        .andq (.R RI.tmpReg0) (.R regForResult) :: C')
  | .boxed _ => moveIndexAtyToAty flags conAty pat (.words 1) RI.tmpReg1 sizeFf C
  | .enum _ => die "CG_ls: DECON used with con_kind ENUM"

/-- What `lookup_con` makes of a representation. -/
def codeKind : CE.ConKind → ConKind
  | .enum i => .enum i
  | .ubNullary i => .unboxed i
  | .ubUnary i => .unboxed i
  | .bNullary i => .boxed i
  | .bUnary i => .boxed i

variable {kind : CE.ConKind} {con : Con} {env : CE.ConEnv} {aty pat conAty : Aty} {x a : Int}
  {alloc : Alloc} {resetRegions : List Inst → Except String (List Inst)} {b : Reg} {i : Nat}
  {build : List Inst}

theorem lookupCon_eq (h : env con = some kind) : lookupCon env con = .ok (codeKind kind) := by
  have hlookup : CE.lookupCon env con = .ok kind := by
    rw [CE.lookupCon, h]
  refine (ok_bind hlookup).trans ?_
  cases kind <;> rfl

/-! ## What represents a value -/

/-- A word, and the memory it may point to, represent a constructor without or
with an argument. -/
def Represents (flags : Flags) (con : Con) (mem : Int → Int) (w : Int) :
    CE.ConKind → Option Int → Prop
  | .enum i, none => w = enumTag flags con i
  | .ubNullary i, none => w = (4 * i + 3 : Nat)
  | .ubUnary i, some a => i = 0 ∧ w = a
  | .bNullary i, none => mem w = (BI.tagCon0 false i).toNat
  | .bUnary i, some a => mem w = (BI.tagCon1 false i).toNat ∧ mem (w + 8) = a
  | _, _ => False

/-- Where a constructed value goes: a general register that the code around it
does not use itself, or a word of the frame. -/
def IsConDest : Aty → Prop
  | .phreg reg => isXmm reg = false ∧ reg ≠ RI.tmpReg0 ∧ reg ≠ RI.tmpReg1 ∧ reg ≠ .rsp
  | .stack _ => True
  | _ => False

/-- Arguments: unboxed floats are not passed to constructors, and the scratch
registers hold no variable. -/
def IsConArg (aty : Aty) : Prop := IsOperand aty ∧ aty ≠ .phreg RI.tmpReg0 ∧ aty ≠ .phreg RI.tmpReg1

theorem IsConArg.isElem (h : IsConArg aty) : IsElem aty := by
  cases aty with
  | phreg reg => exact fun heq => h.2.1 (by rw [heq])
  | flowVar lv ifTrue ifFalse | integer value precision | word value precision => exact h.1
  | _ => trivial

theorem IsConDest.isGeneral (h : IsConDest pat) : IsGeneral pat := by
  cases pat with
  | phreg reg => exact h.1
  | stack offset => trivial
  | _ => exact absurd h id

/-- The allocation leaves the object in `reg` and keeps the argument. -/
structure Allocates (reg : Reg) (arg : Aty) (sizeFf : Int) (s s' : State) : Prop where
  regs : ∀ r, r ≠ reg → r ≠ RI.tmpReg0 → r ≠ RI.tmpReg1 → s'.regs r = s.regs r
  frame : ∀ offset, arg = .stack offset →
    s'.mem (s.regs .rsp + 8 * (sizeFf - offset - 1)) = s.mem (s.regs .rsp + 8 * (sizeFf - offset - 1))

variable {sizeFf : Int} {reg : Reg} {arg : Aty} {s s' : State}

section Code

variable (flags : Flags) (labAddr : Lab → Int)

/-- The code `tail` puts the word in register `b` in place and keeps objects. -/
def PutsInPlace (tail : List Inst) (b : Reg) (pat : Aty) (sizeFf : Int) : Prop :=
  ∀ s, atyValue flags labAddr (exec labAddr s tail) sizeFf pat = some (s.regs b) ∧
    ∀ (obj : Int) (n : Nat), Outside obj n (s.regs .rsp) sizeFf pat → ∀ i : Nat, i < n →
      (exec labAddr s tail).mem (obj + 8 * i) = s.mem (obj + 8 * i)

/-- The register a result is computed in, and the code that puts it in place. -/
theorem resolveAtyDef_emits (hpat : IsConDest pat) :
    ∃ reg post, (∀ C, resolveAtyDef pat RI.tmpReg1 sizeFf C = .ok (reg, post ++ C)) ∧
      (isXmm reg = false ∧ reg ≠ RI.tmpReg0 ∧ reg ≠ .rsp) ∧
      (pat = .phreg reg ∨ ∃ offset, pat = .stack offset ∧ reg = RI.tmpReg1) ∧
      PutsInPlace flags labAddr post reg pat sizeFf := by
  cases pat with
  | phreg reg =>
    exact ⟨reg, [], fun C => rfl, ⟨hpat.1, hpat.2.1, hpat.2.2.2⟩, .inl rfl,
      fun s => ⟨rfl, fun _ _ _ _ _ => rfl⟩⟩
  | stack offset =>
    refine ⟨RI.tmpReg1, [.movq (.R RI.tmpReg1) (.D (8 * (sizeFf - offset - 1)) .rsp)],
      fun C => rfl, by decide, .inr ⟨offset, rfl, rfl⟩, fun s => ⟨?_, ?_⟩⟩
    · simp [atyValue, valueAt, execInst, writeEa, readEa]
    · intro obj n hout i hi
      exact State.setMem_mem_ne _ _ (fun heq => hout i hi heq.symm)
  | _ => exact absurd hpat id

theorem moveImmed_emits :
    ∃ pre, (∀ C, moveImmed x (.R reg) C = pre ++ C) ∧ ∀ s, exec labAddr s pre = s.setReg reg x := by
  by_cases hzero : x = 0
  · refine ⟨[.xorq (.R reg) (.R reg)], fun C => ?_, fun s => ?_⟩
    · rw [hzero]
      rfl
    · rw [hzero]
      rfl
  · refine ⟨[.movq (.I x) (.R reg)], fun C => ?_, fun s => rfl⟩
    unfold moveImmed
    split
    · exact absurd rfl hzero
    · rfl

/-- An operand that has a value is moved to another one. -/
theorem moveAtyToAty_moves (haty : IsOperand aty) (hpat : IsGeneral pat) :
    ∃ pre, Emits (moveAtyToAty flags aty pat sizeFf) pre ∧
      ∀ s v, atyValue flags labAddr s sizeFf aty = some v →
        atyValue flags labAddr (exec labAddr s pre) sizeFf pat = some v := by
  cases pat with
  | phreg dst =>
    have hdst : isXmm dst = false := hpat
    obtain ⟨pre, hpre, hloads⟩ := moveAtyIntoReg_loads flags labAddr haty hdst
    refine ⟨pre, hpre.congr fun C => by cases aty <;> rfl, fun s v hv => ?_⟩
    obtain ⟨v', hexec, hvalue⟩ := hloads s
    rw [hexec, hvalue v hv]
    simp [atyValue, valueAt]
  | stack offset =>
    cases aty with
    | phreg src =>
      have hsrc : isXmm src = false := haty
      refine ⟨[.movq (.R src) (.D (8 * (sizeFf - offset - 1)) .rsp)], ⟨fun C => ?_, ?_⟩,
        fun s v hv => ?_⟩
      · rw [moveAtyToAty, moveRegIntoAty, storeIndexed, isXmmEa, hsrc]
        rfl
      · simp [isPlain]
      · have hv' : s.regs src = v := Option.some.inj hv
        simp [atyValue, valueAt, execInst, writeEa, readEa, hv']
    | _ =>
      obtain ⟨pre, hpre, hloads⟩ := moveAtyIntoReg_loads flags labAddr haty
        (show isXmm RI.tmpReg1 = false from rfl)
      refine ⟨pre ++ [.movq (.R RI.tmpReg1) (.D (8 * (sizeFf - offset - 1)) .rsp)],
        (hpre.snoc rfl).congr fun _ => rfl, fun s v hv => ?_⟩
      obtain ⟨v', hexec, hvalue⟩ := hloads s
      rw [exec_append, hexec, hvalue v hv]
      have hrsp : Reg.rsp ≠ RI.tmpReg1 := by decide
      simp [atyValue, valueAt, execInst, writeEa, readEa, hrsp]
  | _ => exact absurd hpat id

/-! ## Building a value -/

/-- The code in front of the stores of `CON0`. -/
def con0Front (resetRegions : List Inst → Except String (List Inst)) (alloc : Alloc) (reg : Reg)
    (kind : CE.ConKind) (C : List Inst) : Except String (List Inst) :=
  match kind with
  | .enum _ => .ok C
  | .bNullary _ => do
    let C ← alloc reg 1 C
    resetRegions C
  | _ => resetRegions C

/-- A number is moved to its place. -/
theorem immediate_builds (hpat : IsConDest pat) :
    ∃ pre, (∀ (f : List Inst → Except String (List Inst)) C, (do
        let (regForResult, C') ← resolveAtyDef pat RI.tmpReg1 sizeFf C
        f (moveImmed x (.R regForResult) C')) = f (pre ++ C)) ∧
      ∀ s, atyValue flags labAddr (exec labAddr s pre) sizeFf pat = some x := by
  obtain ⟨reg, post, hresolve, -, -, hpost⟩ := resolveAtyDef_emits flags labAddr hpat
  obtain ⟨pre, hpre, hexec⟩ := moveImmed_emits labAddr
  refine ⟨pre ++ post, fun f C => ?_, fun s => ?_⟩
  · refine (ok_bind (hresolve C)).trans ?_
    rw [append_assoc, ← hpre]
  · rw [exec_append, (hpost _).1, hexec]
    simp

/-- `CON0` leaves a word that represents the constructor. -/
theorem cgCon0_builds
    (hkind : (∃ i, kind = .enum i) ∨ (∃ i, kind = .ubNullary i) ∨ ∃ i, kind = .bNullary i)
    (sizeFf : Int) (hpat : IsConDest pat) :
    ∃ reg pre, (∀ C, cgCon0 flags resetRegions alloc con (codeKind kind) pat sizeFf C =
        con0Front resetRegions alloc reg kind (pre ++ C)) ∧
      ∀ s, Outside (s.regs reg) 1 (s.regs .rsp) sizeFf pat →
        ∃ w, atyValue flags labAddr (exec labAddr s pre) sizeFf pat = some w ∧
          Represents flags con (exec labAddr s pre).mem w kind none := by
  rcases hkind with ⟨i, rfl⟩ | ⟨i, rfl⟩ | ⟨i, rfl⟩
  · obtain ⟨pre, hpre, hvalue⟩ := immediate_builds flags labAddr hpat
    exact ⟨RI.tmpReg1, pre, fun C => hpre .ok C, fun s _ => ⟨_, hvalue s, rfl⟩⟩
  · obtain ⟨pre, hpre, hvalue⟩ := immediate_builds flags labAddr hpat
    exact ⟨RI.tmpReg1, pre, fun C => hpre resetRegions C, fun s _ => ⟨_, hvalue s, rfl⟩⟩
  · obtain ⟨reg, post, hresolve, -, -, hpost⟩ := resolveAtyDef_emits flags labAddr hpat
    refine ⟨reg, .movq (.I (BI.tagCon0 false i).toNat) (.D 0 reg) :: post, fun C => ?_,
      fun s hout => ⟨s.regs reg, ?_, ?_⟩⟩
    · exact ok_bind (hresolve C)
    · rw [exec_cons, (hpost _).1]
      rfl
    · have hkeep := (hpost (execInst labAddr s (.movq (.I (BI.tagCon0 false i).toNat)
        (.D 0 reg)))).2 (s.regs reg) 1 hout 0 Nat.zero_lt_one
      simp only [Int.natCast_zero, Int.mul_zero, Int.add_zero] at hkeep
      rw [Represents, exec_cons, hkeep]
      simp [execInst, writeEa, readEa]

/-- The code in front of the stores of `CON1`. -/
def con1Front (alloc : Alloc) (reg : Reg) (kind : CE.ConKind) (C : List Inst) :
    Except String (List Inst) :=
  match kind with
  | .bUnary _ => alloc reg 2 C
  | _ => .ok C

/-- The state after the code in front. -/
def Con1Start (reg : Reg) (kind : CE.ConKind) (arg : Aty) (sizeFf : Int) (s s' : State) : Prop :=
  match kind with
  | .bUnary _ => Allocates reg arg sizeFf s s'
  | _ => s' = s

theorem Allocates.value (h : Allocates reg arg sizeFf s s') (harg : IsConArg arg)
    (hne : arg ≠ .phreg reg) (hrsp : reg ≠ .rsp) :
    atyValue flags labAddr s' sizeFf arg = atyValue flags labAddr s sizeFf arg := by
  have hsp : s'.regs .rsp = s.regs .rsp := h.regs .rsp hrsp.symm (by decide) (by decide)
  unfold atyValue
  rw [hsp]
  cases arg with
  | phreg r =>
    have hr := h.regs r (fun heq => hne (by rw [heq])) (fun heq => harg.2.1 (by rw [heq]))
      (fun heq => harg.2.2 (by rw [heq]))
    simp only [valueAt, hr]
  | stack offset => simp only [valueAt, h.frame offset rfl]
  | _ => rfl

/-- The code builds the object of a boxed unary constructor in register `b`. -/
def BuildsBoxed (build : List Inst) (b : Reg) (arg : Aty) (sizeFf : Int) (con : Con) (i : Nat) : Prop :=
  ∀ s a, Outside (s.regs b) 2 (s.regs .rsp) sizeFf arg →
    atyValue flags labAddr s sizeFf arg = some a →
    Represents flags con (exec labAddr s build).mem (s.regs b) (.bUnary i) (some a) ∧
      ∀ reg, reg ≠ RI.tmpReg0 → (exec labAddr s build).regs reg = s.regs reg

theorem boxed_builds (harg : IsConArg arg) (hb : b ≠ RI.tmpReg0) :
    ∃ store, Emits (storeAtyInRegRecord flags arg RI.tmpReg0 b (.words 1) sizeFf) store ∧
      BuildsBoxed flags labAddr (.movq (.I (BI.tagCon1 false i).toNat) (.D 0 b) :: store) b arg
        sizeFf con i := by
  obtain ⟨store, hemits, hstores⟩ := storeAtyInRegRecord_stores flags labAddr harg.isElem hb
  refine ⟨store, hemits, fun s a hout ha => ?_⟩
  have hkept : atyValue flags labAddr
      (execInst labAddr s (.movq (.I (BI.tagCon1 false i).toNat) (.D 0 b))) sizeFf arg = some a := by
    rw [← ha]
    refine elemValue_congr flags labAddr harg.isElem hout (fun reg _ => rfl) fun address haddress => ?_
    exact State.setMem_mem_ne _ _ (by simpa using haddress 0 (by decide))
  obtain ⟨v, hvalue, hmem, hregs⟩ := hstores (execInst labAddr s
    (.movq (.I (BI.tagCon1 false i).toNat) (.D 0 b)))
  have hv : v = a := hvalue a hkept
  subst hv
  refine ⟨⟨?_, ?_⟩, fun reg hreg => ?_⟩
  · rw [exec_cons, hmem, Function.update_of_ne]
    · simp [execInst, writeEa, readEa]
    · simp [execInst, writeEa, readEa]
  · rw [exec_cons, hmem]
    exact Function.update_self ..
  · rw [exec_cons, hregs reg hreg]
    rfl

theorem putsInPlace_copy {tail : List Inst} (hreg : isXmm reg = false)
    (hrsp : reg ≠ .rsp) (htail : PutsInPlace flags labAddr tail reg pat sizeFf) :
    ∃ front, Emits (copy RI.tmpReg1 reg) front ∧
      PutsInPlace flags labAddr (front ++ tail) RI.tmpReg1 pat sizeFf := by
  obtain ⟨front, hfront, hloads⟩ := copy_loads flags labAddr sizeFf
    (show isXmm RI.tmpReg1 = false from rfl) hreg
  refine ⟨front, hfront, fun s => ?_⟩
  obtain ⟨v, hexec, hvalue⟩ := hloads s
  have hv : v = s.regs RI.tmpReg1 := hvalue _ rfl
  obtain ⟨hplace, hkeeps⟩ := htail (s.setReg reg v)
  rw [exec_append, hexec]
  refine ⟨?_, fun obj n hout i hi => ?_⟩
  · rw [hplace, State.setReg_regs_self, hv]
  · exact hkeeps obj n (by rwa [State.setReg_regs_ne _ _ hrsp.symm]) i hi

/-- An object that is built in register `b` and put in place. -/
theorem boxed_finishes (harg : IsConArg arg) (hb : b ≠ RI.tmpReg0) (hrsp : b ≠ .rsp)
    (hne : arg ≠ .phreg b) {tail : List Inst} (htail : PutsInPlace flags labAddr tail b pat sizeFf)
    (hbuild : BuildsBoxed flags labAddr build b arg sizeFf con i)
    (halloc : Allocates b arg sizeFf s s')
    (hpat : Outside (s'.regs b) 2 (s'.regs .rsp) sizeFf pat)
    (hout : Outside (s'.regs b) 2 (s'.regs .rsp) sizeFf arg)
    (ha : atyValue flags labAddr s sizeFf arg = some a) :
    ∃ w, atyValue flags labAddr (exec labAddr s' (build ++ tail)) sizeFf pat = some w ∧
      Represents flags con (exec labAddr s' (build ++ tail)).mem w (.bUnary i) (some a) := by
  have ha' := (halloc.value flags labAddr harg hne hrsp).trans ha
  obtain ⟨⟨htag, hargument⟩, hregs⟩ := hbuild s' a hout ha'
  obtain ⟨hplace, hkeeps⟩ := htail (exec labAddr s' build)
  have hwords := hkeeps (s'.regs b) 2 (by rwa [hregs .rsp (by decide)])
  have hfirst := hwords 0 (by decide)
  have hsecond := hwords 1 (by decide)
  simp only [Int.natCast_zero, Int.mul_zero, Int.add_zero] at hfirst
  refine ⟨s'.regs b, ?_, ?_, ?_⟩
  · rw [exec_append, hplace, hregs b hb]
  · rw [exec_append, hfirst, htag]
  · rw [exec_append]
    exact hsecond.trans hargument

/-- `CON1` leaves a word that represents the constructor and its argument. -/
theorem cgCon1_builds (hkind : kind = .ubUnary 0 ∨ ∃ i, kind = .bUnary i) (sizeFf : Int)
    (harg : IsConArg arg)
    (hpat : IsConDest pat) :
    ∃ reg pre, (∀ C, cgCon1 flags alloc (codeKind kind) arg pat sizeFf C =
        con1Front alloc reg kind (pre ++ C)) ∧
      ∀ s s' a, Con1Start reg kind arg sizeFf s s' →
        Outside (s'.regs reg) 2 (s'.regs .rsp) sizeFf pat →
        Outside (s'.regs reg) 2 (s'.regs .rsp) sizeFf arg →
        atyValue flags labAddr s sizeFf arg = some a →
        ∃ w, atyValue flags labAddr (exec labAddr s' pre) sizeFf pat = some w ∧
          Represents flags con (exec labAddr s' pre).mem w kind (some a) := by
  rcases hkind with rfl | ⟨i, rfl⟩
  · obtain ⟨pre, hpre, hmoves⟩ := moveAtyToAty_moves flags labAddr harg.1 hpat.isGeneral
    refine ⟨RI.tmpReg1, pre, hpre.eq, fun s s' a hstart _ _ ha => ⟨a, ?_, rfl, rfl⟩⟩
    cases hstart
    exact hmoves s a ha
  · obtain ⟨reg, post, hresolve, ⟨hxmm, htmp, hrsp⟩, hreg, hpost⟩ :=
      resolveAtyDef_emits flags labAddr hpat
    by_cases heq : pat = arg
    · obtain ⟨front, hfront, hplace⟩ := putsInPlace_copy flags labAddr hxmm hrsp hpost
      obtain ⟨store, hstore, hbuilds⟩ := boxed_builds flags labAddr harg
        (show RI.tmpReg1 ≠ RI.tmpReg0 by decide)
      refine ⟨RI.tmpReg1, .movq (.I (BI.tagCon1 false i).toNat) (.D 0 RI.tmpReg1) :: store ++
        (front ++ post), fun C => ?_, fun s s' a hstart hout hout' ha => ?_⟩
      · refine (ok_bind (hresolve C)).trans ((if_pos heq).trans ?_)
        refine (ok_bind (hfront.eq (post ++ C))).trans ((ok_bind (hstore.eq _)).trans ?_)
        simp [con1Front]
      · exact boxed_finishes flags labAddr harg (by decide) (by decide) harg.2.2 hplace hbuilds
          hstart hout hout' ha
    · obtain ⟨store, hstore, hbuilds⟩ := boxed_builds flags labAddr harg htmp
      refine ⟨reg, .movq (.I (BI.tagCon1 false i).toNat) (.D 0 reg) :: store ++ post, fun C => ?_,
        fun s s' a hstart hout hout' ha => ?_⟩
      · refine (ok_bind (hresolve C)).trans ((if_neg heq).trans ((ok_bind (hstore.eq _)).trans ?_))
        simp [con1Front]
      · have hne : arg ≠ .phreg reg := by
          rcases hreg with rfl | ⟨offset, rfl, rfl⟩
          · exact fun h => heq h.symm
          · exact harg.2.2
        exact boxed_finishes flags labAddr harg htmp hrsp hne hpost hbuilds hstart hout hout' ha

/-! ## Taking a value apart -/

/-- `DECON` gives the argument back. -/
theorem cgDecon_reads (con : Con) (hkind : kind = .ubUnary 0 ∨ ∃ i, kind = .bUnary i) (sizeFf : Int)
    (haty : IsOperand conAty) (hpat : IsGeneral pat) :
    ∃ pre, Emits (cgDecon flags (codeKind kind) conAty pat sizeFf) pre ∧
      ∀ s w a, atyValue flags labAddr s sizeFf conAty = some w →
        Represents flags con s.mem w kind (some a) →
        atyValue flags labAddr (exec labAddr s pre) sizeFf pat = some a := by
  rcases hkind with rfl | ⟨i, rfl⟩
  · obtain ⟨pre, hpre, hmoves⟩ := moveAtyToAty_moves flags labAddr haty hpat
    refine ⟨pre, hpre, fun s w a hw hrep => ?_⟩
    rw [hmoves s w hw, hrep.2]
  · obtain ⟨pre, hpre, hreads⟩ := moveIndexAtyToAty_reads haty hpat
    refine ⟨pre, hpre, fun s w a hw hrep => ?_⟩
    rw [hreads s w hw, ← hrep.2]
    rfl

end Code

end MLKit.X64
