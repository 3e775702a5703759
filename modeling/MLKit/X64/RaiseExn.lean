import MLKit.Backend.FrameSlots
import Mathlib.Data.Set.Basic

/-!
# Handlers and raised exceptions

The run-time effect of `HANDLE`, `LETREGION`, calls and `raise_exn` on the stack
pointer, the exception pointer, the words of the stack and the region stack, as
`CodeGenX64` compiles them.  The stack grows towards lower addresses; which
regions a raise pops is decided by comparing addresses only.

The outcome `wrong` stands for a raise that does not find the handler of the
innermost `HANDLE` whose protected part is running as that `HANDLE` left it.
-/

namespace MLKit.X64.RaiseExn

open MLKit.Lib MLKit.Backend MLKit.Backend.CalcOffset List

/-- Registers and memory: `regions` is the list from `TOP_REGION`, given by the
addresses of the descriptors. -/
structure Machine where
  rsp : Int
  exnPtr : Int
  mem : Int → Int
  regions : List Int

/-- Address of the word with the given offset, in a frame of `sizeFf` words. -/
def frameAddr (rsp sizeFf offset : Int) : Int := rsp + 8 * (sizeFf - offset - 1)

/-! ## Raising -/

/-- Of an aligned address nothing is cleared. -/
def clearStatusBits (r : Int) : Int := r - r % 4

/-- The loop of `deallocateRegionsUntil_X64`.  On an empty region stack the
source goes on with a null pointer. -/
def deallocateRegionsUntil (r : Int) : List Int → Option (List Int)
  | [] => none
  | topRegion :: regions =>
    if r ≥ topRegion then deallocateRegionsUntil r regions else some (topRegion :: regions)

/-- `raise_insts`: the label pushed as return address, the closure of the
handler function that is jumped to, and the machine at that point. -/
def raiseInsts (s : Machine) : Option (Int × Int × Machine) := do
  let regions ← deallocateRegionsUntil (clearStatusBits s.exnPtr) s.regions
  return (s.mem s.exnPtr, s.mem (s.exnPtr + 8),
    { s with exnPtr := s.mem (s.exnPtr + 16), rsp := s.mem (s.exnPtr + 24), regions })

/-! ## Entering and leaving -/

namespace Machine

/-- The handler record of a `HANDLE`, written before its protected part. -/
def install (s : Machine) (sizeFf offset lab clos : Int) : Machine :=
  let record := frameAddr s.rsp sizeFf offset
  { s with
    exnPtr := record
    mem := fun a =>
      if a = record then lab
      else if a = record + 8 then clos
      else if a = record + 16 then s.exnPtr
      else if a = record + 24 then s.rsp
      else s.mem a }

def restoreExnPtr (s : Machine) (sizeFf offset : Int) : Machine :=
  { s with exnPtr := s.mem (frameAddr s.rsp sizeFf offset + 16) }

end Machine

/-- The descriptors a `LETREGION` pushes, in the order of its binders. -/
def infiniteRegions (rsp sizeFf : Int) (rhos : List (Binder × Int)) : List Int :=
  rhos.filterMap fun binder =>
    match binder.1.2 with
    | .inf => some (frameAddr rsp sizeFf binder.2)
    | .words _ => none

def slotWords (rsp sizeFf : Int) (slots : List Slot) : Set Int :=
  {a | ∃ slot ∈ slots, ∃ offset, slot.lo ≤ offset ∧ offset < slot.hi ∧
    a = frameAddr rsp sizeFf offset}

/-- The same stack pointer, exception pointer and region stack. -/
def SameStacks (s t : Machine) : Prop := t.rsp = s.rsp ∧ t.exnPtr = s.exnPtr ∧ t.regions = s.regions

def isCall : BasicStmt Int Atom → Bool
  | .fncall _ => true
  | .funcall _ => true
  | _ => false

def isJump : BasicStmt Int Atom → Bool
  | .fnjmp _ => true
  | .jmp _ => true
  | _ => false

def isRaise : BasicStmt Int Atom → Bool
  | .raise _ _ => true
  | _ => false

/-! ## Runs -/

/-- `jumped` leaves the function by a tail call. -/
inductive Outcome where
  | normal
  | jumped
  | raised
  | wrong
  deriving DecidableEq

/-- What is run: statements of a function with a frame of `sizeFf` words; a
function of the program, from the point where its caller transfers control; what
follows when the body of a function, with its frame and the words pushed for the
call, has ended; and what follows when the protected part of a `HANDLE` has
ended, `before` being the machine just before it installed its handler. -/
inductive Code where
  | lss (sizeFf : Int) (lss : List CoStmt)
  | fn
  | leave (words : Int) (ended : Outcome)
  | unprotect (sizeFf offset lab clos : Int) (before : Machine) (handlReturn : List CoStmt)
      (ended : Outcome)

/-- Leaving a `LETREGION` normally pops its infinite regions. -/
def popRegions (n : Nat) (o : Outcome) (s : Machine) : Machine :=
  if o = .normal then { s with regions := s.regions.drop n } else s

variable (flags : Flags) (fns : Set (CallConv.CC × List CoStmt))

/-- Runs of a program of compiled functions.  A statement without statements
writes to the words `W` that are open in some frame and below the stack pointer;
any of them may raise.  A call pushes `k` words, at least the return address,
and some function of the program sets up its frame below them.  Tail calls stand
where nothing of the frame is needed any more: not in the protected part of a
handler, nor in a letregion with a region that takes space. -/
inductive Exec : Set Int → Code → Machine → Outcome → Machine → Prop where
  | nil : Exec W (.lss sizeFf []) s .normal s
  | cons : Exec W (.lss sizeFf [ls]) s .normal s1 →
      Exec W (.lss sizeFf lss) s1 o s2 → Exec W (.lss sizeFf (ls :: lss)) s o s2
  | abrupt : Exec W (.lss sizeFf [ls]) s o s1 → o ≠ .normal →
      Exec W (.lss sizeFf (ls :: lss)) s o s1
  | basic : isCall stmt = false → isJump stmt = false →
      isRaise stmt = false → (∀ a, s.rsp ≤ a → a ∉ W → mem a = s.mem a) →
      Exec W (.lss sizeFf [.basic stmt]) s .normal { s with mem }
  | raise : isCall stmt = false → isJump stmt = false →
      (∀ a, s.rsp ≤ a → a ∉ W → mem a = s.mem a) →
      Exec W (.lss sizeFf [.basic stmt]) s .raised { s with mem }
  | jump : isJump stmt = true → Exec W (.lss sizeFf [.basic stmt]) s .jumped s
  | call : isCall stmt = true → Exec W .fn s o s1 →
      Exec W (.lss sizeFf [.basic stmt]) s o s1
  | fn : (cc, body) ∈ fns →
      cc.frameSize = some sizeFf → 1 ≤ k → (∀ a, s.rsp ≤ a → mem a = s.mem a) →
      Exec (W ∪ {a | s.rsp - 8 * k ≤ a ∧ a < s.rsp}) (.lss sizeFf body)
        { s with rsp := s.rsp - 8 * (k + sizeFf), mem } ended s1 →
      Exec W (.leave (k + sizeFf) ended) s1 o s2 → Exec W .fn s o s2
  | leaveReturn :
      Exec W (.leave words .normal) s .normal { s with rsp := s.rsp + 8 * words }
  | leaveJump :
      Exec W .fn { s with rsp := s.rsp + 8 * words } o s1 →
      Exec W (.leave words .jumped) s o s1
  | leaveRaised : Exec W (.leave words .raised) s .raised s
  | leaveWrong : Exec W (.leave words .wrong) s .wrong s
  | letregion :
      (∀ a, s.rsp ≤ a → a ∉ W ∪ slotWords s.rsp sizeFf (rhos.map (binderSlot flags)) →
        mem a = s.mem a) →
      Exec (W ∪ slotWords s.rsp sizeFf (rhos.map (binderSlot flags))) (.lss sizeFf body)
        { s with
          mem
          regions := (infiniteRegions s.rsp sizeFf rhos).reverse ++ s.regions } o s1 →
      (o = .jumped → ∀ binder ∈ rhos, binder.1.2 = .words 0) →
      Exec W (.lss sizeFf [.letregion rhos body]) s o
        (popRegions (infiniteRegions s.rsp sizeFf rhos).length o s1)
  | scope {scope} :
      Exec (W ∪ slotWords s.rsp sizeFf (pat.flatMap stySlots)) (.lss sizeFf scope) s o s1 →
      Exec W (.lss sizeFf [.scope pat scope]) s o s1
  | switchSel {default} : branch ∈ sels →
      Exec W (.lss sizeFf branch.2) s o s1 →
      Exec W (.lss sizeFf [.switch kind arg sels default]) s o s1
  | switchDefault {default} :
      Exec W (.lss sizeFf default) s o s1 →
      Exec W (.lss sizeFf [.switch kind arg sels default]) s o s1
  | handlAbrupt {default} :
      Exec W (.lss sizeFf handl) s o s1 → o = .raised ∨ o = .wrong →
      Exec W
        (.lss sizeFf [.handle default handl handlLv handlReturn handlReturnLv bv offset]) s o s1
  | handle {default} :
      Exec W (.lss sizeFf handl) s .normal s1 →
      Exec W (.lss sizeFf default) (s1.install sizeFf offset lab clos) ended s2 →
      Exec W (.unprotect sizeFf offset lab clos s1 handlReturn ended) s2 o s3 →
      Exec W
        (.lss sizeFf [.handle default handl handlLv handlReturn handlReturnLv bv offset]) s o s3
  | unprotectNormal :
      Exec W (.unprotect sizeFf offset lab clos before handlReturn .normal) s .normal
        (s.restoreExnPtr sizeFf offset)
  | unprotectWrong :
      Exec W (.unprotect sizeFf offset lab clos before handlReturn .wrong) s .wrong s
  -- The raise reaches another handler or label, or another state than before the installation.
  | uncaught :
      ¬ (∃ t, raiseInsts s = some (lab, clos, t) ∧ SameStacks before t) →
      Exec W (.unprotect sizeFf offset lab clos before handlReturn .raised) s .wrong s
  | handlerAbrupt :
      raiseInsts s = some (lab, clos, t) → Exec W .fn t o s1 → o ≠ .normal →
      Exec W (.unprotect sizeFf offset lab clos before handlReturn .raised) s o s1
  -- The handler function returns to the label, in another state.
  | notRestored :
      raiseInsts s = some (lab, clos, t) → Exec W .fn t .normal s1 →
      ¬ SameStacks before s1 →
      Exec W (.unprotect sizeFf offset lab clos before handlReturn .raised) s .wrong s1
  | handled :
      raiseInsts s = some (lab, clos, t) → Exec W .fn t .normal s1 →
      Exec W (.lss sizeFf handlReturn) s1 o s2 →
      Exec W (.unprotect sizeFf offset lab clos before handlReturn .raised) s o s2

/-- Every function of the program comes out of `CalcOffset`. -/
def Compiled : Prop := ∀ f ∈ fns, ∃ cc lss, coTopDecl flags cc lss = .ok f

/-! ## What a run keeps -/

/-- All that is open lies at or above `top`. -/
structure Ready (W : Set Int) (top : Int) (s : Machine) : Prop where
  aligned : top % 8 = 0
  words : ∀ a ∈ W, top ≤ a
  regions : ∀ r ∈ s.regions, top ≤ r
  global : s.regions ≠ []

/-- A run keeps the exception pointer and the words from `top` on that it may
not write to.  What it leaves on the region stack, if it raises, lies below
`top`. -/
structure Ends (W : Set Int) (top : Int) (s : Machine) (o : Outcome) (s' : Machine) : Prop where
  good : o ≠ .wrong
  exnPtr : s'.exnPtr = s.exnPtr
  mem : ∀ a, top ≤ a → a ∉ W → s'.mem a = s.mem a
  rsp : o ≠ .raised → s'.rsp = s.rsp
  regions : ∃ newer, s'.regions = newer ++ s.regions ∧ (∀ r ∈ newer, r < top) ∧
    (o ≠ .raised → newer = [])

variable {flags : Flags} {W W' : Set Int} {s s1 s2 : Machine} {o : Outcome} {top top' a r k : Int}
  {slots : List Slot} {newer old pushed : List Int} {body : List CoStmt} {mem : Int → Int}
  {ended : Outcome} {before t : Machine} {code : Code}

theorem Ready.lower (h : Ready W top s) (hle : top' ≤ top) (haligned : top' % 8 = 0)
    (hW : ∀ a ∈ W', a ∉ W → top' ≤ a) : Ready W' top' s where
  aligned := haligned
  words a ha := by
    by_cases hmem : a ∈ W
    · exact hle.trans (h.words a hmem)
    · exact hW a ha hmem
  regions r hr := hle.trans (h.regions r hr)
  global := h.global

theorem Ends.regions_eq (h : Ends W top s o s1) (ho : o ≠ .raised) : s1.regions = s.regions := by
  obtain ⟨newer, hregions, -, hnil⟩ := h.regions
  rw [hregions, hnil ho, nil_append]

theorem Ends.sameStacks (h : Ends W top s o s1) (ho : o ≠ .raised) : SameStacks s s1 :=
  ⟨h.rsp ho, h.exnPtr, h.regions_eq ho⟩

theorem Ready.after (h : Ready W top s) (hends : Ends W top s o s1) (ho : o ≠ .raised) :
    Ready W top s1 := by
  have hregions := hends.regions_eq ho
  exact ⟨h.aligned, h.words, hregions ▸ h.regions, hregions ▸ h.global⟩

theorem Ends.trans (h : Ends W top s .normal s1) (h' : Ends W top s1 o s2) : Ends W top s o s2 where
  good := h'.good
  exnPtr := h'.exnPtr.trans h.exnPtr
  mem a ha hW := (h'.mem a ha hW).trans (h.mem a ha hW)
  rsp ho := (h'.rsp ho).trans (h.rsp nofun)
  regions := by
    rw [← h.regions_eq nofun]
    exact h'.regions

/-- From a lower bound to a higher one, when the words opened in between are
closed again. -/
theorem Ends.raise_bound (h : Ends W' top' s o s1) (hle : top' ≤ top)
    (hW : ∀ a ∈ W', top ≤ a → a ∈ W) : Ends W top s o s1 where
  good := h.good
  exnPtr := h.exnPtr
  mem a ha hmem := h.mem a (hle.trans ha) fun hmem' => hmem (hW a hmem' ha)
  rsp := h.rsp
  regions := by
    obtain ⟨newer, hregions, hnewer, hnil⟩ := h.regions
    exact ⟨newer, hregions, fun r hr => (hnewer r hr).trans_le hle, hnil⟩

/-- A step that keeps the stacks and writes only where it may. -/
theorem Ends.write {mem : Int → Int} (hgood : o ≠ .wrong) (hle : s.rsp ≤ top)
    (hmem : ∀ a, s.rsp ≤ a → a ∉ W → mem a = s.mem a) : Ends W top s o { s with mem } where
  good := hgood
  exnPtr := rfl
  mem a ha hW := hmem a (hle.trans ha) hW
  rsp _ := rfl
  regions := ⟨[], rfl, nofun, fun _ => rfl⟩

/-! ## What is opened lies in order -/

variable {sizeFf rsp mid lo : Int}

theorem mem_slotWords_bounds (hfits : Fits lo mid slots)
    (ha : a ∈ slotWords rsp sizeFf slots) :
    rsp + 8 * (sizeFf - mid) ≤ a ∧ a < rsp + 8 * (sizeFf - lo) := by
  obtain ⟨slot, hslot, offset, hlo, hhi, rfl⟩ := ha
  have hbound := hfits.2 slot hslot
  unfold frameAddr
  omega

variable {rhos : List (Binder × Int)}

theorem mem_infiniteRegions_bounds (hfits : Fits lo mid (rhos.map (binderSlot flags)))
    (hr : r ∈ infiniteRegions rsp sizeFf rhos) :
    rsp + 8 * (sizeFf - mid) ≤ r ∧ r < rsp + 8 * (sizeFf - lo) := by
  obtain ⟨⟨⟨place, phsize⟩, offset⟩, hbinder, hsome⟩ := mem_filterMap.mp hr
  cases phsize with
  | words _ => nomatch hsome
  | inf =>
    cases hsome
    have hbound := hfits.2 _ (mem_map_of_mem hbinder)
    have hpos : 1 ≤ BI.sizeOfRegDesc flags := by
      simp only [BI.sizeOfRegDesc]
      omega
    simp only [binderSlot, Slot.hi, regionHead, regionSize] at hbound
    unfold frameAddr
    omega

theorem infiniteRegions_eq_nil (hrhos : ∀ binder ∈ rhos, binder.1.2 = .words 0) :
    infiniteRegions rsp sizeFf rhos = [] := by
  refine filterMap_eq_nil_iff.mpr fun binder hmem => ?_
  rw [hrhos binder hmem]

/-- Regions entered later than all of `old` are popped, and no others. -/
theorem deallocateRegionsUntil_append (hnewer : ∀ x ∈ newer, x ≤ r)
    (hold : ∀ x ∈ old, r < x) (hne : old ≠ []) :
    deallocateRegionsUntil r (newer ++ old) = some old := by
  induction newer with
  | nil =>
    cases old with
    | nil => exact absurd rfl hne
    | cons topRegion old =>
      have hlt := hold topRegion (.head _)
      exact if_neg (by omega)
  | cons topRegion newer ih =>
    have hle := hnewer topRegion (.head _)
    rw [cons_append, deallocateRegionsUntil, if_pos hle]
    exact ih fun x hx => hnewer x (.tail _ hx)

variable {offset clos lab : Int}

/-- When the protected part has ended, the record is as it was installed and the
words above it are as before. -/
theorem Ends.record (hready : Ready W top s) (hrecord : frameAddr s.rsp sizeFf offset = top - 32)
    (h : Ends W (top - 32) (s.install sizeFf offset lab clos) o s1) :
    s1.exnPtr = top - 32 ∧ s1.mem (top - 32) = lab ∧ s1.mem (top - 32 + 8) = clos ∧
    s1.mem (top - 32 + 16) = s.exnPtr ∧ s1.mem (top - 32 + 24) = s.rsp ∧
    ∀ a, top ≤ a → a ∉ W → s1.mem a = s.mem a := by
  have hword : ∀ a, top - 32 ≤ a → a < top → s1.mem a = (s.install sizeFf offset lab clos).mem a :=
    fun a hle hlt => h.mem a hle fun ha => absurd (hready.words a ha) (by omega)
  refine ⟨h.exnPtr.trans hrecord, ?_, ?_, ?_, ?_, fun a ha hW => ?_⟩
  rotate_right
  · rw [h.mem a (by omega) hW]
    simp only [Machine.install, hrecord]
    rw [if_neg (by omega), if_neg (by omega), if_neg (by omega), if_neg (by omega)]
  all_goals exact (hword _ (by omega) (by omega)).trans (by simp [Machine.install, hrecord])

/-- A raise in the protected part goes to the handler that was installed. -/
theorem Ends.caught (hready : Ready W top s) (hrecord : frameAddr s.rsp sizeFf offset = top - 32)
    (h : Ends W (top - 32) (s.install sizeFf offset lab clos) .raised s1) :
    ∃ t, raiseInsts s1 = some (lab, clos, t) ∧ Ends W top s .normal t := by
  obtain ⟨hptr, hlab, hclos, hexn, hrsp, habove⟩ := h.record hready hrecord
  obtain ⟨newer, hregions, hnewer, -⟩ := h.regions
  have haligned := hready.aligned
  have hclear : clearStatusBits (top - 32) = top - 32 := by
    unfold clearStatusBits
    omega
  have hpop : deallocateRegionsUntil (clearStatusBits (top - 32)) s1.regions = some s.regions := by
    rw [hregions, hclear]
    refine deallocateRegionsUntil_append (fun r hr => (hnewer r hr).le) (fun r hr => ?_)
      hready.global
    have hle := hready.regions r hr
    omega
  refine ⟨{ s1 with exnPtr := s.exnPtr, rsp := s.rsp, regions := s.regions }, ?_, nofun, rfl,
    habove, fun _ => rfl, [], rfl, nofun, fun _ => rfl⟩
  rw [raiseInsts, hptr, hpop, hlab, hclos, hexn, hrsp]
  rfl

/-- The normal end of the protected part. -/
theorem Ends.restoreExnPtr (hready : Ready W top s)
    (hrecord : frameAddr s.rsp sizeFf offset = top - 32)
    (h : Ends W (top - 32) (s.install sizeFf offset lab clos) .normal s1) :
    Ends W top s .normal (s1.restoreExnPtr sizeFf offset) := by
  obtain ⟨-, -, -, hexn, -, habove⟩ := h.record hready hrecord
  have hrsp : s1.rsp = s.rsp := h.rsp nofun
  refine ⟨nofun, ?_, habove, fun _ => hrsp, [], h.regions_eq nofun, nofun, fun _ => rfl⟩
  rw [Machine.restoreExnPtr, hrsp, hrecord]
  exact hexn

/-! ## Every run -/

/-- What a run from a machine in order ends with, for each kind of code. -/
def Sound (flags : Flags) (W : Set Int) : Code → Machine → Outcome → Machine → Prop
  | .lss sizeFf lss, s, o, s' => ∀ lo top, top = s.rsp + 8 * (sizeFf - lo) → lo ≤ sizeFf →
      (∀ ls ∈ lss, Nested flags sizeFf lo ls) → Ready W top s → Ends W top s o s'
  | .fn, s, o, s' => Ready W s.rsp s → Ends W s.rsp s o s'
  | .leave words ended, s, o, s' => ∀ before : Machine, Ready W before.rsp before →
      Ends W before.rsp before ended { s with rsp := s.rsp + 8 * words } →
      Ends W before.rsp before o s'
  | .unprotect sizeFf offset lab clos before handlReturn ended, s, o, s' => ∀ lo top,
      top = before.rsp + 8 * (sizeFf - lo) → lo ≤ sizeFf → offset = lo + 3 →
      (∀ ls ∈ handlReturn, Nested flags sizeFf lo ls) → Ready W top before →
      Ends W (top - 32) (before.install sizeFf offset lab clos) ended s →
      Ends W top before o s'

/-- Calling a function from statements that are in order. -/
theorem Sound.call (h : Sound flags W .fn s o s1) (hready : Ready W top s) (hle : s.rsp ≤ top)
    (haligned : s.rsp % 8 = 0) : Ends W top s o s1 :=
  (h (hready.lower hle haligned fun _ ha hW => absurd ha hW)).raise_bound hle fun _ ha _ => ha

theorem Sound.fn (hk : 1 ≤ k) (hsize : 0 ≤ sizeFf) (hnested : ∀ ls ∈ body, Nested flags sizeFf 0 ls)
    (hmem : ∀ a, s.rsp ≤ a → mem a = s.mem a)
    (hbody : Sound flags (W ∪ {a | s.rsp - 8 * k ≤ a ∧ a < s.rsp}) (.lss sizeFf body)
      { s with rsp := s.rsp - 8 * (k + sizeFf), mem } ended s1)
    (hready : Ready W s.rsp s) :
    Ends W s.rsp s ended { s1 with rsp := s1.rsp + 8 * (k + sizeFf) } := by
  have haligned := hready.aligned
  have hlow : Ready (W ∪ {a | s.rsp - 8 * k ≤ a ∧ a < s.rsp}) (s.rsp - 8 * k)
      { s with rsp := s.rsp - 8 * (k + sizeFf), mem } := by
    refine ⟨by omega, ?_, fun r hr => ?_, hready.global⟩
    · rintro a (ha | ha)
      · have hle := hready.words a ha
        omega
      · exact ha.1
    · have hle := hready.regions r hr
      omega
  have hends := (hbody 0 (s.rsp - 8 * k) (by simp only; omega) hsize hnested hlow).raise_bound
    (by omega : s.rsp - 8 * k ≤ s.rsp) fun a ha hle =>
      ha.resolve_right fun hpushed => absurd hpushed.2 (by omega)
  refine ⟨hends.good, hends.exnPtr, fun a ha hW => (hends.mem a ha hW).trans (hmem a ha), ?_,
    hends.regions⟩
  intro ho
  have hrsp := hends.rsp ho
  simp only at hrsp ⊢
  omega

/-- Leaving a letregion: what it pushed is popped, or lies below `top`. -/
theorem popRegions_ends (hpushed : ∀ r ∈ pushed, r < top)
    (hjumped : o = .jumped → pushed = []) (hmem : ∀ a, top ≤ a → a ∉ W → mem a = s.mem a)
    (h : Ends W top { s with mem, regions := pushed.reverse ++ s.regions } o s1) :
    Ends W top s o (popRegions pushed.length o s1) := by
  have hkept := fun a ha hW => (h.mem a ha hW).trans (hmem a ha hW)
  obtain ⟨newer, hregions, hnewer, hnil⟩ := h.regions
  cases o with
  | wrong => exact absurd rfl h.good
  | normal =>
    refine ⟨nofun, h.exnPtr, hkept, h.rsp, [], ?_, nofun, fun _ => rfl⟩
    have hdrop : s1.regions.drop pushed.length = s.regions := by
      rw [hregions, hnil nofun, nil_append, ← length_reverse, drop_left]
    exact hdrop
  | jumped =>
    refine ⟨nofun, h.exnPtr, hkept, h.rsp, [], ?_, nofun, fun _ => rfl⟩
    change s1.regions = _
    rw [hregions, hnil nofun, hjumped rfl]
    rfl
  | raised =>
    refine ⟨nofun, h.exnPtr, hkept, h.rsp, newer ++ pushed.reverse, ?_, ?_, absurd rfl⟩
    · exact hregions.trans (append_assoc _ _ _).symm
    · exact forall_mem_append.2 ⟨hnewer, fun r hr => hpushed r (mem_reverse.mp hr)⟩

/-- Opening slots from `lo` to `mid` for the statements inside. -/
theorem Ready.open (hready : Ready W top s) (htop : top = s.rsp + 8 * (sizeFf - lo))
    (hle : lo ≤ mid) (hfits : Fits lo mid slots) :
    Ready (W ∪ slotWords s.rsp sizeFf slots) (s.rsp + 8 * (sizeFf - mid)) s := by
  have haligned := hready.aligned
  refine hready.lower (by omega) (by omega) fun a ha hW => ?_
  exact (mem_slotWords_bounds hfits (ha.resolve_left hW)).1

/-- The words of these slots are closed again from `top` on. -/
theorem slotWords_closed (htop : top = rsp + 8 * (sizeFf - lo)) (hfits : Fits lo mid slots) :
    ∀ a ∈ W ∪ slotWords rsp sizeFf slots, top ≤ a → a ∈ W := by
  intro a ha hle
  refine ha.resolve_right fun hslot => ?_
  have hbound := mem_slotWords_bounds hfits hslot
  omega

theorem Sound.letregion (htop : top = s.rsp + 8 * (sizeFf - lo)) (hle : lo ≤ mid)
    (hmid : mid ≤ sizeFf) (hfits : Fits lo mid (rhos.map (binderSlot flags)))
    (hnested : ∀ ls ∈ body, Nested flags sizeFf mid ls)
    (hmem : ∀ a, s.rsp ≤ a → a ∉ W ∪ slotWords s.rsp sizeFf (rhos.map (binderSlot flags)) →
      mem a = s.mem a)
    (hbody : Sound flags (W ∪ slotWords s.rsp sizeFf (rhos.map (binderSlot flags)))
      (.lss sizeFf body)
      { s with mem, regions := (infiniteRegions s.rsp sizeFf rhos).reverse ++ s.regions } o s1)
    (hjumped : o = .jumped → ∀ binder ∈ rhos, binder.1.2 = .words 0) (hready : Ready W top s) :
    Ends W top s o (popRegions (infiniteRegions s.rsp sizeFf rhos).length o s1) := by
  have hopen := hready.open htop hle hfits
  have hlow : Ready (W ∪ slotWords s.rsp sizeFf (rhos.map (binderSlot flags)))
      (s.rsp + 8 * (sizeFf - mid))
      { s with mem, regions := (infiniteRegions s.rsp sizeFf rhos).reverse ++ s.regions } := by
    refine ⟨hopen.aligned, hopen.words, fun r hr => ?_, by simp [hready.global]⟩
    rcases mem_append.mp hr with hr | hr
    · exact (mem_infiniteRegions_bounds hfits (mem_reverse.mp hr)).1
    · exact hopen.regions r hr
  have hends := (hbody mid _ rfl hmid hnested hlow).raise_bound
    (by simp only; omega : _ ≤ top) (slotWords_closed htop hfits)
  refine popRegions_ends (fun r hr => ?_) (fun ho => infiniteRegions_eq_nil (hjumped ho)) ?_ hends
  · exact htop ▸ (mem_infiniteRegions_bounds hfits hr).2
  · intro a ha hW
    exact hmem a (by omega) fun hmem' => hW (slotWords_closed htop hfits a hmem' ha)

/-- A raise in the protected part, and the handler function. -/
theorem Sound.handler (hready : Ready W top before)
    (hoffset : before.rsp + 8 * (sizeFf - offset + 3) = top) (hle : before.rsp ≤ top)
    (hends : Ends W (top - 32) (before.install sizeFf offset lab clos) .raised s)
    (hraise : raiseInsts s = some (lab, clos, t)) (h : Sound flags W .fn t o s1) :
    Ends W top before o s1 := by
  obtain ⟨t', hraise', hcaught⟩ := hends.caught hready (by unfold frameAddr; omega)
  cases hraise.symm.trans hraise'
  have haligned := hready.aligned
  have hrsp := hcaught.rsp nofun
  exact hcaught.trans (h.call (hready.after hcaught nofun) (by omega) (by omega))

/-- The invariant of every run, by induction on it. -/
theorem Exec.sound {fns : Set (CallConv.CC × List CoStmt)} (hfns : Compiled flags fns)
    (h : Exec flags fns W code s o s1) : Sound flags W code s o s1 := by
  induction h with
  | cons _ _ ih ih' =>
    intro lo top htop hlo hnested hready
    have hends := ih lo top htop hlo (fun ls hls => hnested ls (by simp_all)) hready
    refine hends.trans (ih' lo top ?_ hlo (fun ls hls => hnested ls (.tail _ hls))
      (hready.after hends nofun))
    rw [hends.rsp nofun]
    exact htop
  | abrupt _ _ ih =>
    exact fun lo top htop hlo hnested => ih lo top htop hlo fun ls hls => hnested ls (by simp_all)
  | basic _ _ _ hmem
  | raise _ _ hmem => exact fun lo top htop hlo _ _ => Ends.write nofun (by omega) hmem
  | nil | jump _ => exact fun lo top htop hlo _ _ => Ends.write nofun (by omega) fun _ _ _ => rfl
  | call _ _ ih =>
    intro lo top htop hlo _ hready
    have haligned := hready.aligned
    exact ih.call hready (by omega) (by omega)
  | fn hfn hsizeFf hk hmem _ _ ih ih' =>
    intro hready
    obtain ⟨cc, lss, hco⟩ := hfns _ hfn
    obtain ⟨-, sizeFf, -, rfl, -, -, -, hsize, hnested⟩ := coTopDecl_laid hco
    cases hsizeFf
    exact ih' _ hready (Sound.fn hk hsize hnested hmem ih hready)
  | leaveReturn => exact fun _ _ hends => hends
  | leaveJump _ ih =>
    intro before hready hends
    have hrsp := hends.rsp nofun
    have hafter := ih (hrsp ▸ hready.after hends nofun)
    rw [hrsp] at hafter
    exact ⟨hafter.good, hafter.exnPtr.trans hends.exnPtr,
      fun a ha hW => (hafter.mem a ha hW).trans (hends.mem a ha hW),
      fun ho => (hafter.rsp ho).trans hrsp, hends.regions_eq nofun ▸ hafter.regions⟩
  | leaveRaised =>
    exact fun _ _ hends => ⟨nofun, hends.exnPtr, hends.mem, absurd rfl, hends.regions⟩
  | leaveWrong => exact fun _ _ hends => absurd rfl hends.good
  | letregion hmem _ hjumped ih =>
    intro lo top htop _ hnested hready
    cases hnested _ (.head _) with
    | letregion hle hmid hfits hbody =>
      exact Sound.letregion htop hle hmid hfits hbody hmem ih hjumped hready
  | scope _ ih =>
    intro lo top htop _ hnested hready
    cases hnested _ (.head _) with
    | scope hle hmid hfits hscope =>
      exact (ih _ _ rfl hmid hscope (hready.open htop hle hfits)).raise_bound (by omega)
        (slotWords_closed htop hfits)
  | switchSel hbranch _ ih =>
    intro lo top htop hlo hnested hready
    cases hnested _ (.head _) with
    | switch hsels _ => exact ih lo top htop hlo (hsels _ hbranch) hready
  | switchDefault _ ih =>
    intro lo top htop hlo hnested hready
    cases hnested _ (.head _) with
    | switch _ hdefault => exact ih lo top htop hlo hdefault hready
  | handlAbrupt _ _ ih =>
    intro lo top htop _ hnested hready
    have haligned := hready.aligned
    cases hnested _ (.head _) with
    | handle hhi _ hhandl _ =>
      exact (ih _ (top - 32) (by omega) hhi hhandl
        (hready.lower (by omega) (by omega) fun _ ha hW => absurd ha hW)).raise_bound (by omega)
          fun _ ha _ => ha
  | handle _ _ _ ih ih' ih'' =>
    intro lo top htop hlo hnested hready
    have haligned := hready.aligned
    cases hnested _ (.head _) with
    | handle hhi hdefault hhandl hreturn =>
      have hlow := hready.lower (by omega : top - 32 ≤ top) (by omega)
        fun _ ha hW => absurd ha hW
      have hends := (ih _ (top - 32) (by omega) hhi hhandl hlow).raise_bound
        (by omega : top - 32 ≤ top) fun _ ha _ => ha
      have hrsp := hends.rsp nofun
      have hready' := hready.after hends nofun
      have hlow' := hready'.lower (by omega : top - 32 ≤ top) (by omega)
        fun _ ha hW => absurd ha hW
      refine hends.trans (ih'' lo top (by omega) hlo rfl hreturn hready' (ih' _ _ ?_ hhi
        hdefault ⟨hlow'.aligned, hlow'.words, hlow'.regions, hlow'.global⟩))
      simp only [Machine.install]
      omega
  | unprotectNormal =>
    intro lo top htop _ hoffset _ hready hends
    exact hends.restoreExnPtr hready (by unfold frameAddr; omega)
  | unprotectWrong => exact fun _ _ _ _ _ _ _ hends => absurd rfl hends.good
  | uncaught hnot =>
    intro lo top htop _ hoffset _ hready hends
    obtain ⟨t, hraise, hends⟩ := hends.caught hready (by unfold frameAddr; omega)
    exact absurd ⟨t, hraise, hends.sameStacks nofun⟩ hnot
  | handlerAbrupt hraise _ _ ih =>
    exact fun lo top htop hlo hoffset _ hready hends =>
      ih.handler hready (by omega) (by omega) hends hraise
  | notRestored hraise _ hnot ih =>
    intro lo top htop hlo hoffset _ hready hends
    have hhandler := ih.handler hready (by omega) (by omega) hends hraise
    exact absurd (hhandler.sameStacks nofun) hnot
  | handled hraise _ _ ih ih' =>
    intro lo top htop hlo hoffset hreturn hready hends
    have hhandler := ih.handler hready (by omega) (by omega) hends hraise
    have hrsp := hhandler.rsp nofun
    exact hhandler.trans (ih' lo top (by omega) hlo hreturn (hready.after hhandler nofun))

/-- Raising restores exactly the handler's state.  In a run of a program of
functions with offsets from `CalcOffset`, from a stack with nothing open below
the stack pointer, no raise goes wrong: each one raised in the protected part of
a `HANDLE`, at any depth of calls, handlers and regions, jumps to the handler
function of the innermost such `HANDLE` with that `HANDLE`'s label as return
address, and both there and when the handler function returns to the label the
stack pointer, the exception pointer and the region stack are those just before
the handler was installed. -/
theorem raise_restores_handler {fns : Set (CallConv.CC × List CoStmt)} (hfns : Compiled flags fns)
    (haligned : s.rsp % 8 = 0) (hwords : ∀ a ∈ W, s.rsp ≤ a) (hregions : ∀ r ∈ s.regions, s.rsp ≤ r)
    (hglobal : s.regions ≠ []) (h : Exec flags fns W .fn s o s1) :
    o ≠ .wrong ∧ s1.exnPtr = s.exnPtr ∧ (o ≠ .raised → SameStacks s s1) ∧
    ∃ newer, s1.regions = newer ++ s.regions ∧ ∀ r ∈ newer, r < s.rsp := by
  have hends : Ends W s.rsp s o s1 := h.sound hfns ⟨haligned, hwords, hregions, hglobal⟩
  obtain ⟨newer, hregions, hnewer, -⟩ := hends.regions
  exact ⟨hends.good, hends.exnPtr, hends.sameStacks, newer, hregions, hnewer⟩

/-- Two functions: one returns, the other raises in a letregion under a handler. -/
def sampleFns : Set (CallConv.CC × List CoStmt) :=
  {f | coTopDecl ⟨false, false, false, false⟩ ⟨none, [], none, [], [], none⟩ [] = .ok f ∨
    coTopDecl ⟨false, false, false, false⟩ ⟨none, [], none, [], [], none⟩
      [.handle [.letregion [((⟨0⟩, .inf), ())] [.basic (.raise .unit [])]] [] .unit [] .unit
        [] ()] = .ok f}

/-- The raise finds its handler, and the region pushed under it is popped. -/
theorem letregion_under_handler_raises :
    ∃ s1, Exec ⟨false, false, false, false⟩ sampleFns ∅ .fn
      ⟨800, 1000, fun _ => 0, [900]⟩ .normal s1 ∧ SameStacks ⟨800, 1000, fun _ => 0, [900]⟩ s1 := by
  have hreturns (W : Set Int) (s : Machine) :
      ∃ s1, Exec ⟨false, false, false, false⟩ sampleFns W .fn s .normal s1 :=
    ⟨_, .fn (k := 1) (.inl rfl) rfl (by decide) (fun _ _ => rfl) .nil .leaveReturn⟩
  have hraises (W : Set Int) (s : Machine) :
      Exec ⟨false, false, false, false⟩ sampleFns W
        (.lss 9 [.letregion [((⟨0⟩, .inf), 7)] [.basic (.raise .unit [])]]) s .raised
        { s with regions := frameAddr s.rsp 9 7 :: s.regions } :=
    .letregion (fun _ _ _ => rfl) (.raise rfl rfl fun _ _ _ => rfl) nofun
  obtain ⟨s1, hhandler⟩ := hreturns (∅ ∪ {a | 792 ≤ a ∧ a < 800})
    ⟨720, 1000, (Machine.install ⟨720, 1000, fun _ => 0, [900]⟩ 9 3 1 2).mem, [900]⟩
  have hrun := Exec.fn (k := 1) (W := ∅) (s := ⟨800, 1000, fun _ => 0, [900]⟩)
    (.inr rfl : _ ∈ sampleFns) rfl (by decide) (fun _ _ => rfl)
      (.handle .nil (hraises _ _) (.handled rfl hhandler .nil)) .leaveReturn
  have hfns : Compiled ⟨false, false, false, false⟩ sampleFns := by
    rintro f (h | h)
    · exact ⟨_, _, h⟩
    · exact ⟨_, _, h⟩
  exact ⟨_, hrun, (raise_restores_handler hfns (by decide) (by simp) (by simp) (by simp)
    hrun).2.2.1 nofun⟩

end MLKit.X64.RaiseExn
