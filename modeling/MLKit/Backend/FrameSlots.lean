import MLKit.Backend.CalcOffset
import MLKit.Lib.Except

/-!
# Frame slots do not overlap

What the offsets of `CalcOffset` mean: each annotated variable, region and
handler occupies an interval of words of the frame.  At every program point the
intervals of the constructs that are open there are pairwise apart and lie
within the frame.
-/

namespace MLKit.Backend.CalcOffset

open MLKit.Lib List Bool

/-! ## The words a construct occupies -/

/-- A variable on the stack, or with a slot to be flushed to, has one word. -/
def stySlots : StoreType Int → List Slot
  | .stackSty _ offset => [⟨offset, 1⟩]
  | .phregSty _ _ => []
  | .flushedCalleeSty _ offset => [⟨offset, 1⟩]
  | .flushedCallerSty _ _ offset => [⟨offset, 1⟩]
  | .fvSty _ _ _ => []

/-- Words of a region in the frame: a descriptor for an infinite region, and
for a finite one its size with, under profiling, an object descriptor and a
region descriptor.  A region of no words takes no space. -/
def regionSize (flags : Flags) : PhSize → Nat
  | .inf => BI.sizeOfRegDesc flags
  | .words 0 => 0
  | .words objSize =>
    if flags.regionProfiling then objSize + BI.objectDescSizeP + BI.finiteRegionDescSizeP
    else objSize

/-- Words up to and including the annotated one, where the region begins in
memory: the profiling words of a finite region come after it. -/
def regionHead (flags : Flags) : PhSize → Nat
  | .inf => BI.sizeOfRegDesc flags
  | .words objSize => objSize

def binderSlot (flags : Flags) (binder : Binder × Int) : Slot where
  lo := binder.2 + 1 - regionHead flags binder.1.2
  size := regionSize flags binder.1.2

def handleSlot (annOffset : Int) : Slot where
  lo := annOffset + 1 - BI.sizeOfHandle
  size := BI.sizeOfHandle

/-- `slots` are the words of the constructs that are open at some program
point of the statements, outermost first.  The words of a handler are in use
while the handler is computed and while the protected statements run; they are
free again in the code that receives the handler's result. -/
inductive OpenAt (flags : Flags) : List CoStmt → List Slot → Prop where
  | here (lss) : OpenAt flags lss []
  | later : OpenAt flags lss slots → OpenAt flags (ls :: lss) slots
  | letregion : OpenAt flags body slots →
      OpenAt flags (.letregion rhos body :: lss) (rhos.map (binderSlot flags) ++ slots)
  | scope : OpenAt flags body slots →
      OpenAt flags (.scope pat body :: lss) (pat.flatMap stySlots ++ slots)
  | handleDefault {default} :
      OpenAt flags default slots →
      OpenAt flags (.handle default handl handlLv handlReturn handlReturnLv bv offset :: lss)
        (handleSlot offset :: slots)
  | handleHandl {default} :
      OpenAt flags handl slots →
      OpenAt flags (.handle default handl handlLv handlReturn handlReturnLv bv offset :: lss)
        (handleSlot offset :: slots)
  | handleReturn {default} :
      OpenAt flags handlReturn slots →
      OpenAt flags (.handle default handl handlLv handlReturn handlReturnLv bv offset :: lss) slots
  | switchSel {default} : branch ∈ sels →
      OpenAt flags branch.2 slots → OpenAt flags (.switch kind arg sels default :: lss) slots
  | switchDefault {default} : OpenAt flags default slots →
      OpenAt flags (.switch kind arg sels default :: lss) slots

/-! ## The layout of one construct -/

section

variable {slots : List Slot}

theorem bump_fst (maxOffset offset inc : Int) : (bump maxOffset offset inc).1 = offset + inc := by
  unfold bump
  split <;> rfl

theorem bump_snd (maxOffset offset inc : Int) :
    (bump maxOffset offset inc).2 = max maxOffset (offset + inc) := by
  unfold bump
  split
  · exact (max_eq_left (by omega)).symm
  · exact (max_eq_right (by omega)).symm

theorem bump_eq :
    bump maxOffset offset inc = (offset + inc, max maxOffset (offset + inc)) :=
  Prod.ext (bump_fst ..) (bump_snd ..)

variable {offset maxOffset : Int}

theorem assignBinder_spec (flags : Flags) (phsize : PhSize) (hmax : offset ≤ maxOffset) :
    (assignBinder flags phsize maxOffset offset).1 = offset + regionHead flags phsize - 1 ∧
    (assignBinder flags phsize maxOffset offset).2.1 = offset + regionSize flags phsize ∧
    (assignBinder flags phsize maxOffset offset).2.2 =
      max maxOffset (offset + regionSize flags phsize) := by
  unfold assignBinder
  split
  · simp [regionHead, regionSize, bump_fst, bump_snd]
  · simp [regionHead, regionSize, hmax]
  · split
    · rename_i hprof
      simp [regionHead, regionSize, hprof, bump_fst, bump_snd]
    · rename_i hprof
      simp [regionHead, regionSize, hprof, bump_fst, bump_snd]

/-- The binders of a letregion are laid out from `offset` on, in the words they
need, and the maximum covers them. -/
theorem assignBinders_spec
    (hassign : assignBinders flags binders offset maxOffset = (binders', offset', maxOffset'))
    (hmax : offset ≤ maxOffset) :
    binders'.map (fun binder => (binder.1, ())) = binders ∧
    Fits offset offset' (binders'.map (binderSlot flags)) ∧
    offset ≤ offset' ∧ maxOffset' = max maxOffset offset' := by
  induction binders generalizing binders' offset' maxOffset' with
  | nil =>
    cases hassign
    exact ⟨rfl, Fits.nil _ _, le_refl _, (max_eq_left hmax).symm⟩
  | cons binder binders ih =>
    obtain ⟨⟨place, phsize⟩, ⟨⟩⟩ := binder
    rcases hrest : assignBinders flags binders offset maxOffset with ⟨acc, offset1, maxOffset1⟩
    obtain ⟨herase, hfits, hle, hmax1⟩ := ih hrest
    have hspec := assignBinder_spec flags phsize (show offset1 ≤ maxOffset1 by omega)
    simp only [assignBinders, hrest, Prod.mk.injEq] at hassign
    obtain ⟨rfl, rfl, rfl⟩ := hassign
    obtain ⟨hann, hoffset, hmax2⟩ := hspec
    rw [hann, hoffset, hmax2]
    refine ⟨by simpa using herase, ?_, by omega, by omega⟩
    -- the newest binder lies above the ones assigned before it
    have hnew : Fits offset1 (offset1 + regionSize flags phsize)
        [binderSlot flags ((place, phsize), offset1 + regionHead flags phsize - 1)] := by
      refine Fits.singleton ?_ ?_
      · simp only [binderSlot]
        omega
      · simp only [Slot.hi, binderSlot]
        omega
    refine (hfits.append hnew hle (by omega)).of_perm ?_
    simp

def eraseSty : StoreType Int → StoreType Unit
  | .stackSty lv _ => .stackSty lv ()
  | .phregSty lv phreg => .phregSty lv phreg
  | .flushedCalleeSty phreg _ => .flushedCalleeSty phreg ()
  | .flushedCallerSty lv phreg _ => .flushedCallerSty lv phreg ()
  | .fvSty lv ifTrue ifFalse => .fvSty lv ifTrue ifFalse

theorem assignSty_spec
    (hassign : assignSty lvMapOuter sty lvMap phMap offset maxOffset =
      (sty', lvMap', phMap', offset', maxOffset'))
    (hmax : offset ≤ maxOffset) :
    eraseSty sty' = sty ∧ Fits offset offset' (stySlots sty') ∧
    offset ≤ offset' ∧ maxOffset' = max maxOffset offset' := by
  have hword : Fits offset (offset + 1) [⟨offset, 1⟩] := Fits.singleton (le_refl _) (le_refl _)
  cases sty with
  | stackSty lv | flushedCalleeSty phreg | flushedCallerSty lv phreg =>
    simp only [assignSty, bump_eq, Prod.mk.injEq] at hassign
    obtain ⟨rfl, rfl, rfl, rfl, rfl⟩ := hassign
    exact ⟨rfl, hword, by omega, rfl⟩
  | phregSty lv phreg | fvSty lv ifTrue ifFalse =>
    cases hassign
    exact ⟨rfl, Fits.nil _ _, le_refl _, (max_eq_left hmax).symm⟩

/-- The variables of a pattern are laid out after those of the accumulator. -/
theorem assignStysLoop_spec (stys : List (StoreType Unit))
    (hassign : assignStysLoop lvMapOuter stys stysAcc lvMap phMap offset maxOffset =
      (pat', lvMap', phMap', offset', maxOffset'))
    (hmax : offset ≤ maxOffset) (hlo : lo ≤ offset)
    (hacc : Fits lo offset (stysAcc.flatMap stySlots)) :
    pat'.reverse.map eraseSty = stysAcc.reverse.map eraseSty ++ stys ∧
    Fits lo offset' (pat'.flatMap stySlots) ∧
    offset ≤ offset' ∧ maxOffset' = max maxOffset offset' := by
  induction stys generalizing stysAcc lvMap phMap offset maxOffset with
  | nil =>
    cases hassign
    exact ⟨by simp, hacc, le_refl _, (max_eq_left hmax).symm⟩
  | cons sty stys ih =>
    rcases hsty : assignSty lvMapOuter sty lvMap phMap offset maxOffset with
      ⟨sty1, lvMap1, phMap1, offset1, maxOffset1⟩
    obtain ⟨herase, hfits, hle, hmax1⟩ := assignSty_spec hsty hmax
    simp only [assignStysLoop, hsty] at hassign
    have hacc1 : Fits lo offset1 ((sty1 :: stysAcc).flatMap stySlots) := by
      refine (hacc.append hfits hlo hle).of_perm ?_
      simp [perm_append_comm]
    obtain ⟨herase1, hfits1, hle1, hmax2⟩ := ih hassign (by omega) (by omega) hacc1
    refine ⟨?_, hfits1, by omega, by omega⟩
    simpa [herase] using herase1

theorem assignStys_spec
    (hassign : assignStys stys lvMap phMap offset maxOffset =
      (pat', lvMap', phMap', offset', maxOffset'))
    (hmax : offset ≤ maxOffset) :
    pat'.reverse.map eraseSty = stys ∧ Fits offset offset' (pat'.flatMap stySlots) ∧
    offset ≤ offset' ∧ maxOffset' = max maxOffset offset' := by
  simpa using assignStysLoop_spec stys hassign hmax (le_refl _) (Fits.nil _ _)

/-! ## The layout of a function body -/

def eraseBasic : BasicStmt Int Atom → BasicStmt Unit Atom
  | .assign pat bind => .assign pat bind
  | .flush atom _ => .flush atom ()
  | .fetch atom _ => .fetch atom ()
  | .fnjmp app => .fnjmp app
  | .fncall app => .fncall app
  | .jmp app => .jmp app
  | .funcall app => .funcall app
  | .raise arg definedAtys => .raise arg definedAtys
  | .resetRegions force regions => .resetRegions force regions
  | .prim name args res => .prim name args res
  | .ccall name args rhosForResult res => .ccall name args rhosForResult res
  | .ccallAuto name args res => .ccallAuto name args res
  | .exportFn name closLab arg => .exportFn name closLab arg

mutual

/-- Forget the offsets.  The pass reverses every pattern, so patterns are
turned back. -/
def eraseLs : CoStmt → IffStmt
  | .basic stmt => .basic (eraseBasic stmt)
  | .letregion rhos body => .letregion (rhos.map fun rho => (rho.1, ())) (eraseLss body)
  | .scope pat scope => .scope (pat.reverse.map eraseSty) (eraseLss scope)
  | .handle default handl handlLv handlReturn handlReturnLv bv _ =>
    .handle (eraseLss default) (eraseLss handl) handlLv (eraseLss handlReturn) handlReturnLv bv ()
  | .switch kind arg sels default => .switch kind arg (eraseSels sels) (eraseLss default)

def eraseLss : List CoStmt → List IffStmt
  | [] => []
  | ls :: lss => eraseLs ls :: eraseLss lss

def eraseSels : List (Selector × List CoStmt) → List (Selector × List IffStmt)
  | [] => []
  | (sel, lss) :: sels => (sel, eraseLss lss) :: eraseSels sels

end

theorem coBasic_erase (hco : coBasic stmt lvMap phMap = .ok stmt') : eraseBasic stmt' = stmt := by
  cases stmt with
  | flush atom | fetch atom =>
    obtain ⟨offset, -, hret⟩ := bind_ok hco
    cases hret
    rfl
  | _ =>
    cases hco
    rfl

/-! ## The order of entry

Where `OpenAt` says that open slots are apart, `Nested` gives their order: what a
construct opens lies above the offset at which it is entered, and what is opened
inside it lies above that again. -/

/-- The statement, entered when the words below `lo` are in use, opens slots
upwards from `lo` and stays below `hi`. -/
inductive Nested (flags : Flags) (hi : Int) : Int → CoStmt → Prop where
  | basic (stmt) : Nested flags hi lo (.basic stmt)
  | letregion : lo ≤ mid → mid ≤ hi →
      Fits lo mid (rhos.map (binderSlot flags)) → (∀ ls ∈ body, Nested flags hi mid ls) →
      Nested flags hi lo (.letregion rhos body)
  | scope {scope} : lo ≤ mid → mid ≤ hi →
      Fits lo mid (pat.flatMap stySlots) → (∀ ls ∈ scope, Nested flags hi mid ls) →
      Nested flags hi lo (.scope pat scope)
  | handle {default} : lo + 4 ≤ hi →
      (∀ ls ∈ default, Nested flags hi (lo + 4) ls) →
      (∀ ls ∈ handl, Nested flags hi (lo + 4) ls) →
      (∀ ls ∈ handlReturn, Nested flags hi lo ls) →
      Nested flags hi lo (.handle default handl handlLv handlReturn handlReturnLv bv (lo + 3))
  | switch {default} :
      (∀ branch ∈ sels, ∀ ls ∈ branch.2, Nested flags hi lo ls) →
      (∀ ls ∈ default, Nested flags hi lo ls) →
      Nested flags hi lo (.switch kind arg sels default)

theorem fits_handleSlot : Fits lo (lo + 4) [handleSlot (lo + 3)] := by
  refine Fits.singleton ?_ ?_
  · simp only [handleSlot, BI.sizeOfHandle]
    omega
  · simp only [Slot.hi, handleSlot, BI.sizeOfHandle]
    omega

/-- The slots that are open at a program point of nested statements are apart. -/
theorem OpenAt.fits (h : OpenAt flags lss slots) (hnested : ∀ ls ∈ lss, Nested flags hi lo ls) :
    Fits lo hi slots := by
  induction h generalizing lo with
  | here => exact Fits.nil _ _
  | later _ ih => exact ih fun ls hls => hnested ls (.tail _ hls)
  | letregion _ ih =>
    cases hnested _ (.head _) with
    | letregion hlo hhi hown hbody => exact hown.append (ih hbody) hlo hhi
  | scope _ ih =>
    cases hnested _ (.head _) with
    | scope hlo hhi hown hbody => exact hown.append (ih hbody) hlo hhi
  | handleDefault _ ih =>
    cases hnested _ (.head _) with
    | handle hhi hdefault _ _ =>
      exact (fits_handleSlot).append (ih hdefault) (by omega) hhi
  | handleHandl _ ih =>
    cases hnested _ (.head _) with
    | handle hhi _ hhandl _ => exact (fits_handleSlot).append (ih hhandl) (by omega) hhi
  | handleReturn _ ih =>
    cases hnested _ (.head _) with
    | handle _ _ _ hreturn => exact ih hreturn
  | switchSel hmem _ ih =>
    cases hnested _ (.head _) with
    | switch hsels _ => exact ih (hsels _ hmem)
  | switchDefault _ ih =>
    cases hnested _ (.head _) with
    | switch _ hdefault => exact ih hdefault

end

mutual

/-- One statement: its offsets are laid out from `offset` on in the order of
entry, and nothing but offsets is added to it. -/
theorem coLs_laid (hco : coLs flags ls lvMap phMap offset m = .ok (ls', m')) (hmax : offset ≤ m) :
    eraseLs ls' = ls ∧ m ≤ m' ∧ ∀ hi, m' ≤ hi → Nested flags hi offset ls' := by
  match ls with
  | .basic stmt =>
    obtain ⟨stmt', hstmt, hret⟩ := bind_ok hco
    cases hret
    exact ⟨congrArg LineStmt.basic (coBasic_erase hstmt), le_refl _, fun _ _ => .basic stmt'⟩
  | .letregion rhos body =>
    rcases hrhos : assignBinders flags rhos offset m with ⟨rhos', offset', m1⟩
    obtain ⟨herase, hfits, hle, rfl⟩ := assignBinders_spec hrhos hmax
    simp only [coLs, hrhos] at hco
    obtain ⟨⟨body', m2⟩, hbody, hret⟩ := bind_ok hco
    cases hret
    obtain ⟨hbodyErase, hmono, hnested⟩ := coLss_laid hbody (le_max_right _ _)
    exact ⟨by rw [eraseLs, herase, hbodyErase], by omega,
      fun hi hhi => .letregion hle (by omega) hfits (hnested hi hhi)⟩
  | .scope pat scope =>
    rcases hpat : assignStys pat lvMap phMap offset m with ⟨pat', lvMap', phMap', offset', m1⟩
    obtain ⟨herase, hfits, hle, rfl⟩ := assignStys_spec hpat hmax
    simp only [coLs, hpat] at hco
    obtain ⟨⟨scope', m2⟩, hscope, hret⟩ := bind_ok hco
    cases hret
    obtain ⟨hscopeErase, hmono, hnested⟩ := coLss_laid hscope (le_max_right _ _)
    exact ⟨by rw [eraseLs, herase, hscopeErase], by omega,
      fun hi hhi => .scope hle (by omega) hfits (hnested hi hhi)⟩
  | .handle default handl handlLv handlReturn handlReturnLv bv off =>
    have hbump : ∀ m, bump m offset ((BI.sizeOfHandle : Nat) : Int) =
        (offset + 4, max m (offset + 4)) := fun m => bump_eq
    simp only [coLs, hbump] at hco
    obtain ⟨⟨handl', m1⟩, hhandl, hco⟩ := bind_ok hco
    obtain ⟨⟨default', m2⟩, hdefault, hco⟩ := bind_ok hco
    obtain ⟨⟨handlReturn', m3⟩, hreturn, hret⟩ := bind_ok hco
    cases hret
    obtain ⟨hhandlErase, hmono1, hhandlNested⟩ := coLss_laid hhandl (le_max_right _ _)
    obtain ⟨hdefaultErase, hmono2, hdefaultNested⟩ := coLss_laid hdefault (le_max_right _ _)
    obtain ⟨hreturnErase, hmono3, hreturnNested⟩ := coLss_laid hreturn (by omega)
    have hoffset : offset + 4 - 1 = offset + 3 := by omega
    exact ⟨by rw [eraseLs, hhandlErase, hdefaultErase, hreturnErase], by omega,
      fun hi hhi => hoffset ▸ .handle (by omega) (hdefaultNested hi (by omega))
        (hhandlNested hi (by omega)) (hreturnNested hi hhi)⟩
  | .switch kind arg sels default =>
    obtain ⟨⟨sels', m1⟩, hsels, hco⟩ := bind_ok hco
    obtain ⟨⟨default', m2⟩, hdefault, hret⟩ := bind_ok hco
    cases hret
    obtain ⟨hselsErase, hmono1, hselsNested⟩ := coSels_laid hsels hmax
    obtain ⟨hdefaultErase, hmono2, hdefaultNested⟩ := coLss_laid hdefault (hmax.trans hmono1)
    exact ⟨by rw [eraseLs, hselsErase, hdefaultErase], hmono1.trans hmono2,
      fun hi hhi => .switch (hselsNested hi (hmono2.trans hhi)) (hdefaultNested hi hhi)⟩

theorem coLss_laid (hco : coLss flags lss lvMap phMap offset m = .ok (lss', m'))
    (hmax : offset ≤ m) : eraseLss lss' = lss ∧ m ≤ m' ∧
    ∀ hi, m' ≤ hi → ∀ ls ∈ lss', Nested flags hi offset ls := by
  match lss with
  | [] =>
    cases hco
    exact ⟨rfl, le_refl _, nofun⟩
  | ls :: lss =>
    obtain ⟨⟨ls', m1⟩, hls, hco⟩ := bind_ok hco
    obtain ⟨⟨lss', m2⟩, hlss, hret⟩ := bind_ok hco
    cases hret
    obtain ⟨hlsErase, hmono1, hlsNested⟩ := coLs_laid hls hmax
    obtain ⟨hlssErase, hmono2, hlssNested⟩ := coLss_laid hlss (hmax.trans hmono1)
    exact ⟨by rw [eraseLss, hlsErase, hlssErase], hmono1.trans hmono2, fun hi hhi =>
      forall_mem_cons.mpr ⟨hlsNested hi (hmono2.trans hhi), hlssNested hi hhi⟩⟩

theorem coSels_laid (hco : coSels flags sels lvMap phMap offset m = .ok (sels', m'))
    (hmax : offset ≤ m) :
    eraseSels sels' = sels ∧ m ≤ m' ∧
    ∀ hi, m' ≤ hi → ∀ branch ∈ sels', ∀ ls ∈ branch.2, Nested flags hi offset ls := by
  match sels with
  | [] =>
    cases hco
    exact ⟨rfl, le_refl _, nofun⟩
  | (sel, lss) :: sels =>
    obtain ⟨⟨sels', m1⟩, hsels, hco⟩ := bind_ok hco
    obtain ⟨⟨lss', m2⟩, hlss, hret⟩ := bind_ok hco
    cases hret
    obtain ⟨hselsErase, hmono1, hselsNested⟩ := coSels_laid hsels hmax
    obtain ⟨hlssErase, hmono2, hlssNested⟩ := coLss_laid hlss (hmax.trans hmono1)
    exact ⟨by rw [eraseSels, hlssErase, hselsErase], hmono1.trans hmono2, fun hi hhi =>
      forall_mem_cons.mpr ⟨hlssNested hi hhi, hselsNested hi (hmono2.trans hhi)⟩⟩

end

/-! ## When the pass succeeds -/

/-- The variables with a slot after the pattern: a flow variable forgets the
ones the pattern had bound before it. -/
def patLvs (outer : List Lvar) : List (StoreType Unit) → List Lvar → List Lvar
  | [], lvs => lvs
  | .stackSty lv _ :: stys, lvs => patLvs outer stys (lv :: lvs)
  | .flushedCallerSty lv _ _ :: stys, lvs => patLvs outer stys (lv :: lvs)
  | .fvSty _ _ _ :: stys, _ => patLvs outer stys outer
  | .phregSty _ _ :: stys, lvs => patLvs outer stys lvs
  | .flushedCalleeSty _ _ :: stys, lvs => patLvs outer stys lvs

def patPhregs : List (StoreType Unit) → List Lvar → List Lvar
  | [], phregs => phregs
  | .flushedCalleeSty phreg _ :: stys, phregs => patPhregs stys (phreg :: phregs)
  | .stackSty _ _ :: stys, phregs => patPhregs stys phregs
  | .flushedCallerSty _ _ _ :: stys, phregs => patPhregs stys phregs
  | .fvSty _ _ _ :: stys, phregs => patPhregs stys phregs
  | .phregSty _ _ :: stys, phregs => patPhregs stys phregs

def atomSlotted (lvs phregs : List Lvar) : Atom → Bool
  | .var lv => lvs.contains lv
  | .phreg phreg => phregs.contains phreg
  | _ => false

def basicSlotted (lvs phregs : List Lvar) : BasicStmt Unit Atom → Bool
  | .flush atom _ => atomSlotted lvs phregs atom
  | .fetch atom _ => atomSlotted lvs phregs atom
  | _ => true

mutual

/-- Every flush and fetch is of a variable that has a slot in scope, given
the variables and registers that have one already. -/
def slottedLs : IffStmt → List Lvar → List Lvar → Bool
  | .basic stmt, lvs, phregs => basicSlotted lvs phregs stmt
  | .letregion _ body, lvs, phregs => slottedLss body lvs phregs
  | .scope pat scope, lvs, phregs => slottedLss scope (patLvs lvs pat lvs) (patPhregs pat phregs)
  | .handle default handl _ handlReturn _ _ _, lvs, phregs =>
    slottedLss handl lvs phregs && slottedLss default lvs phregs &&
      slottedLss handlReturn lvs phregs
  | .switch _ _ sels default, lvs, phregs => slottedSels sels lvs phregs && slottedLss default lvs phregs

def slottedLss : List IffStmt → List Lvar → List Lvar → Bool
  | [], _, _ => true
  | ls :: lss, lvs, phregs => slottedLs ls lvs phregs && slottedLss lss lvs phregs

def slottedSels : List (Selector × List IffStmt) → List Lvar → List Lvar → Bool
  | [], _, _ => true
  | (_, lss) :: sels, lvs, phregs => slottedLss lss lvs phregs && slottedSels sels lvs phregs

end

/-- The map gives an offset to every variable of the list. -/
def Defines (lvMap : LvMap) (lvs : List Lvar) : Prop := ∀ lv ∈ lvs, ∃ offset, lvMap lv = some offset

theorem Defines.addLv (h : Defines lvMap lvs) (r : Int) (lv : Lvar) :
    Defines (addLv lvMap r lv) (lv :: lvs) := by
  intro lv' hmem
  by_cases heq : lv' = lv
  · exact ⟨r, by rw [heq, CalcOffset.addLv, Function.update_self]⟩
  · obtain ⟨offset, hoffset⟩ := h lv' (mem_of_ne_of_mem heq hmem)
    exact ⟨offset, by rw [CalcOffset.addLv, Function.update_of_ne heq, hoffset]⟩

theorem Defines.addList (h : Defines lvMap lvs) (entries : List (Lvar × Int)) :
    Defines (addList entries lvMap) ((entries.map Prod.fst).reverse ++ lvs) := by
  induction entries generalizing lvMap lvs with
  | nil => simpa [CalcOffset.addList] using h
  | cons entry entries ih => simpa [CalcOffset.addList] using ih (h.addLv entry.2 entry.1)

theorem assignStysLoop_defines (houter : Defines lvMapOuter outer) (stys : List (StoreType Unit))
    (stysAcc : List (StoreType Int)) (offset maxOffset : Int) (hlvs : Defines lvMap lvs)
    (hphregs : Defines phMap phregs) :
    Defines (assignStysLoop lvMapOuter stys stysAcc lvMap phMap offset maxOffset).2.1
      (patLvs outer stys lvs) ∧
    Defines (assignStysLoop lvMapOuter stys stysAcc lvMap phMap offset maxOffset).2.2.1
      (patPhregs stys phregs) := by
  induction stys generalizing stysAcc lvMap phMap lvs phregs offset maxOffset with
  | nil => exact ⟨hlvs, hphregs⟩
  | cons sty stys ih =>
    cases sty with
    | stackSty lv | flushedCallerSty lv phreg => exact ih _ _ _ (hlvs.addLv offset lv) hphregs
    | phregSty lv phreg => exact ih _ _ _ hlvs hphregs
    | flushedCalleeSty phreg => exact ih _ _ _ hlvs (hphregs.addLv offset phreg)
    | fvSty lv ifTrue ifFalse => exact ih _ _ _ houter hphregs

theorem lookupLv_ok (h : Defines lvMap lvs) (hmem : lvs.contains lv = true) :
    ∃ offset, lookupLv lvMap lv = .ok offset := by
  obtain ⟨offset, hoffset⟩ := h lv (contains_iff_mem.mp hmem)
  exact ⟨offset, by rw [lookupLv, hoffset]⟩

theorem assignOffsetAtom_ok (hlvs : Defines lvMap lvs) (hphregs : Defines phMap phregs)
    (hslot : atomSlotted lvs phregs atom = true) :
    ∃ offset, assignOffsetAtom atom lvMap phMap = .ok offset := by
  cases atom with
  | var lv => exact lookupLv_ok hlvs hslot
  | phreg phreg => exact lookupLv_ok hphregs hslot
  | _ => cases hslot

theorem coBasic_ok (hlvs : Defines lvMap lvs) (hphregs : Defines phMap phregs)
    (hslot : basicSlotted lvs phregs stmt = true) :
    ∃ stmt', coBasic stmt lvMap phMap = .ok stmt' := by
  cases stmt with
  | flush atom | fetch atom =>
    exact exists_bind_ok (assignOffsetAtom_ok hlvs hphregs hslot) fun _ => ⟨_, rfl⟩
  | _ => exact ⟨_, rfl⟩

mutual

theorem coLs_ok (hlvs : Defines lvMap lvs) (hphregs : Defines phMap phregs)
    (hslot : slottedLs ls lvs phregs = true) :
    ∃ result, coLs flags ls lvMap phMap offset m = .ok result := by
  match ls with
  | .basic stmt => exact exists_bind_ok (coBasic_ok hlvs hphregs hslot) fun _ => ⟨_, rfl⟩
  | .letregion rhos body =>
    rcases hrhos : assignBinders flags rhos offset m with ⟨rhos', offset', m1⟩
    simp only [coLs, hrhos]
    exact exists_bind_ok (coLss_ok hlvs hphregs hslot) fun _ => ⟨_, rfl⟩
  | .scope pat scope =>
    have hdefines := assignStysLoop_defines hlvs pat [] offset m hlvs hphregs
    rcases hpat : assignStys pat lvMap phMap offset m with ⟨pat', lvMap', phMap', offset', m1⟩
    rw [assignStys] at hpat
    rw [hpat] at hdefines
    simp only [coLs, assignStys, hpat]
    exact exists_bind_ok (coLss_ok hdefines.1 hdefines.2 hslot) fun _ => ⟨_, rfl⟩
  | .handle default handl handlLv handlReturn handlReturnLv bv off =>
    simp only [slottedLs, and_eq_true] at hslot
    obtain ⟨⟨hhandl, hdefault⟩, hreturn⟩ := hslot
    exact exists_bind_ok (coLss_ok hlvs hphregs hhandl) fun _ =>
      exists_bind_ok (coLss_ok hlvs hphregs hdefault) fun _ =>
        exists_bind_ok (coLss_ok hlvs hphregs hreturn) fun _ => ⟨_, rfl⟩
  | .switch kind arg sels default =>
    simp only [slottedLs, and_eq_true] at hslot
    exact exists_bind_ok (coSels_ok hlvs hphregs hslot.1) fun _ =>
      exists_bind_ok (coLss_ok hlvs hphregs hslot.2) fun _ => ⟨_, rfl⟩

theorem coLss_ok (hlvs : Defines lvMap lvs) (hphregs : Defines phMap phregs)
    (hslot : slottedLss lss lvs phregs = true) :
    ∃ result, coLss flags lss lvMap phMap offset m = .ok result := by
  match lss with
  | [] => exact ⟨_, rfl⟩
  | ls :: lss =>
    simp only [slottedLss, and_eq_true] at hslot
    exact exists_bind_ok (coLs_ok hlvs hphregs hslot.1) fun _ =>
      exists_bind_ok (coLss_ok hlvs hphregs hslot.2) fun _ => ⟨_, rfl⟩

theorem coSels_ok (hlvs : Defines lvMap lvs) (hphregs : Defines phMap phregs)
    (hslot : slottedSels sels lvs phregs = true) :
    ∃ result, coSels flags sels lvMap phMap offset m = .ok result := by
  match sels with
  | [] => exact ⟨_, rfl⟩
  | (sel, lss) :: sels =>
    simp only [slottedSels, and_eq_true] at hslot
    exact exists_bind_ok (coSels_ok hlvs hphregs hslot.2) fun _ =>
      exists_bind_ok (coLss_ok hlvs hphregs hslot.1) fun _ => ⟨_, rfl⟩

end

/-! ## A whole function -/

/-- The variables that have a slot outside the frame proper: the arguments and
the results that are passed on the stack. -/
def spilledLvs (cc : CallConv.CC) : List Lvar :=
  (cc.spilledRes.map Prod.fst).reverse ++ ((cc.spilledArgs.map Prod.fst).reverse ++ [])

theorem coTopDecl_ok (hcc : cc.resolved = true)
    (hslot : slottedLss lss (spilledLvs cc) [] = true) :
    ∃ result, coTopDecl flags cc lss = .ok result := by
  have hnone : ∀ lvMap : LvMap, Defines lvMap [] := fun _ lv hmem => absurd hmem not_mem_nil
  rw [coTopDecl, ok_bind (CallConv.getSpilledArgsWithOffsets_eq hcc),
    ok_bind (CallConv.getSpilledResWithOffsets_eq hcc)]
  exact exists_bind_ok
    (coLss_ok (((hnone _).addList cc.spilledArgs).addList cc.spilledRes) (hnone _) hslot)
    fun _ => ⟨_, ok_bind (CallConv.getCcSize_eq hcc)⟩

/-- The frame of a successful run: nothing but offsets is added, open slots
are apart and inside the frame in the order of entry, and the frame is aligned. -/
theorem coTopDecl_laid (hco : coTopDecl flags cc lss = .ok (cc', lss')) :
    eraseLss lss' = lss ∧ ∃ sizeFf : Int, ∃ sizeCc : Nat,
      cc' = CallConv.addFrameSize cc sizeFf ∧ CallConv.getCcSize cc = .ok sizeCc ∧
      (sizeFf + sizeCc) % 2 = 0 ∧ (∀ slots, OpenAt flags lss' slots → Fits 0 sizeFf slots) ∧
      0 ≤ sizeFf ∧ ∀ ls ∈ lss', Nested flags sizeFf 0 ls := by
  obtain ⟨spilledArgs, -, hco⟩ := bind_ok hco
  obtain ⟨spilledRes, -, hco⟩ := bind_ok hco
  obtain ⟨⟨lssCo, sizeFf0⟩, hlss, hco⟩ := bind_ok hco
  obtain ⟨sizeCc, hsizeCc, hret⟩ := bind_ok hco
  cases hret
  obtain ⟨herase, hmono, hnested⟩ := coLss_laid hlss (le_refl _)
  have hle : sizeFf0 ≤ if (sizeFf0 + sizeCc) % 2 = 0 then sizeFf0 else sizeFf0 + 1 := by
    split <;> omega
  refine ⟨herase, _, sizeCc, rfl, hsizeCc, ?_, ?_, hmono.trans hle, hnested _ hle⟩
  · split
    · assumption
    · omega
  · exact fun slots hopen => hopen.fits (hnested _ hle)

/-- The pass on any function.  If the call convention is resolved and every
flush and fetch is of a variable with a slot in scope it succeeds; when it
succeeds, only offsets are added to the body, the slots that are open at one
program point are pairwise apart and inside the frame, and the frame together
with the call convention's words is of even size. -/
theorem coTopDecl_slots_apart (flags : Flags) (cc : CallConv.CC) (lss : List IffStmt) :
    match coTopDecl flags cc lss with
    | .error _ => ¬ (cc.resolved = true ∧ slottedLss lss (spilledLvs cc) [] = true)
    | .ok (cc', lss') => eraseLss lss' = lss ∧ ∃ sizeFf : Int, ∃ sizeCc : Nat,
        cc' = CallConv.addFrameSize cc sizeFf ∧ CallConv.getCcSize cc = .ok sizeCc ∧
        (sizeFf + sizeCc) % 2 = 0 ∧
        ∀ slots, OpenAt flags lss' slots →
          slots.Pairwise Slot.Apart ∧ ∀ slot ∈ slots, 0 ≤ slot.lo ∧ slot.hi ≤ sizeFf := by
  cases hco : coTopDecl flags cc lss with
  | error msg =>
    rintro ⟨hcc, hslot⟩
    obtain ⟨result, hresult⟩ := coTopDecl_ok hcc hslot
    rw [hco] at hresult
    cases hresult
  | ok result =>
    obtain ⟨herase, sizeFf, sizeCc, hcc, hsize, heven, hfits, -⟩ := coTopDecl_laid hco
    exact ⟨herase, sizeFf, sizeCc, hcc, hsize, heven, hfits⟩

end MLKit.Backend.CalcOffset
