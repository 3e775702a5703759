import MLKit.Backend.RootMaps

/-!
# Roots at calls

A bit vector is complete when it has the bit of every slot whose variable is
live after its call.  The pass computes liveness along paths that differ from
those of control, so completeness depends on the body: it holds exactly when
every variable that is live after a call is also live along the paths of the
pass.
-/

namespace MLKit.Backend.CalcOffset

open MLKit.Lib

/-! ## The statement at a place of the result -/

variable {sz : FrameSizes} {sels : List (Selector × List CoStmt)} {sel : Selector × List CoStmt}
  {lvEnv lvEnv' : LvMap} {lSet : Finset Int} {K : List CoFrame}
  {lss lss' : List (LineStmt (StoreType Int) Int Atom)} {ls : BasicStmt Int Atom}
  {K' : List (Frame LvMap (StoreType Int) Int Atom)} {funNr : Nat} {pos : Pos} {body : List CoStmt}
  {cc : CallConv.CC} {v : Lvar}

theorem cbvSels_getElem? {i : Nat} (hsel : sels[i]? = some sel)
    (lvEnv : LvMap) (lSet : Finset Int) (funNr : Nat) :
    ∃ nr, (cbvSels sz sels lvEnv lSet funNr).2.1[i]? =
      some (sel.1, (cbvLss sz sel.2 lvEnv lSet nr).2.1) := by
  induction sels generalizing i with
  | nil => cases hsel
  | cons first sels ih =>
    cases i with
    | zero =>
      cases hsel
      exact ⟨_, rfl⟩
    | succ i => exact ih hsel

/-- The pass treats the statement at a place with the slots that are live behind it. -/
theorem cbvLss_stmtAt (pos : Pos) (hend : Represents sz lSet K) (funNr : Nat)
    (hplace : placeAt (addStys sz.sizeCc) pos lvEnv lss K = some (lvEnv', ls, lss', K')) :
    ∃ after nr, Represents sz after (.code lvEnv' lss' :: K') ∧
      stmtAt pos (cbvLss sz lss lvEnv lSet funNr).2.1 =
        some (cbvBasic sz ls lvEnv' after nr).2.1 := by
  -- a place is only found in a list whose first statement has the form it asks for
  induction pos generalizing lvEnv lss K lSet funNr with
    (simp only [placeAt] at hplace; split at hplace; rotate_left; · cases hplace)
  | here =>
    cases hplace
    exact ⟨_, _, cbvLss_represents hend funNr, rfl⟩
  | next pos ih => exact ih hend funNr hplace
  | body pos ih =>
    refine ih (fun k => ?_) _ hplace
    rw [slotLive_leaveRegions]
    exact cbvLss_represents hend funNr k
  | scope pos ih => exact ih (cbvLss_represents hend funNr) _ hplace
  | handl pos ih =>
    refine ih (fun k => ?_) _ hplace
    rw [slotLive_install, Finset.mem_erase]
    refine and_congr_right fun _ => cbvLss_represents (fun k => ?_) _ k
    rw [slotLive_handler, Finset.mem_insert]
    exact or_congr_right (cbvLss_represents hend funNr k)
  | default pos ih =>
    refine ih (fun k => ?_) _ hplace
    rw [slotLive_handler, Finset.mem_insert]
    exact or_congr_right (cbvLss_represents hend funNr k)
  | handlReturn pos ih =>
    refine ih (fun k => ?_) _ hplace
    rw [slotLive_handled, mem_lvsetDifference, and_comm]
    exact and_congr_right fun _ => cbvLss_represents hend funNr k
  | sel i pos ih =>
    obtain ⟨sel, hsel, hplace⟩ := Option.bind_eq_some_iff.1 hplace
    obtain ⟨nr, hnr⟩ := cbvSels_getElem? hsel lvEnv lSet _
    obtain ⟨after, nr', hafter, hat⟩ := ih (fun k => by rw [slotLive_afterSwitch, hend k]) nr hplace
    exact ⟨after, nr', hafter, Option.bind_eq_some_iff.2 ⟨_, hnr, hat⟩⟩
  | swDefault pos ih => exact ih (fun k => by rw [slotLive_afterSwitch, hend k]) _ hplace

/-! ## Variables that are live after a call -/

/-- A use, in the sense of `defUseVarLsCbv`.  Control also reads the operand of
a switch and the closure of a handler that it installs. -/
def VarUses (v : Lvar) : LvMap × Action Int Atom → Prop
  | (_, .stmt ls) => v ∈ (defUseVarLsCbv ls).2
  | (_, .raised ls) => v ∈ (defUseVarLsCbv ls).2
  | (_, .test arg) => v ∈ getVarAtom arg
  | (_, .install handlLv _) => v ∈ getVarAtom handlLv
  | _ => False

/-- A `FETCH` reloads its variable and does not redefine it. -/
def VarDefs (v : Lvar) : LvMap × Action Int Atom → Prop
  | (_, .stmt (.fetch _ _)) => False
  | (_, .stmt ls) => v ∈ (defUseVarLsCbv ls).1
  | (_, .caught handlReturnLv) => v ∈ getVarAtom handlReturnLv
  | _ => False

abbrev VarFlow (sz : FrameSizes) : List CoFrame → LvMap × Action Int Atom → List CoFrame → Prop :=
  Flow View.exact (addStys sz.sizeCc)

/-- On a path of control the variable is used before it is redefined. -/
abbrev VarLive (sz : FrameSizes) (v : Lvar) : List CoFrame → Prop :=
  Live (VarFlow sz) (VarUses v) (VarDefs v)

def isCall : BasicStmt Int Atom → Bool
  | .fncall _ => true
  | .funcall _ => true
  | _ => false

/-- At the place stands a call, `k` is the slot of a variable in scope, and the
variable is live after the call. -/
def LiveRoot (sz : FrameSizes) (lvEnv : LvMap) (body : List CoStmt) (pos : Pos) (lvEnv' : LvMap)
    (ls : BasicStmt Int Atom) (lss : List CoStmt) (K : List CoFrame) (k : Nat) : Prop :=
  placeAt (addStys sz.sizeCc) pos lvEnv body [] = some (lvEnv', ls, lss, K) ∧ isCall ls = true ∧
    ∃ v, lvEnv' v = some (k : Int) ∧
      ∃ e c, VarFlow sz (.code lvEnv' (.basic ls :: lss) :: K) e c ∧ ¬ VarDefs v e ∧ VarLive sz v c

def bvOf : BasicStmt Int Atom → List Word32
  | .fnjmp app => app.bv
  | .fncall app => app.bv
  | .jmp app => app.bv
  | .funcall app => app.bv
  | _ => []

/-- Every call of the result has the bits of the slots of all live variables. -/
def RootsComplete (sz : FrameSizes) (lvEnv : LvMap) (body body' : List CoStmt) : Prop :=
  ∀ pos lvEnv' ls lss K k, LiveRoot sz lvEnv body pos lvEnv' ls lss K k →
    ∃ ls', stmtAt pos body' = some ls' ∧ RootBit (bvOf ls') k

/-- The slot of every variable that is live after a call is not a slot the call
defines, and it is live as well when the statements behind a switch in its own
list and the ways of exceptions are left out. -/
def RootsFollowed (sz : FrameSizes) (lvEnv : LvMap) (body : List CoStmt) : Prop :=
  ∀ pos lvEnv' ls lss K k, LiveRoot sz lvEnv body pos lvEnv' ls lss K k →
    (k : Int) ∉ lookupLvs lvEnv' (slotDefUse ls).1 ∧ SlotLive sz k (.code lvEnv' lss :: K)

theorem bvOf_cbvBasic (hcall : isCall ls = true) (sz : FrameSizes) (lvEnv : LvMap)
    (lSet : Finset Int) (funNr : Nat) :
    bvOf (cbvBasic sz ls lvEnv lSet funNr).2.1 = genBitvector (killDef ls lvEnv lSet) sz funNr := by
  cases ls with
  | fncall app | funcall app => rfl
  | _ => cases hcall

/-- The bits of the call at a place. -/
theorem rootBit_at_iff {k : Nat} {body : List (LineStmt (StoreType Int) Int Atom)}
    {K : List (Frame LvMap (StoreType Int) Int Atom)}
    (hplace : placeAt (addStys sz.sizeCc) pos lvEnv body [] = some (lvEnv', ls, lss, K))
    (hcall : isCall ls = true) :
    (∃ ls', stmtAt pos (cbvLss sz body lvEnv ∅ funNr).2.1 = some ls' ∧ RootBit (bvOf ls') k) ↔
      (k : Int) ∉ lookupLvs lvEnv' (slotDefUse ls).1 ∧ SlotLive sz k (.code lvEnv' lss :: K) := by
  obtain ⟨after, nr, hafter, hat⟩ := cbvLss_stmtAt pos (represents_nil sz) funNr hplace
  have hbit : RootBit (bvOf (cbvBasic sz ls lvEnv' after nr).2.1) k ↔
      (k : Int) ∉ lookupLvs lvEnv' (slotDefUse ls).1 ∧ SlotLive sz k (.code lvEnv' lss :: K) := by
    rw [bvOf_cbvBasic hcall, genBitvector_rootBit, mem_killDef, hafter k]
  rw [← hbit]
  constructor
  · rintro ⟨ls', hls', hroot⟩
    rw [hat] at hls'
    cases hls'
    exact hroot
  · exact fun hroot => ⟨_, hat, hroot⟩

theorem cbvLss_rootsComplete_iff :
    RootsComplete sz lvEnv body (cbvLss sz body lvEnv ∅ funNr).2.1 ↔
      RootsFollowed sz lvEnv body := by
  constructor
  · intro hcomplete pos lvEnv' ls lss K k hroot
    exact (rootBit_at_iff hroot.1 hroot.2.1).1 (hcomplete _ _ _ _ _ _ hroot)
  · intro hfollowed pos lvEnv' ls lss K k hroot
    exact (rootBit_at_iff hroot.1 hroot.2.1).2 (hfollowed _ _ _ _ _ _ hroot)

theorem cbvTopDecl_eq (hframe : cbvFrame cc = .ok (sz, lvEnv)) (body : List CoStmt) (funNr : Nat) :
    cbvTopDecl cc body funNr =
      .ok ((cbvLss sz body lvEnv ∅ funNr).2.1, (cbvLss sz body lvEnv ∅ funNr).2.2) :=
  ok_bind hframe

/-- The pass on a function whose frame is laid out returns a body, and the bit
vectors of that body are complete if and only if the paths of the pass find
every live variable. -/
theorem cbvTopDecl_rootsComplete_iff (cc : CallConv.CC) (body : List CoStmt) (funNr : Nat)
    {sz : FrameSizes} {lvEnv : LvMap} (hframe : cbvFrame cc = .ok (sz, lvEnv)) :
    ∃ body' funNr', cbvTopDecl cc body funNr = .ok (body', funNr') ∧
      (RootsComplete sz lvEnv body body' ↔ RootsFollowed sz lvEnv body) := by
  refine ⟨_, _, cbvTopDecl_eq hframe body funNr, ?_⟩
  exact cbvLss_rootsComplete_iff

/-! ## A variable that is kept over a call -/

/-- A function without arguments and results, with one word of its own. -/
def oneWordCc : CallConv.CC where
  clos := none
  args := []
  regVec := none
  regArgs := []
  res := []
  frameSize := some 1

def oneWordSizes : FrameSizes := ⟨0, 0, 1⟩

theorem cbvFrame_oneWordCc : cbvFrame oneWordCc = .ok (oneWordSizes, fun _ => none) := rfl

def kept : Lvar := .named 0 false

def someCall : BasicStmt Int Atom := .fncall ⟨.phreg (.phreg .rax), [], none, [], []⟩

/-- A variable in slot 0 is defined before and used after some statements. -/
def keptOver (lss : List CoStmt) : List CoStmt :=
  [.scope [.stackSty kept 0]
    (.basic (.assign (.var kept) (.atom (.integer 1 64))) :: lss ++
      [.basic (.assign (.phreg (.phreg .rdi)) (.atom (.var kept)))])]

/-- The word of the slot, behind the return address. -/
def keptEnv : LvMap := addLv (fun _ => none) 1 kept

theorem keptEnv_eq_some {k : Int} (h : keptEnv v = some (k : Int)) : k = 1 := by
  by_cases hv : v = kept
  · subst hv
    have h1 : (1 : Int) = k := Option.some.inj h
    omega
  · simp [keptEnv, addLv, hv] at h

theorem kept_varLive (K : List CoFrame) :
    VarLive oneWordSizes kept
      (.code keptEnv [.basic (.assign (.phreg (.phreg .rdi)) (.atom (.var kept)))] :: K) :=
  .use (Flow.stmt rfl) (by simp [VarUses, defUseVarLsCbv, useVarLs', usesOf, useVarSe', getVarAtom,
    filterOutUbf64Lvars, kept, Lvar.getUbf64])

/-- The bit vector of a call in the list of the last use has the root. -/
theorem call_in_list_keeps_root :
    ∃ body' funNr', cbvTopDecl oneWordCc (keptOver [.basic someCall]) 0 = .ok (body', funNr') ∧
      RootsComplete oneWordSizes (fun _ => none) (keptOver [.basic someCall]) body' := by
  obtain ⟨body', funNr', hrun, hiff⟩ :=
    cbvTopDecl_rootsComplete_iff oneWordCc (keptOver [.basic someCall]) 0 cbvFrame_oneWordCc
  refine ⟨body', funNr', hrun, hiff.2 ?_⟩
  rintro pos lvEnv' ls lss K k ⟨hplace, hcall, v, hslot, -⟩
  have hlive : SlotLive oneWordSizes 1
      [.code keptEnv [.basic (.assign (.phreg (.phreg .rdi)) (.atom (.var kept)))],
        .code (fun _ => none) []] :=
    (slotLive_basic _).2 (.inl (by decide))
  match pos with
  | .scope (.next .here) =>
    cases hplace
    cases keptEnv_eq_some hslot
    exact ⟨List.not_mem_nil, hlive⟩
  | .scope .here | .scope (.next (.next .here)) => cases hplace; cases hcall
  | .next pos | .scope (.next (.next (.next pos))) => simp [keptOver, placeAt] at hplace

/-- The bit vector of a call in a branch of a switch before the last use does not. -/
theorem call_in_branch_misses_root :
    ∃ body' funNr', cbvTopDecl oneWordCc
        (keptOver [.switch (.int 64) (.integer 0 64) [(.num 0, [.basic someCall])] []]) 0 =
          .ok (body', funNr') ∧
      cbvFrame oneWordCc = .ok (oneWordSizes, fun _ => none) ∧
      ¬ RootsComplete oneWordSizes (fun _ => none)
        (keptOver [.switch (.int 64) (.integer 0 64) [(.num 0, [.basic someCall])] []]) body' := by
  refine ⟨_, _, cbvTopDecl_eq cbvFrame_oneWordCc _ 0, cbvFrame_oneWordCc, ?_⟩
  rw [cbvLss_rootsComplete_iff]
  intro hfollowed
  have hlive := (hfollowed (.scope (.next (.sel 0 .here))) keptEnv someCall [] _ 1
    ⟨rfl, rfl, kept, rfl, _, _, Flow.stmt rfl, List.not_mem_nil,
      .later .done id (.later (.afterSwitch rfl) id (kept_varLive _))⟩).2
  rw [slotLive_done, slotLive_afterSwitch, slotLive_done] at hlive
  exact slotLive_nil hlive

end MLKit.Backend.CalcOffset
