import MLKit.Lib.Along
import MLKit.Runtime.Pages
import Mathlib.Algebra.Ring.Nat

/-!
# The count of used pages

`rp_used` estimates how many region pages are in use, and tells when to ask for a collection.  The
operations of the region stack are here as far as they move pages: the free list stands by its
length, a generation by the number of its pages.
-/

namespace MLKit.Runtime.PageCount

open MLKit.Lib

structure Config where
  enableGenGc : Bool
  disableGc : Bool

/-- The pages of the two generations, after the first one of each. -/
structure Region where
  g0 : Nat
  g1 : Nat

structure State where
  rpTotal : Nat
  /-- `size_free_list` -/
  free : Nat
  rpUsed : Int
  rpGcTreshold : Nat
  timeToGc : Bool
  /-- the region stack, the top region first -/
  regions : List Region

def State.initial (rpGcTreshold : Nat) : State := ⟨0, 0, 0, rpGcTreshold, false, []⟩

/-- The pages that are not free. -/
def State.inUse (s : State) : Int := s.rpTotal - s.free

/-! ## The operations -/

/-- The count is checked when the estimate, which is not negative then, exceeds the threshold. -/
def Config.checks (cfg : Config) (s : State) : Bool :=
  !cfg.disableGc && !s.timeToGc && decide (s.rpGcTreshold < s.rpUsed + 1)

/-- The first part of `alloc_new_block`. -/
def Config.count (cfg : Config) (s : State) : State :=
  if cfg.checks s then
    { s with rpUsed := s.inUse, timeToGc := decide (s.rpGcTreshold < s.inUse) }
  else { s with rpUsed := s.rpUsed + 1 }

/-- A page is taken from the free list, with `callSbrk` if there is none. -/
def State.take (s : State) : State :=
  if s.free = 0 then
    { s with rpTotal := s.rpTotal + regionPageBagSize, free := regionPageBagSize - 1 }
  else { s with free := s.free - 1 }

def Config.allocNewBlock (cfg : Config) (s : State) : State := (cfg.count s).take

/-- `MIN_NO_OF_PAGES_IN_REGION`. -/
def Config.minNoOfPages (cfg : Config) : Nat := if cfg.enableGenGc then 2 else 1

def Config.pages (cfg : Config) (r : Region) : Nat :=
  r.g0 + 1 + if cfg.enableGenGc then r.g1 + 1 else 0

/-- `resetGen` on a generation with pages after the first one. -/
def resetGen (more : Nat) (s : State) : State :=
  if more ≠ 0 then { s with rpUsed := s.rpUsed - 1, free := s.free + more } else s

inductive Op where
  | allocateRegion
  /-- an allocation in the region at a position of the stack that needs a page -/
  | alloc (r : Nat)
  /-- a large object, with which `lobjs_current` is above its threshold or not -/
  | allocLobj (above : Bool)
  | resetRegion (r : Nat)
  | deallocateRegion
  /-- a collection that takes `taken` pages, after which the regions are `regions` -/
  | gc (taken freed : Nat) (regions : List Region) (rpGcTreshold : Nat)

/-- A position that is not on the stack stands for no region. -/
def Op.run (cfg : Config) (s : State) : Op → Option State
  | .allocateRegion =>
    let s := cfg.allocNewBlock s
    let s := if cfg.enableGenGc then cfg.allocNewBlock s else s
    some { s with regions := ⟨0, 0⟩ :: s.regions }
  | .alloc r =>
    match s.regions[r]? with
    | some region =>
      some { cfg.allocNewBlock s with regions := s.regions.set r { region with g0 := region.g0 + 1 } }
    | none => some s
  | .allocLobj above => some { s with timeToGc := s.timeToGc || !cfg.disableGc && above }
  | .resetRegion r =>
    match s.regions[r]? with
    | some region =>
      let s := resetGen region.g0 s
      let s := if cfg.enableGenGc then resetGen region.g1 s else s
      some { s with regions := s.regions.set r ⟨0, 0⟩ }
    | none => some s
  | .deallocateRegion =>
    match s.regions with
    | region :: regions =>
      some { s with rpUsed := s.rpUsed - cfg.minNoOfPages, free := s.free + cfg.pages region, regions }
    | [] => some s
  | .gc taken freed regions rpGcTreshold =>
    let s := Nat.iterate cfg.allocNewBlock taken s
    let s := { s with free := s.free + freed }
    some { s with rpUsed := s.inUse, regions, rpGcTreshold, timeToGc := false }

/-! ## The count is conservative -/

/-- The estimate is not below the number of pages in use. -/
def Conservative (s : State) : Prop := s.inUse ≤ s.rpUsed

/-- A collection is asked for when more pages are in use than the threshold. -/
def Config.Asked (cfg : Config) (s : State) : Prop :=
  cfg.disableGc = false → s.rpGcTreshold < s.inUse → s.timeToGc = true

/-- The count is conservative after an operation, and an allocation has asked for a collection. -/
def Op.Counts (cfg : Config) (s : State) : Op → State → Prop
  | .allocateRegion, s' => Conservative s' ∧ cfg.Asked s'
  | .alloc r, s' => Conservative s' ∧ (r < s.regions.length → cfg.Asked s')
  | _, s' => Conservative s'

/-- No block is allocated that makes the collector check the count. -/
def Op.Unchecked (cfg : Config) (s : State) : Op → Prop
  | .allocateRegion => cfg.checks s = false ∧
      (cfg.enableGenGc = true → cfg.checks (cfg.allocNewBlock s) = false)
  | .alloc r => r < s.regions.length → cfg.checks s = false
  | _ => True

variable {cfg : Config}

theorem take_inUse (s : State) : s.take.inUse = s.inUse + 1 := by
  unfold State.take State.inUse
  split_ifs with hfree
  · simp only [hfree, regionPageBagSize]
    omega
  · simp only
    omega

/-- Only the free list changes. -/
theorem take_eq (s : State) : ∃ rpTotal free, s.take = { s with rpTotal, free } := by
  unfold State.take
  split_ifs <;> exact ⟨_, _, rfl⟩

variable {s : State}

/-- A block that makes the collector check leaves the count one page behind: the page is taken
after the check. -/
theorem allocNewBlock_checked (h : cfg.checks s = true) :
    (cfg.allocNewBlock s).inUse = (cfg.allocNewBlock s).rpUsed + 1 := by
  rw [Config.allocNewBlock, take_inUse, Config.count, if_pos h]
  obtain ⟨rpTotal, free, htake⟩ := take_eq
    { s with rpUsed := s.inUse, timeToGc := decide (s.rpGcTreshold < s.inUse) }
  rw [htake]
  rfl

/-- Otherwise the count goes up with the pages in use. -/
theorem allocNewBlock_unchecked (h : cfg.checks s = false) :
    (cfg.allocNewBlock s).inUse = s.inUse + 1 ∧ (cfg.allocNewBlock s).rpUsed = s.rpUsed + 1 ∧
      (cfg.allocNewBlock s).timeToGc = s.timeToGc ∧
      (cfg.allocNewBlock s).rpGcTreshold = s.rpGcTreshold := by
  rw [Config.allocNewBlock, take_inUse, Config.count, if_neg (by simp [h])]
  obtain ⟨rpTotal, free, htake⟩ := take_eq { s with rpUsed := s.rpUsed + 1 }
  rw [htake]
  exact ⟨rfl, rfl, rfl, rfl⟩

theorem allocNewBlock_counts_iff (hs : Conservative s) :
    Conservative (cfg.allocNewBlock s) ∧ cfg.Asked (cfg.allocNewBlock s) ↔ cfg.checks s = false :=
    by
  unfold Conservative at *
  constructor
  · intro hcounts
    by_contra hchecks
    have hoff := allocNewBlock_checked (eq_true_of_ne_false hchecks)
    omega
  · intro hchecks
    obtain ⟨hinUse, hused, htime, htreshold⟩ := allocNewBlock_unchecked hchecks
    refine ⟨by omega, fun hgc hmany => ?_⟩
    -- the count exceeds the threshold as well, so a collection had been asked for
    rw [htime]
    by_contra htime
    refine absurd hchecks ?_
    have hmore : (s.rpGcTreshold : Int) < s.rpUsed + 1 := by omega
    simp [Config.checks, hgc, htime, hmore]

/-- A second block does not catch up. -/
theorem allocNewBlock_behind (h : ¬ cfg.checks s = false) :
    ¬ Conservative (cfg.allocNewBlock (cfg.allocNewBlock s)) := by
  have hfirst := allocNewBlock_checked (eq_true_of_ne_false h)
  unfold Conservative
  by_cases hchecks : cfg.checks (cfg.allocNewBlock s) = false
  · obtain ⟨hinUse, hused, _, _⟩ := allocNewBlock_unchecked hchecks
    omega
  · have hsecond := allocNewBlock_checked (eq_true_of_ne_false hchecks)
    omega

theorem resetGen_conservative (hs : Conservative s) (more : Nat) : Conservative (resetGen more s) :=
    by
  unfold resetGen
  split_ifs with hmore
  · unfold Conservative State.inUse at *
    simp only
    omega
  · exact hs

theorem op_counts_iff (hs : Conservative s) (op : Op) : ∃ s', op.run cfg s = some s' ∧
    (op.Counts cfg s s' ↔ op.Unchecked cfg s) ∧ (op.Counts cfg s s' → Conservative s') := by
  cases op with
  | allocateRegion =>
    refine ⟨_, rfl, ?_, And.left⟩
    cases hgen : cfg.enableGenGc with
    | false => exact (allocNewBlock_counts_iff hs).trans (by simp [Op.Unchecked, hgen])
    | true =>
      simp only [Op.Unchecked, hgen, true_imp_iff]
      by_cases hfirst : cfg.checks s = false
      · have hs' := ((allocNewBlock_counts_iff hs).2 hfirst).1
        exact (allocNewBlock_counts_iff hs').trans (and_iff_right hfirst).symm
      · exact iff_of_false (fun hcounts => allocNewBlock_behind hfirst hcounts.1) (fun h => hfirst h.1)
  | alloc r =>
    rw [Op.run]
    split
    case h_1 region hr =>
      have hlt : r < s.regions.length := (List.getElem?_eq_some_iff.1 hr).1
      refine ⟨_, rfl, ?_, And.left⟩
      simp only [Op.Unchecked, Op.Counts, hlt, true_imp_iff]
      exact allocNewBlock_counts_iff hs
    case h_2 hr =>
      have hge : ¬ r < s.regions.length := by simpa using hr
      exact ⟨s, rfl, by simp [Op.Counts, Op.Unchecked, hs, hge], And.left⟩
  | allocLobj above => exact ⟨_, rfl, iff_true_intro hs, id⟩
  | resetRegion r =>
    rw [Op.run]
    split
    case h_1 region hr =>
      refine ⟨_, rfl, iff_true_intro ?_, id⟩
      have hs' := resetGen_conservative hs region.g0
      cases cfg.enableGenGc with
      | false => exact hs'
      | true => exact resetGen_conservative hs' region.g1
    case h_2 => exact ⟨s, rfl, iff_true_intro hs, id⟩
  | deallocateRegion =>
    rw [Op.run]
    split
    case h_1 region regions hr =>
      refine ⟨_, rfl, iff_true_intro ?_, id⟩
      show Conservative _
      unfold Conservative State.inUse Config.minNoOfPages Config.pages at *
      simp only
      split_ifs <;> push_cast <;> omega
    case h_2 => exact ⟨s, rfl, iff_true_intro hs, id⟩
  | gc taken freed regions rpGcTreshold =>
    exact ⟨_, rfl, iff_true_intro (show Conservative _ from Int.le_refl _), id⟩

/-- `rp_used` is at least the number of pages in use after every operation, and a collection is
asked for when it exceeds the threshold, if and only if no allocation checks the count. -/
theorem rp_used_conservative_iff (cfg : Config) (rpGcTreshold : Nat) (ops : List Op) :
    Along (Op.run cfg) (fun s op => op.Counts cfg s) (.initial rpGcTreshold) ops ↔
      Along (Op.run cfg) (fun s op _ => op.Unchecked cfg s) (.initial rpGcTreshold) ops :=
  along_iff (fun _ op hs => op_counts_iff hs op)
    (show Conservative (.initial rpGcTreshold) from Int.le_refl 0) ops

/-- The first page of a program whose threshold is zero is not counted. -/
theorem first_page_not_counted : ¬ Along (Op.run ⟨false, false⟩)
    (fun s op => op.Counts ⟨false, false⟩ s) (.initial 0) [.allocateRegion] := by
  rintro ⟨s', hrun, hcounts, -⟩
  cases hrun
  exact absurd hcounts.1 (by unfold Conservative; decide)

end MLKit.Runtime.PageCount
