import MLKit.Backend.JumpTables
import Mathlib.Data.List.Pairwise
import Mathlib.Data.List.Perm.Subperm

/-!
# Groups of selectors

The selectors of a switch in ascending order fall into runs of neighbours.  The
groups of the binary search are the runs that are long enough for a jump table,
and the single selectors of the other runs.
-/

namespace MLKit.Backend.JumpTables

open MLKit.Edlib List

variable {κ ι β : Type}

abbrev Ascending (sels : List (Int × β)) : Prop := sels.Pairwise fun sel1 sel2 => sel1.1 < sel2.1

variable {α : Type} {sels : List (Int × β)} {sel' sel : Int × β} {startSel finishSel : Int}
  {selectors : List Int} {run' : Group β} {xs : List α}

theorem selsSorted_perm : (selsSorted sels).Perm sels := sort_perm _ sels

/-- Distinct selectors are sorted in descending order. -/
theorem selsSorted_reverse_ascending (hnodup : (sels.map Prod.fst).Nodup) :
    Ascending (selsSorted sels).reverse := by
  refine pairwise_reverse.2 ?_
  have hcomp : sels.Pairwise fun sel1 sel2 =>
      decide (sel1.1 > sel2.1) = true ∨ decide (sel2.1 > sel1.1) = true := by
    refine (pairwise_map.1 hnodup).imp ?_
    intro sel1 sel2 hne
    simp only [decide_eq_true_eq]
    omega
  refine (sort_pairwise ?_ sels hcomp).imp ?_
  · intro sel1 sel2 sel3 h12 h23
    simp only [decide_eq_true_eq] at h12 h23 ⊢
    omega
  · intro sel1 sel2 h
    simpa using h

/-! ## The shape of groups -/

abbrev NearChain (sels : List (Int × β)) : Prop :=
  sels.IsChain fun sel sel' => sel'.1 ≤ sel.1 + BI.maxDiff

/-- A group has selectors, in ascending order and each near the one before, and
its bounds are the first and the last one. -/
structure Group.Wf (group : Group β) : Prop where
  ascending : Ascending group.sels
  near : NearChain group.sels
  start : ∃ selCode rest, group.sels = (group.startSel, selCode) :: rest
  finish : ∃ selCode rest, group.sels = rest ++ [(group.finishSel, selCode)]

variable {rest : List (Int × β)}

theorem mem_le_of_nearChain (hnear : NearChain (sel :: rest)) (hmem : sel' ∈ sel :: rest) :
    sel'.1 ≤ sel.1 + BI.maxDiff * rest.length := by
  induction rest generalizing sel with
  | nil =>
    obtain rfl := mem_singleton.1 hmem
    simp
  | cons next rest ih =>
    have hnear' := isChain_cons_cons.1 hnear
    simp only [BI.maxDiff, length_cons] at ih hnear' ⊢
    rcases mem_cons.1 hmem with rfl | hmem
    · omega
    · have hle := ih hnear'.2 hmem
      omega

namespace Group.Wf

variable {group : Group β} (hwf : group.Wf)

include hwf

theorem startSel_mem : ∃ selCode, (group.startSel, selCode) ∈ group.sels := by
  obtain ⟨selCode, rest, hsels⟩ := hwf.start
  exact ⟨selCode, by simp [hsels]⟩

theorem finishSel_mem : ∃ selCode, (group.finishSel, selCode) ∈ group.sels := by
  obtain ⟨selCode, rest, hsels⟩ := hwf.finish
  exact ⟨selCode, by simp [hsels]⟩

theorem startSel_le (hsel : sel ∈ group.sels) : group.startSel ≤ sel.1 := by
  obtain ⟨selCode, rest, hsels⟩ := hwf.start
  have hasc := hwf.ascending
  rw [hsels] at hsel hasc
  rcases mem_cons.1 hsel with rfl | hsel
  · exact le_refl _
  · exact le_of_lt ((pairwise_cons.1 hasc).1 sel hsel)

theorem le_finishSel (hsel : sel ∈ group.sels) : sel.1 ≤ group.finishSel := by
  obtain ⟨selCode, rest, hsels⟩ := hwf.finish
  have hasc := hwf.ascending
  rw [hsels] at hsel hasc
  rcases mem_append.1 hsel with hsel | hsel
  · exact le_of_lt ((pairwise_append.1 hasc).2.2 sel hsel _ (mem_singleton_self _))
  · simp at hsel
    simp [hsel]

theorem startSel_le_finishSel : group.startSel ≤ group.finishSel := by
  obtain ⟨selCode, hmem⟩ := hwf.startSel_mem
  exact hwf.le_finishSel hmem

theorem finishSel_le :
    group.finishSel ≤ group.startSel + BI.maxDiff * (group.sels.length - 1 : Nat) := by
  obtain ⟨selCode, rest, hsels⟩ := hwf.start
  obtain ⟨selCode', hmem⟩ := hwf.finishSel_mem
  have hnear := hwf.near
  rw [hsels] at hnear hmem
  rw [hsels, length_cons, Nat.add_sub_cancel]
  exact mem_le_of_nearChain hnear hmem

end Group.Wf

def single (sel : Int × β) : Group β := ⟨sel.1, sel.1, [sel]⟩

theorem single_wf : (single sel).Wf where
  ascending := pairwise_singleton _ _
  near := .singleton _
  start := ⟨sel.2, [], rfl⟩
  finish := ⟨sel.2, [], rfl⟩

/-- What `addGroup` makes of a group. -/
def Group.parts (group : Group β) : List (Group β) :=
  if 1 < group.sels.length ∧ group.sels.length < BI.minJumpTabSize then group.sels.map single
  else [group]

theorem addGroup'_eq (sels : List (Int × β)) (acc : List (Group β)) :
    addGroup' sels acc = (sels.map single).reverse ++ acc := by
  induction sels generalizing acc with
  | nil => rfl
  | cons sel rest ih =>
    rw [addGroup', ih]
    simp [single]

theorem addGroup_eq (group : Group β) (acc : List (Group β)) :
    addGroup group acc = group.parts ++ acc := by
  rw [addGroup, Group.parts]
  split
  · rw [addGroup'_eq, map_reverse, reverse_reverse]
  · rfl

theorem parts_sels (group : Group β) : group.parts.flatMap Group.sels = group.sels := by
  rw [Group.parts]
  split
  · simp [flatMap_map, single]
  · simp

theorem parts_wf {group part : Group β} (hwf : group.Wf) (hpart : part ∈ group.parts) :
    part.Wf := by
  rw [Group.parts] at hpart
  split at hpart
  · obtain ⟨sel, _, rfl⟩ := mem_map.1 hpart
    exact single_wf
  · rw [mem_singleton.1 hpart]
    exact hwf

/-- A part is one selector, or a run long enough for a table. -/
theorem parts_length {group part : Group β} (hpart : part ∈ group.parts)
    (hlong : 1 < part.sels.length) : part = group ∧ BI.minJumpTabSize ≤ group.sels.length := by
  rw [Group.parts] at hpart
  split at hpart
  · obtain ⟨sel, _, rfl⟩ := mem_map.1 hpart
    simp [single] at hlong
  · rename_i hsize
    have heq := mem_singleton.1 hpart
    subst heq
    exact ⟨rfl, by omega⟩

/-! ## Runs of neighbours -/

def Far (group group' : Group β) : Prop :=
  ∀ sel ∈ group.sels, ∀ sel' ∈ group'.sels, sel.1 + BI.maxDiff < sel'.1

structure Runs (runs : List (Group β)) : Prop where
  wf : ∀ run ∈ runs, run.Wf
  far : runs.Pairwise Far

theorem Runs.single (sel : Int × β) : Runs [single sel] where
  wf := by simpa using single_wf
  far := pairwise_singleton _ _

variable {run : Group β}

section Step

variable {accGrp : List (Int × β)} {runs : List (Group β)}
  (hruns : Runs (⟨startSel, finishSel, accGrp⟩ :: runs))

include hruns

theorem Runs.extend (hlt : sel.1 < startSel) (hnear : startSel ≤ sel.1 + BI.maxDiff) :
    Runs (⟨sel.1, finishSel, sel :: accGrp⟩ :: runs) := by
  have hwf := hruns.wf _ (mem_cons_self ..)
  refine ⟨?_, ?_⟩
  · refine forall_mem_cons.2 ⟨⟨?_, ?_, ⟨sel.2, accGrp, rfl⟩, ?_⟩, (forall_mem_cons.1 hruns.wf).2⟩
    · refine pairwise_cons.2 ⟨?_, hwf.ascending⟩
      intro sel' hsel'
      exact lt_of_lt_of_le hlt (hwf.startSel_le hsel')
    · have hchain : NearChain accGrp := hwf.near
      obtain ⟨selCode, rest, hsels⟩ := hwf.start
      change accGrp = _ at hsels
      change NearChain (sel :: accGrp)
      rw [hsels] at hchain ⊢
      exact isChain_cons_cons.2 ⟨hnear, hchain⟩
    · obtain ⟨selCode, rest, hsels⟩ := hwf.finish
      exact ⟨selCode, sel :: rest, congrArg (sel :: ·) hsels⟩
  · have hfar := pairwise_cons.1 hruns.far
    refine pairwise_cons.2 ⟨?_, hfar.2⟩
    intro run hrun sel1 hsel1 sel2 hsel2
    rcases mem_cons.1 hsel1 with rfl | hsel1
    · obtain ⟨selCode, hmem⟩ := hwf.startSel_mem
      have h : startSel + BI.maxDiff < sel2.1 := hfar.1 run hrun _ hmem sel2 hsel2
      omega
    · exact hfar.1 run hrun sel1 hsel1 sel2 hsel2

theorem Runs.start_new (hfar : sel.1 + BI.maxDiff < startSel) :
    Runs (JumpTables.single sel :: ⟨startSel, finishSel, accGrp⟩ :: runs) := by
  have hwf := hruns.wf _ (mem_cons_self ..)
  refine ⟨forall_mem_cons.2 ⟨single_wf, hruns.wf⟩, pairwise_cons.2 ⟨?_, hruns.far⟩⟩
  intro run hrun sel1 hsel1 sel2 hsel2
  obtain rfl := mem_singleton.1 hsel1
  rcases mem_cons.1 hrun with rfl | hrun
  · exact lt_of_lt_of_le hfar (hwf.startSel_le hsel2)
  · obtain ⟨selCode, hmem⟩ := hwf.startSel_mem
    have h := (pairwise_cons.1 hruns.far).1 run hrun _ hmem sel2 hsel2
    simp only [BI.maxDiff] at h hfar ⊢
    omega

end Step

variable {t : Target κ ι β} (hdist : ∀ sel1 sel2, t.selDist sel1 sel2 = (sel1 - sel2).natAbs)

include hdist

theorem groupSelList_runs_from : ∀ {startSel finishSel : Int} {accGrp : List (Int × β)}
    {runs : List (Group β)}, Runs (⟨startSel, finishSel, accGrp⟩ :: runs) →
    (rest.Pairwise fun sel1 sel2 => sel2.1 < sel1.1) → (∀ sel ∈ rest, sel.1 < startSel) → ∃ runs',
    groupSelList t (some startSel) (some finishSel) rest accGrp (runs.flatMap Group.parts) = .ok
    (runs'.flatMap Group.parts) ∧ Runs runs' ∧ runs'.flatMap Group.sels = rest.reverse ++
    (accGrp ++ runs.flatMap Group.sels) := by
  induction rest with
  | nil =>
    intro startSel finishSel accGrp runs hruns _ _
    refine ⟨⟨startSel, finishSel, accGrp⟩ :: runs, ?_, hruns, ?_⟩
    · simp [groupSelList, addGroup_eq]
    · simp
  | cons sel rest ih =>
    intro startSel finishSel accGrp runs hruns hdesc hlt
    have hdesc' := pairwise_cons.1 hdesc
    have hsel := hlt sel (mem_cons_self ..)
    by_cases hnear : t.selDist startSel sel.1 ≤ BI.maxDiff
    · have hle : startSel ≤ sel.1 + BI.maxDiff := by
        rw [hdist] at hnear
        omega
      obtain ⟨runs', hok, hruns', hsels⟩ := ih (hruns.extend hsel hle) hdesc'.2 hdesc'.1
      refine ⟨runs', ?_, hruns', ?_⟩
      · simpa [groupSelList, hnear] using hok
      · simpa using hsels
    · have hfar : sel.1 + BI.maxDiff < startSel := by
        rw [hdist] at hnear
        omega
      obtain ⟨runs', hok, hruns', hsels⟩ := ih (hruns.start_new hfar) hdesc'.2 hdesc'.1
      refine ⟨runs', ?_, hruns', ?_⟩
      · simpa [groupSelList, hnear, addGroup_eq] using hok
      · simpa using hsels

/-- The groups are the parts of the runs, and nothing is lost. -/
theorem groupSelList_runs (hasc : Ascending sels.reverse) :
    ∃ runs, groupSelList t none none sels [] [] = .ok (runs.flatMap Group.parts) ∧
      Runs runs ∧ runs.flatMap Group.sels = sels.reverse := by
  cases sels with
  | nil => exact ⟨[], rfl, ⟨by simp, .nil⟩, rfl⟩
  | cons sel rest =>
    have hdesc := pairwise_cons.1 (pairwise_reverse.1 hasc)
    obtain ⟨runs, hok, hruns, hsels⟩ :=
      groupSelList_runs_from hdist (Runs.single sel) hdesc.2 hdesc.1
    refine ⟨runs, ?_, hruns, ?_⟩
    · simpa [groupSelList] using hok
    · simpa using hsels

omit hdist

/-! ## Where tables start -/

/-- `k` more selectors follow `sel`, each at most `maxDiff` after the one before. -/
def ChainFrom (selectors : List Int) : Nat → Int → Prop
  | 0, _ => True
  | k + 1, sel => ∃ sel' ∈ selectors, sel < sel' ∧ sel' ≤ sel + BI.maxDiff ∧
      ChainFrom selectors k sel'

/-- The first selector of a run that is long enough for a jump table. -/
def TableStart (selectors : List Int) (sel : Int) : Prop :=
  sel ∈ selectors ∧ (∀ sel' ∈ selectors, sel' < sel → sel' + BI.maxDiff < sel) ∧
    ChainFrom selectors (BI.minJumpTabSize - 1) sel

theorem chainFrom_of_isChain (k : Nat) (hmem : ∀ sel' ∈ rest, sel'.1 ∈ selectors)
    (hasc : Ascending (sel :: rest)) (hnear : NearChain (sel :: rest)) (hlen : k ≤ rest.length) :
    ChainFrom selectors k sel.1 := by
  induction k generalizing sel rest with
  | zero => trivial
  | succ k ih =>
    cases rest with
    | nil => simp at hlen
    | cons sel' rest =>
      have hasc' := pairwise_cons.1 hasc
      have hnear' := isChain_cons_cons.1 hnear
      refine ⟨sel'.1, hmem sel' (by simp), hasc'.1 sel' (by simp), hnear'.1, ?_⟩
      exact ih (fun sel hsel => hmem sel (.tail _ hsel)) hasc'.2 hnear'.2 (by simpa using hlen)

/-- A selector of a run other than its first has a neighbour below it. -/
theorem exists_near_below (hasc : Ascending (sel :: rest)) (hnear : NearChain (sel :: rest))
    (hmem : sel' ∈ rest) :
    ∃ below ∈ sel :: rest, below.1 < sel'.1 ∧ sel'.1 ≤ below.1 + BI.maxDiff := by
  induction rest generalizing sel with
  | nil => simp at hmem
  | cons next rest ih =>
    have hasc' := pairwise_cons.1 hasc
    have hnear' := isChain_cons_cons.1 hnear
    rcases mem_cons.1 hmem with rfl | hmem
    · exact ⟨sel, by simp, hasc'.1 sel' (by simp), hnear'.1⟩
    · obtain ⟨below, hbelow, h⟩ := ih hasc'.2 hnear'.2 hmem
      exact ⟨below, .tail _ hbelow, h⟩

namespace Runs

variable {runs : List (Group β)} (hruns : Runs runs)

include hruns

theorem mem_run_of_near (hrun : run ∈ runs) (hrun' : run' ∈ runs)
    (hsel : sel ∈ run.sels) (hsel' : sel' ∈ run'.sels) (hlt : sel.1 ≤ sel'.1)
    (hnear : sel'.1 ≤ sel.1 + BI.maxDiff) : run' = run := by
  by_contra hne
  have hsymm : runs.Pairwise fun run run' => Far run run' ∨ Far run' run :=
    hruns.far.imp fun h => Or.inl h
  have : Std.Symm fun run run' : Group β => Far run run' ∨ Far run' run := ⟨fun _ _ h => h.symm⟩
  rcases hsymm.forall hrun' hrun hne with h | h
  · have := h sel' hsel' sel hsel
    omega
  · have := h sel hsel sel' hsel'
    omega

/-- The selectors of a chain lie in one run. -/
theorem chain_in_run (k : Nat) (hrun : run ∈ runs) (hsel : sel ∈ run.sels)
    (hchain : ChainFrom ((runs.flatMap Group.sels).map Prod.fst) k sel.1) :
    ∃ chain : List Int, chain.length = k ∧ chain.Nodup ∧
      ∀ key ∈ chain, sel.1 < key ∧ key ∈ run.sels.map Prod.fst := by
  induction k generalizing sel with
  | zero => exact ⟨[], rfl, nodup_nil, by simp⟩
  | succ k ih =>
    obtain ⟨key, hkey, hlt, hle, hchain⟩ := hchain
    obtain ⟨sel', hsel', rfl⟩ := mem_map.1 hkey
    obtain ⟨run', hrun', hsel'⟩ := mem_flatMap.1 hsel'
    obtain rfl := hruns.mem_run_of_near hrun hrun' hsel hsel' (le_of_lt hlt) hle
    obtain ⟨chain, hlen, hnodup, hmem⟩ := ih hsel' hchain
    refine ⟨sel'.1 :: chain, by simp [hlen], ?_, ?_⟩
    · refine nodup_cons.2 ⟨?_, hnodup⟩
      intro h
      exact lt_irrefl _ (hmem _ h).1
    · refine forall_mem_cons.2 ⟨⟨hlt, mem_map_of_mem hsel'⟩, ?_⟩
      intro key hkey
      exact ⟨lt_trans hlt (hmem key hkey).1, (hmem key hkey).2⟩

theorem length_of_chain (k : Nat) (hrun : run ∈ runs) (hsel : sel ∈ run.sels)
    (hchain : ChainFrom ((runs.flatMap Group.sels).map Prod.fst) k sel.1) :
    k + 1 ≤ run.sels.length := by
  obtain ⟨chain, hlen, hnodup, hmem⟩ := hruns.chain_in_run k hrun hsel hchain
  have hnodup' : (sel.1 :: chain).Nodup := nodup_cons.2 ⟨fun h => lt_irrefl _ (hmem _ h).1, hnodup⟩
  have hsub : sel.1 :: chain ⊆ run.sels.map Prod.fst :=
    cons_subset.2 ⟨mem_map_of_mem hsel, fun key hkey => (hmem key hkey).2⟩
  simpa [hlen] using (subperm_of_subset hnodup' hsub).length_le

/-- The tables start at the selectors that begin a long enough run. -/
theorem table_iff (sel : Int) :
    (∃ group ∈ runs.flatMap Group.parts, 1 < group.sels.length ∧ group.startSel = sel) ↔
      TableStart ((runs.flatMap Group.sels).map Prod.fst) sel := by
  constructor
  · rintro ⟨group, hgroup, hlong, rfl⟩
    obtain ⟨run, hrun, hpart⟩ := mem_flatMap.1 hgroup
    obtain ⟨rfl, hsize⟩ := parts_length hpart hlong
    have hwf := hruns.wf group hrun
    obtain ⟨selCode, rest, hsels⟩ := hwf.start
    refine ⟨?_, ?_, ?_⟩
    · refine mem_map.2 ⟨(group.startSel, selCode), mem_flatMap.2 ⟨group, hrun, ?_⟩, rfl⟩
      simp [hsels]
    · intro key hkey hlt
      obtain ⟨sel', hsel', rfl⟩ := mem_map.1 hkey
      obtain ⟨run', hrun', hsel'⟩ := mem_flatMap.1 hsel'
      by_contra hnear
      have hstart : (group.startSel, selCode) ∈ group.sels := by simp [hsels]
      have heq := hruns.mem_run_of_near hrun' hrun hsel' hstart (le_of_lt hlt) (not_lt.1 hnear)
      rw [← heq] at hsel'
      exact absurd (hwf.startSel_le hsel') (not_le.2 hlt)
    · have hasc := hwf.ascending
      have hnear := hwf.near
      rw [hsels] at hasc hnear hsize
      refine chainFrom_of_isChain _ ?_ hasc hnear ?_
      · intro sel' hsel'
        exact mem_map_of_mem (mem_flatMap.2 ⟨group, hrun, by simp [hsels, hsel']⟩)
      · simp only [BI.minJumpTabSize, length_cons] at hsize ⊢
        omega
  · rintro ⟨hmem, hbelow, hchain⟩
    obtain ⟨sel, hsel, rfl⟩ := mem_map.1 hmem
    obtain ⟨run, hrun, hsel⟩ := mem_flatMap.1 hsel
    have hsize := hruns.length_of_chain _ hrun hsel hchain
    have hparts : run.parts = [run] := by
      rw [Group.parts, if_neg]
      omega
    refine ⟨run, mem_flatMap.2 ⟨run, hrun, by simp [hparts]⟩, ?_, ?_⟩
    · simp only [BI.minJumpTabSize] at hsize
      omega
    · have hwf := hruns.wf run hrun
      obtain ⟨selCode, rest, hsels⟩ := hwf.start
      have hsel' := hsel
      rw [hsels] at hsel'
      rcases mem_cons.1 hsel' with rfl | hrest
      · rfl
      · have hasc := hwf.ascending
        have hnear := hwf.near
        rw [hsels] at hasc hnear
        obtain ⟨below, hmem, hlt, hle⟩ := exists_near_below hasc hnear hrest
        rw [← hsels] at hmem
        have h := hbelow below.1 (mem_map_of_mem (mem_flatMap.2 ⟨run, hrun, hmem⟩)) hlt
        omega

end Runs

/-! ## Splitting -/

theorem splitList'_eq (xs : List α) :
    ∀ (n : Nat) (xs1 : List α) (hn : n < xs.length),
    splitList' n xs1 xs =
      .ok (nonEmpty (xs1 ++ xs.take n), some xs[n], nonEmpty (xs.drop (n + 1))) := by
  induction xs with
  | nil => intro n xs1 hn; simp at hn
  | cons x rest ih =>
    intro n xs1 hn
    cases n with
    | zero => simp [splitList']
    | succ n => simpa [splitList'] using ih n (xs1 ++ [x]) (by simpa using hn)

/-- A non-empty list is split around one of its elements. -/
theorem splitList_eq (hne : xs ≠ []) :
    ∃ left x right, xs = left ++ x :: right ∧
      splitList xs = .ok (nonEmpty left, some x, nonEmpty right) := by
  have hn : xs.length / 2 < xs.length := Nat.div_lt_self (length_pos_of_ne_nil hne) (by decide)
  refine ⟨xs.take (xs.length / 2), xs[xs.length / 2], xs.drop (xs.length / 2 + 1), by simp, ?_⟩
  cases xs with
  | nil => exact absurd rfl hne
  | cons x rest => exact splitList'_eq _ _ [] hn

end MLKit.Backend.JumpTables
