import MLKit.X64.SwitchEmit

/-!
# Searching signed words

The search tree is built over selectors in ascending order and searched in the
order of signed words.  The two orders agree when the selectors lie on one side
of the sign bit, and then the search finds the selector of the operand; with
selectors on both sides some selector is missed.
-/

namespace MLKit.X64.Switch

open MLKit.Backend MLKit.Backend.JumpTables List

variable {β : Type}

/-! ## Trees -/

variable {x : BitVec 64} {i j : Int} {isSigned : Bool} {selectors : List Int} {branch : β}

theorem search_eq_default {tree : Tree β}
    (hout : ∀ group ∈ tree.groups,
      x.toInt < signed group.startSel ∨ signed group.finishSel < x.toInt) :
    tree.search x = .default := by
  induction tree with
  | leaf => rfl
  | node left group right ihLeft ihRight =>
    have hgroup := hout group (by simp [Tree.groups])
    have hleft := ihLeft fun g hg => hout g (by simp [Tree.groups, hg])
    have hright := ihRight fun g hg => hout g (by simp [Tree.groups, hg])
    rw [Tree.search]
    split
    · exact hleft
    · rename_i hge
      rw [if_pos (hgroup.resolve_left hge), hright]

/-- The groups follow each other as signed words too. -/
structure SignedSorted (groups : List (JumpTables.Group β)) : Prop where
  bounds : ∀ group ∈ groups, signed group.startSel ≤ signed group.finishSel
  sorted : groups.Pairwise fun group group' => signed group.finishSel < signed group'.startSel

variable {group : JumpTables.Group β}

theorem search_eq_enter {tree : Tree β} (hsorted : SignedSorted tree.groups)
    (hmem : group ∈ tree.groups) (hge : signed group.startSel ≤ x.toInt)
    (hle : x.toInt ≤ signed group.finishSel) : tree.search x = enter x group := by
  induction tree with
  | leaf => simp [Tree.groups] at hmem
  | node left mid right ihLeft ihRight =>
    obtain ⟨hbounds, hpairs⟩ := hsorted
    simp only [Tree.groups] at hbounds hpairs hmem
    obtain ⟨hpairsLeft, hpairsRight, hcross⟩ := pairwise_append.1 hpairs
    obtain ⟨hmid, hpairsRight⟩ := pairwise_cons.1 hpairsRight
    rw [Tree.search]
    rcases mem_append.1 hmem with hmem | hmem
    · have hlt := hcross group hmem mid (mem_cons_self ..)
      rw [if_pos (lt_of_le_of_lt hle hlt)]
      exact ihLeft ⟨fun g hg => hbounds g (mem_append_left _ hg), hpairsLeft⟩ hmem
    · rcases mem_cons.1 hmem with rfl | hmem
      · rw [if_neg (not_lt.2 hge), if_neg (not_lt.2 hle)]
      · have hlt := hmid group hmem
        have hb := hbounds mid (by simp)
        rw [if_neg (by omega), if_pos (by omega)]
        exact ihRight ⟨fun g hg => hbounds g (mem_append_right _ (.tail _ hg)), hpairsRight⟩ hmem

/-! ## Signed words of selectors -/

theorem signed_of_lt (hge : -2 ^ 63 ≤ i) (hlt : i < 2 ^ 63) : signed i = i := by
  have h : signed i = i.bmod (2 ^ 64) := BitVec.toInt_ofInt ..
  rw [h, Int.bmod_def]
  omega

theorem signed_of_ge (hge : 2 ^ 63 ≤ i) (hlt : i < 2 ^ 64) : signed i = i - 2 ^ 64 := by
  have h : signed i = i.bmod (2 ^ 64) := BitVec.toInt_ofInt ..
  rw [h, Int.bmod_def]
  omega

theorem signed_inj (hlt : i - j < 2 ^ 64) (hlt' : j - i < 2 ^ 64) (heq : signed i = signed j) :
    i = j := by
  have hi : signed i = i.bmod (2 ^ 64) := BitVec.toInt_ofInt ..
  have hj : signed j = j.bmod (2 ^ 64) := BitVec.toInt_ofInt ..
  rw [hi, hj, Int.bmod_def, Int.bmod_def] at heq
  omega

theorem enter_ofInt (i : Int) (group : JumpTables.Group β) :
    enter (BitVec.ofInt 64 i) group =
      if 1 < group.sels.length ∧ ¬ Encodable (-8 * group.startSel) then .stuck
      else
        match group.sels.lookup (group.startSel + (signed i - signed group.startSel)) with
        | some branch => .branch branch
        | none => .default := rfl

/-- Numbers of 64 bits, signed or unsigned. -/
def Fits64 (isSigned : Bool) (i : Int) : Prop :=
  if isSigned then -2 ^ 63 ≤ i ∧ i < 2 ^ 63 else 0 ≤ i ∧ i < 2 ^ 64

theorem Fits64.signed_inj (hi : Fits64 isSigned i) (hj : Fits64 isSigned j)
    (heq : signed i = signed j) : i = j := by
  cases isSigned with
  | true =>
    simp only [Fits64, if_true] at hi hj
    exact Switch.signed_inj (by omega) (by omega) heq
  | false =>
    simp only [Fits64, Bool.false_eq_true, if_false] at hi hj
    exact Switch.signed_inj (by omega) (by omega) heq

/-- All selectors are on one side of the sign bit. -/
def OneSided (selectors : List Int) : Prop :=
  (∀ i ∈ selectors, i < 2 ^ 63) ∨ ∀ i ∈ selectors, 2 ^ 63 ≤ i

/-- On one side of the sign bit, signed words are the selectors shifted. -/
theorem OneSided.shift (hside : OneSided selectors) (hfits : ∀ i ∈ selectors, Fits64 isSigned i) :
    ∃ c : Int, (∀ i ∈ selectors, signed i = i + c) ∧
      ∀ j, Fits64 isSigned j → (∃ lo ∈ selectors, signed lo ≤ signed j) →
        (∃ hi ∈ selectors, signed j ≤ signed hi) → signed j = j + c := by
  cases isSigned with
  | true =>
    refine ⟨0, fun i hi => ?_, fun j hj _ _ => ?_⟩
    · rw [signed_of_lt (hfits i hi).1 (hfits i hi).2, Int.add_zero]
    · rw [signed_of_lt hj.1 hj.2, Int.add_zero]
  | false =>
    simp only [Fits64, Bool.false_eq_true, if_false] at hfits ⊢
    rcases hside with hlow | hhigh
    · have hsigned : ∀ i ∈ selectors, signed i = i := fun i hi =>
        signed_of_lt (by have := hfits i hi; omega) (hlow i hi)
      refine ⟨0, fun i hi => by rw [hsigned i hi, Int.add_zero], fun j hj hlo _ => ?_⟩
      obtain ⟨lo, hmem, hle⟩ := hlo
      rcases lt_or_ge j (2 ^ 63) with hlt | hge
      · rw [signed_of_lt (by omega) hlt, Int.add_zero]
      · rw [signed_of_ge hge hj.2, hsigned lo hmem] at hle
        have := hfits lo hmem
        omega
    · have hsigned : ∀ i ∈ selectors, signed i = i - 2 ^ 64 := fun i hi =>
        signed_of_ge (hhigh i hi) (hfits i hi).2
      refine ⟨-2 ^ 64, fun i hi => by rw [hsigned i hi]; omega, fun j hj _ hhi => ?_⟩
      obtain ⟨hi, hmem, hle⟩ := hhi
      rcases lt_or_ge j (2 ^ 63) with hlt | hge
      · rw [signed_of_lt (by omega) hlt, hsigned hi hmem] at hle
        have := hfits hi hmem
        omega
      · rw [signed_of_ge hge hj.2]
        omega

/-! ## Trees over selectors -/

/-- A tree over the groups of the given selectors. -/
structure TreeFor (sels : List (Int × β)) (tree : Tree β) : Prop where
  wf : ∀ group ∈ tree.groups, group.Wf
  ascending : Ascending (tree.groups.flatMap Group.sels)
  mem : ∀ sel, sel ∈ tree.groups.flatMap Group.sels ↔ sel ∈ sels
  tables : ∀ i, (∃ group ∈ tree.groups, 1 < group.sels.length ∧ group.startSel = i) ↔
    TableStart (sels.map Prod.fst) i

variable {sels : List (Int × β)} {sel : Int × β}

theorem lookup_of_mem {sels : List (Int × β)} (hnodup : (sels.map Prod.fst).Nodup)
    (hmem : (i, branch) ∈ sels) : sels.lookup i = some branch := by
  induction sels with
  | nil => simp at hmem
  | cons sel rest ih =>
    have hnodup' := nodup_cons.1 hnodup
    rcases mem_cons.1 hmem with rfl | hmem
    · simp
    · have hne : (i == sel.1) = false := by
        simp only [beq_eq_false_iff_ne]
        rintro rfl
        exact hnodup'.1 (mem_map.2 ⟨_, hmem, rfl⟩)
      rw [lookup_cons, hne]
      exact ih hnodup'.2 hmem

theorem keys_nodup_of_ascending (hasc : Ascending sels) :
    (sels.map Prod.fst).Nodup :=
  pairwise_map.2 (hasc.imp fun h => ne_of_lt h)

namespace TreeFor

variable {sels : List (Int × β)} {tree : Tree β} (htree : TreeFor sels tree)

include htree

theorem group_mem (hgroup : group ∈ tree.groups) (hsel : sel ∈ group.sels) :
    sel.1 ∈ sels.map Prod.fst :=
  mem_map_of_mem ((htree.mem sel).1 (mem_flatMap.2 ⟨group, hgroup, hsel⟩))

theorem startSel_mem (hgroup : group ∈ tree.groups) : group.startSel ∈ sels.map Prod.fst := by
  obtain ⟨selCode, hmem⟩ := (htree.wf group hgroup).startSel_mem
  exact htree.group_mem hgroup hmem

theorem finishSel_mem (hgroup : group ∈ tree.groups) : group.finishSel ∈ sels.map Prod.fst := by
  obtain ⟨selCode, hmem⟩ := (htree.wf group hgroup).finishSel_mem
  exact htree.group_mem hgroup hmem

theorem groups_sorted :
    tree.groups.Pairwise fun group group' => group.finishSel < group'.startSel := by
  have hpairs := (pairwise_flatMap.1 htree.ascending).2
  refine hpairs.imp_of_mem ?_
  intro group group' hgroup hgroup' h
  obtain ⟨selCode, hmem⟩ := (htree.wf group hgroup).finishSel_mem
  obtain ⟨selCode', hmem'⟩ := (htree.wf group' hgroup').startSel_mem
  exact h _ hmem _ hmem'

section OneSide

variable (hfits : ∀ i ∈ sels.map Prod.fst, Fits64 isSigned i)
  (hside : OneSided (sels.map Prod.fst))

include hfits hside

theorem signedSorted : SignedSorted tree.groups := by
  obtain ⟨c, hshift, _⟩ := hside.shift hfits
  constructor
  · intro group hgroup
    rw [hshift _ (htree.startSel_mem hgroup), hshift _ (htree.finishSel_mem hgroup)]
    have := (htree.wf group hgroup).startSel_le_finishSel
    omega
  · refine htree.groups_sorted.imp_of_mem ?_
    intro group group' hgroup hgroup' hlt
    rw [hshift _ (htree.finishSel_mem hgroup), hshift _ (htree.startSel_mem hgroup')]
    omega

/-- Inside a group, the operand's place in the table is its own selector. -/
theorem place_eq (hgroup : group ∈ tree.groups) (hi : Fits64 isSigned i)
    (hge : signed group.startSel ≤ signed i) (hle : signed i ≤ signed group.finishSel) :
    group.startSel + (signed i - signed group.startSel) = i := by
  obtain ⟨c, hshift, hshift'⟩ := hside.shift hfits
  rw [hshift _ (htree.startSel_mem hgroup),
    hshift' i hi ⟨_, htree.startSel_mem hgroup, hge⟩ ⟨_, htree.finishSel_mem hgroup, hle⟩]
  omega

theorem search_selector (hmem : (i, branch) ∈ sels) :
    ∃ group ∈ tree.groups, (i, branch) ∈ group.sels ∧
      tree.search (BitVec.ofInt 64 i) =
        if 1 < group.sels.length ∧ ¬ Encodable (-8 * group.startSel) then .stuck
        else .branch branch := by
  obtain ⟨group, hgroup, hsel⟩ := mem_flatMap.1 ((htree.mem _).2 hmem)
  have hwf := htree.wf group hgroup
  obtain ⟨c, hshift, _⟩ := hside.shift hfits
  have hi : i ∈ sels.map Prod.fst := htree.group_mem hgroup hsel
  have hge : signed group.startSel ≤ signed i := by
    rw [hshift _ (htree.startSel_mem hgroup), hshift i hi]
    have := hwf.startSel_le hsel
    omega
  have hle : signed i ≤ signed group.finishSel := by
    rw [hshift _ (htree.finishSel_mem hgroup), hshift i hi]
    have := hwf.le_finishSel hsel
    omega
  refine ⟨group, hgroup, hsel, ?_⟩
  rw [search_eq_enter (htree.signedSorted hfits hside) hgroup hge hle, enter_ofInt,
    htree.place_eq hfits hside hgroup (hfits i hi) hge hle,
    lookup_of_mem (keys_nodup_of_ascending hwf.ascending) hsel]

variable (hencodable : ∀ i, TableStart (sels.map Prod.fst) i → Encodable (-8 * i))

include hencodable

/-- With selectors on one side of the sign bit, and tables that can be jumped
through, the search finds the selector of the operand. -/
theorem search_right (hi : Fits64 isSigned i) :
    tree.search (BitVec.ofInt 64 i) =
      match sels.lookup i with
      | some branch => .branch branch
      | none => .default := by
  have hgroups : ∀ group ∈ tree.groups,
      ¬ (1 < group.sels.length ∧ ¬ Encodable (-8 * group.startSel)) := by
    rintro group hgroup ⟨hlong, henc⟩
    exact henc (hencodable _ ((htree.tables _).1 ⟨group, hgroup, hlong, rfl⟩))
  cases hlook : sels.lookup i with
  | some branch =>
    have hmem : (i, branch) ∈ sels := by
      obtain ⟨l1, l2, hsels, _⟩ := lookup_eq_some_iff.1 hlook
      simp [hsels]
    obtain ⟨group, hgroup, _, hsearch⟩ := htree.search_selector hfits hside hmem
    rw [hsearch, if_neg (hgroups group hgroup)]
  | none =>
    by_cases hin : ∃ group ∈ tree.groups,
        signed group.startSel ≤ signed i ∧ signed i ≤ signed group.finishSel
    · obtain ⟨group, hgroup, hge, hle⟩ := hin
      rw [search_eq_enter (htree.signedSorted hfits hside) hgroup hge hle, enter_ofInt,
        if_neg (hgroups group hgroup), htree.place_eq hfits hside hgroup hi hge hle]
      have hnone : group.sels.lookup i = none := by
        refine lookup_eq_none_iff.2 fun sel hsel => ?_
        have hmem := (htree.mem sel).1 (mem_flatMap.2 ⟨group, hgroup, hsel⟩)
        exact lookup_eq_none_iff.1 hlook sel hmem
      rw [hnone]
    · refine search_eq_default fun group hgroup => ?_
      by_contra hcon
      rw [not_or, not_lt, not_lt] at hcon
      exact hin ⟨group, hgroup, hcon⟩

omit hencodable

end OneSide

end TreeFor

end MLKit.X64.Switch
