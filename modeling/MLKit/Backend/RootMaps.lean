import MLKit.Backend.BitVectors
import MLKit.Backend.Flow
import MLKit.Lib.Liveness

/-!
# What the bit vectors say

The bits of a vector are the slots that are live in the control flow that `CBV`
follows.  A vector is complete when it has the slot of every variable that is
live in the real control flow.
-/

namespace MLKit.Backend.CalcOffset

open MLKit.Lib List Nat

/-! ## Bits -/

def HasBit (ws : List Word32) (k : Nat) : Prop :=
  ∃ w, ws[k / 32]? = some w ∧ w.getLsbD (k % 32) = true

theorem hasBit_singleton (w : Word32) (k : Nat) : HasBit [w] k ↔ k < 32 ∧ w.getLsbD k = true := by
  rcases lt_or_ge k 32 with hlt | hge
  · simp [HasBit, div_eq_of_lt hlt, mod_eq_of_lt hlt, hlt]
  · obtain ⟨j, hj⟩ : ∃ j, k / 32 = j + 1 := ⟨k / 32 - 1, by omega⟩
    simp [HasBit, hj, not_lt.2 hge]

theorem hasBit_cons_of_lt (hlt : k < 32) :
    HasBit (w :: ws) k ↔ w.getLsbD k = true := by
  simp [HasBit, div_eq_of_lt hlt, mod_eq_of_lt hlt]

theorem hasBit_cons_add : HasBit (w :: ws) (k + 32) ↔ HasBit ws k := by
  have hdiv : (k + 32) / 32 = k / 32 + 1 := by omega
  simp [HasBit, hdiv]

theorem hasBit_append_zeros (ws : List Word32) (n k : Nat) :
    HasBit (ws ++ List.replicate n 0) k ↔ HasBit ws k := by
  simp only [HasBit]
  rcases lt_or_ge (k / 32) ws.length with hlt | hge
  · rw [getElem?_append_left hlt]
  · rw [getElem?_append_right hge, getElem?_eq_none hge]
    simp only [getElem?_replicate]
    split <;> simp

theorem setBit_getLsbD (bitNo : Int) (w : Word32) (hk : k < 32) :
    (setBit bitNo w).getLsbD k = true ↔ w.getLsbD k = true ∨ bitNo = k := by
  rw [setBit]
  split
  · rename_i hbit
    simp only [BitVec.getLsbD_or, Bool.or_eq_true, BitVec.getLsbD_shiftLeft, BitVec.getLsbD_one]
    simp only [Bool.and_eq_true, decide_eq_true_eq, Bool.not_eq_true', decide_eq_false_iff_not]
    have : (k < 32 ∧ ¬ k < bitNo.toNat) ∧ (0 < 32 ∧ k - bitNo.toNat = 0) ↔ bitNo = k := by omega
    tauto
  · have : bitNo ≠ k := by omega
    tauto

/-- The words have the bits of the offsets, counted from `adjust`. -/
theorem genWords_hasBit (hsorted : offsets.Pairwise (· ≤ ·))
    (k : Nat) :
    HasBit (genWords offsets adjust word) k ↔
      k < 32 ∧ word.getLsbD k = true ∨ adjust + k ∈ offsets := by
  fun_induction genWords offsets adjust word generalizing k with
  | case1 adjust word => simp [hasBit_singleton]
  | case2 offset offsets adjust word hlt ih =>
    rw [ih (pairwise_cons.1 hsorted).2 k, mem_cons]
    have hbit : k < 32 → ((setBit (offset - adjust) word).getLsbD k = true ↔
        word.getLsbD k = true ∨ adjust + k = offset) := by
      intro hk
      rw [setBit_getLsbD _ _ hk]
      exact or_congr_right (by omega)
    have hfar : adjust + k = offset → k < 32 := by omega
    tauto
  | case3 offset offsets adjust word hge ih =>
    have hfar : ∀ o ∈ offset :: offsets, adjust + 32 ≤ o := by
      refine forall_mem_cons.2 ⟨by omega, fun o ho => ?_⟩
      have := (pairwise_cons.1 hsorted).1 o ho
      omega
    rcases lt_or_ge k 32 with hlt | hge
    · rw [hasBit_cons_of_lt hlt]
      have hnot : adjust + k ∉ offset :: offsets := fun hmem => by
        have := hfar _ hmem
        omega
      tauto
    · obtain ⟨j, rfl⟩ : ∃ j, k = j + 32 := ⟨k - 32, by omega⟩
      rw [hasBit_cons_add, ih hsorted j]
      have hadj : adjust + 32 + (j : Int) = adjust + ((j + 32 : Nat) : Int) := by omega
      rw [hadj]
      simp

/-- The bit of a slot in a bit vector, behind its three words of header. -/
def RootBit (bv : List Word32) (k : Nat) : Prop := HasBit (bv.drop 3) k

theorem genBitvector_rootBit (lSet : Finset Int) (sz : FrameSizes) (funNr k : Nat) :
    RootBit (genBitvector lSet sz funNr) k ↔ (k : Int) ∈ lSet := by
  simp only [RootBit, genBitvector, drop_succ_cons, drop_zero, postfixWords]
  rw [hasBit_append_zeros, genWords_hasBit (offsetsSorted_pairwise lSet)]
  simp

/-- Offsets below `adjust + 32 * n` have their bits in `n` words. -/
theorem genWords_length_le {offsets : List Int} {n : Nat} (hn : 0 < n)
    (hbelow : ∀ o ∈ offsets, o < adjust + 32 * n) :
    (genWords offsets adjust word).length ≤ n := by
  fun_induction genWords offsets adjust word generalizing n with
  | case1 => exact hn
  | case2 offset offsets adjust word hlt ih => exact ih hn (forall_mem_cons.1 hbelow).2
  | case3 offset offsets adjust word hge ih =>
    have hfirst := hbelow offset (.head _)
    obtain ⟨m, rfl⟩ : ∃ m, n = m + 1 := ⟨n - 1, by omega⟩
    refine Nat.succ_le_succ (ih (by omega) fun o ho => ?_)
    have := hbelow o ho
    omega

/-- The vector of a frame has three words of header and as many words as the frame has groups of 32
words, the last of which may be incomplete.  The bits of these are the offsets of the set. -/
theorem genBitvector_encodes (lSet : Finset Int) (sz : FrameSizes) (funNr : Nat)
    (hsize : 0 ≤ sz.sizeFf + sz.sizeCcf + sz.sizeRcf)
    (hbelow : ∀ o ∈ lSet, o < sz.sizeFf + sz.sizeCcf + sz.sizeRcf + 1) :
    (((genBitvector lSet sz funNr).length : Int) =
        3 + (sz.sizeFf + sz.sizeCcf + sz.sizeRcf + 1 + 31) / 32) ∧
      ∀ i : Nat, RootBit (genBitvector lSet sz funNr) i ↔ (i : Int) ∈ lSet := by
  refine ⟨?_, genBitvector_rootBit lSet sz funNr⟩
  generalize hfd : sz.sizeFf + sz.sizeCcf + sz.sizeRcf + 1 = sizeFd at hbelow ⊢
  have hwords : (genWords (offsetsSorted lSet) 0 0).length ≤ ((sizeFd + 31) / 32).toNat := by
    refine genWords_length_le (by omega) fun o ho => ?_
    have := hbelow o (mem_offsetsSorted.1 ho)
    omega
  simp only [genBitvector, postfixWords, length_cons, length_append, length_replicate, hfd]
  split <;> omega

theorem genBitvector_encodes_two :
    ((genBitvector {1, 40} ⟨0, 0, 40⟩ 7).length : Int) = 3 + (40 + 0 + 0 + 1 + 31) / 32 ∧
      ∀ i : Nat, RootBit (genBitvector {1, 40} ⟨0, 0, 40⟩ 7) i ↔ (i : Int) ∈ ({1, 40} : Finset Int) :=
  genBitvector_encodes {1, 40} ⟨0, 0, 40⟩ 7 (by decide) (by decide)

/-! ## The control flow that the pass follows -/

/-- Branches of a switch are given the set at the end of the switch's own list,
raises and tail calls are passed over, and exceptions are not followed. -/
def cbvView : View where
  skipsAfterSwitch := true
  passesTailCall := true
  passesRaise := true
  catches := false

section Slots

variable (sz : FrameSizes) (k : Int)

def SlotUses : LvMap × Action Int Atom → Prop
  | (lvEnv, .stmt ls) => k ∈ lookupLvs lvEnv (slotDefUse ls).2
  | (lvEnv, .test arg) => k ∈ lookupLvs lvEnv (getVarAtom arg)
  | (_, .uninstall offset) => k = handleLvOffset sz offset
  | _ => False

def SlotDefs : LvMap × Action Int Atom → Prop
  | (lvEnv, .stmt ls) => k ∈ lookupLvs lvEnv (slotDefUse ls).1
  | (_, .install _ offset) => k = handleLvOffset sz offset
  | (lvEnv, .handled handlReturnLv) => k ∈ lookupLvs lvEnv (getVarAtom handlReturnLv)
  | _ => False

/-- Frames of control flow, with the slots of the variables in scope. -/
abbrev CoFrame := Frame LvMap (StoreType Int) Int Atom

abbrev CbvFlow : List CoFrame → LvMap × Action Int Atom → List CoFrame → Prop :=
  Flow cbvView (addStys sz.sizeCc)

/-- The slot is used, on a path of the pass, before it is defined. -/
abbrev SlotLive : List CoFrame → Prop := Live (CbvFlow sz) (SlotUses sz k) (SlotDefs sz k)

variable {sz k}

attribute [local simp] SlotUses SlotDefs

theorem slotLive_nil : ¬ SlotLive sz k [] := not_live_of_stuck fun _ _ h => nomatch h

theorem cbvView_completes (ls : BasicStmt Int Atom) : cbvView.completes ls = true := by
  simp [View.completes, cbvView]

theorem slotLive_basic (ls : BasicStmt Int Atom) :
    SlotLive sz k (.code lvEnv (.basic ls :: lss) :: K) ↔
      k ∈ lookupLvs lvEnv (slotDefUse ls).2 ∨
        k ∉ lookupLvs lvEnv (slotDefUse ls).1 ∧ SlotLive sz k (.code lvEnv lss :: K) := by
  refine live_iff_of_unique (Flow.stmt (cbvView_completes ls)) ?_
  intro e c h
  cases h with
  | stmt _ => exact ⟨rfl, rfl⟩
  | leave _ hpasses => cases hpasses
  | raised _ hcatches => cases hcatches

theorem slotLive_done : SlotLive sz k (.code lvEnv [] :: K) ↔ SlotLive sz k K := by
  refine (live_iff_of_unique .done ?_).trans (by simp)
  rintro e c ⟨⟩
  exact ⟨rfl, rfl⟩

theorem slotLive_leaveRegions :
    SlotLive sz k (.leaveRegions lvEnv rhos :: K) ↔ SlotLive sz k K := by
  refine (live_iff_of_unique .leaveRegions ?_).trans (by simp)
  rintro e c ⟨⟩
  exact ⟨rfl, rfl⟩

theorem slotLive_letregion :
    SlotLive sz k (.code lvEnv (.letregion rhos body :: lss) :: K) ↔
      SlotLive sz k (.code lvEnv body :: .leaveRegions lvEnv rhos :: .code lvEnv lss :: K) := by
  refine (live_iff_of_unique .letregion ?_).trans (by simp)
  rintro e c ⟨⟩
  exact ⟨rfl, rfl⟩

theorem slotLive_scope :
    SlotLive sz k (.code lvEnv (.scope pat scope :: lss) :: K) ↔
      SlotLive sz k (.code (addStys sz.sizeCc lvEnv pat) scope :: .code lvEnv lss :: K) := by
  refine (live_iff_of_unique .scope ?_).trans (by simp)
  rintro e c ⟨⟩
  exact ⟨rfl, rfl⟩

theorem slotLive_afterSwitch : SlotLive sz k (.afterSwitch lvEnv lss :: K) ↔ SlotLive sz k K := by
  refine (live_iff_of_unique (.skip rfl) ?_).trans (by simp)
  intro e c h
  cases h with
  | afterSwitch hskips => cases hskips
  | skip _ => exact ⟨rfl, rfl⟩

variable {default : List CoStmt}

theorem slotLive_switch :
    SlotLive sz k (.code lvEnv (.switch kind arg sels default :: lss) :: K) ↔
      k ∈ lookupLvs lvEnv (getVarAtom arg) ∨
        (∃ sel ∈ sels, SlotLive sz k (.code lvEnv sel.2 :: .afterSwitch lvEnv lss :: K)) ∨
        SlotLive sz k (.code lvEnv default :: .afterSwitch lvEnv lss :: K) := by
  rw [SlotLive, live_iff]
  constructor
  · rintro ⟨e, c, hflow, h⟩
    cases hflow with
    | sel hsel =>
      rcases h with huse | ⟨_, hlive⟩
      · exact .inl huse
      · exact .inr (.inl ⟨_, hsel, hlive⟩)
    | default =>
      rcases h with huse | ⟨_, hlive⟩
      · exact .inl huse
      · exact .inr (.inr hlive)
  · rintro (huse | ⟨sel, hsel, hlive⟩ | hlive)
    · exact ⟨_, _, .default, .inl huse⟩
    · exact ⟨_, _, .sel hsel, .inr ⟨fun h => h, hlive⟩⟩
    · exact ⟨_, _, .default, .inr ⟨fun h => h, hlive⟩⟩

theorem slotLive_handler :
    SlotLive sz k (.handler lvEnv handlReturn handlReturnLv offset :: K) ↔
      k = handleLvOffset sz offset ∨ SlotLive sz k K := by
  refine (live_iff_of_unique .uninstall ?_).trans (by simp)
  rintro e c ⟨⟩
  exact ⟨rfl, rfl⟩

theorem slotLive_install :
    SlotLive sz k (.install lvEnv default handlLv handlReturn handlReturnLv offset :: K) ↔
      k ≠ handleLvOffset sz offset ∧
        SlotLive sz k
          (.code lvEnv default :: .handler lvEnv handlReturn handlReturnLv offset :: K) := by
  refine (live_iff_of_unique .install ?_).trans (by simp)
  rintro e c ⟨⟩
  exact ⟨rfl, rfl⟩

theorem slotLive_handle :
    SlotLive sz k (.code lvEnv
        (.handle default handl handlLv handlReturn handlReturnLv bv offset :: lss) :: K) ↔
      SlotLive sz k (.code lvEnv handl ::
        .install lvEnv default handlLv handlReturn handlReturnLv offset :: .code lvEnv lss :: K) :=
    by
  refine (live_iff_of_unique .handle ?_).trans (by simp)
  rintro e c ⟨⟩
  exact ⟨rfl, rfl⟩

theorem slotLive_handled :
    SlotLive sz k (.handled lvEnv handlReturnLv :: K) ↔
      k ∉ lookupLvs lvEnv (getVarAtom handlReturnLv) ∧ SlotLive sz k K := by
  refine (live_iff_of_unique .handled ?_).trans (by simp)
  rintro e c ⟨⟩
  exact ⟨rfl, rfl⟩

end Slots

/-! ## The sets of the pass -/

section

variable {k : Int}

theorem mem_lvsetDifference :
    k ∈ lvsetDifference lSet lvs lvEnv ↔ k ∈ lSet ∧ k ∉ lookupLvs lvEnv lvs := by
  rw [lvsetDifference]
  induction lookupLvs lvEnv lvs with
  | nil => simp
  | cons offset offsets ih =>
    simp only [foldr_cons, Finset.mem_erase, ih, mem_cons]
    tauto

theorem mem_lvsetAdd : k ∈ lvsetAdd lSet lvs lvEnv ↔ k ∈ lookupLvs lvEnv lvs ∨ k ∈ lSet := by
  rw [lvsetAdd]
  induction lookupLvs lvEnv lvs with
  | nil => simp
  | cons offset offsets ih =>
    simp only [foldr_cons, Finset.mem_insert, ih, mem_cons]
    tauto

theorem mem_killDef :
    k ∈ killDef ls lvEnv lSet ↔ k ∉ lookupLvs lvEnv (slotDefUse ls).1 ∧ k ∈ lSet :=
  mem_lvsetDifference.trans and_comm

theorem mem_cbvBasic :
    k ∈ (cbvBasic sz ls lvEnv lSet funNr).1 ↔
      k ∈ lookupLvs lvEnv (slotDefUse ls).2 ∨ k ∉ lookupLvs lvEnv (slotDefUse ls).1 ∧ k ∈ lSet := by
  have hset : (cbvBasic sz ls lvEnv lSet funNr).1 =
      lvsetAdd (killDef ls lvEnv lSet) (slotDefUse ls).2 lvEnv := by
    simp only [cbvBasic]
    split <;> rfl
  rw [hset, mem_lvsetAdd, mem_killDef]

end

/-- The set holds the slots that are live at the frames. -/
def Represents (sz : FrameSizes) (lSet : Finset Int) (K : List CoFrame) : Prop :=
  ∀ k, k ∈ lSet ↔ SlotLive sz k K

theorem represents_nil (sz : FrameSizes) : Represents sz ∅ [] :=
  fun _ => ⟨fun h => absurd h (Finset.notMem_empty _), fun h => absurd h slotLive_nil⟩

mutual

theorem cbvLs_represents (hafter : Represents sz lSet' (.code lvEnv lss :: K))
    (hend : Represents sz lSet K) (funNr : Nat) :
    Represents sz (cbvLs sz ls lvEnv lSet' lSet funNr).1 (.code lvEnv (ls :: lss) :: K) := by
  intro k
  match ls with
  | .basic ls =>
    rw [slotLive_basic, ← hafter k]
    exact mem_cbvBasic
  | .letregion rhos body =>
    rw [slotLive_letregion]
    refine cbvLss_represents (fun k => ?_) funNr k
    rw [slotLive_leaveRegions, hafter k]
  | .scope pat scope =>
    rw [slotLive_scope]
    exact cbvLss_represents hafter funNr k
  | .handle default handl handlLv handlReturn handlReturnLv bv offset =>
    rw [slotLive_handle]
    refine cbvLss_represents (fun k => ?_) _ k
    rw [slotLive_install, Finset.mem_erase]
    refine and_congr_right fun _ => ?_
    refine cbvLss_represents (fun k => ?_) _ k
    rw [slotLive_handler, Finset.mem_insert, hafter k]
  | .switch kind arg sels default =>
    have hskip : Represents sz lSet (.afterSwitch lvEnv lss :: K) := fun k => by
      rw [slotLive_afterSwitch, hend k]
    rw [slotLive_switch]
    refine mem_lvsetAdd.trans (or_congr_right ?_)
    rw [Finset.mem_union, or_comm]
    exact or_congr (cbvSels_represents hskip funNr k) (cbvLss_represents hskip _ k)

theorem cbvLss_represents (hend : Represents sz lSet K) (funNr : Nat) :
    Represents sz (cbvLss sz lss lvEnv lSet funNr).1 (.code lvEnv lss :: K) := by
  match lss with
  | [] =>
    intro k
    rw [slotLive_done]
    exact hend k
  | ls :: lss =>
    exact cbvLs_represents (cbvLss_represents hend funNr) hend _

theorem cbvSels_represents (hend : Represents sz lSet K) (funNr : Nat) (k : Int) :
    k ∈ (cbvSels sz sels lvEnv lSet funNr).1 ↔
      ∃ sel ∈ sels, SlotLive sz k (.code lvEnv sel.2 :: K) := by
  match sels with
  | [] => simp [cbvSels]
  | (sel, lss) :: sels =>
    rw [exists_mem_cons_iff, or_comm]
    refine Finset.mem_union.trans (or_congr ?_ ?_)
    · exact cbvSels_represents hend funNr k
    · exact cbvLss_represents hend _ k

end

end MLKit.Backend.CalcOffset
