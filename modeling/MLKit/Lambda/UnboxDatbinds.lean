import MLKit.Backend.LineStmt
import MLKit.Lib.Except
import Mathlib.Data.List.Perm.Subperm
import Mathlib.Logic.Function.Basic

/-!
# Unboxing of datatypes

`CompileDec` marks the type names of a group of datatype declarations as
unboxed when the values of all of them can do without a box around the
constructor: any number of nullary constructors, and at most one unary
constructor, whose argument is a pointer.
-/

namespace MLKit.Lambda

open MLKit.Lib MLKit.Backend Function List

/-! ## Type names -/

/-- Type names are equal when their names are; the `unboxed` field, a reference,
is kept in `UnboxedRefs`. -/
structure TyName where
  name : Nat
  deriving DecidableEq

namespace TyName

def tyNameINT32 : TyName := ⟨2⟩
def tyNameINT64 : TyName := ⟨4⟩
def tyNameWORD32 : TyName := ⟨8⟩
def tyNameWORD64 : TyName := ⟨10⟩

/-- The contents of the `unboxed` references. -/
abbrev UnboxedRefs := TyName → Bool

section Unboxed

variable (tagValues : Bool) (refs : UnboxedRefs)

def unboxedNum32 (tn : TyName) : Bool := !tagValues && (tn == tyNameINT32 || tn == tyNameWORD32)

def unboxedNum64 (tn : TyName) : Bool := !tagValues && (tn == tyNameINT64 || tn == tyNameWORD64)

def unboxed (tn : TyName) : Bool :=
  unboxedNum32 tagValues tn || unboxedNum64 tagValues tn || refs tn

def setUnboxed (tn : TyName) : Except String UnboxedRefs :=
  if unboxed tagValues refs tn then
    .error ("TyName.setUnboxed.tyname " ++ toString tn.name ++ " already marked as unboxed")
  else .ok (update refs tn true)

end Unboxed

theorem unboxed_congr (h : refs' tn = refs tn) :
    unboxed tagValues refs' tn = unboxed tagValues refs tn := by
  rw [unboxed, unboxed, h]

end TyName

/-! ## Datatype bindings -/

inductive Ty where
  | tyvarType (tyvar : Nat)
  | arrowType (dom cod : List Ty)
  | consType (args : List Ty) (tn : TyName)
  | recordType (elems : List Ty)

/-- A datatype: its name, and its constructors with their argument types. -/
structure Datbind where
  tn : TyName
  cons : List (Con × Option Ty)

abbrev DatbindList := List Datbind

section UnboxDatbinds

variable (tagValues : Bool) (refs : TyName.UnboxedRefs)

/-- The type is potentially unboxed, if the type names `tns` are. -/
def unboxedTy (tns : List TyName) : Ty → Bool
  | .consType _ tn => TyName.unboxed tagValues refs tn || tns.any (· == tn)
  | .tyvarType _ => true
  | .recordType [] => true
  | .recordType _ => false
  | .arrowType _ _ => false

def unboxTyname (bucket : List TyName) (tn : TyName) : List TyName :=
  if bucket.any (· == tn) then bucket else tn :: bucket

def unboxTnEnumeration (bucket : List TyName) (datbind : Datbind) : List TyName :=
  if datbind.cons.all fun (_, ty) => ty.isNone then unboxTyname bucket datbind.tn else bucket

def maxUnaryUnboxed : Nat := 1

/-- `n` unary constructors have been passed already. -/
def oneDatbind (tns : List TyName) (n : Nat) (tn : TyName) (bucket : List TyName) :
    List (Con × Option Ty) → List TyName
  | [] => unboxTyname bucket tn
  | (_, none) :: cns => oneDatbind tns n tn bucket cns
  | (_, some ty) :: cns =>
    if !unboxedTy tagValues refs tns ty && n < maxUnaryUnboxed then
      oneDatbind tns (n + 1) tn bucket cns
    else bucket

def unboxTnCombi (datbinds : DatbindList) (bucket : List TyName) (datbind : Datbind) :
    List TyName :=
  oneDatbind tagValues refs (datbinds.map Datbind.tn) 0 datbind.tn bucket datbind.cons

/-- Either all datatypes of a group are unboxed or none is. -/
def unboxDatbinds (datbinds : DatbindList) : Except String TyName.UnboxedRefs :=
  let bucket := datbinds.foldl unboxTnEnumeration []
  let bucket := datbinds.foldl (unboxTnCombi tagValues refs datbinds) bucket
  if bucket.length = datbinds.length then bucket.foldlM (TyName.setUnboxed tagValues) refs
  else .ok refs

/-- The groups of a program, in the order they were collected. -/
def unboxAll (datbindss : List DatbindList) : Except String TyName.UnboxedRefs :=
  datbindss.foldlM (unboxDatbinds tagValues) refs

end UnboxDatbinds

/-! ## Which groups are unboxed -/

/-- The argument types of the unary constructors. -/
def carried (cns : List (Con × Option Ty)) : List Ty := cns.filterMap Prod.snd

section Bucket

variable (tagValues : Bool) (refs : TyName.UnboxedRefs)

/-- At most one unary constructor, and its argument is a pointer even if the
type names `tns` are unboxed. -/
def Fits (tns : List TyName) (cns : List (Con × Option Ty)) : Prop :=
  (carried cns).length ≤ maxUnaryUnboxed ∧
    ∀ ty ∈ carried cns, unboxedTy tagValues refs tns ty = false

theorem mem_unboxTyname : tn' ∈ unboxTyname bucket tn ↔ tn' = tn ∨ tn' ∈ bucket := by
  unfold unboxTyname
  split
  · rename_i hin
    have hmem : tn ∈ bucket := by simpa using hin
    constructor
    · exact .inr
    · rintro (rfl | h)
      · exact hmem
      · exact h
  · exact mem_cons

theorem unboxTyname_nodup (h : bucket.Nodup) : (unboxTyname bucket tn).Nodup := by
  unfold unboxTyname
  split
  · exact h
  · rename_i hin
    exact nodup_cons.mpr ⟨by simpa using hin, h⟩

variable {tagValues refs}

theorem mem_oneDatbind (h : tn' ∈ oneDatbind tagValues refs tns n tn bucket cns) :
    tn' ∈ bucket ∨ tn' = tn ∧ (carried cns).length ≤ maxUnaryUnboxed - n ∧
      ∀ ty ∈ carried cns, unboxedTy tagValues refs tns ty = false := by
  induction cns generalizing n with
  | nil =>
    rcases mem_unboxTyname.mp h with rfl | h
    · exact .inr ⟨rfl, Nat.zero_le _, by simp [carried]⟩
    · exact .inl h
  | cons con cns ih =>
    rcases con with ⟨con, _ | ty⟩
    · exact ih h
    · rw [oneDatbind] at h
      split at h
      · rename_i hok
        simp only [Bool.and_eq_true, Bool.not_eq_true', decide_eq_true_eq] at hok
        rcases ih h with h | ⟨rfl, hlength, hboxed⟩
        · exact .inl h
        · refine .inr ⟨rfl, ?_, ?_⟩
          · simp only [carried, filterMap_cons_some (f := Prod.snd) (a := (con, some ty)) rfl,
              length_cons] at hlength ⊢
            omega
          · intro ty' hty'
            rcases mem_cons.mp hty' with rfl | hty'
            · exact hok.1
            · exact hboxed ty' hty'
      · exact .inl h

theorem oneDatbind_nodup (hbucket : bucket.Nodup) (cns : List (Con × Option Ty)) :
    (oneDatbind tagValues refs tns n tn bucket cns).Nodup := by
  induction cns generalizing n with
  | nil => exact unboxTyname_nodup hbucket
  | cons con cns ih =>
    rcases con with ⟨con, _ | ty⟩
    · exact ih
    · rw [oneDatbind]
      split
      · exact ih
      · exact hbucket

/-- What the bucket holds: each type name once, and only of datatypes that can
be unboxed. -/
structure BucketOk (tagValues : Bool) (refs : TyName.UnboxedRefs) (datbinds : DatbindList)
    (bucket : List TyName) : Prop where
  nodup : bucket.Nodup
  fits : ∀ tn ∈ bucket, ∃ datbind ∈ datbinds, datbind.tn = tn ∧
    Fits tagValues refs (datbinds.map Datbind.tn) datbind.cons

theorem BucketOk.enumeration (h : BucketOk tagValues refs datbinds bucket)
    (hmem : datbind ∈ datbinds) :
    BucketOk tagValues refs datbinds (unboxTnEnumeration bucket datbind) := by
  unfold unboxTnEnumeration
  split
  · rename_i hnullary
    refine ⟨unboxTyname_nodup h.nodup, fun tn htn => ?_⟩
    rcases mem_unboxTyname.mp htn with rfl | htn
    · have hnone : carried datbind.cons = [] := by
        refine filterMap_eq_nil_iff.mpr fun con hcon => ?_
        simpa using all_eq_true.mp hnullary con hcon
      exact ⟨datbind, hmem, rfl, by simp [hnone], by simp [hnone]⟩
    · exact h.fits tn htn
  · exact h

theorem BucketOk.combi (h : BucketOk tagValues refs datbinds bucket) (hmem : datbind ∈ datbinds) :
    BucketOk tagValues refs datbinds (unboxTnCombi tagValues refs datbinds bucket datbind) := by
  refine ⟨oneDatbind_nodup h.nodup _, fun tn htn => ?_⟩
  rcases mem_oneDatbind htn with htn | ⟨rfl, hlength, hboxed⟩
  · exact h.fits tn htn
  · exact ⟨datbind, hmem, rfl, hlength, hboxed⟩

theorem bucketOk_foldl
    (hstep : ∀ bucket, ∀ datbind ∈ datbinds, BucketOk tagValues refs datbinds bucket →
      BucketOk tagValues refs datbinds (f bucket datbind))
    (h : BucketOk tagValues refs datbinds bucket) :
    BucketOk tagValues refs datbinds (datbinds.foldl f bucket) :=
  List.foldlRecOn datbinds f h fun bucket hbucket datbind hmem => hstep bucket datbind hmem hbucket

/-- A bucket as long as the group holds all of its type names. -/
theorem BucketOk.all_fit (h : BucketOk tagValues refs datbinds bucket)
    (hdistinct : (datbinds.map Datbind.tn).Nodup) (hlength : bucket.length = datbinds.length) :
    bucket.Perm (datbinds.map Datbind.tn) ∧ ∀ datbind ∈ datbinds,
      Fits tagValues refs (datbinds.map Datbind.tn) datbind.cons := by
  have hsub : bucket ⊆ datbinds.map Datbind.tn := by
    intro tn htn
    obtain ⟨datbind, hmem, rfl, -⟩ := h.fits tn htn
    exact mem_map_of_mem hmem
  have hperm : bucket.Perm (datbinds.map Datbind.tn) :=
    (h.nodup.subperm hsub).perm_of_length_le (by simp [hlength])
  refine ⟨hperm, fun datbind hmem => ?_⟩
  obtain ⟨datbind', hmem', htn, hfits⟩ :=
    h.fits datbind.tn (hperm.mem_iff.mpr (mem_map_of_mem hmem))
  rwa [inj_on_of_nodup_map hdistinct hmem' hmem htn] at hfits

end Bucket

/-! ## The references after a group, and after all groups -/

section Refs

variable {tagValues : Bool} {refs : TyName.UnboxedRefs}

theorem setUnboxed_foldlM {tns : List TyName} (hdistinct : tns.Nodup)
    (hfresh : ∀ tn ∈ tns, TyName.unboxed tagValues refs tn = false) :
    ∃ refs', tns.foldlM (TyName.setUnboxed tagValues) refs = .ok refs' ∧
      ∀ tn, tn ∉ tns → refs' tn = refs tn := by
  induction tns generalizing refs with
  | nil => exact ⟨refs, rfl, fun _ _ => rfl⟩
  | cons tn tns ih =>
    obtain ⟨hnew, hdistinct⟩ := nodup_cons.mp hdistinct
    have hset : TyName.setUnboxed tagValues refs tn = .ok (update refs tn true) := by
      rw [TyName.setUnboxed, if_neg (by rw [hfresh tn (.head _)]; decide)]
    have hkeeps : ∀ tn' ∈ tns, update refs tn true tn' = refs tn' := by
      intro tn' htn'
      exact update_of_ne (fun heq : tn' = tn => hnew (heq ▸ htn')) _ _
    obtain ⟨refs', hrest, hother⟩ := ih hdistinct fun tn' htn' =>
      (TyName.unboxed_congr (hkeeps tn' htn')).trans (hfresh tn' (.tail _ htn'))
    refine ⟨refs', ?_, fun tn' htn' => ?_⟩
    · exact (ok_bind hset).trans hrest
    · obtain ⟨hne, htn'⟩ := not_or.mp (fun h => htn' (mem_cons.mpr h))
      rw [hother tn' htn', update_of_ne hne]

/-- A group is unboxed only if each of its datatypes can be; nothing else changes. -/
theorem unboxDatbinds_ok (hdistinct : (datbinds.map Datbind.tn).Nodup)
    (hfresh : ∀ datbind ∈ datbinds, TyName.unboxed tagValues refs datbind.tn = false) :
    ∃ refs', unboxDatbinds tagValues refs datbinds = .ok refs' ∧
      (∀ tn, tn ∉ datbinds.map Datbind.tn → refs' tn = refs tn) ∧
      ∀ datbind ∈ datbinds, TyName.unboxed tagValues refs' datbind.tn = true →
        Fits tagValues refs (datbinds.map Datbind.tn) datbind.cons := by
  have hempty : BucketOk tagValues refs datbinds [] := ⟨nodup_nil, by simp⟩
  have henum := bucketOk_foldl (fun _ _ hmem h => h.enumeration hmem) hempty
  have hbucket := bucketOk_foldl (fun _ _ hmem h => h.combi hmem) henum
  dsimp only [unboxDatbinds]
  generalize List.foldl (unboxTnCombi tagValues refs datbinds)
    (List.foldl unboxTnEnumeration [] datbinds) datbinds = bucket at hbucket ⊢
  by_cases hlength : bucket.length = datbinds.length
  · obtain ⟨hperm, hfits⟩ := hbucket.all_fit hdistinct hlength
    obtain ⟨refs', hset, hother⟩ := setUnboxed_foldlM hbucket.nodup fun tn htn => by
      obtain ⟨datbind, hmem, rfl, -⟩ := hbucket.fits tn htn
      exact hfresh datbind hmem
    refine ⟨refs', ?_, fun tn htn => hother tn fun h => htn (hperm.mem_iff.mp h),
      fun datbind hmem _ => hfits datbind hmem⟩
    rw [if_pos hlength, hset]
  · refine ⟨refs, if_neg hlength, fun _ _ => rfl, fun datbind hmem h => ?_⟩
    rw [hfresh datbind hmem] at h
    cases h

/-- No type name at the head of an argument type is declared by a later group. -/
def InOrder (datbindss : List DatbindList) : Prop :=
  datbindss.Pairwise fun earlier later => ∀ datbind ∈ earlier, ∀ ty ∈ carried datbind.cons,
    ∀ args tn, ty = .consType args tn → tn ∉ later.map Datbind.tn

theorem unboxedTy_congr (hty : ∀ args tn, ty = .consType args tn → refs' tn = refs tn)
    (h : unboxedTy tagValues refs tns ty = false) : unboxedTy tagValues refs' [] ty = false := by
  cases ty with
  | consType args tn =>
    rw [unboxedTy, TyName.unboxed_congr (hty args tn rfl)]
    rw [unboxedTy, Bool.or_eq_false_iff] at h
    rw [h.1]
    rfl
  | tyvarType => exact h
  | arrowType => rfl
  | recordType elems => cases elems <;> exact h

/-- Afterwards, a datatype that is unboxed has at most one unary constructor, and
its argument is a pointer. -/
theorem unboxAll_ok (hdistinct : (datbindss.flatten.map Datbind.tn).Nodup)
    (hfresh : ∀ datbind ∈ datbindss.flatten, TyName.unboxed tagValues refs datbind.tn = false)
    (horder : InOrder datbindss) :
    ∃ refs', unboxAll tagValues refs datbindss = .ok refs' ∧
      (∀ tn, tn ∉ datbindss.flatten.map Datbind.tn → refs' tn = refs tn) ∧
      ∀ datbind ∈ datbindss.flatten, TyName.unboxed tagValues refs' datbind.tn = true →
        Fits tagValues refs' [] datbind.cons := by
  induction datbindss generalizing refs with
  | nil => exact ⟨refs, rfl, fun _ _ => rfl, by simp⟩
  | cons group rest ih =>
    simp only [flatten_cons, map_append, nodup_append] at hdistinct
    obtain ⟨hgroup, hrest, hapart⟩ := hdistinct
    obtain ⟨hlater, horder⟩ := pairwise_cons.mp horder
    obtain ⟨refs1, hfirst, hother1, hfits1⟩ := unboxDatbinds_ok hgroup
      fun datbind hmem => hfresh datbind (mem_append_left _ hmem)
    have hfresh1 : ∀ datbind ∈ rest.flatten, TyName.unboxed tagValues refs1 datbind.tn = false := by
      intro datbind hmem
      have hout : datbind.tn ∉ group.map Datbind.tn :=
        fun h => hapart _ h _ (mem_map_of_mem hmem) rfl
      exact (TyName.unboxed_congr (hother1 _ hout)).trans (hfresh datbind (mem_append_right _ hmem))
    obtain ⟨refs', hall, hother, hfits⟩ := ih hrest hfresh1 horder
    refine ⟨refs', ?_, fun tn htn => ?_, fun datbind hmem hunboxed => ?_⟩
    · exact (ok_bind hfirst).trans hall
    · simp only [flatten_cons, map_append, mem_append, not_or] at htn
      rw [hother tn htn.2, hother1 tn htn.1]
    · rcases mem_append.mp (flatten_cons ▸ hmem) with hmem | hmem
      · have hkept : refs' datbind.tn = refs1 datbind.tn :=
          hother _ fun h => hapart _ (mem_map_of_mem hmem) _ h rfl
        rw [TyName.unboxed_congr hkept] at hunboxed
        obtain ⟨hlength, hboxed⟩ := hfits1 datbind hmem hunboxed
        refine ⟨hlength, fun ty hty => unboxedTy_congr (fun args tn heq => ?_) (hboxed ty hty)⟩
        have hgroup' : tn ∉ group.map Datbind.tn := by
          intro hin
          have hb := hboxed ty hty
          rw [heq, unboxedTy, Bool.or_eq_false_iff] at hb
          have hno := hb.2
          rw [any_eq_false] at hno
          exact hno tn hin (by simp)
        have hrest' : tn ∉ rest.flatten.map Datbind.tn := by
          intro hin
          obtain ⟨later, hlaterMem, hinLater⟩ := mem_map.mp hin
          obtain ⟨group', hgroupMem, hmem'⟩ := mem_flatten.mp hlaterMem
          exact hlater group' hgroupMem datbind hmem ty hty args tn heq
            (hinLater ▸ mem_map_of_mem hmem')
        rw [hother tn hrest', hother1 tn hgroup']
      · exact hfits datbind hmem hunboxed

end Refs

end MLKit.Lambda
