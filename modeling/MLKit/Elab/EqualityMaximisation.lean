import MLKit.Elab.Types
import MLKit.Lib.Settling
import Mathlib.Data.Finset.Lattice.Fold
import Mathlib.Order.Lattice.Nat
import Mathlib.Data.Finset.Dedup

/-!
# Maximising equality

`equality_maximising_realisation`: the datatypes of a type environment that may admit equality. The
types of constructors come from type expressions, so that none of their variables is linked and
`findType` gives the type itself.
-/

namespace MLKit.Elab

open MLKit.Lib

structure TypeFcn where
  tyvars : List TyVar
  tau : Typ

/-- The parameters are the arguments, in their order. -/
def sameTyVars : List TyVar → List Typ → Bool
  | [], [] => true
  | tv :: tvs, .tyvar tv' :: taus => tv == tv' && sameTyVars tvs taus
  | _, _ => false

def TypeFcn.toTyName (theta : TypeFcn) : Option TyName :=
  match theta.tau with
  | .constype _ taus t => if sameTyVars theta.tyvars taus then some t else none
  | _ => none

/-- A type structure: constructors, with the types of their schemes, belong to a type name only. -/
structure TyStr where
  theta : TypeFcn
  ve : List (String × Typ)
  named : ve ≠ [] → ∃ t, theta.toTyName = some t

/-- The name of a datatype; `none` for a type structure without constructors. -/
def TyStr.datatypeName (s : TyStr) : Option TyName :=
  if s.ve.isEmpty then none else s.theta.toTyName

abbrev TyEnv := List (String × TyStr)

def tynamesOfNonequalityDatatypes (TE : TyEnv) : Finset TyName :=
  TE.foldl (fun T entry =>
    match entry.2.datatypeName with
    | some t => if t.equality then T else insert t T
    | none => T) ∅

mutual

/-- A type of which equality is not known, where the names of a set are taken to admit it. -/
def violatesEquality0 (T : Finset TyName) : Typ → Bool
  | .tyvar _ => false
  | .rectype _ r => violatesRow T r
  | .constype _ tys t => if t.equality ∨ t ∈ T then violatesAny T tys else true
  | .arrow _ _ _ => true

def violatesAny (T : Finset TyName) : List Typ → Bool
  | [] => false
  | ty :: tys => violatesEquality0 T ty || violatesAny T tys

def violatesRow (T : Finset TyName) : RecType → Bool
  | .nil => false
  | .var _ => false
  | .row _ ty r => violatesEquality0 T ty || violatesRow T r

end

/-- The types in a row. -/
def RecType.fields : RecType → List Typ
  | .nil | .var _ => []
  | .row _ ty r => ty :: r.fields

/-- The argument of a constructor; a nullary one has none. -/
def argument : Typ → Option Typ
  | .arrow _ tau _ => some tau
  | _ => none

def violatesEquality (T : Finset TyName) (tau : Typ) : Bool :=
  match argument tau with
  | none => false
  | some tau' => violatesEquality0 T tau'

/-- The name of a datatype is removed if a constructor of it fails the test. -/
def removeMaybe (fails : Finset TyName → Typ → Bool) (T : Finset TyName) (entry : String × TyStr) :
    Finset TyName :=
  match entry.2.datatypeName with
  | none => T
  | some t => if entry.2.ve.any fun c => fails T c.2 then T.erase t else T

def removeATynameMaybe : Finset TyName → String × TyStr → Finset TyName :=
  removeMaybe violatesEquality

theorem removeMaybe_subset (fails : Finset TyName → Typ → Bool) (T : Finset TyName)
    (entry : String × TyStr) : removeMaybe fails T entry ⊆ T := by
  unfold removeMaybe
  split
  · exact Finset.Subset.refl T
  · split
    · exact Finset.erase_subset _ T
    · exact Finset.Subset.refl T

/-- Passes over the environment are repeated until the set does not change. -/
def iterate (T : Finset TyName) (TE : TyEnv) : Finset TyName :=
  settle removeATynameMaybe TE (removeMaybe_subset violatesEquality) T

/-- Realisations whose type functions are type names; `oo` is composition. -/
abbrev Realisation := TyName → TyName

/-- Each name becomes a fresh one that admits equality. -/
def generate (rank next : Nat) (T : List TyName) : Realisation :=
  (T.foldl (fun (phi, next) t => (phi ∘ Function.update id t ⟨next, t.arity, rank, true⟩, next + 1))
    (id, next)).1

/-- The state of the elaborator: the current rank, the next name, and the order in which
`TyName.Set.fold` visits a set. -/
structure Names (TE : TyEnv) where
  rank : Nat
  next : Nat
  order : Finset TyName → List TyName
  fresh : ∀ t ∈ tynamesOfNonequalityDatatypes TE, t.name < next
  visits : ∀ T t, t ∈ order T ↔ t ∈ T

/-- The names above those of a type environment are fresh, and a set may be visited in any order. -/
noncomputable def Names.listed (TE : TyEnv) : Names TE where
  rank := 0
  next := (tynamesOfNonequalityDatatypes TE).sup TyName.name + 1
  order := Finset.toList
  fresh _ ht := Nat.lt_succ_of_le (Finset.le_sup ht)
  visits _ _ := Finset.mem_toList

def equalityMaximisingRealisation (TE : TyEnv) (names : Names TE) : Realisation :=
  generate names.rank names.next (names.order (iterate (tynamesOfNonequalityDatatypes TE) TE))

/-! ## The greatest set of datatypes -/

/-- A type admits equality where the names of a set do. The Definition lets `ref` and `array` admit
it whatever their argument is; with `through`, they ask for it as other names do. -/
inductive Admits (through : Bool) (T : Finset TyName) : Typ → Prop where
  | tyvar (tv : TyVar) : Admits through T (.tyvar tv)
  | rectype (l : LevelRef) (r : RecType) : (∀ ty ∈ r.fields, Admits through T ty) →
      Admits through T (.rectype l r)
  | store (l : LevelRef) (tys : List Typ) (t : TyName) : through = false →
      t = tyNameRef ∨ t = tyNameArray → Admits through T (.constype l tys t)
  | constype (l : LevelRef) (tys : List Typ) (t : TyName) : t.equality = true ∨ t ∈ T →
      (∀ ty ∈ tys, Admits through T ty) → Admits through T (.constype l tys t)

/-- The arguments of the constructors admit equality. -/
def TyStr.Admits (through : Bool) (T : Finset TyName) (s : TyStr) : Prop :=
  ∀ c ∈ s.ve, ∀ ty ∈ argument c.2, Elab.Admits through T ty

def Respects (through : Bool) (TE : TyEnv) (T : Finset TyName) : Prop :=
  ∀ entry ∈ TE, ∀ t ∈ entry.2.datatypeName, t ∈ T → entry.2.Admits through T

/-- The greatest set of datatypes that admit equality if all of them do. -/
def Greatest (TE : TyEnv) (G : Finset TyName) : Prop :=
  IsGreatest {T | T ⊆ tynamesOfNonequalityDatatypes TE ∧ Respects false TE T} G

/-- The datatypes of the set are those that are given equality. -/
def Maximises (phi : Realisation) (TE : TyEnv) (G : Finset TyName) : Prop :=
  ∀ t ∈ tynamesOfNonequalityDatatypes TE, (phi t).equality = true ↔ t ∈ G

variable {ty : Typ} {through : Bool} {t : TyName}

section

variable {S T : Finset TyName}

theorem Admits.mono (h : Admits through S ty) (hsub : S ⊆ T) : Admits through T ty := by
  induction h with
  | tyvar tv => exact .tyvar tv
  | rectype l r _ ih => exact .rectype l r ih
  | store l tys t hthrough ht => exact .store l tys t hthrough ht
  | constype l tys t ht _ ih => exact .constype l tys t (ht.imp_right fun h => hsub h) ih

theorem Admits.of_through (h : Admits true T ty) : Admits false T ty := by
  induction h with
  | tyvar tv => exact .tyvar tv
  | rectype l r _ ih => exact .rectype l r ih
  | store l tys t hthrough ht => cases hthrough
  | constype l tys t ht _ ih => exact .constype l tys t ht ih

mutual

theorem violatesEquality0_iff (ty : Typ) : violatesEquality0 T ty = false ↔ Admits true T ty := by
  match ty with
  | .tyvar tv => simp [violatesEquality0, Admits.tyvar]
  | .rectype l r =>
    rw [violatesEquality0, violatesRow_iff]
    exact ⟨.rectype l r, fun h => by cases h; assumption⟩
  | .constype l tys t =>
    rw [violatesEquality0]
    split
    · rename_i ht
      rw [violatesAny_iff]
      exact ⟨.constype l tys t ht, fun h => by cases h <;> trivial⟩
    · rename_i ht
      refine iff_of_false (by decide) fun h => ?_
      cases h <;> contradiction
  | .arrow l ty1 ty2 => exact iff_of_false (by simp [violatesEquality0]) nofun

theorem violatesAny_iff (tys : List Typ) :
    violatesAny T tys = false ↔ ∀ ty ∈ tys, Admits true T ty := by
  match tys with
  | [] => simp [violatesAny]
  | ty :: tys => simp [violatesAny, violatesEquality0_iff ty, violatesAny_iff tys]

theorem violatesRow_iff (r : RecType) :
    violatesRow T r = false ↔ ∀ ty ∈ r.fields, Admits true T ty := by
  match r with
  | .nil => simp [violatesRow, RecType.fields]
  | .var rv => simp [violatesRow, RecType.fields]
  | .row lab ty r => simp [violatesRow, RecType.fields, violatesEquality0_iff ty, violatesRow_iff r]

end

open Classical in
/-- The test that the argument of a constructor admits equality. -/
noncomputable def failing (through : Bool) (T : Finset TyName) (tau : Typ) : Bool :=
  decide (¬ ∀ ty ∈ argument tau, Admits through T ty)

theorem violatesEquality_eq : violatesEquality = failing true := by
  funext T tau
  rw [Bool.eq_iff_iff, ← not_iff_not, Bool.not_eq_true, violatesEquality]
  cases h : argument tau with
  | none => simp [failing, h]
  | some ty => simp [failing, h, violatesEquality0_iff]

theorem mem_removeMaybe (entry : String × TyStr) : t ∈ removeMaybe (failing through) T entry ↔
    t ∈ T ∧ (t ∈ entry.2.datatypeName → entry.2.Admits through T) := by
  have hany : (entry.2.ve.any fun c => failing through T c.2) = true ↔
      ¬ entry.2.Admits through T := by simp [failing, TyStr.Admits]
  unfold removeMaybe
  cases entry.2.datatypeName with
  | none => simp
  | some t' =>
    dsimp only
    by_cases hadmits : entry.2.Admits through T
    · rw [if_neg (hany.not.2 (not_not.2 hadmits))]
      exact ⟨fun h => ⟨h, fun _ => hadmits⟩, And.left⟩
    · rw [if_pos (hany.2 hadmits), Finset.mem_erase, and_comm]
      exact and_congr_right fun _ => ⟨fun hne heq => absurd (Option.some.inj heq).symm hne,
        fun h heq => hadmits (h (heq ▸ rfl))⟩

theorem removeMaybe_eq_iff (entry : String × TyStr) : removeMaybe (failing through) T entry = T ↔
    ∀ t ∈ entry.2.datatypeName, t ∈ T → entry.2.Admits through T := by
  rw [Finset.ext_iff]
  simp only [mem_removeMaybe, and_iff_left_iff_imp]
  exact ⟨fun h t ht hin => h t hin ht, fun h t hin ht => h t ht hin⟩

theorem removeMaybe_mono (entry : String × TyStr) (hsub : S ⊆ T)
    (hS : removeMaybe (failing through) S entry = S) :
    S ⊆ removeMaybe (failing through) T entry := by
  intro t ht
  refine (mem_removeMaybe entry).2 ⟨hsub ht, fun hname c hc ty hty => ?_⟩
  exact ((removeMaybe_eq_iff entry).1 hS t hname ht c hc ty hty).mono hsub

/-- What the passes leave. -/
theorem settle_respects (through : Bool) (TE : TyEnv) (T : Finset TyName) :
    IsGreatest {S | S ⊆ T ∧ Respects through TE S}
      (settle (removeMaybe (failing through)) TE (removeMaybe_subset _) T) := by
  have h := settle_isGreatest (removeMaybe (failing through)) TE (removeMaybe_subset _)
    (fun _ _ entry => removeMaybe_mono entry) T
  simp only [removeMaybe_eq_iff] at h
  exact h

end

/-! ## Fresh names -/

theorem generate_fold (rank : Nat) (T : List TyName) (phi : Realisation) (next : Nat)
    (hnext : ∀ t ∈ T, t.name < next) (hphi : ∀ t, next ≤ t.name → phi t = t) (t : TyName) :
    ((T.foldl (fun (phi, next) t => (phi ∘ Function.update id t ⟨next, t.arity, rank, true⟩,
      next + 1)) (phi, next)).1 t).equality = true ↔ t ∈ T ∨ (phi t).equality = true := by
  induction T generalizing phi next with
  | nil => simp
  | cons t' T ih =>
    obtain ⟨hfirst, hrest⟩ := List.forall_mem_cons.1 hnext
    have hnext' : ∀ u ∈ T, u.name < next + 1 := fun u hu => Nat.lt_succ_of_lt (hrest u hu)
    rw [List.foldl_cons, ih _ _ hnext' fun u hu => ?_]
    · by_cases ht : t = t'
      · simp [ht, hphi]
      · simp [ht]
    · rw [Function.comp_apply, Function.update_of_ne (by rintro rfl; omega)]
      exact hphi u (by omega)

theorem generate_equality (rank next : Nat) (T : List TyName) (hnext : ∀ t ∈ T, t.name < next)
    (ht : t.equality = false) : (generate rank next T t).equality = true ↔ t ∈ T := by
  rw [generate, generate_fold rank T id next hnext fun _ _ => rfl]
  simp [ht]

/-! ## The realisation -/

theorem equality_of_mem (TE : TyEnv) :
    ∀ t ∈ tynamesOfNonequalityDatatypes TE, t.equality = false := by
  unfold tynamesOfNonequalityDatatypes
  refine List.foldlRecOn (motive := fun T => ∀ t ∈ T, TyName.equality t = false) TE _
    (fun t ht => absurd ht (Finset.notMem_empty t)) fun T hT entry _ => ?_
  split
  · split
    · exact hT
    · rename_i hne
      exact (Finset.forall_mem_insert _ _ _).2 ⟨Bool.eq_false_iff.2 hne, hT⟩
  · exact hT

theorem iterate_greatest (TE : TyEnv) (T : Finset TyName) :
    IsGreatest {S | S ⊆ T ∧ Respects true TE S} (iterate T TE) := by
  have h := settle_respects true TE T
  rw [← violatesEquality_eq] at h
  exact h

theorem given_equality_iff (TE : TyEnv) (names : Names TE)
    (ht : t ∈ tynamesOfNonequalityDatatypes TE) :
    (equalityMaximisingRealisation TE names t).equality = true ↔
      t ∈ iterate (tynamesOfNonequalityDatatypes TE) TE := by
  have hfresh : ∀ u ∈ names.order (iterate (tynamesOfNonequalityDatatypes TE) TE),
      u.name < names.next :=
    fun u hu => names.fresh u ((iterate_greatest TE _).1.1 ((names.visits _ u).1 hu))
  rw [equalityMaximisingRealisation, generate_equality _ _ _ hfresh (equality_of_mem TE t ht),
    names.visits]

/-- Fresh names that admit equality are given to the datatypes of the greatest set that respects
equality if, and only if, the constructors of that set would admit it as well if `ref` and `array`
asked their argument to. -/
theorem equality_maximised_iff (TE : TyEnv) (names : Names TE) : ∃ G, Greatest TE G ∧
    (Maximises (equalityMaximisingRealisation TE names) TE G ↔ Respects true TE G) := by
  have hG := settle_respects false TE (tynamesOfNonequalityDatatypes TE)
  refine ⟨_, hG, ?_⟩
  generalize settle (removeMaybe (failing false)) TE _ _ = G at hG ⊢
  obtain ⟨⟨hsub, -⟩, hgreatest⟩ := hG
  obtain ⟨⟨hsub', hrespects⟩, hgreatest'⟩ := iterate_greatest TE (tynamesOfNonequalityDatatypes TE)
  have hle : iterate (tynamesOfNonequalityDatatypes TE) TE ⊆ G := by
    refine hgreatest ⟨hsub', fun entry hentry t ht hin c hc ty hty => ?_⟩
    exact (hrespects entry hentry t ht hin c hc ty hty).of_through
  constructor
  · intro h
    have heq : iterate (tynamesOfNonequalityDatatypes TE) TE = G := by
      refine Finset.Subset.antisymm hle fun t ht => ?_
      exact (given_equality_iff TE names (hsub ht)).1 ((h t (hsub ht)).2 ht)
    rw [← heq]
    exact hrespects
  · intro h t ht
    rw [given_equality_iff TE names ht]
    exact ⟨fun hin => hle hin, fun hin => hgreatest' ⟨hsub, h⟩ hin⟩

/-- `datatype t = C of real ref`. -/
def realRef : TyEnv :=
  [("t", { theta := ⟨[], .constype 0 [] ⟨2, 0, 0, false⟩⟩
           ve := [("C", .arrow 0 (.constype 0 [.constype 0 [] ⟨3, 0, 0, false⟩] tyNameRef)
             (.constype 0 [] ⟨2, 0, 0, false⟩))]
           named := fun _ => ⟨_, rfl⟩ })]

/-- It admits equality, and is not given a name that does. -/
theorem real_ref_not_maximised : Greatest realRef {⟨2, 0, 0, false⟩} ∧
    (∀ names, ¬ Maximises (equalityMaximisingRealisation realRef names) realRef
      {⟨2, 0, 0, false⟩}) ∧
    ¬ Maximises (equalityMaximisingRealisation realRef (.listed realRef)) realRef
      {⟨2, 0, 0, false⟩} := by
  suffices hnot : ∀ names, ¬ Maximises (equalityMaximisingRealisation realRef names) realRef
      {⟨2, 0, 0, false⟩} by
    refine ⟨⟨⟨by decide, ?_⟩, fun T hT => hT.1⟩, hnot, hnot _⟩
    intro entry hentry t _ _ c hc ty hty
    cases List.mem_singleton.1 hentry
    cases List.mem_singleton.1 hc
    cases hty
    exact .store _ _ _ rfl (.inl rfl)
  intro names h
  have hname : (⟨2, 0, 0, false⟩ : TyName) ∈ tynamesOfNonequalityDatatypes realRef := by decide
  have hin := (given_equality_iff realRef names hname).1 ((h _ hname).2 (Finset.mem_singleton_self _))
  have hreal := (iterate_greatest realRef _).1.2 _ (.head _) _ rfl hin _ (.head _) _ rfl
  cases hreal with
  | store _ _ _ h => cases h
  | constype _ _ _ _ h =>
    cases h _ (.head _) with
    | store _ _ _ h => cases h
    | constype _ _ _ h =>
      rcases h with h | h
      · cases h
      · exact absurd ((iterate_greatest realRef _).1.1 h) (by decide)

end MLKit.Elab
