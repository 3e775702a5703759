import MLKit.Lambda.UnboxDatbinds
import MLKit.Backend.Tags

/-!
# Representations of constructors

`ClosExp` numbers the constructors of each datatype, the nullary and the unary
ones apart unless all values of the datatype are numbers, and computes from the
numbers the tags that a switch compares with.
-/

namespace MLKit.Backend

open MLKit.Lib MLKit.Lambda Function List

def Con.conTRUE : Con := ⟨"true"⟩
def Con.conFALSE : Con := ⟨"false"⟩
def Con.conNIL : Con := ⟨"nil"⟩
def Con.conCONS : Con := ⟨"::"⟩
def Con.conINTINF : Con := ⟨"_IntInf"⟩
def Con.conQUOTE : Con := ⟨"QUOTE"⟩
def Con.conANTIQUOTE : Con := ⟨"ANTIQUOTE"⟩

/-! ## The bindings that region inference hands on -/

inductive ConstructorKind where
  | constant
  | valueCarrying
  deriving DecidableEq

abbrev RegDatbind := TyName × List (Con × ConstructorKind)

def spreadCon : Con × Option Ty → Con × ConstructorKind
  | (con, some _) => (con, .valueCarrying)
  | (con, none) => (con, .constant)

def spreadSingleDatbind (datbind : Datbind) : RegDatbind := (datbind.tn, datbind.cons.map spreadCon)

/-- The datatypes of a group come out in reverse order. -/
def spreadDatbind (datbinds : DatbindList) : List RegDatbind :=
  (datbinds.map spreadSingleDatbind).reverse

def spreadDatbinds (datbindss : List DatbindList) : List (List RegDatbind) :=
  datbindss.map spreadDatbind

/-! ## The environment of constructors -/

namespace CE

/-- The number is the index in the datatype. -/
inductive ConKind where
  | enum (i : Nat)
  | ubNullary (i : Nat)
  | ubUnary (i : Nat)
  | bNullary (i : Nat)
  | bUnary (i : Nat)
  deriving DecidableEq

abbrev ConEnv := Con → Option ConKind

def declareCon (con : Con) (conKind : ConKind) (env : ConEnv) : ConEnv :=
  update env con (some conKind)

def initialConEnv : ConEnv := fun con =>
  [(Con.conFALSE, ConKind.enum 0), (Con.conTRUE, .enum 1), (Con.conNIL, .ubNullary 0),
    (Con.conCONS, .ubUnary 0), (Con.conINTINF, .ubUnary 0), (Con.conQUOTE, .bUnary 0),
    (Con.conANTIQUOTE, .bUnary 1)].lookup con

def lookupCon (env : ConEnv) (con : Con) : Except String ConKind :=
  match env con with
  | some conKind => .ok conKind
  | none => .error ("ClosConvEnv.lookupCon(" ++ con.name ++ ")")

end CE

/-- The representation as the code generator sees it. -/
def lookupCon (env : CE.ConEnv) (con : Con) : Except String ConKind := do
  match ← CE.lookupCon env con with
  | .enum i => return .enum i
  | .ubNullary i => return .unboxed i
  | .ubUnary i => return .unboxed i
  | .bNullary i => return .boxed i
  | .bUnary i => return .boxed i

/-- `env plus_decl_with CE.declareCon`. -/
def plusDeclCon (env : CE.ConEnv) (pairs : List (Con × CE.ConKind)) : CE.ConEnv :=
  pairs.foldr (fun pair env => CE.declareCon pair.1 pair.2 env) env

section AddDatbinds

variable (unboxed : TyName → Bool)

/-- `unboxed` is `TyName.unboxed` at the time of closure conversion. -/
def enumeration (tn : TyName) (binds : List (Con × ConstructorKind)) : Bool :=
  unboxed tn && binds.all fun (_, k) => k = .constant

def tagsEnum (n : Nat) : List (Con × ConstructorKind) → List (Con × CE.ConKind)
  | [] => []
  | (con, _) :: binds => (con, .enum n) :: tagsEnum (n + 1) binds

def unary (tn : TyName) (n : Nat) : CE.ConKind := if unboxed tn then .ubUnary n else .bUnary n

def nullary (tn : TyName) (n : Nat) : CE.ConKind := if unboxed tn then .ubNullary n else .bNullary n

def tags (tn : TyName) (n0 n1 : Nat) : List (Con × ConstructorKind) → List (Con × CE.ConKind)
  | [] => []
  | (con, .valueCarrying) :: binds => (con, unary unboxed tn n1) :: tags tn n0 (n1 + 1) binds
  | (con, .constant) :: binds => (con, nullary unboxed tn n0) :: tags tn (n0 + 1) n1 binds

def analyseDatbind (datbind : RegDatbind) : List (Con × CE.ConKind) :=
  if enumeration unboxed datbind.1 datbind.2 then tagsEnum 0 datbind.2
  else tags unboxed datbind.1 0 0 datbind.2

def addDatbindsToEnv (dbs : List (List RegDatbind)) (env : CE.ConEnv) : CE.ConEnv :=
  dbs.flatten.foldl (fun env datbind => plusDeclCon env (analyseDatbind unboxed datbind)) env

end AddDatbinds

/-- The number that represents a constructor of an enumeration; booleans are
tagged in any case. -/
def enumTag (flags : Flags) (con : Con) (i : Nat) : Nat :=
  if flags.tagValues || con = Con.conTRUE || con = Con.conFALSE then 2 * i + 1 else i

/-- The tag a selector of `SWITCH_C` is compared by. -/
def switchTag (flags : Flags) (env : CE.ConEnv) (con : Con) : Except String (Con × ConKind) := do
  match ← CE.lookupCon env con with
  | .enum i => return (con, .enum (enumTag flags con i))
  | .ubNullary i => return (con, .unboxed (4 * i + 3))
  | .ubUnary i => return (con, .unboxed i)
  | .bNullary i => return (con, .boxed (BI.tagCon0 false i).toNat)
  | .bUnary i => return (con, .boxed (BI.tagCon1 false i).toNat)

/-- The last selection is the default if there is none. -/
def compileSelsAndDefault {σ σ' β : Type} (sels : List (σ × β)) (default : Option β)
    (fMatch : σ → Except String σ') : Except String (List (σ' × β) × β) := do
  let sels' ← sels.mapM fun (m, branch) => do return (← fMatch m, branch)
  match default with
  | some branch => return (sels', branch)
  | none =>
    match sels'.reverse with
    | (_, branch) :: revSels => return (revSels.reverse, branch)
    | [] => .error "ClosExp.compile_sels_and_default: no selections."

/-! ## The numbers of the constructors -/

variable {tn : TyName} {k k' : ConstructorKind} {i i' n n0 n1 : Nat}
  {binds : List (Con × ConstructorKind)} {datbind : RegDatbind} {con con' : Con}
  {kind kind' : CE.ConKind} {pairs : List (Con × CE.ConKind)} {datbinds : List RegDatbind}
  {flags : Flags} {env : CE.ConEnv} {ty : Option Ty}

section Numbers

variable {unboxed : TyName → Bool}

/-- The representation with a given number. -/
def kindFor (unboxed : TyName → Bool) (tn : TyName) (k : ConstructorKind) (i : Nat) : CE.ConKind :=
  match k with
  | .constant => nullary unboxed tn i
  | .valueCarrying => unary unboxed tn i

theorem kindFor_inj (h : kindFor unboxed tn k i = kindFor unboxed tn k' i') : k = k' ∧ i = i' := by
  cases k <;> cases k' <;> simp only [kindFor, nullary, unary] at h <;> split at h <;>
    first | (cases h; exact ⟨rfl, rfl⟩) | cases h

/-- Where the numbers of the constructors of a kind start. -/
def startOf (n0 n1 : Nat) : ConstructorKind → Nat
  | .constant => n0
  | .valueCarrying => n1

theorem tagsEnum_keys :
    (tagsEnum n binds).map Prod.fst = binds.map Prod.fst := by
  induction binds generalizing n with
  | nil => rfl
  | cons bind binds ih => simp [tagsEnum, ih]

theorem tags_keys :
    (tags unboxed tn n0 n1 binds).map Prod.fst = binds.map Prod.fst := by
  induction binds generalizing n0 n1 with
  | nil => rfl
  | cons bind binds ih =>
    rcases bind with ⟨con, _ | _⟩ <;> simp [tags, ih]

theorem analyseDatbind_keys :
    (analyseDatbind unboxed datbind).map Prod.fst = datbind.2.map Prod.fst := by
  unfold analyseDatbind
  split
  · exact tagsEnum_keys
  · exact tags_keys

theorem tagsEnum_mem (h : (con, kind) ∈ tagsEnum n binds) :
    ∃ i, kind = .enum i ∧ n ≤ i ∧ i < n + binds.length := by
  induction binds generalizing n with
  | nil => cases h
  | cons bind binds ih =>
    rcases mem_cons.mp h with heq | h
    · cases heq
      exact ⟨n, rfl, Nat.le_refl n, by simp⟩
    · obtain ⟨i, rfl, hle, hlt⟩ := ih h
      refine ⟨i, rfl, by omega, ?_⟩
      rw [length_cons]
      omega

theorem tags_mem (h : (con, kind) ∈ tags unboxed tn n0 n1 binds) :
    ∃ k i, (con, k) ∈ binds ∧ kind = kindFor unboxed tn k i ∧ startOf n0 n1 k ≤ i ∧
      i < startOf n0 n1 k + (binds.filter (·.2 = k)).length := by
  induction binds generalizing n0 n1 with
  | nil => cases h
  | cons bind binds ih =>
    rcases bind with ⟨con', _ | _⟩
    all_goals
      rcases mem_cons.mp h with heq | h
      · cases heq
        exact ⟨_, _, .head _, rfl, Nat.le_refl _, by simp [startOf]⟩
      · obtain ⟨k, i, hmem, hkind, hle, hlt⟩ := ih h
        refine ⟨k, i, .tail _ hmem, hkind, ?_, ?_⟩
        all_goals cases k <;> simp [startOf] at hle hlt ⊢ <;> omega

/-- No representation is used twice in one datatype. -/
theorem tagsEnum_nodup (n : Nat) (binds : List (Con × ConstructorKind)) :
    ((tagsEnum n binds).map Prod.snd).Nodup := by
  induction binds generalizing n with
  | nil => exact nodup_nil
  | cons bind binds ih =>
    refine nodup_cons.mpr ⟨fun h => ?_, ih (n + 1)⟩
    obtain ⟨⟨con, kind⟩, hmem, hkind⟩ := mem_map.mp h
    obtain ⟨i, hi, hle, -⟩ := tagsEnum_mem hmem
    have heq : CE.ConKind.enum n = .enum i := hkind.symm.trans hi
    cases heq
    omega

theorem tags_nodup (tn : TyName) (n0 n1 : Nat) (binds : List (Con × ConstructorKind)) :
    ((tags unboxed tn n0 n1 binds).map Prod.snd).Nodup := by
  induction binds generalizing n0 n1 with
  | nil => exact nodup_nil
  | cons bind binds ih =>
    rcases bind with ⟨con, _ | _⟩
    · refine nodup_cons.mpr ⟨fun h => ?_, ih (n0 + 1) n1⟩
      obtain ⟨⟨con', kind⟩, hmem, hkind⟩ := mem_map.mp h
      obtain ⟨k, i, -, hi, hle, -⟩ := tags_mem hmem
      obtain ⟨rfl, rfl⟩ := kindFor_inj (k := .constant) (i := n0) (hkind.symm.trans hi)
      simp only [startOf] at hle
      omega
    · refine nodup_cons.mpr ⟨fun h => ?_, ih n0 (n1 + 1)⟩
      obtain ⟨⟨con', kind⟩, hmem, hkind⟩ := mem_map.mp h
      obtain ⟨k, i, -, hi, hle, -⟩ := tags_mem hmem
      obtain ⟨rfl, rfl⟩ := kindFor_inj (k := .valueCarrying) (i := n1) (hkind.symm.trans hi)
      simp only [startOf] at hle
      omega

theorem analyseDatbind_inj (h : (con, kind) ∈ analyseDatbind unboxed datbind)
    (h' : (con', kind) ∈ analyseDatbind unboxed datbind) : con = con' := by
  have hnodup : ((analyseDatbind unboxed datbind).map Prod.snd).Nodup := by
    unfold analyseDatbind
    split
    · exact tagsEnum_nodup 0 datbind.2
    · exact tags_nodup datbind.1 0 0 datbind.2
  exact congrArg Prod.fst (inj_on_of_nodup_map hnodup h h' rfl)

end Numbers

/-! ## The constructors of a datatype in the environment -/

section Lookup

variable {unboxed : TyName → Bool}

theorem plusDeclCon_cons (env : CE.ConEnv) (pair : Con × CE.ConKind)
    (pairs : List (Con × CE.ConKind)) :
    plusDeclCon env (pair :: pairs) = update (plusDeclCon env pairs) pair.1 (some pair.2) := rfl

theorem plusDeclCon_of_notMem (env : CE.ConEnv) (h : con ∉ pairs.map Prod.fst) :
    plusDeclCon env pairs con = env con := by
  induction pairs with
  | nil => rfl
  | cons pair pairs ih =>
    obtain ⟨hne, h⟩ := not_or.mp fun hmem => h (mem_cons.mpr hmem)
    rw [plusDeclCon_cons, update_of_ne hne, ih h]

theorem plusDeclCon_of_mem (env : CE.ConEnv) (hdistinct : (pairs.map Prod.fst).Nodup)
    (h : (con, kind) ∈ pairs) : plusDeclCon env pairs con = some kind := by
  induction pairs with
  | nil => cases h
  | cons pair pairs ih =>
    obtain ⟨hnew, hdistinct⟩ := nodup_cons.mp hdistinct
    rw [plusDeclCon_cons]
    rcases mem_cons.mp h with rfl | h
    · exact update_self ..
    · have hne : con ≠ pair.1 := fun heq => hnew (heq ▸ mem_map_of_mem h)
      rw [update_of_ne hne, ih hdistinct h]

theorem addDatbinds_of_notMem (env : CE.ConEnv)
    (h : con ∉ datbinds.flatMap fun datbind => datbind.2.map Prod.fst) :
    addDatbindsToEnv unboxed [datbinds] env con = env con := by
  simp only [addDatbindsToEnv, flatten_cons, flatten_nil, append_nil]
  induction datbinds generalizing env with
  | nil => rfl
  | cons datbind rest ih =>
    rw [flatMap_cons, mem_append, not_or] at h
    rw [foldl_cons, ih _ h.2]
    exact plusDeclCon_of_notMem env (by rw [analyseDatbind_keys]; exact h.1)

/-- Constructors are found as their datatype numbers them. -/
theorem addDatbinds_of_mem (env : CE.ConEnv)
    (hdistinct : (datbinds.flatMap fun datbind => datbind.2.map Prod.fst).Nodup)
    (hmem : datbind ∈ datbinds) (h : (con, kind) ∈ analyseDatbind unboxed datbind) :
    addDatbindsToEnv unboxed [datbinds] env con = some kind := by
  have hkeys : (analyseDatbind unboxed datbind).map Prod.fst = datbind.2.map Prod.fst :=
    analyseDatbind_keys
  induction datbinds generalizing env with
  | nil => cases hmem
  | cons first rest ih =>
    rw [flatMap_cons, nodup_append] at hdistinct
    obtain ⟨hfirst, hrest, hapart⟩ := hdistinct
    rcases mem_cons.mp hmem with rfl | hmem
    · have hout : con ∉ rest.flatMap fun datbind => datbind.2.map Prod.fst :=
        fun hin => hapart con (hkeys ▸ mem_map_of_mem h) con hin rfl
      exact (addDatbinds_of_notMem _ hout).trans (plusDeclCon_of_mem env (hkeys ▸ hfirst) h)
    · exact ih _ hrest hmem

end Lookup

/-! ## The tags of the constructors -/

/-- How the values of a datatype are told apart: as numbers, by the bits of the
word, or by the first word of an object. -/
inductive Layout where
  | enum
  | unboxed
  | boxed
  deriving DecidableEq

def CE.ConKind.layout : CE.ConKind → Layout
  | .enum _ => .enum
  | .ubNullary _ => .unboxed
  | .ubUnary _ => .unboxed
  | .bNullary _ => .boxed
  | .bUnary _ => .boxed

/-- The number of a tag. -/
def tagNumber (flags : Flags) (con : Con) : CE.ConKind → Nat
  | .enum i => enumTag flags con i
  | .ubNullary i => 4 * i + 3
  | .ubUnary i => i
  | .bNullary i => (BI.tagCon0 false i).toNat
  | .bUnary i => (BI.tagCon1 false i).toNat

def Layout.conKind : Layout → Nat → ConKind
  | .enum => .enum
  | .unboxed => .unboxed
  | .boxed => .boxed

def taggedKind (flags : Flags) (con : Con) (kind : CE.ConKind) : ConKind :=
  kind.layout.conKind (tagNumber flags con kind)

theorem switchTag_eq (h : env con = some kind) :
    switchTag flags env con = .ok (con, taggedKind flags con kind) := by
  have hlookup : CE.lookupCon env con = .ok kind := by
    rw [CE.lookupCon, h]
  refine (ok_bind hlookup).trans ?_
  cases kind <;> rfl

/-- The number in a representation. -/
def CE.ConKind.index : CE.ConKind → Nat
  | .enum i => i
  | .ubNullary i => i
  | .ubUnary i => i
  | .bNullary i => i
  | .bUnary i => i

/-- The most constructors a datatype can have: a tag is the immediate operand of
a store. -/
def maxConstructors : Nat := 2 ^ 25

/-- Constructors of one datatype: the representations that the numbering gives. -/
structure InDatatype (kind : CE.ConKind) (layout : Layout) : Prop where
  layout : kind.layout = layout
  index : kind.index < maxConstructors
  single : ∀ i, kind = .ubUnary i → i = 0

theorem tagNumber_lt {layout : Layout}
    (h : InDatatype kind layout) : tagNumber flags con kind < 2 ^ 31 := by
  have hindex := h.index
  simp only [maxConstructors] at hindex
  cases kind with (simp only [CE.ConKind.index] at hindex)
  | enum i =>
    simp only [tagNumber, enumTag]
    split <;> omega
  | ubNullary i | ubUnary i =>
    simp only [tagNumber]
    omega
  | bNullary i =>
    rw [tagNumber, BI.tagCon0, BI.toNat_genStringTag (by decide)]
    omega
  | bUnary i =>
    rw [tagNumber, BI.tagCon1, BI.toNat_genStringTag (by decide)]
    omega

/-- Constructors of one datatype that have the same tag have the same number. -/
theorem tagNumber_inj {layout : Layout} (h : InDatatype kind layout) (h' : InDatatype kind' layout)
    (hcon : con ≠ Con.conTRUE ∧ con ≠ Con.conFALSE)
    (hcon' : con' ≠ Con.conTRUE ∧ con' ≠ Con.conFALSE)
    (heq : tagNumber flags con kind = tagNumber flags con' kind') : kind = kind' := by
  have hlayout : kind.layout = kind'.layout := h.layout.trans h'.layout.symm
  have hindex := h.index
  have hindex' := h'.index
  simp only [maxConstructors] at hindex hindex'
  cases kind with
  | enum i =>
    cases kind' with
    | enum i' =>
      simp only [tagNumber, enumTag, hcon, hcon', decide_false, Bool.or_false] at heq
      congr 1
      split at heq <;> omega
    | _ => cases hlayout
  | ubNullary i =>
    cases kind' with
    | ubNullary i' =>
      simp only [tagNumber] at heq
      congr 1
      omega
    | ubUnary i' =>
      rw [h'.single i' rfl] at heq
      simp [tagNumber] at heq
    | _ => cases hlayout
  | ubUnary i =>
    cases kind' with
    | ubNullary i' =>
      rw [h.single i rfl] at heq
      simp [tagNumber] at heq
    | ubUnary i' => rw [h.single i rfl, h'.single i' rfl]
    | _ => cases hlayout
  | bNullary i | bUnary i =>
    cases kind' with
    | bNullary i' | bUnary i' =>
      simp only [CE.ConKind.index] at hindex hindex'
      simp only [tagNumber, BI.tagCon0, BI.tagCon1,
        BI.toNat_genStringTag (show 2 < 2 ^ 5 by decide),
        BI.toNat_genStringTag (show 3 < 2 ^ 5 by decide)] at heq
      first
      | omega
      | congr 1
        omega
    | _ => cases hlayout

/-! ## The constructors of a declared datatype -/

section Declared

variable {unboxed : TyName → Bool}

/-- How the values of a declared datatype are told apart. -/
def layoutOf (unboxed : TyName → Bool) (datbind : Datbind) : Layout :=
  if unboxed datbind.tn then
    if datbind.cons.all fun (_, ty) => ty.isNone then .enum else .unboxed
  else .boxed

/-- Representations of a constructor without, and with an argument. -/
def IsNullary (kind : CE.ConKind) : Prop :=
  (∃ i, kind = .enum i) ∨ (∃ i, kind = .ubNullary i) ∨ ∃ i, kind = .bNullary i

def IsUnary (kind : CE.ConKind) : Prop := kind = .ubUnary 0 ∨ ∃ i, kind = .bUnary i

theorem spread_keys {cns : List (Con × Option Ty)} :
    (cns.map spreadCon).map Prod.fst = cns.map Prod.fst := by
  rw [map_map]
  refine map_congr_left fun con _ => ?_
  rcases con with ⟨con, _ | ty⟩ <;> rfl

theorem enumeration_spread (datbind : Datbind) :
    enumeration unboxed (spreadSingleDatbind datbind).1 (spreadSingleDatbind datbind).2 =
      (unboxed datbind.tn && datbind.cons.all fun (_, ty) => ty.isNone) := by
  simp only [enumeration, spreadSingleDatbind, all_map]
  congr 2
  funext con
  rcases con with ⟨con, _ | ty⟩ <;> rfl

theorem carried_length (cns : List (Con × Option Ty)) :
    ((cns.map spreadCon).filter (·.2 = .valueCarrying)).length = (carried cns).length := by
  induction cns with
  | nil => rfl
  | cons con cns ih =>
    rcases con with ⟨con, _ | ty⟩
    · exact ih
    · exact congrArg (· + 1) ih

/-- Every constructor has a representation of the layout of its datatype. -/
theorem exists_kind {datbind : Datbind} (hcons : (datbind.cons.map Prod.fst).Nodup)
    (hfits : unboxed datbind.tn = true → (carried datbind.cons).length ≤ 1)
    (hsize : datbind.cons.length ≤ maxConstructors) (hmem : (con, ty) ∈ datbind.cons) :
    ∃ kind, (con, kind) ∈ analyseDatbind unboxed (spreadSingleDatbind datbind) ∧
      InDatatype kind (layoutOf unboxed datbind) ∧ (ty = none → IsNullary kind) ∧
      (∀ t, ty = some t → IsUnary kind ∧ (kind = .ubUnary 0 → unboxed datbind.tn = true)) := by
  have hkeys : (analyseDatbind unboxed (spreadSingleDatbind datbind)).map Prod.fst =
      datbind.cons.map Prod.fst := by
    rw [analyseDatbind_keys]
    exact spread_keys
  obtain ⟨⟨con', kind⟩, hkind, rfl⟩ := mem_map.mp (hkeys ▸ mem_map_of_mem hmem)
  refine ⟨kind, hkind, ?_⟩
  unfold analyseDatbind at hkind
  rw [enumeration_spread] at hkind
  split at hkind
  · rename_i henum
    obtain ⟨hunboxed, hall⟩ := Bool.and_eq_true_iff.mp henum
    obtain ⟨i, rfl, -, hlt⟩ := tagsEnum_mem hkind
    have hlt' : i < maxConstructors := by
      simp only [spreadSingleDatbind, length_map, Nat.zero_add] at hlt
      omega
    have hlayout : layoutOf unboxed datbind = .enum := by
      rw [layoutOf, if_pos hunboxed, if_pos hall]
    refine ⟨⟨hlayout.symm, hlt', fun i h => by cases h⟩, fun _ => .inl ⟨i, rfl⟩, fun t ht => ?_⟩
    have hnone := all_eq_true.mp hall _ hmem
    rw [ht] at hnone
    cases hnone
  · rename_i henum
    obtain ⟨k, i, hbind, rfl, -, hlt⟩ := tags_mem hkind
    have hspread : spreadCon (con', ty) = (con', k) := by
      have hbinds : ((datbind.cons.map spreadCon).map Prod.fst).Nodup := by rwa [spread_keys]
      refine inj_on_of_nodup_map hbinds (mem_map_of_mem hmem) hbind ?_
      cases ty <;> rfl
    have hindex : i < maxConstructors := by
      have hle := length_filter_le (fun bind => decide (bind.2 = k)) (spreadSingleDatbind datbind).2
      simp only [spreadSingleDatbind, length_map] at hle hlt
      cases k <;> simp only [startOf, Nat.zero_add] at hlt <;> omega
    by_cases hunboxed : unboxed datbind.tn = true
    · have hlayout : layoutOf unboxed datbind = .unboxed := by
        rw [layoutOf, if_pos hunboxed, if_neg fun h => henum (by rw [hunboxed, h]; rfl)]
      have hk : ∀ k, kindFor unboxed (spreadSingleDatbind datbind).1 k i =
          match k with | .constant => .ubNullary i | .valueCarrying => .ubUnary i := by
        intro k
        cases k <;> exact if_pos hunboxed
      rw [hk]
      cases ty with
      | none =>
        cases hspread
        exact ⟨⟨hlayout.symm, hindex, fun i h => by cases h⟩, fun _ => .inr (.inl ⟨i, rfl⟩),
          fun t ht => by cases ht⟩
      | some t =>
        cases hspread
        have hzero : i = 0 := by
          have hone := hfits hunboxed
          have hcount := carried_length datbind.cons
          simp only [startOf, Nat.zero_add, spreadSingleDatbind] at hlt
          omega
        subst hzero
        exact ⟨⟨hlayout.symm, hindex, fun i h => by cases h; rfl⟩, fun h => (by cases h),
          fun _ _ => ⟨.inl rfl, fun _ => hunboxed⟩⟩
    · have hlayout : layoutOf unboxed datbind = .boxed := by
        rw [layoutOf, if_neg hunboxed]
      have hk : ∀ k, kindFor unboxed (spreadSingleDatbind datbind).1 k i =
          match k with | .constant => .bNullary i | .valueCarrying => .bUnary i := by
        intro k
        cases k <;> exact if_neg hunboxed
      rw [hk]
      cases ty with
      | none =>
        cases hspread
        exact ⟨⟨hlayout.symm, hindex, fun i h => by cases h⟩, fun _ => .inr (.inr ⟨i, rfl⟩),
          fun t ht => by cases ht⟩
      | some t =>
        cases hspread
        exact ⟨⟨hlayout.symm, hindex, fun i h => by cases h⟩, fun h => (by cases h),
          fun _ _ => ⟨.inr ⟨i, rfl⟩, fun h => by cases h⟩⟩

end Declared

end MLKit.Backend
