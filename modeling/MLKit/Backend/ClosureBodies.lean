import MLKit.Backend.ClosureFrames
import Mathlib.Data.List.Induction

/-!
# The bodies of functions

The environment a body is converted in finds each free variable of the function
in its closure.  This is followed through functions nested in one another and
through everything else that binds variables.
-/

namespace MLKit.Backend.ClosConv

open MLKit.Lib Function List

/-! ## The environment of a closure -/

/-- Functions whose shared closure is empty are not stored. -/
def isStored (env : Env) : FreeVar → Bool
  | .lvar lv =>
    match env.varEnv lv with
    | some (.fix _ none 0 _) => false
    | _ => true
  | _ => true

variable {α : Type} {β : Type*} {env orgEnv newEnv globalEnv bodyEnv env' : Env} {x : FreeVar}
  {a : AccessType} {lv lvClos : Lvar} {i base size next' k : Nat} {acc acc' : Env × Nat}
  {free stored : FreeVars} {lvs lvs' : List Lvar} {φ φ' : Frame} {value : Option Int} {lab : Label}
  {formals : List Binder}

theorem access_of_not_stored (h : isStored env x = false) :
    ∃ lab formals, env.access x = some (.fix lab none 0 formals) := by
  cases x with
  | lvar lv =>
    simp only [isStored] at h
    split at h
    · rename_i lab formals heq
      exact ⟨lab, formals, heq⟩
    · cases h
  | excon excon | rho place => cases h

theorem isStored_of_ne (h : env.access (.lvar lv) = some a)
    (hne : ∀ lab formals, a ≠ .fix lab none 0 formals) : isStored env (.lvar lv) = true := by
  by_contra hnot
  obtain ⟨lab, formals, hfix⟩ := access_of_not_stored (by simpa using hnot)
  exact hne lab formals (Option.some.inj (h.symm.trans hfix))

/-- The free variables in the order of the fields. -/
def inClosure (free : FreeVars) : List FreeVar := smashFree (free.elems id)

def addFree (orgEnv : Env) (lvClos : Lvar) (acc : Env × Nat) : FreeVar → Except String (Env × Nat)
  | .lvar lv => addFreeLv orgEnv lvClos acc lv
  | .excon excon => addFreeExcon orgEnv lvClos acc excon
  | .rho place => addFreeRho orgEnv lvClos acc place

theorem buildClosEnv_eq (orgEnv newEnv : Env) (lvClos : Lvar) (baseOffset : Nat) (free : FreeVars) :
    buildClosEnv orgEnv newEnv lvClos baseOffset free = do
      let acc ← (inClosure free).foldlM (addFree orgEnv lvClos) (newEnv, baseOffset)
      return acc.1 := by
  simp only [inClosure, smashFree, FreeVars.elems, id_eq, foldlM_append, foldlM_map, bind_assoc]
  rfl

/-- Field `i` of the closure: the variable's value, or the shared closure of a
function. -/
def IsSlot (orgEnv : Env) (x : FreeVar) (lvClos : Lvar) (i : Nat) (a : AccessType) : Prop :=
  a = .select lvClos i ∨
    ∃ lab sclos size formals, orgEnv.access x = some (.fix lab (some sclos) size formals) ∧
      size ≠ 0 ∧ a = .fix lab (some (.select lvClos i)) size formals

theorem IsSlot.denote (h : IsSlot orgEnv x lvClos i a) (fetch : Label → Int) (φ : Frame) :
    denote fetch φ a = some (φ.fields (φ.vars lvClos) i) := by
  rcases h with rfl | ⟨lab, sclos, size, formals, -, -, rfl⟩
  · rfl
  · simp only [ClosConv.denote]

/-- What a body knows of a free variable that is number `i` in the closure. -/
def IsFreeAccess (orgEnv : Env) (x : FreeVar) (lvClos : Lvar) (i : Nat) (a : AccessType) : Prop :=
  if isStored orgEnv x then IsSlot orgEnv x lvClos i a
  else ∃ lab formals, orgEnv.access x = some (.fix lab none 0 formals) ∧ a = .fix lab none 0 formals

@[simp] theorem declareLvar_access (lv : Lvar) (a : AccessType) (env : Env) (x : FreeVar) :
    (declareLvar lv a env).access x = if x = .lvar lv then some a else env.access x := by
  cases x with
  | lvar lv' =>
    by_cases h : lv' = lv <;> simp [Env.access, declareLvar, update, h]
  | excon excon | rho place => simp [Env.access, declareLvar]

@[simp] theorem declareExcon_access (excon : Excon) (a : AccessType × ArityExcon) (env : Env)
    (x : FreeVar) :
    (declareExcon excon a env).access x = if x = .excon excon then some a.1 else env.access x := by
  cases x with
  | excon excon' =>
    by_cases h : excon' = excon <;> simp [Env.access, declareExcon, update, h]
  | lvar lv | rho place => simp [Env.access, declareExcon]

@[simp] theorem declareRho_access (place : Place) (a : AccessType) (env : Env) (x : FreeVar) :
    (declareRho place a env).access x = if x = .rho place then some a else env.access x := by
  cases x with
  | rho place' =>
    by_cases h : place' = place <;> simp [Env.access, declareRho, update, h]
  | lvar lv | excon excon => simp [Env.access, declareRho]

@[simp] theorem declareRhoKind_access (place : Place) (kind : RhoKind) (env : Env) (x : FreeVar) :
    (declareRhoKind place kind env).access x = env.access x := by
  cases x <;> rfl

theorem lookupVar_ok (h : lookupVar env lv = .ok a) : env.access (.lvar lv) = some a := by
  unfold lookupVar at h
  split at h
  · cases h
    assumption
  · cases h

/-- A function without shared closure, a function with one, or another value. -/
theorem addFreeLv_ok (h : addFreeLv orgEnv lvClos acc lv = .ok acc') :
    ∃ a, acc'.1 = declareLvar lv a acc.1 ∧
      acc'.2 = acc.2 + (if isStored orgEnv (.lvar lv) then 1 else 0) ∧
      IsFreeAccess orgEnv (.lvar lv) lvClos acc.2 a := by
  obtain ⟨access, haccess, h⟩ := bind_ok h
  have horg := lookupVar_ok haccess
  have hvar : orgEnv.varEnv lv = some access := horg
  unfold IsFreeAccess
  split at h
  · rename_i lab formals
    cases h
    have hstored : isStored orgEnv (.lvar lv) = false := by simp only [isStored, hvar]
    rw [hstored]
    exact ⟨.fix lab none 0 formals, rfl, rfl, lab, formals, horg, rfl⟩
  · cases h
  · cases h
  · rename_i lab sclos size formals hne
    cases h
    rw [isStored_of_ne horg (by simp)]
    exact ⟨.fix lab (some (.select lvClos acc.2)) size formals, rfl, rfl,
      Or.inr ⟨lab, sclos, size, formals, horg, hne, rfl⟩⟩
  · rename_i hzero _ _ _
    cases h
    rw [isStored_of_ne horg hzero]
    exact ⟨.select lvClos acc.2, rfl, rfl, Or.inl rfl⟩

theorem addFree_ok (h : addFree orgEnv lvClos acc x = .ok acc') :
    (∀ y, y ≠ x → acc'.1.access y = acc.1.access y) ∧
      acc'.2 = acc.2 + (if isStored orgEnv x then 1 else 0) ∧
      ∃ a, acc'.1.access x = some a ∧ IsFreeAccess orgEnv x lvClos acc.2 a := by
  cases x with
  | lvar lv =>
    obtain ⟨a, henv, hnext, hfree⟩ := addFreeLv_ok h
    rw [henv]
    exact ⟨fun y hy => by simp [hy], hnext, a, by simp, hfree⟩
  | excon excon =>
    obtain ⟨arity, -, h⟩ := bind_ok h
    cases h
    exact ⟨fun y hy => by simp [hy], rfl, .select lvClos acc.2, by simp, Or.inl rfl⟩
  | rho place =>
    obtain ⟨kind, -, h⟩ := bind_ok h
    cases h
    exact ⟨fun y hy => by simp [hy], rfl, .select lvClos acc.2, by simp, Or.inl rfl⟩

/-- Each free variable has the field of its place among those that are stored. -/
theorem foldAddFree_ok {xs : List FreeVar}
    (h : xs.foldlM (addFree orgEnv lvClos) (newEnv, base) = .ok acc) :
    (∀ x, x ∉ xs → acc.1.access x = newEnv.access x) ∧
      acc.2 = base + (xs.filter (isStored orgEnv)).length ∧
      ∀ x ∈ xs, ∃ a p, acc.1.access x = some a ∧ IsFreeAccess orgEnv x lvClos (base + p) a ∧
        (isStored orgEnv x = true → (xs.filter (isStored orgEnv))[p]? = some x) := by
  induction xs using List.reverseRecOn generalizing acc with
  | nil =>
    cases h
    exact ⟨fun x _ => rfl, rfl, fun x hx => by cases hx⟩
  | append_singleton xs x ih =>
    rw [foldlM_append] at h
    obtain ⟨mid, hmid, h⟩ := bind_ok h
    obtain ⟨last, hlast, h⟩ := bind_ok h
    cases h
    obtain ⟨ihOut, ihNext, ihIn⟩ := ih hmid
    obtain ⟨hout, hnext, a, ha, hfree⟩ := addFree_ok hlast
    refine ⟨fun y hy => ?_, ?_, fun y hy => ?_⟩
    · simp only [mem_append, mem_singleton, not_or] at hy
      rw [hout y hy.2, ihOut y hy.1]
    · rw [hnext, ihNext, filter_append, length_append, Nat.add_assoc]
      cases hstored : isStored orgEnv x <;> simp [hstored]
    · by_cases hyx : y = x
      · subst hyx
        refine ⟨a, (xs.filter (isStored orgEnv)).length, ha, by rwa [← ihNext], fun hstored => ?_⟩
        simp [hstored]
      · have hmem : y ∈ xs := by simpa [hyx] using hy
        obtain ⟨b, p, hb, hfreeY, hp⟩ := ihIn y hmem
        refine ⟨b, p, by rw [hout y hyx, hb], hfreeY, fun hstored => ?_⟩
        have hget := hp hstored
        rw [filter_append, List.getElem?_append_left]
        · exact hget
        · exact (List.getElem?_eq_some_iff.mp hget).1

theorem buildClosEnv_ok (h : buildClosEnv orgEnv newEnv lvClos base free = .ok env) :
    (∀ x, x ∉ inClosure free → env.access x = newEnv.access x) ∧
      ∀ x ∈ inClosure free, ∃ a p, env.access x = some a ∧
        IsFreeAccess orgEnv x lvClos (base + p) a ∧
        (isStored orgEnv x = true → ((inClosure free).filter (isStored orgEnv))[p]? = some x) := by
  rw [buildClosEnv_eq] at h
  obtain ⟨acc, hacc, h⟩ := bind_ok h
  cases h
  obtain ⟨hout, -, hin⟩ := foldAddFree_ok hacc
  exact ⟨hout, hin⟩

theorem removeZeroSized_ok (h : removeZeroSized env lvs = .ok lvs') :
    lvs' = lvs.filter fun lv => isStored env (.lvar lv) := by
  induction lvs generalizing lvs' with
  | nil =>
    cases h
    rfl
  | cons lv lvs ih =>
    obtain ⟨access, haccess, h⟩ := bind_ok h
    have hvar : env.varEnv lv = some access := lookupVar_ok haccess
    split at h
    · have hstored : isStored env (.lvar lv) = false := by simp only [isStored, hvar]
      rw [ih h, filter_cons_of_neg (by simp [hstored])]
    · cases h
    · cases h
    · rename_i hzero _ _
      obtain ⟨rest, hrest, h⟩ := bind_ok h
      cases h
      rw [ih hrest]
      simp [isStored_of_ne hvar hzero]

/-- The elements of the closure are the free variables that are stored. -/
theorem removeZeroSizedRegionClosureLvars_ok
    (h : removeZeroSizedRegionClosureLvars env free = .ok stored) :
    inClosure stored = (inClosure free).filter (isStored env) := by
  obtain ⟨lvs, hlvs, h⟩ := bind_ok h
  cases h
  rw [removeZeroSized_ok hlvs]
  simp only [inClosure, smashFree, FreeVars.elems, id_eq, filter_append, filter_map]
  congr 1
  · congr 1
    rw [filter_eq_self.mpr]
    intro place _
    rfl
  · rw [filter_eq_self.mpr]
    intro excon _
    rfl

/-! ## Values of variables -/

/-- The value of each variable, if it has one at run time. -/
abbrev Vals := FreeVar → Option Int

/-- Bind variables to values, the first one last. -/
def bindVals (ρ : Vals) (pairs : List (FreeVar × Option Int)) : Vals :=
  pairs.foldr (fun pair ρ => update ρ pair.1 pair.2) ρ

/-- What a closure with the given free variables passes on. -/
def closureVals (globals ρ : Vals) (free : FreeVars) : Vals :=
  fun x => if x ∈ inClosure free then ρ x else globals x

variable {globals ρ : Vals}

section Bodies

variable (fetch : Label → Int) (program : Label → Option Fun)

/-- The access stands for the value, if there is one.  A function knows whether
it has a shared closure, and its code has a parameter for it if it has.  No
variable numbered `next` or above is mentioned. -/
structure AccessOk (φ : Frame) (next : Nat) (a : AccessType) (value : Option Int) : Prop where
  denotes : ∀ v, value = some v → denote fetch φ a = some v
  fixed : ∀ lab sclos size formals, a = .fix lab sclos size formals →
    (sclos = none ↔ size = 0) ∧ ∃ f, program lab = some f ∧ (f.clos = none ↔ size = 0)
  unused : ∀ k, next ≤ k → ¬ a.mentions (freshLvar k)

/-- All accesses of the environment are right. -/
def EnvOk (env : Env) (φ : Frame) (ρ : Vals) (next : Nat) : Prop :=
  ∀ x a, env.access x = some a → AccessOk fetch program φ next a (ρ x)

/-- The fields of the object hold the values of the stored variables. -/
def HoldsFree (env : Env) (ρ : Vals) (free : FreeVars) (base : Nat) (φ' : Frame) (obj : Int) :
    Prop :=
  ∀ (p : Nat) (x : FreeVar) (v : Int), ((inClosure free).filter (isStored env))[p]? = some x →
    ρ x = some v → φ'.fields obj (base + p) = v

variable {fetch program} {next : Nat}

theorem AccessOk.none_of_fix
    (h : AccessOk fetch program φ next (.fix lab none size formals) value) :
    value = none := by
  cases hvalue : value with
  | none => rfl
  | some v =>
    have hv := h.denotes v hvalue
    cases hv

theorem AccessOk.mono (h : AccessOk fetch program φ next a value)
    (hkeeps : ∀ v, denote fetch φ a = some v → denote fetch φ' a = some v) (hle : next ≤ next') :
    AccessOk fetch program φ' next' a value := by
  constructor
  · intro v hv
    exact hkeeps v (h.denotes v hv)
  · exact h.fixed
  · intro k hk
    exact h.unused k (Nat.le_trans hle hk)

/-- A body finds its free variables in its closure. -/
theorem buildClosEnv_envOk
    (hbuild : buildClosEnv env globalEnv (freshLvar k) base free = .ok bodyEnv) (hk : k < next')
    (hglobal : EnvOk fetch program globalEnv φ' globals next')
    (henv : EnvOk fetch program env φ ρ next) (hbound : ∀ x ∈ inClosure free, (env.access x).isSome)
    (hholds : HoldsFree env ρ free base φ' (φ'.vars (freshLvar k))) :
    EnvOk fetch program bodyEnv φ' (closureVals globals ρ free) next' := by
  obtain ⟨hout, hin⟩ := buildClosEnv_ok hbuild
  intro x a ha
  unfold closureVals
  by_cases hx : x ∈ inClosure free
  · rw [if_pos hx]
    obtain ⟨b, p, hb, hfree, hp⟩ := hin x hx
    rw [hb] at ha
    cases ha
    obtain ⟨org, horg⟩ := Option.isSome_iff_exists.mp (hbound x hx)
    have horgOk := henv x org horg
    unfold IsFreeAccess at hfree
    split at hfree
    · rename_i hstored
      constructor
      · intro v hv
        rw [hfree.denote fetch φ', hholds p x v (hp hstored) hv]
      · intro lab sclos size formals heq
        rcases hfree with rfl | ⟨lab', sclos', size', formals', hfix, hsize, rfl⟩
        · cases heq
        · cases heq
          rw [hfix] at horg
          cases horg
          exact ⟨by simp [hsize], (horgOk.fixed _ _ _ _ rfl).2⟩
      · intro k' hk' hmentions
        have hne : freshLvar k = freshLvar k' := by
          rcases hfree with rfl | ⟨lab', sclos', size', formals', -, -, rfl⟩
          · exact hmentions
          · simpa only [AccessType.mentions] using hmentions
        have := freshLvar_inj hne
        omega
    · obtain ⟨lab, formals, hfix, rfl⟩ := hfree
      rw [hfix] at horg
      cases horg
      constructor
      · intro v hv
        rw [horgOk.none_of_fix] at hv
        cases hv
      · exact horgOk.fixed
      · intro k' _ hmentions
        simp only [AccessType.mentions] at hmentions
  · rw [if_neg hx]
    rw [hout x hx] at ha
    exact hglobal x a ha

/-- Declaring a variable. -/
theorem EnvOk.declare (h : EnvOk fetch program env φ ρ next)
    (henv' : ∀ y, env'.access y = if y = x then some a else env.access y)
    (ha : AccessOk fetch program φ next a value) :
    EnvOk fetch program env' φ (update ρ x value) next := by
  intro y b hb
  rw [henv'] at hb
  by_cases hy : y = x
  · subst hy
    rw [if_pos rfl] at hb
    cases hb
    rw [update_self]
    exact ha
  · rw [if_neg hy] at hb
    rw [update_of_ne hy]
    exact h y b hb

/-- Declaring several variables. -/
theorem EnvOk.plusDeclWith {declare : α → AccessType → Env → Env} {sort : α → FreeVar}
    (hdeclare : ∀ k a env y,
      (declare k a env).access y = if y = sort k then some a else env.access y)
    (h : EnvOk fetch program env φ ρ next) {xs : List β} {key : β → α}
    {access : β → AccessType} {value : β → Option Int}
    (hxs : ∀ x ∈ xs, AccessOk fetch program φ next (access x) (value x)) :
    EnvOk fetch program (plusDeclWith env declare (xs.map fun x => (key x, access x))) φ
      (bindVals ρ (xs.map fun x => (sort (key x), value x))) next := by
  induction xs with
  | nil => exact h
  | cons x xs ih =>
    have hrest := ih fun x hmem => hxs x (by simp [hmem])
    exact hrest.declare (hdeclare (key x) (access x) _) (hxs x (by simp))

theorem declareKinds_access (env : Env) (rhos : List Binder) (x : FreeVar) :
    (declareKinds env rhos).access x = env.access x := by
  induction rhos with
  | nil => rfl
  | cons rho rhos ih =>
    change (declareRhoKind _ _ (declareKinds env rhos)).access x = _
    rw [declareRhoKind_access, ih]

theorem accessOk_lvar (φ : Frame) (hnumber : ∀ k, next ≤ k → lv ≠ freshLvar k) :
    AccessOk fetch program φ next (.lvar lv) (some (φ.vars lv)) := by
  constructor
  · intro v hv
    exact hv
  · intro lab sclos size formals heq
    cases heq
  · exact hnumber

end Bodies

end MLKit.Backend.ClosConv
