import MLKit.Backend.ClosureConversion
import Mathlib.Data.List.Nodup
import Mathlib.Data.List.Forall2

/-!
# Reading closures

The values that accesses have in the frame of a running function, and how the
accesses to the free variables of a closure are shared without changing them.
-/

namespace MLKit.Backend.ClosConv

open MLKit.Lib Function List

/-- The variables and regions of a running function, and the fields of the
objects in memory. -/
structure Frame where
  vars : Lvar → Int
  regions : Place → Int
  fields : Int → Nat → Int

def Frame.setVar (φ : Frame) (lv : Lvar) (v : Int) : Frame := { φ with vars := update φ.vars lv v }

def Frame.setRegion (φ : Frame) (place : Place) (v : Int) : Frame :=
  { φ with regions := update φ.regions place v }

variable {α : Type} {lv : Lvar} {bindings : List (Lvar × Int)} {v : Int} {ses ses' : List SelectExp}
  {key : SeKey} {ce : ClosExp} {φ : Frame} {r : Access × Nat} {a : AccessType} {env : Env}
  {excon : Excon} {f : String} {x : FreeVar} {sort : α → FreeVar} {free : FreeVars}
  {k' mid lo' hi' next3 : Nat} {seMap : SeMap} {fetch : Label → Int} {ces : List ClosExp}
  {mode : At} {kind : RhoKind} {pp : Pp} {alloc : AtSma} {sma : Sma ClosExp × SelectExp}

section Values

variable (fetch : Label → Int)

/-- The value an access stands for; regions that were dropped and functions
without a shared closure have none. -/
def denote (φ : Frame) : AccessType → Option Int
  | .lvar lv => some (φ.vars lv)
  | .rvar place => some (φ.regions place)
  | .droppedRvar _ => none
  | .select lv i => some (φ.fields (φ.vars lv) i)
  | .label lab => some (fetch lab)
  | .fix _ (some sclos) _ _ => denote φ sclos
  | .fix _ none _ _ => none

def evalCe (φ : Frame) : ClosExp → Option Int
  | .var lv => some (φ.vars lv)
  | .rvar place => some (φ.regions place)
  | .fetch lab => some (fetch lab)
  | .select i ce => (evalCe φ ce).map fun obj => φ.fields obj i
  | _ => none

/-- Bind variables to values, the first one last. -/
def assign (φ : Frame) : List (Lvar × Int) → Frame
  | [] => φ
  | (lv, v) :: rest => (assign φ rest).setVar lv v

def keyValue (φ : Frame) : SeKey → Int
  | .select i lv => φ.fields (φ.vars lv) i
  | .fetch lab => fetch lab

/-- The frame in which the selections are bound. -/
def bindSes (φ : Frame) (ses : List SelectExp) : Frame :=
  assign φ ((ses.filterMap SelectExp.binding).map fun binding =>
    (binding.1, keyValue fetch φ binding.2))

/-- Evaluate the selections an expression begins with. -/
def enter (φ : Frame) : ClosExp → Frame × ClosExp
  | .letExp pat (.ubRecord ces) scope =>
    enter (assign φ (pat.zip (ces.map fun ce => (evalCe fetch φ ce).getD 0))) scope
  | ce => (φ, ce)

theorem assign_vars_of_notMem (φ : Frame) (h : lv ∉ bindings.map Prod.fst) :
    (assign φ bindings).vars lv = φ.vars lv := by
  induction bindings with
  | nil => rfl
  | cons binding rest ih =>
    simp only [map_cons, mem_cons, not_or] at h
    simp only [assign, Frame.setVar, update_of_ne h.1, ih h.2]

theorem assign_vars_of_mem (φ : Frame) (hnodup : (bindings.map Prod.fst).Nodup)
    (h : (lv, v) ∈ bindings) : (assign φ bindings).vars lv = v := by
  induction bindings with
  | nil => cases h
  | cons binding rest ih =>
    simp only [map_cons, nodup_cons] at hnodup
    rcases mem_cons.mp h with rfl | h
    · simp [assign, Frame.setVar]
    · have hne : lv ≠ binding.1 := by
        rintro rfl
        exact hnodup.1 (mem_map.mpr ⟨_, h, rfl⟩)
      simp only [assign, Frame.setVar, update_of_ne hne, ih hnodup.2 h]

theorem assign_regions (φ : Frame) (bindings : List (Lvar × Int)) :
    (assign φ bindings).regions = φ.regions := by
  induction bindings with
  | nil => rfl
  | cons binding rest ih => exact ih

/-- The variables that selections bind. -/
def boundLvs (ses : List SelectExp) : List Lvar := (ses.filterMap SelectExp.binding).map Prod.fst

theorem boundLvs_append (ses ses' : List SelectExp) :
    boundLvs (ses ++ ses') = boundLvs ses ++ boundLvs ses' := by
  simp [boundLvs, filterMap_append]

theorem bindSes_vars_of_notMem (φ : Frame) (h : lv ∉ boundLvs ses) :
    (bindSes fetch φ ses).vars lv = φ.vars lv := by
  apply assign_vars_of_notMem
  rw [map_map]
  exact h

theorem bindSes_vars_of_mem (φ : Frame) (hnodup : (boundLvs ses).Nodup)
    (h : (lv, key) ∈ ses.filterMap SelectExp.binding) :
    (bindSes fetch φ ses).vars lv = keyValue fetch φ key := by
  apply assign_vars_of_mem
  · rw [map_map]
    exact hnodup
  · exact mem_map.mpr ⟨(lv, key), h, rfl⟩

theorem evalCe_bind (φ : Frame) (key : SeKey) : evalCe fetch φ key.bind = some
    (keyValue fetch φ key) := by
  cases key with
  | select i lv | fetch lab => rfl

/-- Selections are evaluated in front of an expression that begins with none. -/
theorem enter_insertSes (hce : ∀ ψ, enter fetch ψ ce = (ψ, ce)) :
    enter fetch φ (insertSes ce ses) = (bindSes fetch φ ses, ce) := by
  unfold insertSes bindSes
  generalize ses.filterMap SelectExp.binding = bindings
  cases bindings with
  | nil => exact hce φ
  | cons binding rest =>
    have hzip : ∀ bindings : List (Lvar × SeKey),
        (bindings.map Prod.fst).zip
            ((bindings.map fun binding => binding.2.bind).map fun ce =>
              (evalCe fetch φ ce).getD 0) =
          bindings.map fun binding => (binding.1, keyValue fetch φ binding.2) := by
      intro bindings
      induction bindings with
      | nil => rfl
      | cons binding rest ih =>
        simp only [map_cons, zip_cons_cons, ih, evalCe_bind, Option.getD_some]
    simp only [isEmpty_cons, Bool.false_eq_true, if_false, enter, hzip, hce]

end Values

/-! ## Resolving accesses -/

/-- The variable holds the value itself or the closure it is in. -/
def AccessType.mentions (lv : Lvar) : AccessType → Prop
  | .lvar lv' => lv' = lv
  | .select lv' _ => lv' = lv
  | .fix _ (some sclos) _ _ => sclos.mentions lv
  | _ => False

/-- How an access is resolved; the numbers are those of the next unused variable
before and after. -/
inductive Resolves (next : Nat) : AccessType → Access → Nat → Prop
  | lvar (lv : Lvar) : Resolves next (.lvar lv) (.var lv, .noneSe) next
  | rvar (place : Place) : Resolves next (.rvar place) (.rvar place, .noneSe) next
  | droppedRvar (place : Place) :
      Resolves next (.droppedRvar place) (.droppedRvar place, .noneSe) next
  | select (lv : Lvar) (i : Nat) :
      Resolves next (.select lv i) (.var (freshLvar next), .selectSe (freshLvar next) i lv) (next + 1)
  | label (lab : Label) :
      Resolves next (.label lab) (.var (freshLvar next), .fetchSe (freshLvar next) lab) (next + 1)
  | fix {sclos : AccessType} {access : Access} {next' size : Nat} {lab : Label}
      {formals : List Binder} (h : Resolves next sclos access next') :
      Resolves next (.fix lab (some sclos) size formals) access next'

def lookup (env : Env) : FreeVar → Nat → Except String (Access × Nat)
  | .lvar lv => lookupVe env lv
  | .excon excon => lookupExcon env excon
  | .rho place => lookupRho env place "gen_ces_and_ses_free"

variable {next : Nat} {place : Place}

theorem resolveSe_resolves (h : resolveSe next a = .ok r) : Resolves next a r.1 r.2 := by
  cases a <;> cases h <;> constructor

theorem lookupVe_resolves (h : lookupVe env lv next = .ok r) :
    ∃ a, env.varEnv lv = some a ∧ Resolves next a r.1 r.2 := by
  unfold lookupVe at h
  split at h
  · exact ⟨_, by assumption, .fix (resolveSe_resolves h)⟩
  · cases h
  · exact ⟨_, by assumption, resolveSe_resolves h⟩
  · cases h

theorem lookupExcon_resolves (h : lookupExcon env excon next = .ok r) :
    ∃ a, (env.exconEnv excon).map Prod.fst = some a ∧ Resolves next a r.1 r.2 := by
  unfold lookupExcon at h
  split at h <;> cases h <;> exact ⟨_, by assumption, by constructor⟩

theorem lookupRho_resolves (h : lookupRho env place f next = .ok r) :
    ∃ a, env.rhoEnv place = some a ∧ Resolves next a r.1 r.2 := by
  unfold lookupRho at h
  split at h <;> cases h <;> exact ⟨_, by assumption, by constructor⟩

theorem lookup_resolves (h : lookup env x next = .ok r) :
    ∃ a, env.access x = some a ∧ Resolves next a r.1 r.2 := by
  cases x with
  | lvar lv => exact lookupVe_resolves h
  | excon excon => exact lookupExcon_resolves h
  | rho place => exact lookupRho_resolves h

variable {next' : Nat} {access : Access}

/-- An access is direct, through a variable the access mentions, or it is the
selection bound to the next variable. -/
theorem Resolves.cases (h : Resolves next a access next') :
    (access.2.binding = none ∧ next' = next ∧ ∀ lv, access.1 = .var lv → a.mentions lv) ∨
      ∃ key, access.2.binding = some (freshLvar next, key) ∧ access.1 = .var (freshLvar next) ∧
        next' = next + 1 := by
  induction h with
  | lvar lv => exact Or.inl ⟨rfl, rfl, fun lv' h => by cases h; rfl⟩
  | rvar place | droppedRvar place => exact Or.inl ⟨rfl, rfl, fun lv' h => by cases h⟩
  | select lv i | label lab => exact Or.inr ⟨_, rfl, rfl, rfl⟩
  | fix h ih =>
    rcases ih with ⟨hbinding, hnext, hmentions⟩ | hfresh
    · exact Or.inl ⟨hbinding, hnext, hmentions⟩
    · exact Or.inr hfresh

/-- Variables resolved one after the other. -/
inductive ResolvesAll (env : Env) : List FreeVar → Nat → List Access → Nat → Prop
  | nil (next : Nat) : ResolvesAll env [] next [] next
  | cons {x : FreeVar} {xs : List FreeVar} {a : AccessType} {access : Access}
      {accesses : List Access} {next next₁ next₂ : Nat} (haccess : env.access x = some a)
      (hfirst : Resolves next a access next₁) (hrest : ResolvesAll env xs next₁ accesses next₂) :
      ResolvesAll env (x :: xs) next (access :: accesses) next₂

variable {xs : List FreeVar} {accesses : List Access} {next₁ next₂ : Nat}

theorem mapFresh_resolves {f : α → Nat → Except String (Access × Nat)}
    {xs : List α} {r : List Access × Nat}
    (hf : ∀ a next, f a next = lookup env (sort a) next) (h : mapFresh f xs next = .ok r) :
    ResolvesAll env (xs.map sort) next r.1 r.2 := by
  induction xs generalizing next r with
  | nil =>
    cases h
    exact .nil next
  | cons x xs ih =>
    obtain ⟨first, hfirst, h⟩ := bind_ok h
    obtain ⟨rest, hrest, h⟩ := bind_ok h
    cases h
    rw [hf] at hfirst
    obtain ⟨a, haccess, hresolves⟩ := lookup_resolves hfirst
    exact .cons haccess hresolves (ih hrest)

theorem genCesAndSesFree_resolves {r : Free Access × Nat}
    (h : genCesAndSesFree env free next = .ok r) :
    ∃ next₁ next₂, ResolvesAll env (free.lvs.map .lvar) next r.1.lvs next₁ ∧
      ResolvesAll env (free.excons.map .excon) next₁ r.1.excons next₂ ∧
      ResolvesAll env (free.rhos.map .rho) next₂ r.1.rhos r.2 := by
  obtain ⟨lvs, hlvs, h⟩ := bind_ok h
  obtain ⟨excons, hexcons, h⟩ := bind_ok h
  obtain ⟨rhos, hrhos, h⟩ := bind_ok h
  cases h
  exact ⟨_, _, mapFresh_resolves (fun _ _ => rfl) hlvs, mapFresh_resolves (fun _ _ => rfl) hexcons,
    mapFresh_resolves (fun _ _ => rfl) hrhos⟩

/-! ## Unused variables -/

/-- The selections bind different variables, numbered from `lo` to `hi`. -/
structure BindsFresh (lo hi : Nat) (ses : List SelectExp) : Prop where
  nodup : (boundLvs ses).Nodup
  range : ∀ lv ∈ boundLvs ses, ∃ k, lo ≤ k ∧ k < hi ∧ lv = freshLvar k

theorem BindsFresh.nil (lo hi : Nat) : BindsFresh lo hi [] := ⟨nodup_nil, fun lv h => by cases h⟩

variable {k lo hi : Nat}

theorem freshLvar_inj (h : freshLvar k = freshLvar k') : k = k' := by
  cases h
  rfl

theorem BindsFresh.append (h : BindsFresh lo mid ses) (h' : BindsFresh mid hi ses') (hlo : lo ≤ mid)
    (hhi : mid ≤ hi) : BindsFresh lo hi (ses ++ ses') := by
  constructor
  · rw [boundLvs_append]
    apply List.Nodup.append h.nodup h'.nodup
    intro lv hlv hlv'
    obtain ⟨k, -, hk, rfl⟩ := h.range lv hlv
    obtain ⟨k', hk', -, heq⟩ := h'.range _ hlv'
    have := freshLvar_inj heq
    omega
  · intro lv hlv
    rw [boundLvs_append] at hlv
    rcases mem_append.mp hlv with hlv | hlv
    · obtain ⟨k, hk, hk', heq⟩ := h.range lv hlv
      exact ⟨k, hk, by omega, heq⟩
    · obtain ⟨k, hk, hk', heq⟩ := h'.range lv hlv
      exact ⟨k, by omega, hk', heq⟩

theorem boundLvs_sublist (h : ses.Sublist ses') : (boundLvs ses).Sublist (boundLvs ses') :=
  (h.filterMap SelectExp.binding).map Prod.fst

theorem BindsFresh.sublist (h : BindsFresh lo hi ses') (hsub : ses.Sublist ses') :
    BindsFresh lo hi ses := by
  constructor
  · exact h.nodup.sublist (boundLvs_sublist hsub)
  · intro lv hlv
    exact h.range lv ((boundLvs_sublist hsub).subset hlv)

theorem BindsFresh.perm (h : BindsFresh lo hi ses) (hperm : ses.Perm ses') :
    BindsFresh lo hi ses' := by
  have hbound : (boundLvs ses).Perm (boundLvs ses') :=
    (hperm.filterMap SelectExp.binding).map Prod.fst
  constructor
  · exact hbound.nodup_iff.mp h.nodup
  · intro lv hlv
    exact h.range lv (hbound.mem_iff.mpr hlv)

theorem BindsFresh.mono (h : BindsFresh lo hi ses) (hlo : lo' ≤ lo) (hhi : hi ≤ hi') :
    BindsFresh lo' hi' ses := by
  constructor
  · exact h.nodup
  · intro lv hlv
    obtain ⟨k, hk, hk', heq⟩ := h.range lv hlv
    exact ⟨k, Nat.le_trans hlo hk, Nat.lt_of_lt_of_le hk' hhi, heq⟩

theorem Resolves.bindsFresh (h : Resolves next a access next') :
    BindsFresh next next' [access.2] ∧ next ≤ next' := by
  rcases h.cases with ⟨hbinding, rfl, -⟩ | ⟨key, hbinding, -, rfl⟩
  · have hbound : boundLvs [access.2] = [] := by simp [boundLvs, hbinding]
    exact ⟨⟨hbound ▸ nodup_nil, by simp [hbound]⟩, Nat.le_refl _⟩
  · have hbound : boundLvs [access.2] = [freshLvar next] := by simp [boundLvs, hbinding]
    refine ⟨⟨hbound ▸ nodup_singleton _, fun lv hlv => ?_⟩, Nat.le_succ _⟩
    rw [hbound] at hlv
    exact ⟨next, Nat.le_refl _, Nat.lt_succ_self _, mem_singleton.mp hlv⟩

theorem ResolvesAll.bindsFresh (h : ResolvesAll env xs next accesses next') :
    BindsFresh next next' (accesses.map Prod.snd) ∧ next ≤ next' := by
  induction h with
  | nil next => exact ⟨BindsFresh.nil _ _, Nat.le_refl _⟩
  | cons _ hfirst _ ih =>
    obtain ⟨hbinds, hle⟩ := hfirst.bindsFresh
    exact ⟨hbinds.append ih.1 hle ih.2, Nat.le_trans hle ih.2⟩

/-! ## Shared selections -/

/-- Every expression in the map is a variable that one of the selections binds
to the key. -/
def Binds (ses : List SelectExp) (seMap : SeMap) : Prop :=
  ∀ key ce, seMap key = some ce → ∃ lv, (lv, key) ∈ ses.filterMap SelectExp.binding ∧ ce = .var lv

/-- An access is replaced by the variable of an equal selection. -/
def Shares (ses : List SelectExp) (access : Access) (ce : ClosExp) : Prop :=
  match access.2.binding with
  | none => ce = access.1
  | some (_, key) => ∃ lv, (lv, key) ∈ ses.filterMap SelectExp.binding ∧ ce = .var lv

/-- The expression of an access with a selection is the variable it binds. -/
def IsAccess (access : Access) : Prop :=
  ∀ lv key, access.2.binding = some (lv, key) → access.1 = .var lv

theorem Binds.mono (h : Binds ses seMap) (hsub : ses ⊆ ses') : Binds ses' seMap := by
  intro key ce hce
  obtain ⟨lv, hlv, heq⟩ := h key ce hce
  exact ⟨lv, filterMap_subset _ hsub hlv, heq⟩

theorem Shares.mono (h : Shares ses access ce) (hsub : ses ⊆ ses') : Shares ses' access ce := by
  revert h
  unfold Shares
  cases access.2.binding with
  | none => exact id
  | some binding =>
    rintro ⟨lv, hlv, heq⟩
    exact ⟨lv, filterMap_subset _ hsub hlv, heq⟩

theorem unifyCeSe_sublist (accesses : List Access) (seMap : SeMap) :
    (unifyCeSe accesses seMap).2.1.Sublist (accesses.map Prod.snd) := by
  induction accesses with
  | nil => exact List.Sublist.refl _
  | cons access rest ih =>
    change (resolveCe access (unifyCeSe rest seMap)).2.1.Sublist _
    unfold resolveCe
    split
    · exact ih.trans (sublist_cons_self _ _)
    · split
      · exact ih.cons_cons _
      · exact ih.trans (sublist_cons_self _ _)

theorem unifyCeSe_shares (hbinds : Binds ses seMap)
    (haccess : ∀ access ∈ accesses, IsAccess access) :
    Binds ((unifyCeSe accesses seMap).2.1 ++ ses) (unifyCeSe accesses seMap).2.2 ∧
      List.Forall₂ (Shares ((unifyCeSe accesses seMap).2.1 ++ ses)) accesses
        (unifyCeSe accesses seMap).1 := by
  induction accesses with
  | nil => exact ⟨hbinds, .nil⟩
  | cons access rest ih =>
    obtain ⟨ihBinds, ihShares⟩ := ih fun access hmem => haccess access (by simp [hmem])
    change Binds ((resolveCe access (unifyCeSe rest seMap)).2.1 ++ ses)
        (resolveCe access (unifyCeSe rest seMap)).2.2 ∧
      List.Forall₂ (Shares ((resolveCe access (unifyCeSe rest seMap)).2.1 ++ ses)) (access :: rest)
        (resolveCe access (unifyCeSe rest seMap)).1
    generalize unifyCeSe rest seMap = acc at ihBinds ihShares ⊢
    unfold resolveCe
    cases hbinding : access.2.binding with
    | none =>
      refine ⟨ihBinds, .cons ?_ ihShares⟩
      simp [Shares, hbinding]
    | some binding =>
      obtain ⟨lv, key⟩ := binding
      cases hfound : acc.2.2 key with
      | some ce' =>
        refine ⟨by simpa [hfound] using ihBinds, ?_⟩
        simp only [hfound]
        refine .cons ?_ ihShares
        simp only [Shares, hbinding]
        exact ihBinds key ce' hfound
      | none =>
        simp only [hfound]
        have hsub : acc.2.1 ++ ses ⊆ (access.2 :: acc.2.1) ++ ses :=
          subset_cons_of_subset _ (List.Subset.refl _)
        have hself : (lv, key) ∈ ((access.2 :: acc.2.1) ++ ses).filterMap SelectExp.binding :=
          mem_filterMap.mpr ⟨access.2, by simp, hbinding⟩
        have hvar := haccess access (by simp) lv key hbinding
        constructor
        · intro key' ce hce
          by_cases hkey : key' = key
          · subst hkey
            rw [update_self] at hce
            exact ⟨lv, hself, (Option.some.inj hce).symm.trans hvar⟩
          · rw [update_of_ne hkey] at hce
            exact (ihBinds.mono hsub) key' ce hce
        · refine .cons ?_ (ihShares.imp fun _ _ h => h.mono hsub)
          simp only [Shares, hbinding]
          exact ⟨lv, hself, hvar⟩

theorem bindSes_regions (fetch : Label → Int) (φ : Frame) (ses : List SelectExp) :
    (bindSes fetch φ ses).regions = φ.regions :=
  assign_regions _ _

/-- Sharing does not change the value of an access. -/
theorem Resolves.shared (h : Resolves next a access next') (hshares : Shares ses access ce)
    (hnodup : (boundLvs ses).Nodup) (hold : ∀ lv, a.mentions lv → lv ∉ boundLvs ses) :
    evalCe fetch (bindSes fetch φ ses) ce = denote fetch φ a := by
  induction h with
  | lvar lv =>
    cases hshares
    simp only [evalCe, denote, bindSes_vars_of_notMem fetch φ (hold lv rfl)]
  | rvar place =>
    cases hshares
    simp only [evalCe, denote, bindSes_regions]
  | droppedRvar place =>
    cases hshares
    rfl
  | select lv i | label lab =>
    obtain ⟨lv', hmem, rfl⟩ := hshares
    simp only [evalCe, bindSes_vars_of_mem fetch φ hnodup hmem]
    rfl
  | fix h ih =>
    rw [ih hshares hold, denote]

theorem Resolves.isAccess (h : Resolves next a access next') : IsAccess access := by
  intro lv key hbinding
  rcases h.cases with ⟨hnone, -⟩ | ⟨key', hsome, hvar, -⟩
  · rw [hnone] at hbinding
    cases hbinding
  · rw [hsome] at hbinding
    cases hbinding
    exact hvar

theorem ResolvesAll.isAccess (h : ResolvesAll env xs next accesses next') :
    ∀ access ∈ accesses, IsAccess access := by
  induction h with
  | nil next =>
    intro access hmem
    cases hmem
  | cons _ hfirst _ ih =>
    exact forall_mem_cons.2 ⟨hfirst.isAccess, ih⟩

/-- No access of the environment mentions a variable numbered `next` or above. -/
def Unused (env : Env) (next : Nat) : Prop :=
  ∀ x a k, env.access x = some a → next ≤ k → ¬ a.mentions (freshLvar k)

/-- The values of the elements are those of the variables. -/
theorem ResolvesAll.values (fetch : Label → Int) (φ : Frame)
    (h : ResolvesAll env xs next accesses next') (hshares : List.Forall₂ (Shares ses) accesses ces)
    (hfresh : BindsFresh lo hi ses) (hunused : Unused env lo) :
    List.Forall₂ (fun x ce => ∃ a, env.access x = some a ∧
      evalCe fetch (bindSes fetch φ ses) ce = denote fetch φ a) xs ces := by
  induction h generalizing ces with
  | nil next =>
    cases hshares
    exact .nil
  | cons haccess hfirst _ ih =>
    cases hshares with
    | cons hshare hrest =>
      refine .cons ⟨_, haccess, ?_⟩ (ih hrest)
      apply hfirst.shared hshare hfresh.nodup
      intro lv hmentions hlv
      obtain ⟨k, hk, -, rfl⟩ := hfresh.range lv hlv
      exact hunused _ _ k haccess hk hmentions

/-! ## The elements of a closure -/

/-- A storage mode with the selection of its region. -/
def IsSmaAccess (sma : Sma ClosExp × SelectExp) : Prop :=
  ∀ lv key, sma.2.binding = some (lv, key) → getCe sma.1 = .ok (.var lv)

theorem convertSma_getCe {sma : Sma ClosExp}
    (h : convertSma mode kind ce pp = .ok sma) : getCe sma = .ok ce := by
  unfold convertSma at h
  split at h <;> cases h <;> rfl

theorem convertAlloc_fresh {r : (Sma ClosExp × SelectExp) × Nat}
    (h : convertAlloc env alloc next = .ok r) :
    IsSmaAccess r.1 ∧ BindsFresh next r.2 [r.1.2] ∧ next ≤ r.2 := by
  cases alloc with
  | none =>
    cases h
    exact ⟨by rintro lv key ⟨⟩, ⟨nodup_nil, by rintro lv ⟨⟩⟩, Nat.le_refl _⟩
  | some alloc =>
    obtain ⟨access, haccess, h⟩ := bind_ok h
    obtain ⟨kind, -, h⟩ := bind_ok h
    obtain ⟨sma, hsma, h⟩ := bind_ok h
    cases h
    obtain ⟨a, -, hresolves⟩ := lookupRho_resolves haccess
    refine ⟨fun lv key hbinding => ?_, hresolves.bindsFresh⟩
    rw [convertSma_getCe hsma, hresolves.isAccess lv key hbinding]

theorem unifySmaSe_spec {r : Sma ClosExp × List SelectExp × SeMap} (hsma : IsSmaAccess sma)
    (h : unifySmaSe sma SeMap.empty = .ok r) : r.2.1.Sublist [sma.2] ∧ Binds r.2.1 r.2.2 := by
  unfold unifySmaSe at h
  cases hbinding : sma.2.binding with
  | none =>
    rw [hbinding] at h
    cases h
    exact ⟨nil_sublist _, fun key ce hce => by cases hce⟩
  | some binding =>
    obtain ⟨lv, key⟩ := binding
    rw [hbinding] at h
    obtain ⟨ce, hce, h⟩ := bind_ok h
    cases h
    refine ⟨List.Sublist.refl _, fun key' ce' hce' => ?_⟩
    have hvar := (hsma lv key hbinding).symm.trans hce
    by_cases hkey : key' = key
    · subst hkey
      simp only [update_self] at hce'
      cases hce'
      cases hvar
      exact ⟨lv, mem_filterMap.mpr ⟨sma.2, by simp, hbinding⟩, rfl⟩
    · simp only [update_of_ne hkey] at hce'
      cases hce'

/-- The elements of a closure, in the frame in which the selections are bound:
each has the value of its variable. -/
structure ElemValues (fetch : Label → Int) (φ : Frame) (env : Env) (free : FreeVars)
    (ces : Free ClosExp) (ses : List SelectExp) : Prop where
  lvs : List.Forall₂ (fun x ce => ∃ a, env.access x = some a ∧
    evalCe fetch (bindSes fetch φ ses) ce = denote fetch φ a) (free.lvs.map .lvar) ces.lvs
  excons : List.Forall₂ (fun x ce => ∃ a, env.access x = some a ∧
    evalCe fetch (bindSes fetch φ ses) ce = denote fetch φ a) (free.excons.map .excon) ces.excons
  rhos : List.Forall₂ (fun x ce => ∃ a, env.access x = some a ∧
    evalCe fetch (bindSes fetch φ ses) ce = denote fetch φ a) (free.rhos.map .rho) ces.rhos

/-- Between looking the elements up and sharing their selections other variables
may be made. -/
theorem unifySmasCesAndSesFree_values (fetch : Label → Int) (φ : Frame) {accesses : Free Access}
    {r : Sma ClosExp × Free ClosExp × List SelectExp}
    (hunused : Unused env next) (haccesses : genCesAndSesFree env free next = .ok (accesses, next₁))
    (hle : next₁ ≤ next₂) (hsma : IsSmaAccess sma) (hfresh : BindsFresh next₂ next3 [sma.2])
    (hle' : next₂ ≤ next3) (h : unifySmasCesAndSesFree sma accesses = .ok r) :
    ElemValues fetch φ env free r.2.1 r.2.2 := by
  obtain ⟨n1, n2, hlvs, hexcons, hrhos⟩ := genCesAndSesFree_resolves haccesses
  obtain ⟨first, hfirst, h⟩ := bind_ok h
  obtain ⟨sma', sesSma, seMap⟩ := first
  obtain ⟨hsesSma, hbinds⟩ := unifySmaSe_spec hsma hfirst
  obtain ⟨hbindsRhos, hsharesRhos⟩ := unifyCeSe_shares hbinds hrhos.isAccess
  obtain ⟨hbindsExcons, hsharesExcons⟩ := unifyCeSe_shares hbindsRhos hexcons.isAccess
  obtain ⟨-, hsharesLvs⟩ := unifyCeSe_shares hbindsExcons hlvs.isAccess
  have hsubRhos := unifyCeSe_sublist accesses.rhos seMap
  have hsubExcons := unifyCeSe_sublist accesses.excons (unifyCeSe accesses.rhos seMap).2.2
  have hsubLvs := unifyCeSe_sublist accesses.lvs
    (unifyCeSe accesses.excons (unifyCeSe accesses.rhos seMap).2.2).2.2
  have hr : ∀ rhos excons lvs, unifyCeSe accesses.rhos seMap = rhos →
      unifyCeSe accesses.excons rhos.2.2 = excons → unifyCeSe accesses.lvs excons.2.2 = lvs →
      r = (sma', { lvs := lvs.1, excons := excons.1, rhos := rhos.1 },
        sesSma ++ rhos.2.1 ++ excons.2.1 ++ lvs.2.1) := by
    rintro _ _ _ rfl rfl rfl
    exact (Except.ok.inj h).symm
  rw [hr _ _ _ rfl rfl rfl]
  clear h hr
  generalize unifyCeSe accesses.rhos seMap = rhos at *
  generalize unifyCeSe accesses.excons rhos.2.2 = excons at *
  generalize unifyCeSe accesses.lvs excons.2.2 = lvs at *
  have hfreshAll : BindsFresh next next3 (sesSma ++ rhos.2.1 ++ excons.2.1 ++ lvs.2.1) := by
    obtain ⟨hf1, hle1⟩ := hlvs.bindsFresh
    obtain ⟨hf2, hle2⟩ := hexcons.bindsFresh
    obtain ⟨hf3, hle3⟩ := hrhos.bindsFresh
    have hleft := (((hf1.sublist hsubLvs).append (hf2.sublist hsubExcons) hle1 hle2).append
      (hf3.sublist hsubRhos) (Nat.le_trans hle1 hle2) hle3).mono (Nat.le_refl _) hle
    have hall := hleft.append (hfresh.sublist hsesSma) (by omega) hle'
    classical
    refine hall.perm (perm_iff_count.2 fun se => ?_)
    simp only [count_append]
    omega
  refine ⟨hlvs.values fetch φ (hsharesLvs.imp fun _ _ hshare => hshare.mono ?_) hfreshAll hunused,
    hexcons.values fetch φ (hsharesExcons.imp fun _ _ hshare => hshare.mono ?_) hfreshAll hunused,
    hrhos.values fetch φ (hsharesRhos.imp fun _ _ hshare => hshare.mono ?_) hfreshAll hunused⟩
  all_goals
    intro se hse
    simp only [mem_append] at hse ⊢
    tauto

end MLKit.Backend.ClosConv
