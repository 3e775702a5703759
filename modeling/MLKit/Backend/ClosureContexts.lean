import MLKit.Backend.ClosureBodies

/-!
# Running converted functions

The program points of a converted program, with the frame of the running
function and the values of the variables in scope: functions are entered with
the closure made for them, at any depth of nesting.  The environment of every
such point is right.
-/

namespace MLKit.Backend.ClosConv

open MLKit.Lib Function List

/-! ## Making closures -/

/-- Each stored variable has the value of its element. -/
def ElemsOk (fetch : Label → Int) (φ φ₁ : Frame) (env : Env) (xs : List FreeVar)
    (ces : List ClosExp) : Prop :=
  List.Forall₂ (fun x ce => ∃ a, env.access x = some a ∧
    evalCe fetch φ₁ ce = denote fetch φ a) xs ces

variable {β : Type} {env globalEnv : Env} {φ φ₁ φ' : Frame} {free stored : FreeVars}
  {ses : List SelectExp} {fetch : Label → Int} {ces : List ClosExp} {x : FreeVar} {ρ : Vals}
  {base size k lo hi : Nat} {obj : Int} {args : List Lvar} {newLab : Label}
  {alloc sharedClos : AtSma} {ccBody ccScope : CcTrip} {result : ClosExp × List Fun × Nat}
  {dropRho : Place → Place} {functions : List FixFun} {access : Access} {ce : ClosExp}
  {accesses : List Access} {lvar : Lvar}

theorem ElemValues.elemsOk {ces : Free ClosExp} (h : ElemValues fetch φ env free ces ses) :
    ElemsOk fetch φ (bindSes fetch φ ses) env (inClosure free) (smashFree ces) := by
  have happend := rel_append (rel_append h.rhos h.lvs) h.excons
  simpa only [ElemsOk, inClosure, smashFree, FreeVars.elems, id_eq] using happend

theorem ElemsOk.elem {xs : List FreeVar}
    {p : Nat} (h : ElemsOk fetch φ φ₁ env xs ces) (hp : xs[p]? = some x) :
    ∃ ce a, ces[p]? = some ce ∧ env.access x = some a ∧
      evalCe fetch φ₁ ce = denote fetch φ a := by
  obtain ⟨hlt, rfl⟩ := List.getElem?_eq_some_iff.mp hp
  have hlt' : p < ces.length := by rwa [← List.Forall₂.length_eq h]
  obtain ⟨a, ha, hvalue⟩ := List.Forall₂.get h hlt hlt'
  exact ⟨ces[p], a, List.getElem?_eq_getElem hlt', ha, hvalue⟩

theorem ElemsOk.bound (h : ElemsOk fetch φ φ₁ env (inClosure stored) ces)
    (hstored : inClosure stored = (inClosure free).filter (isStored env)) :
    ∀ x ∈ inClosure free, (env.access x).isSome := by
  intro x hx
  cases hkept : isStored env x with
  | true =>
    have hmem : x ∈ inClosure stored := by
      rw [hstored]
      exact mem_filter.mpr ⟨hx, hkept⟩
    obtain ⟨p, hp⟩ := mem_iff_getElem?.mp hmem
    obtain ⟨-, a, -, ha, -⟩ := h.elem hp
    rw [ha]
    rfl
  | false =>
    obtain ⟨lab, formals, haccess⟩ := access_of_not_stored hkept
    rw [haccess]
    rfl

section Closures

variable {fetch : Label → Int} {program : Label → Option Fun}

/-- An object holds the values of the elements, in the frame in which the
selections are bound. -/
def StoresElems (fetch : Label → Int) (φ₁ : Frame) (ces : List ClosExp) (base : Nat) (φ' : Frame)
    (obj : Int) : Prop :=
  ∀ (p : Nat) (ce : ClosExp) (v : Int), ces[p]? = some ce → evalCe fetch φ₁ ce = some v →
    φ'.fields obj (base + p) = v

variable {next : Nat}

theorem ElemsOk.holdsFree (h : ElemsOk fetch φ φ₁ env (inClosure stored) ces)
    (hstored : inClosure stored = (inClosure free).filter (isStored env))
    (henv : EnvOk fetch program env φ ρ next) (hobj : StoresElems fetch φ₁ ces base φ' obj) :
    HoldsFree env ρ free base φ' obj := by
  intro p x v hp hv
  rw [← hstored] at hp
  obtain ⟨ce, a, hce, ha, hvalue⟩ := h.elem hp
  apply hobj p ce v hce
  rw [hvalue]
  exact (henv x a ha).denotes v hv

/-- The parts of an `FN` that is converted. -/
theorem ccFn_ok {result : ClosExp × Fun × Nat}
    (h : ccFn globalEnv env newLab args free alloc ccBody next = .ok result) :
    ∃ stored envBody accesses body sma parts,
      removeZeroSizedRegionClosureLvars env free = .ok stored ∧
      buildClosEnv env globalEnv (freshLvar next) initClosOffset free = .ok envBody ∧
      genCesAndSesFree env stored (next + 1) = .ok accesses ∧
      ccBody (declareArgs envBody args) accesses.2 = .ok body ∧
      convertAlloc env alloc body.2 = .ok sma ∧
      unifySmasCesAndSesFree sma.1 accesses.1 = .ok parts ∧
      result = (insertSes (.closRecord newLab parts.2.1 parts.1) parts.2.2,
        { lab := newLab, clos := some (freshLvar next), regArgs := [], args := args,
          bodyEnv := declareArgs envBody args, body := body.1 }, sma.2) := by
  obtain ⟨stored, hstored, h⟩ := bind_ok h
  obtain ⟨envBody, hbuild, h⟩ := bind_ok h
  obtain ⟨accesses, haccesses, h⟩ := bind_ok h
  obtain ⟨body, hbody, h⟩ := bind_ok h
  obtain ⟨sma, hsma, h⟩ := bind_ok h
  obtain ⟨parts, hparts, h⟩ := bind_ok h
  exact ⟨stored, envBody, accesses, body, sma, parts, hstored, hbuild, haccesses, hbody, hsma,
    hparts, (Except.ok.inj h).symm⟩

/-- The parts of a `FIX` that is converted. -/
theorem ccFix_ok
    (h : ccFix globalEnv env dropRho free sharedClos functions ccScope next = .ok result) :
    ∃ stored accesses funs, removeZeroSizedRegionClosureLvars env free = .ok stored ∧
      genCesAndSesFree env stored (next + 1) = .ok accesses ∧
      mapFresh (compileFn globalEnv env dropRho free (size3 stored) functions) functions
        accesses.2 = .ok funs ∧
      result.2.1 = funs.1 ∧
      (size3 stored ≠ 0 → ∃ sma parts scope, convertAlloc env sharedClos funs.2 = .ok sma ∧
        unifySmasCesAndSesFree sma.1 accesses.1 = .ok parts ∧
        result.1 =
          insertSes (.letExp [freshLvar next] (.sclosRecord parts.2.1 parts.1) scope) parts.2.2) :=
      by
  obtain ⟨stored, hstored, h⟩ := bind_ok h
  obtain ⟨accesses, haccesses, h⟩ := bind_ok h
  obtain ⟨⟨funs, next2⟩, hfuns, h⟩ := bind_ok h
  dsimp only at h
  by_cases hsize : size3 stored = 0
  · rw [if_pos hsize] at h
    obtain ⟨scope, -, h⟩ := bind_ok h
    cases h
    exact ⟨stored, accesses, (funs, next2), hstored, haccesses, hfuns, rfl,
      fun hne => absurd hsize hne⟩
  · rw [if_neg hsize] at h
    obtain ⟨sma, hsma, h⟩ := bind_ok h
    obtain ⟨parts, hparts, h⟩ := bind_ok h
    obtain ⟨scope, -, h⟩ := bind_ok h
    cases h
    exact ⟨stored, accesses, (funs, next2), hstored, haccesses, hfuns, rfl,
      fun _ => ⟨sma, parts, scope.1, hsma, hparts, rfl⟩⟩

end Closures

/-! ## Program points -/

/-- The arguments of a function are in its frame. -/
def argVals (φ : Frame) (ρ : Vals) (args : List Lvar) : Vals :=
  bindVals ρ (args.map fun lv => (.lvar lv, some (φ.vars lv)))

/-- The functions of a `FIX` stand for their shared closure. -/
def funVals (φ : Frame) (ρ : Vals) (size : Nat) (lvSclos : Lvar) (functions : List FixFun) : Vals :=
  bindVals ρ (functions.map fun f =>
    (.lvar f.lvar, if size = 0 then none else some (φ.vars lvSclos)))

/-- Region parameters are in the frame. -/
def formalVals (φ : Frame) (ρ : Vals) (formals : List Binder) (regArgs : List Lvar) : Vals :=
  bindVals ρ ((formals.zip regArgs).map fun pair => (.rho pair.1.1, some (φ.vars pair.2)))

/-- Region parameters nothing is put into are not passed. -/
def dropVals (ρ : Vals) (drops : List Binder) : Vals :=
  bindVals ρ (drops.map fun rho => (.rho rho.1, none))

def AccessType.mentionsRho (place : Place) : AccessType → Prop
  | .rvar place' => place' = place
  | .fix _ (some sclos) _ _ => sclos.mentionsRho place
  | _ => False

/-- Variables of the source program are not those made here. -/
def IsSource (lv : Lvar) (next : Nat) : Prop := ∀ k, next ≤ k → lv ≠ freshLvar k

section Contexts

variable (fetch : Label → Int) (program : Label → Option Fun) (globalEnv : Env) (globals : Vals)

/-- The environment, frame, values of variables and next unused variable at the
points of a program.  `run` stands for everything that leaves the values of the
accesses alone; the others bind variables or enter functions. -/
inductive Context : Env → Frame → Vals → Nat → Prop
  | top (φ : Frame) (next : Nat) : Context globalEnv φ globals next
  | run {env : Env} {φ φ' : Frame} {ρ : Vals} {next next' : Nat} (h : Context env φ ρ next)
      (hkeeps : ∀ x a v, env.access x = some a → denote fetch φ a = some v →
        denote fetch φ' a = some v)
      (hle : next ≤ next') : Context env φ' ρ next'
  | letVar {env : Env} {φ : Frame} {ρ : Vals} {next : Nat} (h : Context env φ ρ next) (lv : Lvar)
      (v : Int) (hnew : ∀ x a, env.access x = some a → ¬ a.mentions lv)
      (hsource : IsSource lv next) :
      Context (declareLvar lv (.lvar lv) env) (φ.setVar lv v) (update ρ (.lvar lv) (some v)) next
  | letregion {env : Env} {φ : Frame} {ρ : Vals} {next : Nat} (h : Context env φ ρ next)
      (place : Place) (phsize : PhSize) (v : Int)
      (hnew : ∀ x a, env.access x = some a → ¬ a.mentionsRho place) :
      Context (declareRho place (.rvar place) (declareRhoKind place (mult true phsize) env))
        (φ.setRegion place v) (update ρ (.rho place) (some v)) next
  | exception {env : Env} {φ : Frame} {ρ : Vals} {next : Nat} (h : Context env φ ρ next)
      (excon : Excon) (arity : ArityExcon) (v : Int) :
      Context (declareExcon excon (.lvar (freshLvar next), arity) env)
        (φ.setVar (freshLvar next) v) (update ρ (.excon excon) (some v)) (next + 1)
  | fnBody {env : Env} {φ φ₁ φ' : Frame} {ρ : Vals} {next : Nat} (h : Context env φ ρ next)
      {newLab lab : Label} {args : List Lvar} {free : FreeVars} {alloc : AtSma} {ccBody : CcTrip}
      {result : ClosExp × Fun × Nat} {ces : Free ClosExp} {sma : Sma ClosExp} {nextBody : Nat}
      (hbody : ∀ env n r, ccBody env n = .ok r → n ≤ r.2)
      (hcc : ccFn globalEnv env newLab args free alloc ccBody next = .ok result)
      (hmade : enter fetch φ result.1 = (φ₁, .closRecord lab ces sma))
      (hclos : ∀ lv, result.2.1.clos = some lv →
        StoresElems fetch φ₁ (smashFree ces) initClosOffset φ' (φ'.vars lv))
      (hargs : ∀ lv ∈ args, IsSource lv nextBody) (hnext : next < nextBody) :
      Context result.2.1.bodyEnv φ' (argVals φ' (closureVals globals ρ free) args) nextBody
  | fixScope {env : Env} {φ φ' : Frame} {ρ : Vals} {next : Nat} (h : Context env φ ρ next)
      {dropRho : Place → Place} {free stored : FreeVars} {sharedClos : AtSma}
      {functions : List FixFun} {ccScope : CcTrip} {result : ClosExp × List Fun × Nat}
      {nextScope : Nat}
      (hcc : ccFix globalEnv env dropRho free sharedClos functions ccScope next = .ok result)
      (hstored : removeZeroSizedRegionClosureLvars env free = .ok stored)
      (hprogram : ∀ f ∈ result.2.1, program f.lab = some f)
      (hkeeps : ∀ x a v, env.access x = some a → denote fetch φ a = some v →
        denote fetch φ' a = some v)
      (hnext : next < nextScope) :
      Context (declareFuns env (size3 stored) (freshLvar next) functions) φ'
        (funVals φ' ρ (size3 stored) (freshLvar next) functions) nextScope
  | fixBody {env : Env} {φ φ₁ φ' : Frame} {ρ : Vals} {next : Nat} (h : Context env φ ρ next)
      {dropRho : Place → Place} {free stored : FreeVars} {sharedClos : AtSma}
      {functions : List FixFun} {ccScope : CcTrip} {result : ClosExp × List Fun × Nat}
      {f : FixFun} {g : Fun} {n n' nextBody : Nat}
      (hbodies : ∀ f ∈ functions, ∀ env n r, f.ccBody env n = .ok r → n ≤ r.2)
      (hcc : ccFix globalEnv env dropRho free sharedClos functions ccScope next = .ok result)
      (hstored : removeZeroSizedRegionClosureLvars env free = .ok stored)
      (hprogram : ∀ f ∈ result.2.1, program f.lab = some f)
      (hf : f ∈ functions)
      (hg : compileFn globalEnv env dropRho free (size3 stored) functions f n = .ok (g, n'))
      (hmade : ∀ lv, g.clos = some lv → ∃ ces sma scope,
        enter fetch φ result.1 = (φ₁, .letExp [freshLvar next] (.sclosRecord ces sma) scope) ∧
        StoresElems fetch φ₁ (smashFree ces) initSclosOffset φ' (φ'.vars lv))
      (hargs : ∀ lv ∈ f.args, IsSource lv nextBody)
      (hnext : n + 1 + f.formals.length ≤ nextBody) :
      Context g.bodyEnv φ'
        (argVals φ'
          (dropVals
            (formalVals φ' (funVals φ' (closureVals globals ρ free) (size3 stored) (freshLvar n)
              functions) f.formals g.regArgs)
            f.drops)
          f.args)
        nextBody

end Contexts

variable {v : Int} {lv : Lvar} {place : Place} {next' nextBody n n' : Nat} {f : FixFun}
  {r : Access × Nat} {g : Fun} {a : AccessType}

theorem denote_setVar :
    (a : AccessType) → ¬ a.mentions lv → denote fetch (φ.setVar lv v) a = denote fetch φ a
  | .lvar lv', h => by
    have hne : lv' ≠ lv := h
    simp [denote, Frame.setVar, hne]
  | .rvar _, _ | .droppedRvar _, _ => rfl
  | .select lv' _, h => by
    have hne : lv' ≠ lv := h
    simp [denote, Frame.setVar, hne]
  | .label _, _ => rfl
  | .fix _ none _ _, _ => by simp only [denote]
  | .fix _ (some sclos) _ _, h => by
    exact denote_setVar sclos h

theorem denote_setRegion :
    (a : AccessType) → ¬ a.mentionsRho place →
      denote fetch (φ.setRegion place v) a = denote fetch φ a
  | .lvar _, _ => rfl
  | .rvar place', h => by
    have hne : place' ≠ place := h
    simp [denote, Frame.setRegion, hne]
  | .droppedRvar _, _ | .select _ _, _ | .label _, _ => rfl
  | .fix _ none _ _, _ => by simp only [denote]
  | .fix _ (some sclos) _ _, h => by
    exact denote_setRegion sclos h

variable {α : Type} {xs : List α}

section Preservation

variable {fetch : Label → Int} {program : Label → Option Fun} {next : Nat}

section

variable (h : EnvOk fetch program env φ ρ next)

include h

theorem EnvOk.mono
    (hkeeps : ∀ x a v, env.access x = some a → denote fetch φ a = some v →
      denote fetch φ' a = some v)
    (hle : next ≤ next') : EnvOk fetch program env φ' ρ next' := by
  intro x a ha
  exact (h x a ha).mono (fun v hv => hkeeps x a v ha hv) hle

theorem EnvOk.unused : Unused env (next + 1) := by
  intro x a k ha hk
  exact (h x a ha).unused k (Nat.le_of_succ_le hk)

theorem EnvOk.letVar (v : Int) (hnew : ∀ x a, env.access x = some a → ¬ a.mentions lv)
    (hsource : IsSource lv next) :
    EnvOk fetch program (declareLvar lv (.lvar lv) env) (φ.setVar lv v)
      (update ρ (.lvar lv) (some v)) next := by
  have hkept : EnvOk fetch program env (φ.setVar lv v) ρ next := by
    apply h.mono _ (Nat.le_refl _)
    intro x a w ha hw
    rw [denote_setVar a (hnew x a ha), hw]
  apply hkept.declare (declareLvar_access lv (.lvar lv) env)
  have hlvar : AccessOk fetch program (φ.setVar lv v) next (.lvar lv) _ := accessOk_lvar _ hsource
  simpa [Frame.setVar] using hlvar

end

section

variable (h : EnvOk fetch program env φ ρ next)

include h

theorem EnvOk.letregion (phsize : PhSize) (v : Int)
    (hnew : ∀ x a, env.access x = some a → ¬ a.mentionsRho place) :
    EnvOk fetch program
      (declareRho place (.rvar place) (declareRhoKind place (mult true phsize) env))
      (φ.setRegion place v) (update ρ (.rho place) (some v)) next := by
  have hkept : EnvOk fetch program env (φ.setRegion place v) ρ next := by
    apply h.mono _ (Nat.le_refl _)
    intro x a w ha hw
    rw [denote_setRegion a (hnew x a ha), hw]
  apply hkept.declare
  · intro y
    rw [declareRho_access, declareRhoKind_access]
  · refine ⟨?_, by rintro lab sclos size formals ⟨⟩, fun _ _ => id⟩
    rintro w ⟨⟩
    simp [denote, Frame.setRegion]

theorem EnvOk.exception (excon : Excon) (arity : ArityExcon) (v : Int) :
    EnvOk fetch program (declareExcon excon (.lvar (freshLvar next), arity) env)
      (φ.setVar (freshLvar next) v) (update ρ (.excon excon) (some v)) (next + 1) := by
  have hkept : EnvOk fetch program env (φ.setVar (freshLvar next) v) ρ (next + 1) := by
    apply h.mono _ (Nat.le_succ _)
    intro x a w ha hw
    rw [denote_setVar a ((h x a ha).unused next (Nat.le_refl _)), hw]
  apply hkept.declare (declareExcon_access excon (.lvar (freshLvar next), arity) env)
  have hsource : IsSource (freshLvar next) (next + 1) := by
    intro k hk heq
    have := freshLvar_inj heq
    omega
  have hlvar : AccessOk fetch program (φ.setVar (freshLvar next) v) (next + 1)
      (.lvar (freshLvar next)) _ := accessOk_lvar _ hsource
  simpa [Frame.setVar] using hlvar

theorem EnvOk.declareArgs (hargs : ∀ lv ∈ args, IsSource lv next) :
    EnvOk fetch program (declareArgs env args) φ (argVals φ ρ args) next := by
  exact h.plusDeclWith declareLvar_access fun lv hlv => accessOk_lvar φ (hargs lv hlv)

end

theorem EnvOk.declareFuns (h : EnvOk fetch program env φ ρ next) (hk : k < next)
    (hprogram : ∀ f ∈ functions, ∃ g, program f.lab = some g ∧ (g.clos = none ↔ size = 0)) :
    EnvOk fetch program (declareFuns env size (freshLvar k) functions) φ
      (funVals φ ρ size (freshLvar k) functions) next := by
  refine h.plusDeclWith declareLvar_access fun f hf => ?_
  obtain ⟨g, hg, hclos⟩ := hprogram f hf
  by_cases hsize : size = 0
  · simp only [hsize, if_true]
    constructor
    · intro v hv
      cases hv
    · intro lab sclos size' formals heq
      cases heq
      exact ⟨by simp, g, hg, by rw [hclos, hsize]⟩
    · intro k' _ hmentions
      simp only [AccessType.mentions] at hmentions
  · simp only [hsize, if_false]
    constructor
    · intro v hv
      exact hv
    · intro lab sclos size' formals heq
      cases heq
      exact ⟨by simp [hsize], g, hg, hclos⟩
    · intro k' hk' hmentions
      have := freshLvar_inj hmentions
      omega

theorem declareFormals_next (env : Env) (next : Nat) (formals : List Binder) :
    (declareFormals env next formals).2.2 = next + formals.length := by
  induction formals with
  | nil => rfl
  | cons rho formals ih =>
    simp only [declareFormals, ih, length_cons]
    omega

theorem EnvOk.declareFormals (h : EnvOk fetch program env φ ρ nextBody) (formals : List Binder)
    (hle : next + formals.length ≤ nextBody) :
    EnvOk fetch program (declareFormals env next formals).2.1 φ
      (formalVals φ ρ formals (declareFormals env next formals).1) nextBody := by
  induction formals with
  | nil => exact h
  | cons rho formals ih =>
    simp only [length_cons] at hle
    have hrest := ih (by omega)
    have hlast := declareFormals_next env next formals
    apply hrest.declare (declareRho_access _ _ _)
    apply accessOk_lvar
    intro k hk heq
    have hnumber : (ClosConv.declareFormals env next formals).2.2 = k := freshLvar_inj heq
    omega

theorem EnvOk.declareDrops (h : EnvOk fetch program env φ ρ next) (dropRho : Place → Place)
    (drops : List Binder) :
    EnvOk fetch program (declareDrops env dropRho drops) φ (dropVals ρ drops) next := by
  refine h.plusDeclWith declareRho_access fun rho _ => ?_
  exact ⟨by rintro v ⟨⟩, by rintro lab sclos size formals ⟨⟩, fun _ _ => id⟩

theorem EnvOk.declareKinds (h : EnvOk fetch program env φ ρ next) (rhos : List Binder) :
    EnvOk fetch program (declareKinds env rhos) φ ρ next := by
  intro x a ha
  rw [declareKinds_access] at ha
  exact h x a ha

theorem mapFresh_le {f : α → Nat → Except String (β × Nat)}
    {r : List β × Nat} (hf : ∀ a ∈ xs, ∀ n r, f a n = .ok r → n ≤ r.2)
    (h : mapFresh f xs next = .ok r) : next ≤ r.2 := by
  induction xs generalizing next r with
  | nil =>
    cases h
    exact Nat.le_refl _
  | cons x xs ih =>
    obtain ⟨first, hfirst, h⟩ := bind_ok h
    obtain ⟨rest, hrest, h⟩ := bind_ok h
    cases h
    have hle := hf x (by simp) _ _ hfirst
    have hleRest := ih (fun a ha => hf a (by simp [ha])) hrest
    exact Nat.le_trans hle hleRest

section

variable {α β : Type} {f : α → Nat → Except String (β × Nat)} {xs : List α} {r : List β × Nat}
  (h : mapFresh f xs next = .ok r)

include h

theorem mapFresh_mem : ∀ b ∈ r.1, ∃ a n n', f a n = .ok (b, n') := by
  induction xs generalizing next r with
  | nil =>
    cases h
    intro b hb
    cases hb
  | cons x xs ih =>
    obtain ⟨first, hfirst, h⟩ := bind_ok h
    obtain ⟨rest, hrest, h⟩ := bind_ok h
    cases h
    intro b hb
    rcases mem_cons.mp hb with rfl | hb
    · exact ⟨x, next, first.2, hfirst⟩
    · exact ih hrest b hb

theorem mapFresh_of_mem : ∀ a ∈ xs, ∃ b ∈ r.1, ∃ n n', f a n = .ok (b, n') := by
  induction xs generalizing next r with
  | nil => nofun
  | cons x xs ih =>
    obtain ⟨first, hfirst, h⟩ := bind_ok h
    obtain ⟨rest, hrest, h⟩ := bind_ok h
    cases h
    intro a ha
    rcases mem_cons.mp ha with rfl | ha
    · exact ⟨first.1, by simp, next, first.2, hfirst⟩
    · obtain ⟨b, hb, hf⟩ := ih hrest a ha
      exact ⟨b, by simp [hb], hf⟩

end

/-- The parts of a function of a `FIX`. -/
theorem compileFn_ok {r : Fun × Nat}
    (h : compileFn globalEnv env dropRho free size functions f n = .ok r) :
    ∃ envBodies body,
      buildClosEnv env globalEnv (freshLvar n) initSclosOffset free = .ok envBodies ∧
      f.ccBody r.1.bodyEnv (n + 1 + f.formals.length) = .ok body ∧ r.2 = body.2 ∧
      r.1.clos = (if size = 0 then none else some (freshLvar n)) ∧ r.1.lab = f.lab ∧
      r.1.regArgs = (declareFormals (declareFuns envBodies size (freshLvar n) functions) (n + 1)
        f.formals).1 ∧
      r.1.bodyEnv = declareArgs (declareKinds (declareDrops (declareKinds
        (declareFormals (declareFuns envBodies size (freshLvar n) functions) (n + 1) f.formals).2.1
        f.formals) dropRho f.drops) f.drops) f.args := by
  obtain ⟨envBodies, hbuild, h⟩ := bind_ok h
  obtain ⟨body, hbody, h⟩ := bind_ok h
  cases h
  rw [declareFormals_next] at hbody
  exact ⟨envBodies, body, hbuild, hbody, rfl, rfl, rfl, rfl, rfl⟩

variable {globalEnv : Env} {globals : Vals}

theorem inClosure_length : (inClosure free).length = size3 free := by
  simp only [inClosure, smashFree, FreeVars.elems, size3, length_append, length_map]
  omega

section Fix

variable {ccScope : CcTrip}
  (hcc : ccFix globalEnv env dropRho free sharedClos functions ccScope next = .ok result)
  (hstored : removeZeroSizedRegionClosureLvars env free = .ok stored)

include hcc hstored

/-- The labels of the functions of a `FIX` are those of their code. -/
theorem ccFix_program (hprogram : ∀ f ∈ result.2.1, program f.lab = some f) :
    ∀ f ∈ functions, ∃ g, program f.lab = some g ∧ (g.clos = none ↔ size3 stored = 0) := by
  obtain ⟨stored', accesses, funs, hstored', -, hfuns, hresult, -⟩ := ccFix_ok hcc
  rw [hstored] at hstored'
  cases hstored'
  intro f hf
  obtain ⟨g, hg, n, n', hcompiled⟩ := mapFresh_of_mem hfuns f hf
  obtain ⟨-, -, -, -, -, hclos, hlab, -⟩ := compileFn_ok hcompiled
  rw [← hresult] at hg
  simp only at hclos
  exact ⟨g, by rw [← hlab, hprogram g hg], by simp [hclos]⟩

/-- The elements of a shared closure that is not empty. -/
theorem ccFix_elems (h : EnvOk fetch program env φ ρ next)
    (hbodies : ∀ f ∈ functions, ∀ env n r, f.ccBody env n = .ok r → n ≤ r.2)
    (hsize : size3 stored ≠ 0) :
    ∃ φ₁ ces sma scope,
      enter fetch φ result.1 = (φ₁, .letExp [freshLvar next] (.sclosRecord ces sma) scope) ∧
      ElemsOk fetch φ φ₁ env (inClosure stored) (smashFree ces) := by
  obtain ⟨stored', accesses, funs, hstored', haccesses, hfuns, -, hmade⟩ := ccFix_ok hcc
  rw [hstored] at hstored'
  cases hstored'
  obtain ⟨sma, parts, scope, hconvert, hparts, hresult⟩ := hmade hsize
  have hle : accesses.2 ≤ funs.2 := by
    refine mapFresh_le (fun f hf n r hr => ?_) hfuns
    obtain ⟨envBodies, body, -, hbody, hnext, -⟩ := compileFn_ok hr
    have := hbodies f hf _ _ _ hbody
    omega
  obtain ⟨hsma, hfresh, hle'⟩ := convertAlloc_fresh hconvert
  have hvalues := unifySmasCesAndSesFree_values fetch φ h.unused haccesses hle hsma hfresh
    hle' hparts
  rw [hresult, enter_insertSes fetch fun _ => rfl]
  exact ⟨_, _, _, _, rfl, hvalues.elemsOk⟩

theorem EnvOk.fixBody (hglobal : ∀ φ next, EnvOk fetch program globalEnv φ globals next)
    (h : EnvOk fetch program env φ ρ next)
    (hbodies : ∀ f ∈ functions, ∀ env n r, f.ccBody env n = .ok r → n ≤ r.2)
    (hprogram : ∀ f ∈ result.2.1, program f.lab = some f)
    (hg : compileFn globalEnv env dropRho free (size3 stored) functions f n = .ok (g, n'))
    (hmade : ∀ lv, g.clos = some lv → ∃ ces sma scope,
      enter fetch φ result.1 = (φ₁, .letExp [freshLvar next] (.sclosRecord ces sma) scope) ∧
      StoresElems fetch φ₁ (smashFree ces) initSclosOffset φ' (φ'.vars lv))
    (hargs : ∀ lv ∈ f.args, IsSource lv nextBody) (hnext : n + 1 + f.formals.length ≤ nextBody) :
    EnvOk fetch program g.bodyEnv φ'
      (argVals φ' (dropVals (formalVals φ' (funVals φ' (closureVals globals ρ free) (size3 stored)
        (freshLvar n) functions) f.formals g.regArgs) f.drops) f.args) nextBody := by
  obtain ⟨envBodies, body, hbuild, -, -, hclos, -, hregArgs, hbodyEnv⟩ := compileFn_ok hg
  have hk : n < nextBody := by omega
  have hkept := removeZeroSizedRegionClosureLvars_ok hstored
  have hclosure : EnvOk fetch program envBodies φ' (closureVals globals ρ free) nextBody := by
    by_cases hsize : size3 stored = 0
    · have hnil : inClosure stored = [] := eq_nil_of_length_eq_zero ((inClosure_length).trans hsize)
      have helems : ElemsOk fetch φ φ env (inClosure stored) [] := by
        rw [hnil]
        exact .nil
      apply buildClosEnv_envOk hbuild hk (hglobal φ' nextBody) h (helems.bound hkept)
      apply helems.holdsFree hkept h
      intro p ce v hp
      cases hp
    · obtain ⟨ψ, ces, sma, scope, henter, helems⟩ := ccFix_elems hcc hstored h hbodies hsize
      obtain ⟨ces', sma', scope', hmade', hstores⟩ :=
        hmade (freshLvar n) (hclos.trans (if_neg hsize))
      rw [henter] at hmade'
      cases hmade'
      apply buildClosEnv_envOk hbuild hk (hglobal φ' nextBody) h (helems.bound hkept)
      exact helems.holdsFree hkept h hstores
  have hfuns := hclosure.declareFuns hk (ccFix_program hcc hstored hprogram)
  have hformals := hfuns.declareFormals f.formals hnext
  have hdrops := (hformals.declareKinds f.formals).declareDrops dropRho f.drops
  have hall := (hdrops.declareKinds f.drops).declareArgs hargs
  rw [hbodyEnv, hregArgs]
  exact hall

end Fix

/-- The environment of every program point is right. -/
theorem Context.envOk (hglobal : ∀ φ next, EnvOk fetch program globalEnv φ globals next)
    (h : Context fetch program globalEnv globals env φ ρ next) :
    EnvOk fetch program env φ ρ next := by
  induction h with
  | top φ next => exact hglobal φ next
  | run _ hkeeps hle ih => exact ih.mono hkeeps hle
  | letVar _ lv v hnew hsource ih => exact ih.letVar v hnew hsource
  | letregion _ place phsize v hnew ih => exact ih.letregion phsize v hnew
  | exception _ excon arity v ih => exact ih.exception excon arity v
  | fnBody _ hbody hcc hmade hclos hargs hnext ih =>
    obtain ⟨stored, envBody, accesses, body, smaAccess, parts, hremove, hbuild, haccesses, hccBody,
      hconvert, hparts, rfl⟩ := ccFn_ok hcc
    have hstored := removeZeroSizedRegionClosureLvars_ok hremove
    obtain ⟨hsma, hfresh, hle⟩ := convertAlloc_fresh hconvert
    obtain hvalues := unifySmasCesAndSesFree_values fetch _ ih.unused haccesses
      (hbody _ _ _ hccBody) hsma hfresh hle hparts
    rw [enter_insertSes fetch fun _ => rfl] at hmade
    cases hmade
    apply EnvOk.declareArgs _ hargs
    apply buildClosEnv_envOk hbuild hnext (hglobal _ _) ih (hvalues.elemsOk.bound hstored)
    exact hvalues.elemsOk.holdsFree hstored ih (hclos _ rfl)
  | fixScope _ hcc hstored hprogram hkeeps hnext ih =>
    exact (ih.mono hkeeps (Nat.le_of_lt hnext)).declareFuns hnext
      (ccFix_program hcc hstored hprogram)
  | fixBody _ hbodies hcc hstored hprogram hf hg hmade hargs hnext ih =>
    exact ih.fixBody hcc hstored hglobal hbodies hprogram hg hmade hargs hnext

/-! ## Accesses and calls -/

theorem EnvOk.resolved (h : EnvOk fetch program env φ ρ next) (hle : next ≤ lo)
    (ha : env.access x = some a) (hresolves : Resolves n a access n')
    (hshares : Shares ses access ce) (hfresh : BindsFresh lo hi ses) (hv : ρ x = some v) :
    evalCe fetch (bindSes fetch φ ses) ce = some v := by
  rw [hresolves.shared hshares hfresh.nodup]
  · exact (h x a ha).denotes v hv
  · intro lv hmentions hlv
    obtain ⟨k, hk, -, rfl⟩ := hfresh.range lv hlv
    exact (h x a ha).unused k (Nat.le_trans hle hk) hmentions

/-- An access finds the value of its variable. -/
theorem EnvOk.lookup (h : EnvOk fetch program env φ ρ next) (hle : next ≤ n)
    (hlookup : lookup env x n = .ok r) (hv : ρ x = some v) :
    evalCe fetch (bindSes fetch φ [r.1.2]) r.1.1 = some v := by
  obtain ⟨a, ha, hresolves⟩ := lookup_resolves hlookup
  have hshares : Shares [r.1.2] r.1 r.1.1 := by
    unfold Shares
    cases hbinding : r.1.2.binding with
    | none => rfl
    | some binding =>
      exact ⟨binding.1, by simp [hbinding], hresolves.isAccess _ _ hbinding⟩
  exact h.resolved hle ha hresolves hshares hresolves.bindsFresh.1 hv

theorem lookupFun_ok {r : Label × Nat} (h : lookupFun env lv = .ok r) :
    ∃ sclos formals, env.access (.lvar lv) = some (.fix r.1 sclos r.2 formals) := by
  unfold lookupFun at h
  split at h
  · cases h
    exact ⟨_, _, by assumption⟩
  · cases h

/-- A call passes a closure exactly when the function expects one, and passes
the shared closure of the function. -/
theorem EnvOk.call {r : (Option ClosExp × List ClosExp × List SelectExp × Label) × Nat}
    (h : EnvOk fetch program env φ ρ next) (hlo : next ≤ lo)
    (hlon : lo ≤ n) (haccesses : ∀ access ∈ accesses, IsAccess access)
    (hfresh : BindsFresh lo n (accesses.map Prod.snd))
    (hcall : compileLetrecApp env lvar accesses n = .ok r) :
    ∃ f, program r.1.2.2.2 = some f ∧ (r.1.1 = none ↔ f.clos = none) ∧
      ∀ ce v, r.1.1 = some ce → ρ (.lvar lvar) = some v →
        evalCe fetch (bindSes fetch φ r.1.2.2.1) ce = some v := by
  obtain ⟨⟨labF, size⟩, hfun, hcall⟩ := bind_ok hcall
  obtain ⟨sclos, formals, haccess⟩ := lookupFun_ok hfun
  obtain ⟨-, f, hf, hclos⟩ := (h _ _ haccess).fixed _ _ _ _ rfl
  dsimp only at hcall
  by_cases hsize : size = 0
  · rw [if_pos hsize] at hcall
    cases hcall
    refine ⟨f, hf, ?_, ?_⟩
    · simp [hclos, hsize]
    · intro ce v hce
      cases hce
  · rw [if_neg hsize] at hcall
    obtain ⟨⟨clos, n'⟩, hclosVe, hcall⟩ := bind_ok hcall
    obtain ⟨a, ha, hresolves⟩ := lookupVe_resolves hclosVe
    have hempty : Binds [] SeMap.empty := by
      intro key ce hce
      cases hce
    have hall : ∀ access ∈ clos :: accesses, IsAccess access := by
      exact forall_mem_cons.2 ⟨hresolves.isAccess, haccesses⟩
    obtain ⟨-, hshares⟩ := unifyCeSe_shares hempty hall
    have hsub := unifyCeSe_sublist (clos :: accesses) SeMap.empty
    rw [append_nil] at hshares
    generalize unifyCeSe (clos :: accesses) SeMap.empty = unified at hcall hshares hsub
    obtain ⟨ces, ses, seMap⟩ := unified
    cases hshares with
    | cons hshare hrest =>
      cases hcall
      have hbinds : BindsFresh lo n' ses := by
        obtain ⟨hclosFresh, hle⟩ := hresolves.bindsFresh
        have hboth := (hfresh.append hclosFresh hlon hle).perm perm_append_comm
        exact hboth.sublist hsub
      refine ⟨f, hf, ?_, ?_⟩
      · simp [hclos, hsize]
      · intro ce v hce hv
        cases hce
        exact h.resolved (x := .lvar lvar) hlo ha hresolves hshare hbinds hv

end Preservation

end MLKit.Backend.ClosConv
