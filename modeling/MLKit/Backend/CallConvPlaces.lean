import MLKit.Backend.CallConv
import Mathlib.Tactic.Linarith

/-!
# Where a resolved call convention puts parameters and results

The formals of a function in call order are its closure, its region vector,
its arguments and its region arguments.  `resolveCc` gives the first of them
the argument registers in order; the others are numbered on the stack from the
last one on, then comes the return address and then the results that find no
register.
-/

namespace MLKit.Backend.CallConv

open MLKit.Lib List Nat

/-- Consecutive stack places below `offset`. -/
def stackFrom (offset : Int) : List Lvar → List CCSty
  | [] => []
  | lv :: lvs => .stack lv (offset - 1) :: stackFrom (offset - 1) lvs

theorem stackFrom_append (offset : Int) (lvs lvs' : List Lvar) :
    stackFrom offset (lvs ++ lvs') = stackFrom offset lvs ++ stackFrom (offset - lvs.length) lvs' :=
    by
  induction lvs generalizing offset with
  | nil => simp [stackFrom]
  | cons lv lvs ih => simp [stackFrom, ih, Int.sub_sub, Int.add_comm]

theorem stackFrom_getElem? (offset : Int) (lvs : List Lvar) (i : Nat) :
    (stackFrom offset lvs)[i]? = lvs[i]?.map fun lv => .stack lv (offset - 1 - i) := by
  induction lvs generalizing offset i with
  | nil => rfl
  | cons lv lvs ih =>
    cases i with
    | zero => simp [stackFrom]
    | succ i =>
      have hoffset : offset - 1 - 1 - (i : Int) = offset - 1 - ((i + 1 : Nat) : Int) := by omega
      simp [stackFrom, ih, hoffset]

theorem stackFrom_length (offset : Int) (lvs : List Lvar) :
    (stackFrom offset lvs).length = lvs.length := by
  induction lvs generalizing offset with
  | nil => rfl
  | cons lv lvs ih => simp [stackFrom, ih]

theorem assignStacks_eq (lvs : List Lvar) (offset : Int) :
    assignStacks (lvs.map .noSty) offset = .ok (stackFrom offset lvs, offset - lvs.length) := by
  induction lvs generalizing offset with
  | nil => simp [assignStacks, stackFrom]
  | cons lv lvs ih =>
    have hfirst : assignStack (.noSty lv) offset = .ok (.stack lv (offset - 1), offset - 1) := rfl
    refine (ok_bind hfirst).trans ((ok_bind (ih (offset - 1))).trans ?_)
    rw [Int.sub_sub, Int.add_comm]
    rfl

/-- Results: registers first, then the stack. -/
theorem resolveStys_eq (lvs : List Lvar) (acc : List (Lvar × Lvar)) (phregs : List Lvar)
    (offset : Int) :
    ∃ phregs', resolveStys (lvs.map .noSty) acc phregs offset =
      .ok ((List.zipWith .phreg lvs phregs ++ stackFrom offset (lvs.drop phregs.length),
        lvs.zip phregs ++ acc, phregs'), offset - (lvs.drop phregs.length).length) := by
  induction lvs generalizing phregs with
  | nil => exact ⟨phregs, by simp [resolveStys, stackFrom]⟩
  | cons lv lvs ih =>
    cases phregs with
    | nil =>
      refine ⟨[], ?_⟩
      rw [map_cons, resolveStys]
      have hstacks := assignStacks_eq (lv :: lvs) offset
      rw [map_cons] at hstacks
      rw [ok_bind hstacks]
      simp [pure, Except.pure]
    | cons phreg phregs =>
      obtain ⟨phregs', hrest⟩ := ih phregs
      refine ⟨phregs', ?_⟩
      rw [map_cons, resolveStys, ok_bind hrest]
      rfl

/-- Parameters: registers first; those on the stack are numbered from the last
region argument back to the first argument. -/
theorem resolveStysArgs_eq (args regArgs : List Lvar) (acc : List (Lvar × Lvar))
    (phregs : List Lvar) (offset : Int) :
    ∃ argStys regArgStys phregs',
      resolveStysArgs (args.map .noSty) (regArgs.map .noSty) acc phregs offset =
        .ok ((argStys, regArgStys, (args ++ regArgs).zip phregs ++ acc, phregs'),
          offset - ((args ++ regArgs).drop phregs.length).length) ∧
      (args = [] → argStys = []) ∧
      (argStys ++ regArgStys).Perm (List.zipWith .phreg (args ++ regArgs) phregs ++
        stackFrom offset ((args ++ regArgs).drop phregs.length).reverse) := by
  induction phregs generalizing args regArgs with
  | nil =>
    -- no register is left: the empty lists are a case of their own in the source
    by_cases hempty : args = [] ∧ regArgs = []
    · obtain ⟨rfl, rfl⟩ := hempty
      exact ⟨[], [], [], by simp [resolveStysArgs], fun _ => rfl, by simp [stackFrom]⟩
    · refine ⟨stackFrom (offset - regArgs.length) args.reverse, stackFrom offset regArgs.reverse,
        [], ?_, ?_, ?_⟩
      · have hreg := assignStacks_eq regArgs.reverse offset
        have harg := assignStacks_eq args.reverse (offset - regArgs.length)
        rw [map_reverse, length_reverse] at hreg harg
        have hlast : resolveStysArgs (args.map .noSty) (regArgs.map .noSty) acc [] offset =
            (do
              let r ← assignStacks (regArgs.map .noSty).reverse offset
              let a ← assignStacks (args.map .noSty).reverse r.2
              return ((a.1, r.1, acc, []), a.2)) := by
          cases args with
          | nil =>
            cases regArgs with
            | nil => exact absurd ⟨rfl, rfl⟩ hempty
            | cons regArg regArgs => rfl
          | cons arg args => rfl
        rw [hlast]
        refine (ok_bind hreg).trans ((ok_bind harg).trans ?_)
        simp [pure, Except.pure]
        omega
      · rintro rfl
        rfl
      · rw [length_nil, drop_zero, reverse_append, stackFrom_append,
          length_reverse, zipWith_nil_right, nil_append]
        exact perm_append_comm
  | cons phreg phregs ih =>
    cases args with
    | nil =>
      cases regArgs with
      | nil =>
        exact ⟨[], [], phreg :: phregs, by simp [resolveStysArgs], fun _ => rfl,
          by simp [stackFrom]⟩
      | cons regArg regArgs =>
        obtain ⟨argStys, regArgStys, phregs', hrest, hnil, hperm⟩ := ih [] regArgs
        refine ⟨[], .phreg regArg phreg :: regArgStys, phregs', ?_, fun _ => rfl, ?_⟩
        · rw [map_cons, map_nil, resolveStysArgs]
          rw [map_nil] at hrest
          rw [ok_bind hrest]
          rfl
        · rw [hnil rfl] at hperm
          exact hperm.cons _
    | cons arg args =>
      obtain ⟨argStys, regArgStys, phregs', hrest, -, hperm⟩ := ih args regArgs
      refine ⟨.phreg arg phreg :: argStys, regArgStys, phregs', ?_, by simp, ?_⟩
      · rw [map_cons, resolveStysArgs, ok_bind hrest]
        rfl
      · exact hperm.cons _

/-- The formals of a function in call order. -/
def formals {α : Type} (clos regVec : Option α) (args regArgs : List α) : List α :=
  appendToListOpt clos (appendToListOpt regVec (args ++ regArgs))

/-- All parameters of a convention. -/
def CC.params (cc : CC) : List CCSty :=
  cc.clos.toList ++ (cc.args ++ (cc.regVec.toList ++ cc.regArgs))

theorem CC.spilledArgs_eq (cc : CC) : cc.spilledArgs = cc.params.filterMap spilledSty := by
  simp [CC.spilledArgs, CC.params]

theorem filterMap_spilled_zipWith (lvs phregs : List Lvar) :
    (List.zipWith CCSty.phreg lvs phregs).filterMap spilledSty = [] := by
  rw [filterMap_eq_nil_iff]
  intro sty hmem
  rw [← map_uncurry_zip_eq_zipWith, mem_map] at hmem
  obtain ⟨pair, -, rfl⟩ := hmem
  rfl

theorem filterMap_spilled_stackFrom_length (offset : Int) (lvs : List Lvar) :
    ((stackFrom offset lvs).filterMap spilledSty).length = lvs.length := by
  induction lvs generalizing offset with
  | nil => rfl
  | cons lv lvs ih =>
    exact congrArg (· + 1) (ih (offset - 1))

/-- Where the parameters and the results of a function are, given its formals
in call order and its result variables. -/
structure Places (cc : CC) (formals ress : List Lvar) : Prop where
  params : cc.params.Perm (List.zipWith .phreg formals RI.argsPhreg ++
    stackFrom 0 (formals.drop RI.argsPhreg.length).reverse)
  res : cc.res = List.zipWith .phreg ress RI.resPhreg ++
    stackFrom (-(formals.drop RI.argsPhreg.length).length - 1) (ress.drop RI.resPhreg.length)

theorem resolveStyOpt_none (acc : List (Lvar × Lvar)) (phregs : List Lvar) (offset : Int) :
    resolveStyOpt (mkStyOpt none) acc phregs offset = .ok ((none, acc, phregs), offset) := by
  cases phregs <;> rfl

theorem resolveStyOpt_some (lv phreg : Lvar) (acc : List (Lvar × Lvar)) (phregs : List Lvar)
    (offset : Int) :
    resolveStyOpt (mkStyOpt (some lv)) acc (phreg :: phregs) offset =
      .ok ((some (.phreg lv phreg), (lv, phreg) :: acc, phregs), offset) := rfl

variable {α : Type} {β : Type*}
  {ress phregs phregs' args regArgs lvs lvs' argsPhreg resPhreg : List Lvar}
  {closSty regVecSty : Option CallConv.CCSty} {acc acc' : List (Lvar × Lvar)} {regVec : Option Lvar}
  {cc : CallConv.CC} {sty : CallConv.CCSty} {offset : Int} {entry : Lvar × Int} {lv : Lvar}
  {reg : Reg} {j i : Nat}

/-- `resolveCc` once the closure and the region vector have their registers,
`phregs` being the registers that are left. -/
theorem resolveCc_of_opts {clos : Option Lvar}
    (hclos : resolveStyOpt (mkStyOpt clos) [] RI.argsPhreg 0 = .ok ((closSty, acc, phregs), 0))
    (hregVec : resolveStyOpt (mkStyOpt regVec) acc phregs 0 = .ok ((regVecSty, acc', phregs'), 0)) :
    ∃ argStys regArgStys,
      resolveCc RI.argsPhreg RI.resPhreg (mkCcFun args clos regVec regArgs ress) =
        .ok ({ clos := closSty, args := argStys, regVec := regVecSty, regArgs := regArgStys,
               res := List.zipWith .phreg ress RI.resPhreg ++
                 stackFrom (-((args ++ regArgs).drop phregs'.length).length - 1)
                   (ress.drop RI.resPhreg.length),
               frameSize := none },
          (args ++ regArgs).zip phregs' ++ acc', ress.zip RI.resPhreg) ∧
      (argStys ++ regArgStys).Perm (List.zipWith .phreg (args ++ regArgs) phregs' ++
        stackFrom 0 ((args ++ regArgs).drop phregs'.length).reverse) := by
  obtain ⟨argStys, regArgStys, rest, hargs, -, hperm⟩ := resolveStysArgs_eq args regArgs acc' phregs' 0
  obtain ⟨rest', hres⟩ := resolveStys_eq ress [] RI.resPhreg
    (0 - (((args ++ regArgs).drop phregs'.length).length : Int) - 1)
  refine ⟨argStys, regArgStys, ?_, hperm⟩
  refine (ok_bind hclos).trans ((ok_bind hregVec).trans
    ((ok_bind hargs).trans ((ok_bind hres).trans ?_)))
  simp [mkCcFun, pure, Except.pure]

/-- `resolveCc` always succeeds on a freshly built convention.  The closure and
the region vector are always in registers, since there are three of them. -/
theorem resolveCc_places (args : List Lvar) (clos regVec : Option Lvar) (regArgs ress : List Lvar) :
    ∃ cc formalRegs, resolveCc RI.argsPhreg RI.resPhreg (mkCcFun args clos regVec regArgs ress) =
        .ok (cc, formalRegs, ress.zip RI.resPhreg) ∧
      Places cc (formals clos regVec args regArgs) ress := by
  cases clos with
  | none =>
    cases regVec with
    | none =>
      obtain ⟨argStys, regArgStys, hcc, hperm⟩ := resolveCc_of_opts
        (resolveStyOpt_none [] RI.argsPhreg 0) (resolveStyOpt_none [] RI.argsPhreg 0)
      exact ⟨_, _, hcc, hperm, rfl⟩
    | some rv =>
      obtain ⟨argStys, regArgStys, hcc, hperm⟩ := resolveCc_of_opts
        (resolveStyOpt_none [] RI.argsPhreg 0) (resolveStyOpt_some rv _ [] _ 0)
      have hrv := hperm.cons (CCSty.phreg rv (.phreg .rax))
      exact ⟨_, _, hcc, (perm_middle).trans hrv, rfl⟩
  | some cl =>
    cases regVec with
    | none =>
      obtain ⟨argStys, regArgStys, hcc, hperm⟩ := resolveCc_of_opts
        (resolveStyOpt_some cl _ [] _ 0) (resolveStyOpt_none _ _ 0)
      exact ⟨_, _, hcc, hperm.cons _, rfl⟩
    | some rv =>
      obtain ⟨argStys, regArgStys, hcc, hperm⟩ := resolveCc_of_opts
        (resolveStyOpt_some cl _ [] _ 0) (resolveStyOpt_some rv _ _ _ 0)
      exact ⟨_, _, hcc, ((perm_middle).trans (hperm.cons _)).cons _, rfl⟩

theorem Places.spilledArgs_length {formals : List Lvar} (h : Places cc formals ress) :
    cc.spilledArgs.length = (formals.drop RI.argsPhreg.length).length := by
  rw [CC.spilledArgs_eq, (h.params.filterMap spilledSty).length_eq, filterMap_append,
    filterMap_spilled_zipWith, nil_append, filterMap_spilled_stackFrom_length,
    length_reverse]

theorem isResolved_stackFrom (hmem : sty ∈ stackFrom offset lvs) : isResolved sty = true := by
  induction lvs generalizing offset with
  | nil => cases hmem
  | cons lv lvs ih =>
    rcases mem_cons.mp hmem with rfl | hmem
    · rfl
    · exact ih hmem

theorem isResolved_of_mem
    (hmem : sty ∈ List.zipWith CCSty.phreg lvs phregs ++ stackFrom offset lvs') :
    isResolved sty = true := by
  rcases mem_append.mp hmem with hmem | hmem
  · rw [← map_uncurry_zip_eq_zipWith, mem_map] at hmem
    obtain ⟨pair, -, rfl⟩ := hmem
    rfl
  · exact isResolved_stackFrom hmem

theorem Places.resolved {formals : List Lvar} (h : Places cc formals ress) :
    cc.resolved = true := by
  have hparams : ∀ sty ∈ cc.params, isResolved sty = true :=
    fun sty hmem => isResolved_of_mem (h.params.mem_iff.mp hmem)
  have hres : ∀ sty ∈ cc.res, isResolved sty = true :=
    fun sty hmem => isResolved_of_mem (h.res ▸ hmem)
  simp only [CC.params, mem_append, Option.mem_toList, or_imp, forall_and] at hparams
  simp only [CC.resolved, Bool.and_eq_true, all_eq_true, Option.all_eq_true]
  obtain ⟨hclos, hargs, hregVec, hregArgs⟩ := hparams
  exact ⟨⟨⟨⟨hclos, hargs⟩, hregVec⟩, hregArgs⟩, hres⟩

theorem spilled_stackFrom (hmem : entry ∈ (stackFrom offset lvs).filterMap spilledSty) :
    entry.1 ∈ lvs ∧ entry.2 < offset := by
  induction lvs generalizing offset with
  | nil => cases hmem
  | cons lv lvs ih =>
    rcases mem_cons.mp hmem with rfl | hmem
    · exact ⟨.head _, by simp⟩
    · obtain ⟨hlv, hlt⟩ := ih hmem
      exact ⟨.tail _ hlv, by omega⟩

section

variable {formals : List Lvar} (h : Places cc formals ress)

include h

/-- A parameter that is passed on the stack is one of the formals, and lies
below the frame. -/
theorem Places.spilledArgs_mem (hmem : entry ∈ cc.spilledArgs) :
    entry.1 ∈ formals ∧ entry.2 < 0 := by
  rw [CC.spilledArgs_eq, (h.params.filterMap spilledSty).mem_iff, filterMap_append,
    filterMap_spilled_zipWith, nil_append] at hmem
  obtain ⟨hlv, hlt⟩ := spilled_stackFrom hmem
  exact ⟨mem_of_mem_drop (mem_reverse.mp hlv), hlt⟩

theorem Places.spilledRes_neg (hmem : entry ∈ cc.spilledRes) : entry.2 < 0 := by
  rw [CC.spilledRes, h.res, filterMap_append, filterMap_spilled_zipWith, nil_append] at hmem
  have hlt := (spilled_stackFrom hmem).2
  omega

theorem Places.res_length : cc.res.length = ress.length := by
  have hlen : RI.resPhreg.length = 3 := rfl
  rw [h.res, length_append, length_zipWith, stackFrom_length, length_drop, hlen]
  omega

/-- A result that finds a register. -/
theorem Places.res_phreg {i : Nat} (hlv : ress[i]? = some lv)
    (hreg : RI.regRes[i]? = some reg) : cc.res[i]? = some (.phreg lv (.phreg reg)) := by
  have hphreg : RI.resPhreg[i]? = some (.phreg reg) := by
    rw [RI.resPhreg, getElem?_map, hreg]
    rfl
  have hzip : (List.zipWith CCSty.phreg ress RI.resPhreg)[i]? = some (.phreg lv (.phreg reg)) := by
    rw [getElem?_zipWith, hlv, hphreg]
  rw [h.res, List.getElem?_append_left (List.getElem?_eq_some_iff.mp hzip).1, hzip]

/-- A result on the stack: its place is past the parameters and the return
address. -/
theorem Places.res_stack (hlv : ress[3 + j]? = some lv) :
    cc.res[3 + j]? = some (.stack lv (-cc.spilledArgs.length - 1 - 1 - j)) := by
  have hlt : 3 + j < ress.length := (List.getElem?_eq_some_iff.mp hlv).1
  have hlen : (List.zipWith CCSty.phreg ress RI.resPhreg).length = 3 := by
    rw [length_zipWith, show RI.resPhreg.length = 3 from rfl]
    omega
  have hdrop : (ress.drop RI.resPhreg.length)[j]? = some lv := by
    rw [getElem?_drop]
    exact hlv
  rw [h.res, getElem?_append_right (by omega), hlen, Nat.add_sub_cancel_left,
    stackFrom_getElem?, hdrop, h.spilledArgs_length]
  rfl

/-- The place of the `i`th formal: an argument register, or a word on the stack
that is counted from the last formal. -/
theorem Places.param (hnodup : formals.Nodup) (hsty : sty ∈ cc.params)
    (hi : formals[i]? = some (getLvarSty sty)) :
    (∃ reg, RI.regArgs[i]? = some reg ∧ sty = .phreg (getLvarSty sty) (.phreg reg)) ∨
      ∃ j, i = 3 + j ∧ sty = .stack (getLvarSty sty) (-((formals.drop 3).length - j : Nat)) := by
  have hindex : ∀ k, formals[k]? = some (getLvarSty sty) → k = i := by
    intro k hk
    obtain ⟨hlt, hget⟩ := List.getElem?_eq_some_iff.mp hk
    obtain ⟨hlt', hget'⟩ := List.getElem?_eq_some_iff.mp hi
    exact (List.Nodup.getElem_inj_iff hnodup).mp (hget.trans hget'.symm)
  rcases mem_append.mp (h.params.mem_iff.mp hsty) with hmem | hmem
  · left
    obtain ⟨k, hk⟩ := mem_iff_getElem?.mp hmem
    rw [getElem?_zipWith, RI.argsPhreg, getElem?_map] at hk
    cases hlv : formals[k]? with
    | none => simp [hlv] at hk
    | some lv =>
      cases hreg : RI.regArgs[k]? with
      | none => simp [hlv, hreg] at hk
      | some reg =>
        simp only [hlv, hreg, Option.map_some, Option.some.injEq] at hk
        subst hk
        obtain rfl := hindex k hlv
        exact ⟨reg, hreg, rfl⟩
  · right
    obtain ⟨k, hk⟩ := mem_iff_getElem?.mp hmem
    rw [stackFrom_getElem?] at hk
    cases hlv : (formals.drop RI.argsPhreg.length).reverse[k]? with
    | none => simp [hlv] at hk
    | some lv =>
      simp only [hlv, Option.map_some, Option.some.injEq] at hk
      subst hk
      have hlen : k < (formals.drop 3).length := by
        have hlt := (List.getElem?_eq_some_iff.mp hlv).1
        rw [length_reverse] at hlt
        exact hlt
      have hlv' : (formals.drop 3).reverse[k]? = some lv := hlv
      rw [getElem?_reverse hlen] at hlv'
      have hget : formals[3 + ((formals.drop 3).length - 1 - k)]? = some lv := by
        rw [← getElem?_drop]
        exact hlv'
      refine ⟨(formals.drop 3).length - 1 - k, (hindex _ hget).symm, ?_⟩
      simp only [getLvarSty, CCSty.stack.injEq, true_and]
      omega

end

/-! ## The actuals of a call -/

theorem calcOffset_eq (aa : List α) (offset : Nat) (l : List (α × Nat)) :
    calcOffset aa offset l = (offset + aa.length, l.reverse ++ aa.zipIdx offset) := by
  induction aa generalizing offset l with
  | nil => simp [calcOffset]
  | cons a aa ih =>
    rw [calcOffset, ih, zipIdx_cons, length_cons]
    simp
    omega

/-- What is passed on the stack: the results that find no register, numbered
from 0, and the actuals that find none, numbered after the return label. -/
theorem resolveActCc_eq (app : App α) :
    resolveActCc RI.argsPhreg RI.resPhreg app =
      (((formals app.clos app.regVec app.args app.regArgs).drop 3).zipIdx
          ((app.res.drop 3).length + 1),
        (app.res.drop 3).zipIdx 0, (app.res.drop 3).length) := by
  simp only [resolveActCc, calcOffset_eq, reverse_nil, nil_append, zero_add]
  rfl

section Resolve

variable {α : Type} {app : App α} (phregToAlpha : Lvar → α)

/-- Operands of which the first ones have been moved to the given registers. -/
def inRegisters (alphas : List α) (phregs : List Lvar) : List α :=
  (phregs.take alphas.length).map phregToAlpha ++ alphas.drop phregs.length

@[simp] theorem inRegisters_nil (phregs : List Lvar) : inRegisters phregToAlpha [] phregs = [] := by
  simp [inRegisters]

@[simp] theorem inRegisters_none (alphas : List α) :
    inRegisters phregToAlpha alphas [] = alphas := by
  simp [inRegisters]

@[simp] theorem inRegisters_cons (alpha : α) (alphas : List α) (phreg : Lvar) (phregs : List Lvar) :
    inRegisters phregToAlpha (alpha :: alphas) (phreg :: phregs) =
      phregToAlpha phreg :: inRegisters phregToAlpha alphas phregs := by
  simp [inRegisters]

theorem inRegisters_append (alphas alphas' : List α) (phregs : List Lvar) :
    inRegisters phregToAlpha (alphas ++ alphas') phregs =
      inRegisters phregToAlpha alphas phregs ++
        inRegisters phregToAlpha alphas' (phregs.drop alphas.length) := by
  induction alphas generalizing phregs with
  | nil => simp
  | cons alpha alphas ih => cases phregs <;> simp [ih]

theorem inRegisters_drop (alphas : List α) (phregs : List Lvar) :
    (inRegisters phregToAlpha alphas phregs).drop phregs.length = alphas.drop phregs.length := by
  induction alphas generalizing phregs with
  | nil => simp
  | cons alpha alphas ih => cases phregs <;> simp [ih]

theorem zip_append_drop (alphas alphas' : List α) (phregs : List Lvar) :
    (alphas ++ alphas').zip phregs =
      alphas.zip phregs ++ alphas'.zip (phregs.drop alphas.length) := by
  induction alphas generalizing phregs with
  | nil => simp
  | cons alpha alphas ih => cases phregs <;> simp [ih]

theorem resolveList_eq (alphas : List α) (acc : List (α × Lvar)) (phregs : List Lvar) :
    resolveList phregToAlpha alphas acc phregs =
      (inRegisters phregToAlpha alphas phregs, alphas.zip phregs ++ acc,
        phregs.drop alphas.length) := by
  induction alphas generalizing phregs with
  | nil => simp [resolveList]
  | cons alpha alphas ih => cases phregs <;> simp [resolveList, ih]

/-- An optional operand is a list of at most one. -/
theorem resolveOpt_eq (alpha : Option α) (acc : List (α × Lvar)) (phregs : List Lvar) :
    ∃ alpha', resolveOpt phregToAlpha alpha acc phregs =
        (alpha', alpha.toList.zip phregs ++ acc, phregs.drop alpha.toList.length) ∧
      alpha'.toList = inRegisters phregToAlpha alpha.toList phregs := by
  cases alpha with
  | none => exact ⟨none, by simp [resolveOpt], by simp⟩
  | some alpha =>
    cases phregs with
    | nil => exact ⟨some alpha, by simp [resolveOpt], by simp⟩
    | cons phreg phregs =>
      exact ⟨some (phregToAlpha phreg), by simp [resolveOpt], by simp⟩

theorem resolveOpt_none (acc : List (α × Lvar)) (phregs : List Lvar) :
    resolveOpt phregToAlpha none acc phregs = (none, acc, phregs) := by
  cases phregs <;> rfl

theorem appendToListOpt_eq (e : Option α) (l : List α) : appendToListOpt e l = e.toList ++ l := by
  cases e <;> rfl

/-- The parts of a list, each of them put in front of the parts before it. -/
theorem perm_blocks {a b c d : List β} : (a ++ (b ++ (c ++ d))).Perm (d ++ (c ++ (b ++ a))) := by
  have hcd : (b ++ (c ++ d)).Perm ((d ++ c) ++ b) :=
    perm_append_comm.trans (perm_append_comm.append_right b)
  have hall := perm_append_comm.trans (hcd.append_right a)
  simpa using hall

/-- The operands of a call in call order. -/
def App.actuals (app : App α) : List α := formals app.clos app.regVec app.args app.regArgs

/-- `resolveApp` moves the first actuals to the argument registers and leaves
the other ones alone; the results are treated likewise. -/
theorem resolveApp_eq :
    ∃ app' assignListArgs, resolveApp phregToAlpha argsPhreg resPhreg app =
        (app', assignListArgs, app.res.zip resPhreg) ∧
      app'.actuals = inRegisters phregToAlpha app.actuals argsPhreg ∧
      assignListArgs.Perm (app.actuals.zip argsPhreg) ∧
      app'.res = inRegisters phregToAlpha app.res resPhreg := by
  obtain ⟨clos, args, regVec, regArgs, res⟩ := app
  obtain ⟨clos', hclos, hclosList⟩ := resolveOpt_eq phregToAlpha clos [] argsPhreg
  obtain ⟨regVec', hregVec, hregVecList⟩ := resolveOpt_eq phregToAlpha regVec
    (clos.toList.zip argsPhreg) (argsPhreg.drop clos.toList.length)
  simp only [resolveApp, hclos, hregVec, resolveList_eq, append_nil]
  refine ⟨_, _, rfl, ?_, ?_, rfl⟩
  · simp [App.actuals, formals, appendToListOpt_eq, inRegisters_append, hclosList, hregVecList]
  · simp only [App.actuals, formals, appendToListOpt_eq, zip_append_drop]
    exact perm_blocks

/-- A call without a region vector and region arguments gets none. -/
theorem resolveApp_regions (hregVec : app.regVec = none) (hregArgs : app.regArgs = []) :
    (resolveApp phregToAlpha argsPhreg resPhreg app).1.regVec = none ∧
      (resolveApp phregToAlpha argsPhreg resPhreg app).1.regArgs = [] := by
  simp [resolveApp, hregVec, hregArgs, resolveOpt_none, resolveList_eq]

end Resolve

end MLKit.Backend.CallConv
