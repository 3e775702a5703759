import MLKit.Backend.ClosConvEnv

/-!
# Closure conversion of functions

How `ClosExp` makes the closure of an `FN` and the shared closure of a `FIX`,
and the environments their bodies are converted in.  Converting a body is a
parameter, which is given the environment and the next unused variable.
-/

namespace MLKit.Backend.ClosConv

open MLKit.Lib

/-! ## Sharing selections -/

/-- `SEMap`. -/
abbrev SeMap := SeKey → Option ClosExp

def SeMap.empty : SeMap := fun _ => none

/-- One access: an equal selection made before is used again. -/
def resolveCe (access : Access) (acc : List ClosExp × List SelectExp × SeMap) :
    List ClosExp × List SelectExp × SeMap :=
  match access.2.binding with
  | none => (access.1 :: acc.1, acc.2)
  | some (_, key) =>
    match acc.2.2 key with
    | none =>
      (access.1 :: acc.1, access.2 :: acc.2.1, Function.update acc.2.2 key (some access.1))
    | some ce' => (ce' :: acc.1, acc.2)

def unifyCeSe (cesAndSes : List Access) (seMap : SeMap) : List ClosExp × List SelectExp × SeMap :=
  cesAndSes.foldr resolveCe ([], [], seMap)

def insertCeInSma (ce' : ClosExp) : Sma ClosExp → Except String (Sma ClosExp)
  | .mode kind _ pp => .ok (.mode kind ce' pp)
  | .ignore => die "insert_ce_in_sma: combination not recognized."

def getCe : Sma ClosExp → Except String ClosExp
  | .mode _ ce _ => .ok ce
  | .ignore => die "get_ce: combination not recognized."

/-- `unify_sma_se` of one storage mode. -/
def unifySmaSe (sma : Sma ClosExp × SelectExp) (seMap : SeMap) :
    Except String (Sma ClosExp × List SelectExp × SeMap) :=
  match sma.2.binding with
  | none => .ok (sma.1, [], seMap)
  | some (_, key) =>
    match seMap key with
    | none => do
      let ce ← getCe sma.1
      return (sma.1, [sma.2], Function.update seMap key (some ce))
    | some ce' => do
      let sma' ← insertCeInSma ce' sma.1
      return (sma', [], seMap)

/-- `unify_smas_ces_and_ses_free` with one storage mode. -/
def unifySmasCesAndSesFree (sma : Sma ClosExp × SelectExp) (free : Free Access) :
    Except String (Sma ClosExp × Free ClosExp × List SelectExp) := do
  let (sma, sesSma, seMap) ← unifySmaSe sma SeMap.empty
  let (rhosCes, rhosSes, seMap) := unifyCeSe free.rhos seMap
  let (exconsCes, exconsSes, seMap) := unifyCeSe free.excons seMap
  let (lvsCes, lvsSes, _) := unifyCeSe free.lvs seMap
  return (sma, { lvs := lvsCes, excons := exconsCes, rhos := rhosCes },
    sesSma ++ rhosSes ++ exconsSes ++ lvsSes)

/-- What a selection is bound to. -/
def SeKey.bind : SeKey → ClosExp
  | .select i lv2 => .select i (.var lv2)
  | .fetch lab => .fetch lab

/-- Bind all selections at once. -/
def insertSes (ce : ClosExp) (ses : List SelectExp) : ClosExp :=
  let bindings := ses.filterMap SelectExp.binding
  if bindings.isEmpty then ce
  else .letExp (bindings.map Prod.fst) (.ubRecord (bindings.map fun binding => binding.2.bind)) ce

/-! ## Storage modes -/

inductive At where
  | attop | atbot | sat
  deriving DecidableEq

/-- The storage mode of an allocation, with its region and program point;
none is `IGNORE`. -/
abbrev AtSma := Option (At × Place × Pp)

def convertSma (mode : At) (kind : RhoKind) (ce : ClosExp) (pp : Pp) :
    Except String (Sma ClosExp) :=
  match mode, kind with
  | .attop, .li => .ok (.mode .attopLI ce pp)
  | .attop, .lf => .ok (.mode .attopLF ce pp)
  | .attop, .fi => .ok (.mode .attopFI ce pp)
  | .attop, .ff => .ok (.mode .attopFF ce pp)
  | .atbot, .li => .ok (.mode .atbotLI ce pp)
  | .atbot, .lf => .ok (.mode .atbotLF ce pp)
  | .sat, .fi => .ok (.mode .satFI ce pp)
  | .sat, .ff => .ok (.mode .satFF ce pp)
  | _, _ => die "convert_sma: sma combination not recognized."

def convertAlloc (env : Env) (alloc : AtSma) (next : Nat) :
    Except String ((Sma ClosExp × SelectExp) × Nat) :=
  match alloc with
  | some (mode, rho, pp) => do
    let ((ce, se), next) ← lookupRho env rho "convert_alloc" next
    let kind ← lookupRhoKind env rho
    let sma ← convertSma mode kind ce pp
    return ((sma, se), next)
  | none => .ok ((.ignore, .noneSe), next)

def mult (letregionBound : Bool) (phsize : PhSize) : RhoKind :=
  match letregionBound, phsize with
  | false, .inf => .fi
  | false, .words _ => .ff
  | true, .inf => .li
  | true, .words _ => .lf

/-! ## Closures -/

def removeZeroSized (env : Env) : List Lvar → Except String (List Lvar)
  | [] => .ok []
  | lv :: lvs => do
    let access ← lookupVar env lv
    match access with
    | .fix _ none 0 _ => removeZeroSized env lvs
    | .fix _ none _ _ => die "remove_zero_sized_region_closure_lvars: FIX messed up"
    | .fix _ (some _) 0 _ => die "remove_zero_sized_region_closure_lvars: FIX messed up"
    | _ => do
      let rest ← removeZeroSized env lvs
      return lv :: rest

/-- Variables of functions whose shared closure is empty are not stored. -/
def removeZeroSizedRegionClosureLvars (env : Env) (free : FreeVars) : Except String FreeVars := do
  let lvs ← removeZeroSized env free.lvs
  return { free with lvs := lvs }

def addFreeLv (orgEnv : Env) (lvClos : Lvar) (acc : Env × Nat) (lv : Lvar) :
    Except String (Env × Nat) := do
  let access ← lookupVar orgEnv lv
  match access with
  | .fix lab none 0 formals => .ok (declareLvar lv (.fix lab none 0 formals) acc.1, acc.2)
  | .fix _ none _ _ => die "add_free_lv: CE.FIX messed up."
  | .fix _ (some _) 0 _ => die "add_free_lv: CE.FIX messed up."
  | .fix lab (some _) s formals =>
    .ok (declareLvar lv (.fix lab (some (.select lvClos acc.2)) s formals) acc.1, acc.2 + 1)
  | _ => .ok (declareLvar lv (.select lvClos acc.2) acc.1, acc.2 + 1)

def addFreeExcon (orgEnv : Env) (lvClos : Lvar) (acc : Env × Nat) (excon : Excon) :
    Except String (Env × Nat) := do
  let arity ← lookupExconArity orgEnv excon
  return (declareExcon excon (.select lvClos acc.2, arity) acc.1, acc.2 + 1)

def addFreeRho (orgEnv : Env) (lvClos : Lvar) (acc : Env × Nat) (place : Place) :
    Except String (Env × Nat) := do
  let kind ← lookupRhoKind orgEnv place
  return (declareRhoKind place kind (declareRho place (.select lvClos acc.2) acc.1), acc.2 + 1)

/-- The environment of the body of a function with the given free variables:
`orgEnv` is the environment it is declared in, `newEnv` the global one. -/
def buildClosEnv (orgEnv newEnv : Env) (lvClos : Lvar) (baseOffset : Nat) (free : FreeVars) :
    Except String Env := do
  let acc ← free.rhos.foldlM (addFreeRho orgEnv lvClos) (newEnv, baseOffset)
  let acc ← free.lvs.foldlM (addFreeLv orgEnv lvClos) acc
  let acc ← free.excons.foldlM (addFreeExcon orgEnv lvClos) acc
  return acc.1

def initClosOffset : Nat := 1
def initSclosOffset : Nat := 0

def size3 (free : FreeVars) : Nat := free.lvs.length + free.excons.length + free.rhos.length

/-- A function of the converted program: its label, the parameter that holds
its closure, the parameters that hold its regions, its arguments, the
environment its body was converted in, and the body. -/
structure Fun where
  lab : Label
  clos : Option Lvar
  regArgs : List Lvar
  args : List Lvar
  bodyEnv : Env
  body : ClosExp

/-- `ccTrip` of an expression, from the next unused variable on. -/
abbrev CcTrip := Env → Nat → Except String (ClosExp × Nat)

def declareArgs (env : Env) (args : List Lvar) : Env :=
  plusDeclWith env declareLvar (args.map fun lv => (lv, .lvar lv))

/-- `FN`: the expression that makes the closure, and the function. -/
def ccFn (globalEnv env : Env) (newLab : Label) (args : List Lvar) (freeVarsAll : FreeVars)
    (alloc : AtSma) (ccBody : CcTrip) (next : Nat) : Except String (ClosExp × Fun × Nat) := do
  let freeVars ← removeZeroSizedRegionClosureLvars env freeVarsAll
  let lvClos := freshLvar next
  let envBody ← buildClosEnv env globalEnv lvClos initClosOffset freeVarsAll
  let envWithArgs := declareArgs envBody args
  let (cesAndSes, next) ← genCesAndSesFree env freeVars (next + 1)
  let (body, next) ← ccBody envWithArgs next
  let (sma, next) ← convertAlloc env alloc next
  let (sma, ces, ses) ← unifySmasCesAndSesFree sma cesAndSes
  return (insertSes (.closRecord newLab ces sma) ses,
    { lab := newLab, clos := some lvClos, regArgs := [], args := args, bodyEnv := envWithArgs,
      body := body },
    next)

/-- A function of a `FIX`: its variable and label, its region parameters, those
it never puts anything into, its arguments and its body. -/
structure FixFun where
  lvar : Lvar
  lab : Label
  formals : List Binder
  drops : List Binder
  args : List Lvar
  ccBody : CcTrip

/-- The functions of a `FIX` share the closure in `lvSclos`, which has `size`
elements. -/
def declareFuns (env : Env) (size : Nat) (lvSclos : Lvar) (functions : List FixFun) : Env :=
  plusDeclWith env declareLvar (functions.map fun f =>
    (f.lvar, if size = 0 then .fix f.lab none 0 f.formals
      else .fix f.lab (some (.lvar lvSclos)) size f.formals))

/-- Region parameters get variables of their own, from the last one on. -/
def declareFormals (env : Env) (next : Nat) : List Binder → List Lvar × Env × Nat
  | [] => ([], env, next)
  | (place, _) :: rest =>
    let (lvs, env, next) := declareFormals env next rest
    (freshLvar next :: lvs, declareRho place (.lvar (freshLvar next)) env, next + 1)

def declareDrops (env : Env) (dropRho : Place → Place) (drops : List Binder) : Env :=
  plusDeclWith env declareRho (drops.map fun rho => (rho.1, .droppedRvar (dropRho rho.1)))

def declareKinds (env : Env) (rhos : List Binder) : Env :=
  plusDeclWith env declareRhoKind (rhos.map fun rho => (rho.1, mult false rho.2))

/-- `compile_fn`; `dropRho` is the global region of the same run-time type. -/
def compileFn (globalEnv env : Env) (dropRho : Place → Place) (freeVarsAll : FreeVars)
    (sharedClosSize : Nat) (functions : List FixFun) (f : FixFun) (next : Nat) :
    Except String (Fun × Nat) := do
  let lvSclosFn := freshLvar next
  let envBodies ← buildClosEnv env globalEnv lvSclosFn initSclosOffset freeVarsAll
  let envWithFuns := declareFuns envBodies sharedClosSize lvSclosFn functions
  let (regArgs, envWithRv, next) := declareFormals envWithFuns (next + 1) f.formals
  let envWithRhoKind := declareKinds envWithRv f.formals
  let envWithRhoDrop := declareDrops envWithRhoKind dropRho f.drops
  let envWithArgs := declareArgs (declareKinds envWithRhoDrop f.drops) f.args
  let (body, next) ← f.ccBody envWithArgs next
  return ({ lab := f.lab, clos := if sharedClosSize = 0 then none else some lvSclosFn,
            regArgs := regArgs, args := f.args, bodyEnv := envWithArgs, body := body }, next)

/-- `FIX`: the converted scope, which makes the shared closure unless it is
empty, and the functions. -/
def ccFix (globalEnv env : Env) (dropRho : Place → Place) (freeVarsAll : FreeVars)
    (sharedClos : AtSma) (functions : List FixFun) (ccScope : CcTrip) (next : Nat) :
    Except String (ClosExp × List Fun × Nat) := do
  let freeVars ← removeZeroSizedRegionClosureLvars env freeVarsAll
  let sharedClosSize := size3 freeVars
  let lvSclos := freshLvar next
  let (cesAndSes, next) ← genCesAndSesFree env freeVars (next + 1)
  let envScope := declareFuns env sharedClosSize lvSclos functions
  let (funs, next) ← mapFresh (compileFn globalEnv env dropRho freeVarsAll sharedClosSize functions)
    functions next
  if sharedClosSize = 0 then
    let (scope, next) ← ccScope envScope next
    return (scope, funs, next)
  else
    let (sma, next) ← convertAlloc env sharedClos next
    let (sma, ces, ses) ← unifySmasCesAndSesFree sma cesAndSes
    let (scope, next) ← ccScope envScope next
    return (insertSes (.letExp [lvSclos] (.sclosRecord ces sma) scope) ses, funs, next)

/-- The closure, if any, and the arguments of a call of a known function. -/
def compileLetrecApp (env : Env) (lvar : Lvar) (cesAndSes : List Access) (next : Nat) :
    Except String ((Option ClosExp × List ClosExp × List SelectExp × Label) × Nat) := do
  let (labF, sizeClos) ← lookupFun env lvar
  if sizeClos = 0 then
    let (ces, ses, _) := unifyCeSe cesAndSes SeMap.empty
    return ((none, ces, ses, labF), next)
  else
    let (clos, next) ← lookupVe env lvar next
    match unifyCeSe (clos :: cesAndSes) SeMap.empty with
    | (ceClos :: ces, ses, _) => return ((some ceClos, ces, ses, labF), next)
    | ([], _, _) => die "split_in_hd_and_tl: Can't split list with zero elements"

/-- The closure and the arguments of a call through a closure (`FNCALL` and
`FNJMP`). -/
def compileFnApp (opr : Access) (cesAndSes : List Access) :
    Except String (Option ClosExp × List ClosExp × List SelectExp) :=
  match unifyCeSe (opr :: cesAndSes) SeMap.empty with
  | (ceOpr :: ces, ses, _) => .ok (some ceOpr, ces, ses)
  | ([], _, _) => die "split_in_hd_and_tl: Can't split list with zero elements"

end MLKit.Backend.ClosConv
