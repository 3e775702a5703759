import MLKit.Backend.CallConv
import MLKit.Backend.DefUse
import Mathlib.Data.Finset.Basic
import Mathlib.Data.Finset.Sort

/-!
# Flow variables

The analysis of `LineStmt` that finds the boolean variables whose definitions may be jumps to the
branches of the switch on the variable (`FV_CalcSets`), and the annotation of the program with them.
-/

namespace MLKit.Backend.FlowVars

/-- How a bound variable is stored: as a variable or as a flow variable. -/
inductive Sty where
  | V (lv : Lvar)
  | FV (lv : Lvar) (ifTrue ifFalse : Label)

abbrev FvStmt := LineStmt Sty Unit Atom

def die {α : Type} (s : String) : Except String α := .error ("LineStmt." ++ s)

def conTrue : Con := ⟨"true"⟩
def conFalse : Con := ⟨"false"⟩

def mlTrue : Int := 3
def mlFalse : Int := 1

/-- `PrimName.is_flow_prim`: the comparisons of numbers. -/
def isFlowPrim (name : String) : Bool :=
  let sizes := ["int31", "int32ub", "int32b", "word31", "word32ub", "word32b", "int63", "int64ub",
    "int64b", "word63", "word64ub", "word64b"]
  (["Equal_", "Less_", "Lesseq_", "Greater_", "Greatereq_"].any fun cond =>
    sizes.any fun size => name == cond ++ size) ||
  ["Less_f64", "Lesseq_f64", "Greater_f64", "Greatereq_f64"].contains name

/-- The boolean of a constructor. -/
def conBool (con : Con) : Option Bool :=
  if con = conTrue then some true else if con = conFalse then some false else none

/-- The boolean of the selector of a switch on booleans. -/
def selBool : SwitchKind → Selector → Option Bool
  | .con, .con con _ => conBool con
  | .int _, .num value =>
    if value = mlTrue then some true else if value = mlFalse then some false else none
  | _, _ => none

/-- The sets of the analysis, and the variable of a boolean switch that stands next. -/
structure Sets where
  okSet : Finset Lvar
  notOkSet : Finset Lvar
  prevUseLv : Option Lvar

def addOkUse (lv : Lvar) (sets : Sets) : Sets :=
  if lv ∈ sets.okSet then ⟨sets.okSet.erase lv, insert lv sets.notOkSet, none⟩
  else if lv ∈ sets.notOkSet then ⟨sets.okSet, sets.notOkSet, none⟩
  else ⟨insert lv sets.okSet, sets.notOkSet, some lv⟩

/-- `add_not_ok_use` and `add_not_ok_def`. -/
def addNotOk (lvs : List Lvar) (sets : Sets) : Sets :=
  ⟨sets.okSet \ lvs.toFinset, sets.notOkSet ∪ lvs.toFinset, none⟩

def addOkDef (lv : Lvar) (lvToMatch : Option Lvar) (sets : Sets) : Sets :=
  match lvToMatch with
  | none => addNotOk [lv] sets
  | some lv' =>
    if lv = lv' then ⟨sets.okSet, sets.notOkSet, none⟩
    else ⟨sets.okSet.erase lv, insert lv sets.notOkSet, none⟩

def removeFiniteRhos (rhos : List (Binder × Unit)) : List (Binder × Unit) :=
  rhos.filter fun rho => match rho.1.2 with
    | .words _ => false
    | .inf => true

def removeZeroRhos (rhos : List (Binder × Unit)) : List (Binder × Unit) :=
  rhos.filter fun rho => match rho.1.2 with
    | .words 0 => false
    | _ => true

/-- The regions that execute code, as the analysis sees it. -/
def codeRhos (regionProfiling : Bool) (rhos : List (Binder × Unit)) : List (Binder × Unit) :=
  if regionProfiling then removeZeroRhos rhos else removeFiniteRhos rhos

/-- A statement without statements that sets a variable to a boolean constant. -/
def boolConst : BasicStmt Unit Atom → Option (Lvar × Bool)
  | .assign (.var lv) (.con0 con _ [] .ignore) => (conBool con).map fun b => (lv, b)
  | _ => none

/-- A statement without statements that sets a variable to the result of a comparison. -/
def boolPrim : BasicStmt Unit Atom → Option Lvar
  | .prim name [_, _] [.var lv] => if isFlowPrim name then some lv else none
  | _ => none

/-- `FV_CalcSets_ls` on a statement without statements. -/
def fvCalcSetsBasic (stmt : BasicStmt Unit Atom) (sets : Sets) : Sets :=
  match boolConst stmt with
  | some (lv, _) => addOkDef lv sets.prevUseLv sets
  | none =>
    match boolPrim stmt with
    | some lv => addOkDef lv sets.prevUseLv (addNotOk (useVarLs stmt) sets)
    | none => addNotOk (useVarLs stmt) (addNotOk (defVarLs stmt) sets)

mutual

def fvCalcSetsLs (regionProfiling : Bool) : FvStmt → Sets → Except String Sets
  | .basic stmt, sets => .ok (fvCalcSetsBasic stmt sets)
  | .switch kind (.var lv) [(sel, lss)] default, sets =>
    match kind with
    | .string => die "FV_CalcSets_ls: SWITCH_S"
    | .excon => die "FV_CalcSets_ls: SWITCH_E"
    | kind =>
      if (selBool kind sel).isSome then do
        let sets' ← fvCalcSetsLss regionProfiling default sets
        let sets' ← fvCalcSetsLss regionProfiling lss { sets' with prevUseLv := sets.prevUseLv }
        return addOkUse lv sets'
      else do
        let sets' ← fvCalcSetsLss regionProfiling lss sets
        let sets' ←
          fvCalcSetsLss regionProfiling default { sets' with prevUseLv := sets.prevUseLv }
        return addNotOk (getLvarAtom (.var lv)) sets'
  | .switch kind arg sels default, sets =>
    match kind with
    | .string => die "FV_CalcSets_ls: SWITCH_S"
    | .excon => die "FV_CalcSets_ls: SWITCH_E"
    | _ => do
      let sets' ← fvCalcSetsSels regionProfiling sels sets.prevUseLv sets
      let sets' ←
        fvCalcSetsLss regionProfiling default { sets' with prevUseLv := sets.prevUseLv }
      return addNotOk (getLvarAtom arg) sets'
  | .letregion rhos body, sets =>
    match codeRhos regionProfiling rhos with
    | [] => fvCalcSetsLss regionProfiling body sets
    | _ :: _ => do
      let sets' ← fvCalcSetsLss regionProfiling body { sets with prevUseLv := none }
      return { sets' with prevUseLv := none }
  | .scope _ scope, sets => fvCalcSetsLss regionProfiling scope sets
  | .handle default handl (.var handlLv) [] (.var handlReturnLv) _ _, sets => do
    let sets ← fvCalcSetsLss regionProfiling default { sets with prevUseLv := none }
    let sets ← fvCalcSetsLss regionProfiling handl { sets with prevUseLv := none }
    return addNotOk [handlReturnLv, handlLv] sets
  | .handle _ _ _ _ _ _ _, _ => die "FV_CalcSets_ls: Handle"

def fvCalcSetsLss (regionProfiling : Bool) : List FvStmt → Sets → Except String Sets
  | [], sets => .ok sets
  | ls :: lss, sets => do
    let sets ← fvCalcSetsLss regionProfiling lss sets
    fvCalcSetsLs regionProfiling ls sets

/-- The branches of a switch, each before the same statement. -/
def fvCalcSetsSels (regionProfiling : Bool) :
    List (Selector × List FvStmt) → Option Lvar → Sets → Except String Sets
  | [], _, sets => .ok { sets with prevUseLv := none }
  | (_, lss) :: sels, prevUseLv, sets => do
    let sets ← fvCalcSetsSels regionProfiling sels prevUseLv sets
    fvCalcSetsLss regionProfiling lss { sets with prevUseLv := prevUseLv }

end

/-- The set of flow variables of a function body. -/
def fvOkSet (regionProfiling : Bool) (cc : CallConv.CC) (lss : List FvStmt) :
    Except String (Finset Lvar) := do
  let notOkSet := (CallConv.getResLvars cc ++ CallConv.getArgLvars cc).toFinset
  let sets ← fvCalcSetsLss regionProfiling lss ⟨∅, notOkSet, none⟩
  return sets.okSet

/-! ## Annotation -/

/-- The labels made for flow variables: two for each, all different. -/
structure FreshLabels where
  label : Lvar → Bool → Label
  distinct : ∀ {lv lv' : Lvar} {b b' : Bool}, label lv b = label lv' b' → lv = lv' ∧ b = b'

section MapLss

variable (f : Atom → Atom)

def mapSma : Sma Atom → Sma Atom
  | .mode kind aty pp => .mode kind (f aty) pp
  | .ignore => .ignore

def mapFree (elems : Free Atom) : Free Atom where
  lvs := elems.lvs.map f
  excons := elems.excons.map f
  rhos := elems.rhos.map f

def mapSe : SimpleExp Atom → SimpleExp Atom
  | .atom aty => .atom (f aty)
  | .load lab => .load lab
  | .store aty lab => .store (f aty) lab
  | .string str => .string str
  | .real str => .real str
  | .f64 str => .f64 str
  | .closRecord label elems alloc => .closRecord label (mapFree f elems) (mapSma f alloc)
  | .regvecRecord elems alloc => .regvecRecord (elems.map (mapSma f)) (mapSma f alloc)
  | .sclosRecord elems alloc => .sclosRecord (mapFree f elems) (mapSma f alloc)
  | .record elems alloc tag maybeuntag => .record (elems.map f) (mapSma f alloc) tag maybeuntag
  | .blockf64 elems alloc tag => .blockf64 (elems.map f) (mapSma f alloc) tag
  | .scratchmem bytes alloc tag => .scratchmem bytes (mapSma f alloc) tag
  | .select i aty => .select i (f aty)
  | .con0 con conKind auxRegions alloc =>
    .con0 con conKind (auxRegions.map (mapSma f)) (mapSma f alloc)
  | .con1 con conKind alloc arg => .con1 con conKind (mapSma f alloc) (f arg)
  | .decon con conKind conAty => .decon con conKind (f conAty)
  | .deref aty => .deref (f aty)
  | .ref alloc aty => .ref (mapSma f alloc) (f aty)
  | .assignref alloc aty1 aty2 => .assignref (mapSma f alloc) (f aty1) (f aty2)
  | .passPtrToMem alloc i untagged => .passPtrToMem (mapSma f alloc) i untagged
  | .passPtrToRho alloc => .passPtrToRho (mapSma f alloc)

def mapFnApp (app : FnApp Atom) : FnApp Atom :=
  { app with
    opr := f app.opr
    args := app.args.map f
    clos := app.clos.map f
    res := app.res.map f }

def mapFunApp (app : FunApp Atom) : FunApp Atom :=
  { app with
    args := app.args.map f
    regVec := app.regVec.map f
    regArgs := app.regArgs.map f
    clos := app.clos.map f
    res := app.res.map f }

/-- `map_lss` on a statement without statements. -/
def mapBasic : BasicStmt Unit Atom → BasicStmt Unit Atom
  | .assign pat bind => .assign (f pat) (mapSe f bind)
  | .flush aty offset => .flush (f aty) offset
  | .fetch aty offset => .fetch (f aty) offset
  | .fnjmp app => .fnjmp (mapFnApp f app)
  | .fncall app => .fncall (mapFnApp f app)
  | .jmp app => .jmp (mapFunApp f app)
  | .funcall app => .funcall (mapFunApp f app)
  | .raise arg definedAtys => .raise (f arg) (definedAtys.map f)
  | .resetRegions force regions => .resetRegions force (regions.map (mapSma f))
  | .prim name args res => .prim name (args.map f) (res.map f)
  | .ccall name args rhosForResult res =>
    .ccall name (args.map f) (rhosForResult.map f) (res.map f)
  | .ccallAuto name args res =>
    .ccallAuto name (args.map fun arg => (f arg.1, arg.2)) (f res.1, res.2)
  | .exportFn name closLab arg => .exportFn name closLab (f arg.1, arg.2)

mutual

def mapLs (g : Sty → Sty) : FvStmt → FvStmt
  | .basic stmt => .basic (mapBasic f stmt)
  | .letregion rhos body => .letregion rhos (mapLss g body)
  | .scope pat scope => .scope (pat.map g) (mapLss g scope)
  | .handle default handl handlLv handlReturn handlReturnLv bv offset =>
    .handle (mapLss g default) (mapLss g handl) (f handlLv) (mapLss g handlReturn)
      (f handlReturnLv) bv offset
  | .switch kind arg sels default => .switch kind (f arg) (mapSels g sels) (mapLss g default)

def mapLss (g : Sty → Sty) : List FvStmt → List FvStmt
  | [] => []
  | ls :: lss => mapLs g ls :: mapLss g lss

def mapSels (g : Sty → Sty) : List (Selector × List FvStmt) → List (Selector × List FvStmt)
  | [] => []
  | (sel, lss) :: sels => (sel, mapLss g lss) :: mapSels g sels

end

end MapLss

def annAty (labels : FreshLabels) (okSet : Finset Lvar) : Atom → Atom
  | .var lv =>
    if lv ∈ okSet then .flowVar lv (labels.label lv true) (labels.label lv false) else .var lv
  | aty => aty

def annSty (labels : FreshLabels) (okSet : Finset Lvar) : Sty → Sty
  | .V lv => if lv ∈ okSet then .FV lv (labels.label lv true) (labels.label lv false) else .V lv
  | sty => sty

/-- The annotated body of `FV_top_decl'`. -/
def annLss (labels : FreshLabels) (okSet : Finset Lvar) (lss : List FvStmt) : List FvStmt :=
  mapLss (annAty labels okSet) (annSty labels okSet) lss

end MLKit.Backend.FlowVars
