import MLKit.Backend.LineStmt

/-!
# Variables defined and used by a statement

The def and use functions of `LineStmt`.  They return lambda variables and
machine registers; an accumulator of the source is an append here.  With
`ignoreRvars` they leave out the variables that are bound to regions, which are
recognised by their position, and unboxed floats.
-/

namespace MLKit.Backend

variable {ο : Type}

def getVarAtom : Atom → List Lvar
  | .var lv => [lv]
  | .phreg phreg => [phreg]
  | _ => []

def getVarAtoms (atoms : List Atom) : List Lvar := atoms.flatMap getVarAtom

def getVarAtomOpt : Option Atom → List Lvar
  | none => []
  | some atom => getVarAtom atom

def getVarSma : Sma Atom → List Lvar
  | .mode _ atom _ => getVarAtom atom
  | .ignore => []

def getVarSma' (ignoreRvars : Bool) (sma : Sma Atom) : List Lvar :=
  if ignoreRvars then [] else getVarSma sma

def getVarSmas' (ignoreRvars : Bool) (smas : List (Sma Atom)) : List Lvar :=
  if ignoreRvars then [] else smas.flatMap getVarSma

def smashFree' (ignoreRvars : Bool) (elems : Free Atom) : List Atom :=
  if ignoreRvars then elems.lvs ++ elems.excons else elems.rhos ++ elems.lvs ++ elems.excons

def useVarSe' (ignoreRvars : Bool) : SimpleExp Atom → List Lvar
  | .atom atom => getVarAtom atom
  | .load _ => []
  | .store atom _ => getVarAtom atom
  | .string _ => []
  | .real _ => []
  | .f64 _ => []
  | .closRecord _ elems alloc =>
    getVarSma' ignoreRvars alloc ++ getVarAtoms (smashFree' ignoreRvars elems)
  | .regvecRecord elems alloc => getVarSma' ignoreRvars alloc ++ getVarSmas' ignoreRvars elems
  | .sclosRecord elems alloc =>
    getVarSma' ignoreRvars alloc ++ getVarAtoms (smashFree' ignoreRvars elems)
  | .record elems alloc _ _ => getVarSma' ignoreRvars alloc ++ getVarAtoms elems
  | .blockf64 elems alloc _ => getVarSma' ignoreRvars alloc ++ getVarAtoms elems
  | .scratchmem _ alloc _ => getVarSma' ignoreRvars alloc
  | .select _ atom => getVarAtom atom
  | .con0 _ _ auxRegions alloc =>
    getVarSma' ignoreRvars alloc ++ getVarSmas' ignoreRvars auxRegions
  | .con1 _ _ alloc arg => getVarSma' ignoreRvars alloc ++ getVarAtom arg
  | .decon _ _ conAty => getVarAtom conAty
  | .deref atom => getVarAtom atom
  | .ref sma atom => getVarSma' ignoreRvars sma ++ getVarAtom atom
  | .assignref sma atom1 atom2 =>
    getVarSma' ignoreRvars sma ++ getVarAtom atom1 ++ getVarAtom atom2
  | .passPtrToMem sma _ _ => getVarSma' ignoreRvars sma
  | .passPtrToRho sma => getVarSma' ignoreRvars sma

def useVarOnFn (app : FnApp Atom) : List Lvar :=
  getVarAtoms app.args ++ getVarAtomOpt app.clos ++ getVarAtom app.opr

def useVarOnFun' (ignoreRvars : Bool) (app : FunApp Atom) : List Lvar :=
  getVarAtoms app.args ++ getVarAtomOpt app.regVec ++
    (if ignoreRvars then [] else getVarAtoms app.regArgs) ++ getVarAtomOpt app.clos

def defVarLs : BasicStmt ο Atom → List Lvar
  | .assign pat _ => getVarAtom pat
  | .flush _ _ => []
  | .fetch atom _ => getVarAtom atom
  | .fnjmp app => getVarAtoms app.res
  | .fncall app => getVarAtoms app.res
  | .jmp app => getVarAtoms app.res
  | .funcall app => getVarAtoms app.res
  | .raise _ definedAtys => getVarAtoms definedAtys
  | .resetRegions _ _ => []
  | .prim _ _ res => getVarAtoms res
  | .ccall _ _ _ res => getVarAtoms res
  | .ccallAuto _ _ res => getVarAtom res.1
  | .exportFn _ _ _ => []

def usesOf (ignoreRvars : Bool) : BasicStmt ο Atom → List Lvar
  | .assign _ bind => useVarSe' ignoreRvars bind
  | .flush atom _ => getVarAtom atom
  | .fetch _ _ => []
  | .fnjmp app => useVarOnFn app
  | .fncall app => useVarOnFn app
  | .jmp app => useVarOnFun' ignoreRvars app
  | .funcall app => useVarOnFun' ignoreRvars app
  | .raise arg _ => getVarAtom arg
  | .resetRegions _ regionsForResetting => getVarSmas' ignoreRvars regionsForResetting
  | .prim _ args _ => getVarAtoms args
  | .ccall _ args rhosForResult _ => getVarAtoms args ++ getVarAtoms rhosForResult
  | .ccallAuto _ args _ => getVarAtoms (args.map Prod.fst)
  | .exportFn _ _ arg => getVarAtom arg.1

def filterOutUbf64Lvars (lvs : List Lvar) : List Lvar := lvs.filter fun lv => !lv.getUbf64

def useVarLs' (ignoreRvars : Bool) (ls : BasicStmt ο Atom) : List Lvar :=
  if ignoreRvars then filterOutUbf64Lvars (usesOf ignoreRvars ls) else usesOf ignoreRvars ls

def useVarLs (ls : BasicStmt ο Atom) : List Lvar := useVarLs' false ls

/-- Without the variables that the collector does not follow. -/
def defUseVarLsCbv (ls : BasicStmt ο Atom) : List Lvar × List Lvar :=
  (defVarLs ls, useVarLs' true ls)

def filterOutPhregs (lvs : List Lvar) : List Lvar := lvs.filter fun lv => !lv.isReg

def getLvarAtom (atom : Atom) : List Lvar := filterOutPhregs (getVarAtom atom)

end MLKit.Backend
