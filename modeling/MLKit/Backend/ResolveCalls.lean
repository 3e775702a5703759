import MLKit.Backend.CallConvPlaces

/-!
# Calls with their operands in registers

The calls in `CC_ls` of the register allocator: the operands that `CallConv`
passes in registers are moved there in front of the call, and the results are
moved out of their registers behind it.
-/

namespace MLKit.Backend.RegAlloc

open MLKit.Backend.CallConv

section Moves

variable {ο : Type}

/-- Move the registers of formals or results to their variables. -/
def resolveArgs : List (Atom × Lvar) → List (BasicStmt ο Atom) → List (BasicStmt ο Atom)
  | [], lss => lss
  | (atom, phreg) :: args, lss =>
    resolveArgs args (.assign atom (.atom (.phreg phreg)) :: lss)

/-- Move operands to their registers. -/
def resolveRes : List (Atom × Lvar) → List (BasicStmt ο Atom) → List (BasicStmt ο Atom)
  | [], lss => lss
  | (atom, phreg) :: res, lss => resolveRes res (.assign (.phreg phreg) (.atom atom) :: lss)

end Moves

def fnOperands {α : Type} (app : FnApp α) : App α :=
  { clos := app.clos, args := app.args, regVec := none, regArgs := [], res := app.res }

def funOperands {α : Type} (app : FunApp α) : App α :=
  { clos := app.clos, args := app.args, regVec := app.regVec, regArgs := app.regArgs,
    res := app.res }

/-- A closure is called with the operands `app'`. -/
def withFnOperands {α : Type} (app : FnApp α) (app' : App α) : FnApp α :=
  { app with args := app'.args, clos := app'.clos, res := app'.res }

def withFunOperands {α : Type} (app : FunApp α) (app' : App α) : FunApp α :=
  { app with args := app'.args, regVec := app'.regVec, regArgs := app'.regArgs,
             clos := app'.clos, res := app'.res }

/-- `CC_ls` on a statement that contains no statements. -/
def ccLs {ο : Type} : BasicStmt ο Atom → List (BasicStmt ο Atom) → List (BasicStmt ο Atom)
  | .fnjmp app, rest =>
    let (app', assignListArgs, assignListRes) :=
      resolveApp .phreg RI.argsPhreg RI.resPhreg (fnOperands app)
    resolveRes assignListArgs (.fnjmp (withFnOperands app app') :: resolveArgs assignListRes rest)
  | .fncall app, rest =>
    let (app', assignListArgs, assignListRes) :=
      resolveApp .phreg RI.argsPhreg RI.resPhreg (fnOperands app)
    resolveRes assignListArgs (.fncall (withFnOperands app app') :: resolveArgs assignListRes rest)
  | .jmp app, rest =>
    let (app', assignListArgs, assignListRes) :=
      resolveApp .phreg RI.argsPhreg RI.resPhreg (funOperands app)
    resolveRes assignListArgs (.jmp (withFunOperands app app') :: resolveArgs assignListRes rest)
  | .funcall app, rest =>
    let (app', assignListArgs, assignListRes) :=
      resolveApp .phreg RI.argsPhreg RI.resPhreg (funOperands app)
    resolveRes assignListArgs
      (.funcall (withFunOperands app app') :: resolveArgs assignListRes rest)
  | .ccall name args rhosForResult res, rest =>
    let (app', assignListArgs, assignListRes) :=
      resolveCcall .phreg RI.argsPhregCcall RI.resPhregCcall
        { args := args, rhosForResult := rhosForResult, res := res }
    resolveRes assignListArgs
      (.ccall name app'.args app'.rhosForResult app'.res :: resolveArgs assignListRes rest)
  | .ccallAuto name args res, rest =>
    let ((args', res'), assignListArgs, assignListRes) :=
      resolveCcallAuto .phreg RI.argsPhregCcall RI.resPhregCcall args res
    resolveRes assignListArgs (.ccallAuto name args' res' :: resolveArgs assignListRes rest)
  | ls, rest => ls :: rest

/-! ## The operands of the resolved call -/

variable {α : Type} {β : Type*}

theorem actuals_withFnOperands {app' : App α} (app : FnApp α) (hregVec : app'.regVec = none)
    (hregArgs : app'.regArgs = []) :
    (fnOperands (withFnOperands app app')).actuals = app'.actuals := by
  simp [App.actuals, fnOperands, withFnOperands, hregVec, hregArgs]

/-- The moves of a call and what its operands are after them. -/
structure Resolved (app app' : App Atom) (moves resMoves : List (Atom × Lvar)) : Prop where
  actuals : app'.actuals = inRegisters .phreg app.actuals RI.argsPhreg
  moves : moves.Perm (app.actuals.zip RI.argsPhreg)
  res : app'.res = inRegisters .phreg app.res RI.resPhreg
  resMoves : resMoves = app.res.zip RI.resPhreg

variable {app' app : App Atom}

/-- What is left of the operands for the stack. -/
theorem Resolved.spilled {moves resMoves : List (Atom × Lvar)}
    (h : Resolved app app' moves resMoves) (f : Atom → β) :
    (app'.actuals.map f).drop 3 = (app.actuals.drop 3).map f ∧
      (app'.res.map f).drop 3 = (app.res.drop 3).map f := by
  have hactuals := inRegisters_drop Atom.phreg app.actuals RI.argsPhreg
  have hres := inRegisters_drop Atom.phreg app.res RI.resPhreg
  rw [← h.actuals] at hactuals
  rw [← h.res] at hres
  constructor
  · rw [← List.map_drop]
    exact congrArg _ hactuals
  · rw [← List.map_drop]
    exact congrArg _ hres

theorem resolveApp_resolved (app : App Atom) :
    Resolved app (resolveApp .phreg RI.argsPhreg RI.resPhreg app).1
      (resolveApp .phreg RI.argsPhreg RI.resPhreg app).2.1
      (resolveApp .phreg RI.argsPhreg RI.resPhreg app).2.2 := by
  obtain ⟨app', moves, happ, hactuals, hmoves, hres⟩ := resolveApp_eq Atom.phreg
  rw [happ]
  exact ⟨hactuals, hmoves, hres, rfl⟩

end MLKit.Backend.RegAlloc
