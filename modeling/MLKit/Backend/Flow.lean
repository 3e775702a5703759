import MLKit.Backend.LineStmt

/-!
# Control flow of line statements

Control stands before a list of statements, with the work that follows it on a
stack of frames.  A frame keeps the context of its code, which grows at a
`SCOPE`.  Every step is labelled with what it does.

An analysis may follow other paths than control does: a view says whether the
statements after a switch in its own list are passed over, whether control goes
on behind a tail call or a raise, and whether an exception reaches its handler.
-/

namespace MLKit.Backend

variable {γ σ ο α : Type}

structure View where
  skipsAfterSwitch : Bool
  passesTailCall : Bool
  passesRaise : Bool
  catches : Bool

/-- The paths that control takes. -/
def View.exact : View where
  skipsAfterSwitch := false
  passesTailCall := false
  passesRaise := false
  catches := true

def isTailCall : BasicStmt ο α → Bool
  | .fnjmp _ => true
  | .jmp _ => true
  | _ => false

def isRaise : BasicStmt ο α → Bool
  | .raise _ _ => true
  | _ => false

/-- Statements that may end with an exception. -/
def mayRaise : BasicStmt ο α → Bool
  | .fncall _ => true
  | .funcall _ => true
  | .raise _ _ => true
  | .prim _ _ _ => true
  | .ccall _ _ _ _ => true
  | .ccallAuto _ _ _ => true
  | _ => false

def View.completes (view : View) (s : BasicStmt ο α) : Bool :=
  (!isTailCall s || view.passesTailCall) && (!isRaise s || view.passesRaise)

/-- What a step does. -/
inductive Action (ο α : Type) where
  | silent
  | stmt (s : BasicStmt ο α)
  | raised (s : BasicStmt ο α)
  | test (arg : α)
  | enterRegions (rhos : List (Binder × ο))
  | leaveRegions (rhos : List (Binder × ο))
  | install (handlLv : α) (offset : ο)
  | uninstall (offset : ο)
  | caught (handlReturnLv : α)
  | handled (handlReturnLv : α)

inductive Frame (γ σ ο α : Type) where
  | code (ctx : γ) (lss : List (LineStmt σ ο α))
  | afterSwitch (ctx : γ) (lss : List (LineStmt σ ο α))
  | leaveRegions (ctx : γ) (rhos : List (Binder × ο))
  | install (ctx : γ) (default : List (LineStmt σ ο α)) (handlLv : α)
      (handlReturn : List (LineStmt σ ο α)) (handlReturnLv : α) (offset : ο)
  | handler (ctx : γ) (handlReturn : List (LineStmt σ ο α)) (handlReturnLv : α) (offset : ο)
  | caught (ctx : γ) (handlReturn : List (LineStmt σ ο α)) (handlReturnLv : α)
  | handled (ctx : γ) (handlReturnLv : α)

/-- What an exception leaves of the frames: nothing, if there is no handler. -/
def unwind : List (Frame γ σ ο α) → List (Frame γ σ ο α)
  | [] => []
  | .handler ctx handlReturn handlReturnLv _ :: K => .caught ctx handlReturn handlReturnLv :: K
  | _ :: K => unwind K

inductive Flow (view : View) (enter : γ → List σ → γ) :
    List (Frame γ σ ο α) → γ × Action ο α → List (Frame γ σ ο α) → Prop where
  | stmt : view.completes s = true →
      Flow view enter (.code ctx (.basic s :: lss) :: K) (ctx, .stmt s) (.code ctx lss :: K)
  | leave : isTailCall s = true → view.passesTailCall = false →
      Flow view enter (.code ctx (.basic s :: lss) :: K) (ctx, .stmt s) []
  | raised : mayRaise s = true → view.catches = true →
      Flow view enter (.code ctx (.basic s :: lss) :: K) (ctx, .raised s) (unwind K)
  | done : Flow view enter (.code ctx [] :: K) (ctx, .silent) K
  | letregion :
      Flow view enter (.code ctx (.letregion rhos body :: lss) :: K) (ctx, .enterRegions rhos)
        (.code ctx body :: .leaveRegions ctx rhos :: .code ctx lss :: K)
  | leaveRegions :
      Flow view enter (.leaveRegions ctx rhos :: K) (ctx, .leaveRegions rhos) K
  | scope {scope} :
      Flow view enter (.code ctx (.scope pat scope :: lss) :: K) (ctx, .silent)
        (.code (enter ctx pat) scope :: .code ctx lss :: K)
  | sel {default} : sel ∈ sels →
      Flow view enter (.code ctx (.switch kind arg sels default :: lss) :: K) (ctx, .test arg)
        (.code ctx sel.2 :: .afterSwitch ctx lss :: K)
  | default {default} :
      Flow view enter (.code ctx (.switch kind arg sels default :: lss) :: K) (ctx, .test arg)
        (.code ctx default :: .afterSwitch ctx lss :: K)
  | afterSwitch : view.skipsAfterSwitch = false →
      Flow view enter (.afterSwitch ctx lss :: K) (ctx, .silent) (.code ctx lss :: K)
  | skip : view.skipsAfterSwitch = true →
      Flow view enter (.afterSwitch ctx lss :: K) (ctx, .silent) K
  | handle {default} :
      Flow view enter
        (.code ctx (.handle default handl handlLv handlReturn handlReturnLv bv offset :: lss) :: K)
        (ctx, .silent)
        (.code ctx handl :: .install ctx default handlLv handlReturn handlReturnLv offset ::
          .code ctx lss :: K)
  | install {default} :
      Flow view enter (.install ctx default handlLv handlReturn handlReturnLv offset :: K)
        (ctx, .install handlLv offset)
        (.code ctx default :: .handler ctx handlReturn handlReturnLv offset :: K)
  | uninstall :
      Flow view enter (.handler ctx handlReturn handlReturnLv offset :: K)
        (ctx, .uninstall offset) K
  | caught :
      Flow view enter (.caught ctx handlReturn handlReturnLv :: K) (ctx, .caught handlReturnLv)
        (.code ctx handlReturn :: .handled ctx handlReturnLv :: K)
  | handled :
      Flow view enter (.handled ctx handlReturnLv :: K) (ctx, .handled handlReturnLv) K

/-! ## Places in a body -/

/-- A way down to a statement of a body. -/
inductive Pos where
  | here
  | next (pos : Pos)
  | body (pos : Pos)
  | scope (pos : Pos)
  | handl (pos : Pos)
  | default (pos : Pos)
  | handlReturn (pos : Pos)
  | sel (i : Nat) (pos : Pos)
  | swDefault (pos : Pos)

/-- The statement at a place. -/
def stmtAt (pos : Pos) (lss : List (LineStmt σ ο α)) : Option (BasicStmt ο α) :=
  match pos with
  | .here => match lss with
      | .basic s :: _ => some s
      | _ => none
  | .next pos => match lss with
      | _ :: lss => stmtAt pos lss
      | _ => none
  | .body pos => match lss with
      | .letregion _ body :: _ => stmtAt pos body
      | _ => none
  | .scope pos => match lss with
      | .scope _ scope :: _ => stmtAt pos scope
      | _ => none
  | .handl pos => match lss with
      | .handle _ handl _ _ _ _ _ :: _ => stmtAt pos handl
      | _ => none
  | .default pos => match lss with
      | .handle default _ _ _ _ _ _ :: _ => stmtAt pos default
      | _ => none
  | .handlReturn pos => match lss with
      | .handle _ _ _ handlReturn _ _ _ :: _ => stmtAt pos handlReturn
      | _ => none
  | .sel i pos => match lss with
      | .switch _ _ sels _ :: _ => sels[i]?.bind fun sel => stmtAt pos sel.2
      | _ => none
  | .swDefault pos => match lss with
      | .switch _ _ _ default :: _ => stmtAt pos default
      | _ => none

/-- The context, the statement at a place, the statements behind it in its list
and the frames below. -/
def placeAt (enter : γ → List σ → γ) (pos : Pos) (ctx : γ) (lss : List (LineStmt σ ο α))
    (K : List (Frame γ σ ο α)) :
    Option (γ × BasicStmt ο α × List (LineStmt σ ο α) × List (Frame γ σ ο α)) :=
  match pos with
  | .here => match lss with
      | .basic s :: lss => some (ctx, s, lss, K)
      | _ => none
  | .next pos => match lss with
      | _ :: lss => placeAt enter pos ctx lss K
      | _ => none
  | .body pos => match lss with
      | .letregion rhos body :: lss =>
        placeAt enter pos ctx body (.leaveRegions ctx rhos :: .code ctx lss :: K)
      | _ => none
  | .scope pos => match lss with
      | .scope pat scope :: lss => placeAt enter pos (enter ctx pat) scope (.code ctx lss :: K)
      | _ => none
  | .handl pos => match lss with
      | .handle default handl handlLv handlReturn handlReturnLv _ offset :: lss =>
        placeAt enter pos ctx handl
          (.install ctx default handlLv handlReturn handlReturnLv offset :: .code ctx lss :: K)
      | _ => none
  | .default pos => match lss with
      | .handle default _ _ handlReturn handlReturnLv _ offset :: lss =>
        placeAt enter pos ctx default
          (.handler ctx handlReturn handlReturnLv offset :: .code ctx lss :: K)
      | _ => none
  | .handlReturn pos => match lss with
      | .handle _ _ _ handlReturn handlReturnLv _ _ :: lss =>
        placeAt enter pos ctx handlReturn (.handled ctx handlReturnLv :: .code ctx lss :: K)
      | _ => none
  | .sel i pos => match lss with
      | .switch _ _ sels _ :: lss =>
        sels[i]?.bind fun sel => placeAt enter pos ctx sel.2 (.afterSwitch ctx lss :: K)
      | _ => none
  | .swDefault pos => match lss with
      | .switch _ _ _ default :: lss =>
        placeAt enter pos ctx default (.afterSwitch ctx lss :: K)
      | _ => none

@[simp] theorem placeAt_nil (enter : γ → List σ → γ) (pos : Pos) (ctx : γ)
    (K : List (Frame γ σ ο α)) : placeAt enter pos ctx [] K = none := by
  cases pos <;> rfl

end MLKit.Backend
