import Mathlib.Tactic.Tauto

/-!
# Call conversion

`appConvert` of `MulExp.sml` gives every application its call kind.  The traversal is told how the
value of an expression is used, and returns how the value of the code before it is used.
-/

namespace MLKit.Regions.MulExp

inductive CallKind where
  | jmp | funcall | fnjmp | fncall
  deriving DecidableEq

/-- `RETURN`, `NEXT` and `JOIN`. -/
inductive Continuation where
  | ret | next | join
  deriving DecidableEq

/-- The forms that only evaluate operands. -/
inductive Prim where
  | con1 | decon | excon | deexcon | raise | handle | record | blockF64 | select | deref | ref
  | assign | drop | equal | ccall | export | resetRegions
  deriving DecidableEq

inductive SwitchKind where
  | i | w | s | c | e

mutual

/-- Expressions, without their types and effects; `ρ` are the places. -/
inductive Exp (ρ : Type) where
  | var (lvar : Nat) (fixBound : Bool)
  /-- a constant, or another form without operands -/
  | const
  | ubRecord (trs : Exps ρ)
  | app (kind : Option CallKind) (tr₁ tr₂ : Exp ρ)
  | fix (lvars : List Nat) (binds : Exps ρ) (scope : Exp ρ)
  | letregion (rhos : List ρ) (body : Exp ρ)
  | letIn (pat : List Nat) (bind scope : Exp ρ)
  | fn (pat : List Nat) (body : Exp ρ)
  | exception (excon : Nat) (scope : Exp ρ)
  /-- the branch of `else` is the last one -/
  | switch (kind : SwitchKind) (tr : Exp ρ) (choices : Exps ρ)
  | prim (op : Prim) (trs : Exps ρ)

inductive Exps (ρ : Type) where
  | nil
  | cons (tr : Exp ρ) (trs : Exps ρ)

end

/-- Places, and whether they allocate space. -/
class Place (ρ : Type) where
  allocatesSpace : ρ → Bool

variable {ρ : Type}

mutual

/-- An expression without its call kinds. -/
def Exp.erase : Exp ρ → Exp ρ
  | .var lvar fixBound => .var lvar fixBound
  | .const => .const
  | .ubRecord trs => .ubRecord trs.erase
  | .app _ tr₁ tr₂ => .app none tr₁.erase tr₂.erase
  | .fix lvars binds scope => .fix lvars binds.erase scope.erase
  | .letregion rhos body => .letregion rhos body.erase
  | .letIn pat bind scope => .letIn pat bind.erase scope.erase
  | .fn pat body => .fn pat body.erase
  | .exception excon scope => .exception excon scope.erase
  | .switch kind tr choices => .switch kind tr.erase choices.erase
  | .prim op trs => .prim op trs.erase

def Exps.erase : Exps ρ → Exps ρ
  | .nil => .nil
  | .cons tr trs => .cons tr.erase trs.erase

end

/-- The operator is a variable that `FIX` binds. -/
def Exp.isFixBound : Exp ρ → Bool
  | .var _ fixBound => fixBound
  | _ => false

def findCallKind : Continuation → Bool → CallKind
  | .next, false => .fncall
  | .next, true => .funcall
  | .join, false => .fncall
  | .join, true => .funcall
  | .ret, false => .fnjmp
  | .ret, true => .jmp

section Convert

variable [Place ρ]

mutual

def tail : Exp ρ → Continuation → Exp ρ × Continuation
  | .var lvar fixBound, _ => (.var lvar fixBound, .next)
  | .const, _ => (.const, .next)
  | .ubRecord trs, cont =>
    let (trs', cont) := tailList trs cont
    (.ubRecord trs', cont)
  | .app _ tr₁ tr₂, cont =>
    let (tr₂', cont') := tail tr₂ .next
    let (tr₁', cont') := tail tr₁ cont'
    (.app (some (findCallKind cont tr₁.isFixBound)) tr₁' tr₂', cont')
  | .fix lvars binds scope, cont => (.fix lvars (tailEach binds .next) (tail scope cont).1, .next)
  | .letregion rhos body, cont =>
    let (body', cont') := tail body (if rhos.any Place.allocatesSpace then .next else cont)
    (.letregion rhos body', cont')
  | .letIn pat bind scope, cont =>
    let (scope', cont) := tail scope cont
    let (bind', cont) := tail bind cont
    (.letIn pat bind' scope', cont)
  | .fn pat body, _ => (.fn pat (tail body .ret).1, .next)
  | .exception excon scope, cont => (.exception excon (tail scope cont).1, .next)
  | .switch kind tr choices, cont =>
    (.switch kind (tail tr .next).1 (tailEach choices (if cont = .next then .join else cont)), .next)
  | .prim op trs, _ =>
    let (trs', cont') := tailList trs .next
    (.prim op trs', if op = .record ∨ op = .blockF64 then cont' else .next)

/-- The last expression is traversed first. -/
def tailList : Exps ρ → Continuation → Exps ρ × Continuation
  | .nil, cont => (.nil, cont)
  | .cons tr trs, cont =>
    let (trs', cont) := tailList trs cont
    let (tr', cont) := tail tr cont
    (.cons tr' trs', cont)

/-- Branches and functions, which are each traversed with the same continuation. -/
def tailEach : Exps ρ → Continuation → Exps ρ
  | .nil, _ => .nil
  | .cons tr trs, cont => .cons (tail tr cont).1 (tailEach trs cont)

end

/-- The expression of a converted program. -/
def appConvert (tr : Exp ρ) : Exp ρ := (tail tr .ret).1

/-! ## Tail positions -/

/-- Outside every function, in the body of one, or in tail position of the innermost one. -/
inductive Position where
  | outside | inside | tail
  deriving DecidableEq

/-- The position of an expression whose value is not that of the body. -/
def Position.operand : Position → Position
  | .outside => .outside
  | _ => .inside

mutual

/-- In the bodies of functions the jumps are the applications in tail position, and everywhere the
known functions are called as such. -/
def Exp.Marked : Position → Exp ρ → Prop
  | _, .var _ _ => True
  | _, .const => True
  | pos, .ubRecord trs => trs.Marked pos.operand
  | pos, .app kind tr₁ tr₂ =>
    (pos ≠ .outside → (kind = some .jmp ∨ kind = some .fnjmp ↔ pos = .tail)) ∧
    (kind = some .jmp ∨ kind = some .funcall ↔ tr₁.isFixBound = true) ∧
    tr₁.Marked pos.operand ∧ tr₂.Marked pos.operand
  | pos, .fix _ binds scope => binds.Marked pos.operand ∧ scope.Marked pos
  | pos, .letregion rhos body =>
    body.Marked (if rhos.any Place.allocatesSpace then pos.operand else pos)
  | pos, .letIn _ bind scope => bind.Marked pos.operand ∧ scope.Marked pos
  | _, .fn _ body => body.Marked .tail
  | pos, .exception _ scope => scope.Marked pos
  | pos, .switch _ tr choices => tr.Marked pos.operand ∧ choices.Marked pos
  | pos, .prim _ trs => trs.Marked pos.operand

def Exps.Marked : Position → Exps ρ → Prop
  | _, .nil => True
  | pos, .cons tr trs => tr.Marked pos ∧ trs.Marked pos

end

/-! ## Where the continuation gets to -/

mutual

/-- The code before an expression gets the continuation of the expression. -/
def Exp.passes : Exp ρ → Bool
  | .ubRecord trs => trs.passes
  | .letregion rhos body => !rhos.any Place.allocatesSpace && body.passes
  | .letIn _ bind scope => scope.passes && bind.passes
  | _ => false

def Exps.passes : Exps ρ → Bool
  | .nil => true
  | .cons tr trs => trs.passes && tr.passes

end

mutual

/-- Some application gets the continuation of the expression. -/
def Exp.returns : Exp ρ → Bool
  | .ubRecord trs => trs.returns
  | .app _ _ _ => true
  | .fix _ _ scope => scope.returns
  | .letregion rhos body => !rhos.any Place.allocatesSpace && body.returns
  | .letIn _ bind scope => scope.returns || scope.passes && bind.returns
  | .exception _ scope => scope.returns
  | .switch _ _ choices => choices.someReturns
  | _ => false

def Exps.returns : Exps ρ → Bool
  | .nil => false
  | .cons tr trs => trs.returns || trs.passes && tr.returns

def Exps.someReturns : Exps ρ → Bool
  | .nil => false
  | .cons tr trs => tr.returns || trs.someReturns

end

mutual

/-- No application gets the continuation of a function body from an unboxed record that it is a
component of, or from a scope of which it is the binding. -/
def Exp.Contained : Position → Exp ρ → Prop
  | pos, .ubRecord trs => (pos = .tail → trs.returns = false) ∧ trs.Contained pos.operand
  | pos, .app _ tr₁ tr₂ => tr₁.Contained pos.operand ∧ tr₂.Contained pos.operand
  | pos, .fix _ binds scope => binds.Contained pos.operand ∧ scope.Contained pos
  | pos, .letregion rhos body =>
    body.Contained (if rhos.any Place.allocatesSpace then pos.operand else pos)
  | pos, .letIn _ bind scope =>
    (pos = .tail → scope.passes = true → bind.returns = false) ∧
    bind.Contained pos.operand ∧ scope.Contained pos
  | _, .fn _ body => body.Contained .tail
  | pos, .exception _ scope => scope.Contained pos
  | pos, .switch _ tr choices => tr.Contained pos.operand ∧ choices.Contained pos
  | pos, .prim _ trs => trs.Contained pos.operand
  | _, _ => True

def Exps.Contained : Position → Exps ρ → Prop
  | _, .nil => True
  | pos, .cons tr trs => tr.Contained pos ∧ trs.Contained pos

end

mutual

theorem erase_tail (tr : Exp ρ) (cont : Continuation) :
    (tail tr cont).1.erase = tr.erase := by
  cases tr <;> simp [tail, Exp.erase, erase_tail, erase_tailList, erase_tailEach]

theorem erase_tailList (trs : Exps ρ) (cont : Continuation) :
    (tailList trs cont).1.erase = trs.erase := by
  cases trs <;> simp [tailList, Exps.erase, erase_tail, erase_tailList]

theorem erase_tailEach (trs : Exps ρ) (cont : Continuation) :
    (tailEach trs cont).erase = trs.erase := by
  cases trs <;> simp [tailEach, Exps.erase, erase_tail, erase_tailEach]

end

mutual

theorem tail_snd (tr : Exp ρ) (cont : Continuation) : (tail tr cont).2 =
    bif tr.passes then cont else .next := by
  cases tr with
  | ubRecord trs => simp only [tail, Exp.passes, tailList_snd trs]
  | app kind tr₁ tr₂ => simp [tail, Exp.passes, tail_snd tr₁, tail_snd tr₂]
  | letregion rhos body =>
    simp only [tail, Exp.passes, tail_snd body]
    cases rhos.any Place.allocatesSpace <;> simp
  | letIn pat bind scope =>
    simp only [tail, Exp.passes, tail_snd bind, tail_snd scope]
    cases scope.passes <;> simp
  | prim op trs => simp [tail, Exp.passes, tailList_snd trs]
  | _ => rfl

theorem tailList_snd (trs : Exps ρ) (cont : Continuation) : (tailList trs cont).2 =
    bif trs.passes then cont else .next := by
  cases trs with
  | nil => rfl
  | cons tr trs =>
    simp only [tailList, Exps.passes, tail_snd tr, tailList_snd trs]
    cases trs.passes <;> simp

end

theorem findCallKind_ret (cont : Continuation) (fixBound : Bool) :
    findCallKind cont fixBound = .jmp ∨ findCallKind cont fixBound = .fnjmp ↔ cont = .ret := by
  cases cont <;> cases fixBound <;> decide

theorem findCallKind_fixBound (cont : Continuation) (fixBound : Bool) :
    findCallKind cont fixBound = .jmp ∨ findCallKind cont fixBound = .funcall ↔
      fixBound = true := by
  cases cont <;> cases fixBound <;> decide

theorem isFixBound_tail (tr : Exp ρ) (cont : Continuation) :
    (tail tr cont).1.isFixBound = tr.isFixBound := by
  cases tr <;> rfl

mutual

/-- Where an expression stands in tail position it has the continuation of the body. -/
theorem tail_marked {pos : Position} {cont : Continuation}
    (tr : Exp ρ) (hpos : pos = .tail → cont = .ret) :
    (tail tr cont).1.Marked pos ↔ tr.Contained pos ∧
      (pos = .inside → cont = .ret → tr.returns = false) := by
  have hoperand : pos.operand ≠ .tail := by cases pos <;> decide
  cases tr with
  | var lvar fixBound => simp [tail, Exp.Marked, Exp.Contained, Exp.returns]
  | const => simp [tail, Exp.Marked, Exp.Contained, Exp.returns]
  | ubRecord trs =>
    simp only [tail, Exp.Marked, Exp.Contained, Exp.returns, tailList_marked trs hoperand]
    cases pos <;> simp_all [Position.operand, and_comm]
  | app kind tr₁ tr₂ =>
    simp only [tail, Exp.Marked, Exp.Contained, Exp.returns, tail_marked tr₁ (absurd · hoperand),
      tail_marked tr₂ (absurd · hoperand), tail_snd, isFixBound_tail, Option.some.injEq,
      findCallKind_ret, findCallKind_fixBound]
    cases pos <;> simp_all [Position.operand, and_comm]
  | fix lvars binds scope =>
    simp only [tail, Exp.Marked, Exp.Contained, Exp.returns, tail_marked scope hpos,
      tailEach_marked binds (absurd · hoperand)]
    cases pos <;> simp_all [Position.operand]
    tauto
  | letregion rhos body =>
    simp only [tail, Exp.Marked, Exp.Contained, Exp.returns]
    cases rhos.any Place.allocatesSpace with
    | false => simpa using tail_marked body hpos
    | true => simp [tail_marked body (absurd · hoperand)]
  | letIn pat bind scope =>
    simp only [tail, Exp.Marked, Exp.Contained, Exp.returns, tail_marked scope hpos,
      tail_marked bind (absurd · hoperand), tail_snd]
    cases pos <;> cases scope.passes <;> simp_all [Position.operand]
    all_goals tauto
  | fn pat body => simp [tail, Exp.Marked, Exp.Contained, Exp.returns, tail_marked body]
  | exception excon scope =>
    simp [tail, Exp.Marked, Exp.Contained, Exp.returns, tail_marked scope hpos]
  | switch kind tr choices =>
    have hjoin : (if cont = .next then .join else cont) = .ret ↔ cont = .ret := by
      cases cont <;> decide
    simp only [tail, Exp.Marked, Exp.Contained, Exp.returns, tail_marked tr (absurd · hoperand),
      tailEach_marked choices (hjoin.2 ∘ hpos), hjoin]
    simp [and_assoc]
  | prim op trs =>
    simp [tail, Exp.Marked, Exp.Contained, Exp.returns, tailList_marked trs hoperand]

theorem tailList_marked {pos : Position} {cont : Continuation} (trs : Exps ρ) (hpos : pos ≠ .tail) :
    (tailList trs cont).1.Marked pos ↔ trs.Contained pos ∧
      (pos = .inside → cont = .ret → trs.returns = false) := by
  cases trs with
  | nil => simp [tailList, Exps.Marked, Exps.Contained, Exps.returns]
  | cons tr trs =>
    simp only [tailList, Exps.Marked, Exps.Contained, Exps.returns, tailList_marked trs hpos,
      tail_marked tr (absurd · hpos), tailList_snd]
    cases trs.passes <;> simp
    all_goals tauto

theorem tailEach_marked {pos : Position} {cont : Continuation}
    (trs : Exps ρ) (hpos : pos = .tail → cont = .ret) :
    (tailEach trs cont).Marked pos ↔ trs.Contained pos ∧
      (pos = .inside → cont = .ret → trs.someReturns = false) := by
  cases trs with
  | nil => simp [tailEach, Exps.Marked, Exps.Contained, Exps.someReturns]
  | cons tr trs =>
    simp only [tailEach, Exps.Marked, Exps.Contained, Exps.someReturns, tail_marked tr hpos,
      tailEach_marked trs hpos]
    simp
    tauto

end

end Convert

/-- Call conversion only sets call kinds.  The calls that jump are those in tail position if and
only if no other application gets the continuation of a function body: from an unboxed record that
it is a component of, or from the scope that its value is bound in, where that is made of unboxed
records without components. -/
theorem appConvert_marks_tail_calls_iff [Place ρ] (tr : Exp ρ) :
    (appConvert tr).erase = tr.erase ∧
      ((appConvert tr).Marked .outside ↔
        tr.Contained .outside) := by
  refine ⟨erase_tail tr .ret, (tail_marked tr fun _ => rfl).trans ?_⟩
  simp

instance : Place Bool where
  allocatesSpace := id

/-- `fn x => let _ = f x in <>`. -/
def callAndReturnNothing : Exp Bool :=
  .fn [1] (.letIn [] (.app none (.var 0 true) (.var 1 false)) (.ubRecord .nil))

/-- The call is not in tail position, and jumps. -/
theorem bound_call_jumps : ¬ (appConvert callAndReturnNothing).Marked .outside := by
  rintro ⟨⟨hjump, -⟩, -⟩
  exact absurd ((hjump (by decide)).1 (Or.inl rfl)) (by decide)

end MLKit.Regions.MulExp
