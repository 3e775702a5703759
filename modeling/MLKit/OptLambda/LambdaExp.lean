/-!
# Lambda expressions

The expressions that the optimiser works on.  Types, instances and region variables are left out, as
are the results of structure-level declarations, which occur at the top of a unit only.
-/

namespace MLKit.OptLambda

abbrev Lvar := Nat

abbrev Excon := Nat

inductive Con where
  | conTRUE
  | conFALSE
  | named (name : String)
  deriving DecidableEq

/-- The primitives; what is not looked at here is known by a number. -/
inductive Prim where
  | con (con : Con)
  | ccall (name : String)
  | other (n : Nat)
  deriving DecidableEq

/-- A switch is its argument, its selections, which may bind a variable, and its default.  What is
selected on stands for the constants of the five kinds of switch. -/
inductive Selector where
  | con (con : Con)
  | excon (excon : Excon)
  | num (i : Int)
  | string (s : String)
  deriving DecidableEq

inductive LambdaExp where
  | var (lvar : Lvar)
  | integer (i : Int)
  | word (i : Int)
  | string (s : String)
  | real (s : String)
  | f64 (s : String)
  | fn (pat : List Lvar) (body : LambdaExp)
  | «let» (pat : List Lvar) (bind scope : LambdaExp)
  | letregion (scope : LambdaExp)
  | fix (functions : List (Lvar × LambdaExp)) (scope : LambdaExp)
  | app (e₁ e₂ : LambdaExp)
  | exception (excon : Excon) (scope : LambdaExp)
  | raise (e : LambdaExp)
  | handle (e₁ e₂ : LambdaExp)
  | switch (e : LambdaExp) (sels : List ((Selector × Option Lvar) × LambdaExp))
      (default : Option LambdaExp)
  | prim (p : Prim) (args : List LambdaExp)

/-- `lexp_true` and `lexp_false`. -/
def lexpBool (b : Bool) : LambdaExp := .prim (.con (if b then .conTRUE else .conFALSE)) []

/-- What is known of a variable: a range its value is in, or something that is not looked at here. -/
inductive Cv where
  | cunknown
  | crng (low high : Option Int)
  | other (n : Nat)
  deriving DecidableEq

/-- The values a range allows. -/
def InRange (low high : Option Int) (v : Int) : Prop := (∀ l ∈ low, l ≤ v) ∧ ∀ h ∈ high, v ≤ h

end MLKit.OptLambda
