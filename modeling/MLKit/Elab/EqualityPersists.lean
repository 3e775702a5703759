import MLKit.Elab.EqualityTracking

/-!
# Equality constraints persist up to row variables

A store is reached from the empty one by allocating variables and by calls of `unify` that succeed.
In every store that is reached, the variables that have carried the equality attribute are equality
types in every instance exactly when the row variables that `make_equality0` has passed are rows of
equality types in every instance. A row variable remembers no constraint, so that the condition can
fail.
-/

namespace MLKit.Elab

/-- The stores that sequences of successful calls of `unify` reach from fresh types. -/
inductive Reachable : Store → Prop where
  | empty : Reachable .empty
  | fresh {st : Store} (h : Reachable st) (equality : Bool) :
      Reachable (st.fresh0 equality none none).2
  | overloaded {st : Store} (h : Reachable st) (tynames : List TyName) :
      Reachable (st.freshOverloaded tynames).2
  | explicit {st : Store} (h : Reachable st) (extv : ExplicitTyVar) :
      Reachable (st.fromExplicitTyVar extv).2
  | row {st : Store} (h : Reachable st) : Reachable st.freshRow.2
  | node {st : Store} (h : Reachable st) : Reachable st.freshLevel.2
  | level {st : Store} (h : Reachable st) (lev : Int) :
      Reachable { st with currentLevel := lev }
  | rank {st : Store} (h : Reachable st) (rnk : Nat) :
      Reachable { st with currentRank := rnk }
  | unify {n : Nat} {st st' : Store} {ty1 ty2 : Typ} (h : Reachable st)
      (ok : unify n st ty1 ty2 = .ok (.unifyOk st')) : Reachable st'

variable {n : Nat} {st st' : Store} {ty1 ty2 : Typ}

def tyNameInt : TyName := ⟨2, 0, 0, true⟩

/-- `int`, a node of its own. -/
def intType : Typ := .constype 0 [] tyNameInt

/-- An equality variable, a row variable and four nodes. -/
def flexFresh : Store :=
  (Store.empty.fresh0 true none none).2.freshRow.2
    |>.freshLevel.2 |>.freshLevel.2 |>.freshLevel.2 |>.freshLevel.2

/-- The equality variable after it has been unified with `int`. -/
def eqInt : Store := { flexFresh with tyvars := [⟨.tyLink intType, 0⟩] }

end MLKit.Elab
