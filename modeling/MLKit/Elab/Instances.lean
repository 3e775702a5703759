import MLKit.Elab.Reading
import MLKit.Elab.Unify

/-!
# Instances of a store

An instance gives ground types to the type variables of a store and ground rows to its row
variables, and equality types to the variables that carry the equality attribute. `Quiet` says that
a walk has left everything alone that decides which valuations are instances.
-/

namespace MLKit.Elab

open MLKit.Lib Option

mutual

/-- A type without variables. -/
inductive GTyp where
  | arrow (t t' : GTyp)
  | record (r : GRow)
  | cons (tyname : TyName) (ts : List GTyp)

inductive GRow where
  | nil
  | field (lab : Lab) (t : GTyp) (r : GRow)

end

mutual

/-- An equality type, as `make_equality0` takes it: references and arrays of anything. -/
def GTyp.admitsEquality : GTyp → Bool
  | .arrow _ _ => false
  | .record r => r.admitsEquality
  | .cons tyname ts =>
    decide (tyname = tyNameRef ∨ tyname = tyNameArray) || (tyname.equality && GTyp.admitEquality ts)

def GRow.admitsEquality : GRow → Bool
  | .nil => true
  | .field _ t r => t.admitsEquality && r.admitsEquality

def GTyp.admitEquality : List GTyp → Bool
  | [] => true
  | t :: ts => t.admitsEquality && GTyp.admitEquality ts

end

mutual

def GTyp.size : GTyp → Nat
  | .arrow t t' => t.size + t'.size + 1
  | .record r => r.size + 1
  | .cons _ ts => GTyp.sizes ts + 1

def GRow.size : GRow → Nat
  | .nil => 0
  | .field _ t r => t.size + r.size

def GTyp.sizes : List GTyp → Nat
  | [] => 0
  | t :: ts => t.size + GTyp.sizes ts

end

def groundAlgebra : TypeAlgebra GTyp GRow where
  arrow := .arrow
  record := .record
  cons := .cons
  nil := .nil
  field := .field

abbrev GroundValuation := Valuation GTyp GRow

/-- The ground type that a type becomes. -/
abbrev Typ.ground (θ : GroundValuation) (ty : Typ) : GTyp := ty.eval groundAlgebra θ

abbrev RecType.ground (θ : GroundValuation) (r : RecType) : GRow := r.eval groundAlgebra θ

/-- An instance of a store: equality variables are replaced by equality types. -/
structure Instance (st : Store) (θ : GroundValuation) : Prop where
  respects : θ.Respects groundAlgebra st
  equality : ∀ tv tvd, st.desc tv = some tvd → tvd.equality = true → (θ.ty tv).admitsEquality = true

/-- The attributes of a free variable that bear on equality. -/
def Store.attributes (st : Store) (tv : TyVar) : Option (Bool × Option ExplicitTyVar) :=
  (st.desc tv).map fun tvd => (tvd.equality, tvd.explicit)

/-- Links may be shortened and levels, ranks and overloading may change. -/
structure Quiet (st st' : Store) : Prop where
  attributes : ∀ tv, st'.attributes tv = st.attributes tv
  allocated : ∀ tv, (st'.tyLinkOf tv).isSome = (st.tyLinkOf tv).isSome
  unlinked : ∀ rv, st.Unlinked rv → st'.Unlinked rv
  carriers : st'.carriers = st.carriers
  openRows : st'.openRows = st.openRows
  respects : ∀ θ : GroundValuation, θ.Respects groundAlgebra st' ↔ θ.Respects groundAlgebra st

variable {T R : Type} {A : TypeAlgebra T R} {st st' st1 : Store} {tv tv0 : TyVar}
  {tvd tvd' : TyVarDesc} {θ : GroundValuation} {n rnk : Nat} {ty tau : Typ} {r : RecType}
  {lev : Int} {tynames1 : List TyName} {overloaded : Option (List TyName)}

namespace Quiet

theorem refl (st : Store) : Quiet st st where
  attributes _ := rfl
  allocated _ := rfl
  unlinked _ h := h
  carriers := rfl
  openRows := rfl
  respects _ := Iff.rfl

theorem trans (h1 : Quiet st st1) (h2 : Quiet st1 st') : Quiet st st' where
  attributes tv := (h2.attributes tv).trans (h1.attributes tv)
  allocated tv := (h2.allocated tv).trans (h1.allocated tv)
  unlinked rv h := h2.unlinked rv (h1.unlinked rv h)
  carriers := h2.carriers.trans h1.carriers
  openRows := h2.openRows.trans h1.openRows
  respects θ := (h2.respects θ).trans (h1.respects θ)

/-- The attributes of a variable in the new store are those it had. -/
theorem desc (h : Quiet st st') (hd : st'.desc tv = some tvd) :
    ∃ tvd0, st.desc tv = some tvd0 ∧ tvd0.equality = tvd.equality ∧
      tvd0.explicit = tvd.explicit := by
  have hattr := h.attributes tv
  simp only [Store.attributes, hd, map_some] at hattr
  obtain ⟨tvd0, hd0, hpair⟩ := map_eq_some_iff.1 hattr.symm
  simp only [Prod.mk.injEq] at hpair
  exact ⟨tvd0, hd0, hpair.1, hpair.2⟩

theorem symm_desc (h : Quiet st st') (hd : st.desc tv = some tvd) :
    ∃ tvd', st'.desc tv = some tvd' ∧ tvd'.equality = tvd.equality := by
  have hattr := h.attributes tv
  simp only [Store.attributes, hd, map_some] at hattr
  obtain ⟨tvd', hd', hpair⟩ := map_eq_some_iff.1 hattr
  simp only [Prod.mk.injEq] at hpair
  exact ⟨tvd', hd', hpair.1⟩

theorem setTyLevel (st : Store) (tv : TyVar) (lev : Int) : Quiet st (st.setTyLevel tv lev) where
  attributes tv' := by simp [Store.attributes, Store.desc]
  allocated tv' := by rw [Store.tyLinkOf_setTyLevel]
  unlinked _ h := h
  carriers := rfl
  openRows := rfl
  respects θ := by
    constructor
    · intro h
      exact h.of_links (by simp) (by simp)
    · intro h
      exact h.of_links (by simp) (by simp)

theorem setRowLevel (st : Store) (rv : RowVar) (lev : Int) : Quiet st (st.setRowLevel rv lev) where
  attributes _ := rfl
  allocated _ := rfl
  unlinked _ h := by rw [Store.Unlinked, Store.recLinkOf_setRowLevel]; exact h
  carriers := rfl
  openRows := rfl
  respects θ := by
    constructor
    · intro h
      exact h.of_links (by simp) (by simp)
    · intro h
      exact h.of_links (by simp) (by simp)

end Quiet

section

variable {st : Store} (hd : st.desc tv = some tvd)

include hd

end

instance : Trans Quiet Quiet Quiet := ⟨Quiet.trans⟩

end MLKit.Elab
