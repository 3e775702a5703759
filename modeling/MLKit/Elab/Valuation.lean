import MLKit.Elab.Types

/-!
# Valuations of a store

A valuation gives every variable a value in some domain of types and rows. It respects a store when
it agrees with every link, so that a store stands for the set of its valuations: making a link
removes valuations and shortening links keeps them.
-/

namespace MLKit.Elab

open List Option

/-- The operations by which types and rows are built. -/
structure TypeAlgebra (T R : Type) where
  arrow : T → T → T
  record : R → T
  cons : TyName → List T → T
  nil : R
  field : Lab → T → R → R

structure Valuation (T R : Type) where
  ty : TyVar → T
  row : RowVar → R

section Eval

variable {T R : Type} (A : TypeAlgebra T R) (θ : Valuation T R)

mutual

/-- The value of a type under a valuation of its variables. -/
def Typ.eval : Typ → T
  | .tyvar tv => θ.ty tv
  | .arrow _ ty ty' => A.arrow ty.eval ty'.eval
  | .rectype _ r => A.record r.eval
  | .constype _ tys tyname => A.cons tyname (Typ.evalList tys)

def RecType.eval : RecType → R
  | .nil => A.nil
  | .var rv => θ.row rv
  | .row lab ty r => A.field lab ty.eval r.eval

def Typ.evalList : List Typ → List T
  | [] => []
  | ty :: tys => ty.eval :: Typ.evalList tys

end

end Eval

variable {tv tv' : TyVar} {tvd : TyVarDesc} {ty : Typ} {cell : TyCell} {rv : RowVar} {s : String}
  {link : TyLink} {st st' : Store} {r : RecType}

namespace Store

/-- What a cell for a type variable holds. -/
def tyLinkOf (st : Store) (tv : TyVar) : Option TyLink := st.tyvars[tv]?.map (·.link)

def recLinkOf (st : Store) (rv : RowVar) : Option RecLink := st.rowvars[rv]?.map (·.link)

/-- The description of a variable, when it is not linked. -/
def desc (st : Store) (tv : TyVar) : Option TyVarDesc :=
  match st.tyLinkOf tv with
  | some (.noTyLink tvd) => some tvd
  | _ => none

/-- A row variable that is not linked. -/
def Unlinked (st : Store) (rv : RowVar) : Prop := st.recLinkOf rv = some .noRecLink

def tyLevel (st : Store) (tv : TyVar) : Option Int := st.tyvars[tv]?.map (·.level)

variable {st : Store}

theorem desc_eq_some_iff : st.desc tv = some tvd ↔ st.tyLinkOf tv = some (.noTyLink tvd) := by
  unfold desc
  split
  · next tvd' h => simp [h]
  · next h =>
      constructor
      · intro hnone
        cases hnone
      · intro hsome
        exact absurd hsome (h tvd)

theorem desc_of_tyLink (h : st.tyLinkOf tv = some (.tyLink ty)) : st.desc tv = none := by
  simp [desc, h]

theorem isSome_tyLinkOf (st : Store) (tv : TyVar) :
    (st.tyLinkOf tv).isSome = (st.tyLevel tv).isSome := by
  rw [tyLinkOf, tyLevel, isSome_map, isSome_map]

theorem isSome_tyLinkOf_of_desc (h : st.desc tv = some tvd) : (st.tyLinkOf tv).isSome = true := by
  rw [desc_eq_some_iff.1 h]
  rfl

section Updates

variable {st : Store} (rv rv' : RowVar)

@[simp] theorem tyLinkOf_setTyLink (link : TyLink) :
    (st.setTyLink tv link).tyLinkOf tv' =
      if tv = tv' then (st.tyLinkOf tv').map fun _ => link else st.tyLinkOf tv' := by
  simp only [tyLinkOf, setTyLink, getElem?_modify]
  split <;> cases st.tyvars[tv']? <;> rfl

@[simp] theorem tyLinkOf_setTyLevel (lev : Int) :
    (st.setTyLevel tv lev).tyLinkOf tv' = st.tyLinkOf tv' := by
  simp only [tyLinkOf, setTyLevel, getElem?_modify]
  split <;> cases st.tyvars[tv']? <;> rfl

@[simp] theorem tyLinkOf_setRecLink (link : RecLink) :
    (st.setRecLink rv link).tyLinkOf tv' = st.tyLinkOf tv' := rfl

@[simp] theorem tyLinkOf_setRowLevel (lev : Int) :
    (st.setRowLevel rv lev).tyLinkOf tv' = st.tyLinkOf tv' := rfl

@[simp] theorem recLinkOf_setTyLink (link : TyLink) :
    (st.setTyLink tv link).recLinkOf rv' = st.recLinkOf rv' := rfl

@[simp] theorem recLinkOf_setTyLevel (lev : Int) :
    (st.setTyLevel tv lev).recLinkOf rv' = st.recLinkOf rv' := rfl

@[simp] theorem recLinkOf_setRecLink (link : RecLink) :
    (st.setRecLink rv link).recLinkOf rv' =
      if rv = rv' then (st.recLinkOf rv').map fun _ => link else st.recLinkOf rv' := by
  simp only [recLinkOf, setRecLink, getElem?_modify]
  split <;> cases st.rowvars[rv']? <;> rfl

@[simp] theorem recLinkOf_setRowLevel (lev : Int) :
    (st.setRowLevel rv lev).recLinkOf rv' = st.recLinkOf rv' := by
  simp only [recLinkOf, setRowLevel, getElem?_modify]
  split <;> cases st.rowvars[rv']? <;> rfl

@[simp] theorem tyLevel_setTyLink (link : TyLink) :
    (st.setTyLink tv link).tyLevel tv' = st.tyLevel tv' := by
  simp only [tyLevel, setTyLink, getElem?_modify]
  split <;> cases st.tyvars[tv']? <;> rfl

theorem isSome_tyLinkOf_setTyLink :
    ((st.setTyLink tv link).tyLinkOf tv').isSome = (st.tyLinkOf tv').isSome := by
  rw [isSome_tyLinkOf, tyLevel_setTyLink, isSome_tyLinkOf]

theorem desc_setTyLink_of_ne (h : tv ≠ tv') : (st.setTyLink tv link).desc tv' = st.desc tv' := by
  rw [desc, tyLinkOf_setTyLink, if_neg h, desc]

end Updates

end Store

section Respects

variable {T R : Type} (A : TypeAlgebra T R)

/-- A valuation that agrees with every link of a store. -/
structure Valuation.Respects (θ : Valuation T R) (st : Store) : Prop where
  ty : ∀ tv ty, st.tyLinkOf tv = some (.tyLink ty) → θ.ty tv = ty.eval A θ
  row : ∀ rv r, st.recLinkOf rv = some (.recLink r) → θ.row rv = r.eval A θ

variable {A} {θ : Valuation T R}

/-- Only the links count. -/
theorem Valuation.Respects.of_links (h : θ.Respects A st)
    (hty : ∀ tv ty, st'.tyLinkOf tv = some (.tyLink ty) → st.tyLinkOf tv = some (.tyLink ty))
    (hrow : ∀ rv r, st'.recLinkOf rv = some (.recLink r) → st.recLinkOf rv = some (.recLink r)) :
    θ.Respects A st' :=
  ⟨fun tv ty hl => h.ty tv ty (hty tv ty hl), fun rv r hl => h.row rv r (hrow rv r hl)⟩

/-- A link to a type of the value that the variable has. -/
theorem Valuation.Respects.setTyLink (h : θ.Respects A st) {ty : Typ}
    (hval : θ.ty tv = ty.eval A θ) :
    θ.Respects A (st.setTyLink tv (.tyLink ty)) := by
  constructor
  · intro tv' ty' hl
    rw [Store.tyLinkOf_setTyLink] at hl
    split at hl
    · next heq =>
        subst heq
        cases hlink : st.tyLinkOf tv with
        | none => simp [hlink] at hl
        | some link =>
          simp only [hlink, map_some, Option.some.injEq, TyLink.tyLink.injEq] at hl
          rw [← hl]
          exact hval
    · exact h.ty tv' ty' hl
  · exact h.row

theorem Valuation.Respects.setRecLink (h : θ.Respects A st) (hval : θ.row rv = r.eval A θ) :
    θ.Respects A (st.setRecLink rv (.recLink r)) := by
  constructor
  · exact h.ty
  · intro rv' r' hl
    rw [Store.recLinkOf_setRecLink] at hl
    split at hl
    · next heq =>
        subst heq
        cases hlink : st.recLinkOf rv with
        | none => simp [hlink] at hl
        | some link =>
          simp only [hlink, map_some, Option.some.injEq, RecLink.recLink.injEq] at hl
          rw [← hl]
          exact hval
    · exact h.row rv' r' hl

/-- A link that is made at a free variable only removes valuations. -/
theorem Valuation.Respects.of_setTyLink (hfree : st.desc tv = some tvd)
    (h : θ.Respects A (st.setTyLink tv link)) : θ.Respects A st := by
  have hlink := Store.desc_eq_some_iff.1 hfree
  constructor
  · intro tv' ty' hl
    have hne : tv ≠ tv' := by
      rintro rfl
      simp [hlink] at hl
    exact h.ty tv' ty' (by rw [Store.tyLinkOf_setTyLink, if_neg hne, hl])
  · exact h.row

theorem Valuation.Respects.of_setRecLink {link : RecLink} (hfree : st.Unlinked rv)
    (h : θ.Respects A (st.setRecLink rv link)) : θ.Respects A st := by
  constructor
  · exact h.ty
  · intro rv' r' hl
    have hne : rv ≠ rv' := by
      rintro rfl
      rw [hfree] at hl
      cases hl
    exact h.row rv' r' (by rw [Store.recLinkOf_setRecLink, if_neg hne, hl])

end Respects

end MLKit.Elab
