import MLKit.Elab.Instances

/-!
# Pushing equality into a type

`make_equality0` gives the equality attribute to the free variables of a type, outside references
and arrays, and leaves the row variables as they are. In an instance that gives the row variables it
has passed rows of equality types, the type is then an equality type. The converse holds too.
-/

namespace MLKit.Elab

open MLKit.Lib List

/-- The row variables passed by `make_equality0` get rows of equality types. -/
def RowsAdmit (st : Store) (θ : GroundValuation) : Prop :=
  ∀ rv ∈ st.openRows, (θ.row rv).admitsEquality = true

/-- The variables that have carried the attribute get equality types. -/
def CarriersAdmit (st : Store) (θ : GroundValuation) : Prop :=
  ∀ tv ∈ st.carriers, (θ.ty tv).admitsEquality = true

/-- A variable that has carried the attribute has it while it is free, and is an equality type in
the instances in which the rows passed are rows of equality types. -/
structure Tracked (st : Store) : Prop where
  allocated : ∀ tv ∈ st.carriers, (st.tyLinkOf tv).isSome = true
  marked : ∀ tv ∈ st.carriers, ∀ tvd, st.desc tv = some tvd → tvd.equality = true
  carrier : ∀ tv tvd, st.desc tv = some tvd → tvd.equality = true → tv ∈ st.carriers
  explicit : ∀ tv tvd extv, st.desc tv = some tvd → tvd.explicit = some extv →
    tvd.equality = extv.isEquality
  sound : ∀ θ, Instance st θ → RowsAdmit st θ → CarriersAdmit st θ

variable {st st' st1 st2 : Store} {k n : Nat} {size' : GroundValuation → Nat}
  {admits' : GroundValuation → Bool} {tys : List Typ} {ty ty1 : Typ}

/-- What a later store keeps: links, free variables with their equality, rows passed. -/
structure Later (st st' : Store) : Prop where
  respects : ∀ θ : GroundValuation, θ.Respects groundAlgebra st' → θ.Respects groundAlgebra st
  desc : ∀ tv tvd, st.desc tv = some tvd →
    ∃ tvd', st'.desc tv = some tvd' ∧ (tvd.equality = true → tvd'.equality = true)
  openRows : ∀ rv ∈ st.openRows, rv ∈ st'.openRows
  carriers : ∀ tv ∈ st.carriers, tv ∈ st'.carriers

theorem Later.of_quiet (h : Quiet st st') : Later st st' where
  respects θ := (h.respects θ).1
  desc tv tvd hd := by
    obtain ⟨tvd', hd', heq⟩ := h.symm_desc hd
    exact ⟨tvd', hd', fun htrue => heq.trans htrue⟩
  openRows rv hrv := h.openRows ▸ hrv
  carriers tv htv := h.carriers ▸ htv

variable {θ : GroundValuation} {tv : TyVar} {tvd : TyVarDesc}

theorem Later.trans (h1 : Later st st1) (h2 : Later st1 st2) : Later st st2 where
  respects θ hθ := h1.respects θ (h2.respects θ hθ)
  desc tv tvd hd := by
    obtain ⟨tvd1, hd1, heq1⟩ := h1.desc tv tvd hd
    obtain ⟨tvd2, hd2, heq2⟩ := h2.desc tv tvd1 hd1
    exact ⟨tvd2, hd2, fun htrue => heq2 (heq1 htrue)⟩
  openRows rv hrv := h2.openRows rv (h1.openRows rv hrv)
  carriers tv htv := h2.carriers tv (h1.carriers tv htv)

/-- Equality variables with a value of at most a given size get equality types. -/
def SmallAdmit (st : Store) (θ : GroundValuation) (k : Nat) : Prop :=
  ∀ tv tvd, st.desc tv = some tvd → tvd.equality = true → (θ.ty tv).size ≤ k →
    (θ.ty tv).admitsEquality = true

/--
Something has been made to admit equality. Only the variables whose values are not larger than it
count, so that a variable that is linked to it afterwards is not among them.
-/
structure Made (st st' : Store) (size : GroundValuation → Nat) (admits : GroundValuation → Bool) :
    Prop where
  tracked : Tracked st'
  later : Later st st'
  sound : ∀ θ, θ.Respects groundAlgebra st' → RowsAdmit st' θ → ∀ k, SmallAdmit st' θ k →
    size θ ≤ k → admits θ = true
  complete : ∀ θ, θ.Respects groundAlgebra st' → admits θ = true →
    ∀ rv ∈ st'.openRows, rv ∈ st.openRows ∨ (θ.row rv).admitsEquality = true

variable {admits : GroundValuation → Bool} {size : GroundValuation → Nat}

section Made

/-- What admits equality anyway. -/
theorem Made.refl (h : Tracked st) (hadmits : ∀ θ, admits θ = true) : Made st st size admits where
  tracked := h
  later := .of_quiet (.refl st)
  sound θ _ _ _ _ _ := hadmits θ
  complete _ _ _ _ hrv := Or.inl hrv

theorem Made.congr (h : Made st st1 size admits)
    (hsize : ∀ θ, θ.Respects groundAlgebra st1 → size θ ≤ size' θ)
    (hadmits : ∀ θ, θ.Respects groundAlgebra st1 → admits θ = admits' θ) :
    Made st st1 size' admits' where
  tracked := h.tracked
  later := h.later
  sound θ hθ hrows k hsmall hk := by
    rw [← hadmits θ hθ]
    exact h.sound θ hθ hrows k hsmall (le_trans (hsize θ hθ) hk)
  complete θ hθ hadm := by
    rw [← hadmits θ hθ] at hadm
    exact h.complete θ hθ hadm

theorem Made.of_quiet (hq : Quiet st st1) (h : Made st1 st2 size admits) :
    Made st st2 size admits where
  tracked := h.tracked
  later := (Later.of_quiet hq).trans h.later
  sound := h.sound
  complete θ hθ hadm rv hrv := by
    rw [← hq.openRows]
    exact h.complete θ hθ hadm rv hrv

end Made

end MLKit.Elab
