import MLKit.Elab.MakeEquality

/-!
# Equality attributes through unification

Every link that unification makes keeps the record of equality attributes right: a variable that has
carried the attribute is an equality type in the instances in which the rows that `make_equality0`
has passed are rows of equality types, and only in those.
-/

namespace MLKit.Elab

open MLKit.Lib List

theorem GTyp.size_pos (t : GTyp) : 0 < t.size := by
  cases t <;> exact Nat.succ_pos _

/-- The variables that have carried the attribute against the rows passed. -/
structure EqualityInv (st : Store) : Prop where
  tracked : Tracked st
  complete : ∀ θ, Instance st θ → CarriersAdmit st θ → RowsAdmit st θ

variable {st st' st1 : Store} {tv tv' : TyVar} {tvd tvd' : TyVarDesc} {θ : GroundValuation}
  {n : Nat} {restricted : List TyVar} {ty' : Typ} {extv : ExplicitTyVar} {r row : RecType}
  {rv : RowVar} {found : Option RowVar} {equality : Bool} {overloaded : Option (List TyName)}
  {explicit : Option ExplicitTyVar} {lab : Lab} {m : List (Lab × Typ)}

section Link

variable {st : Store} {tau : Typ}

/-- A type that has the value of the variable it is linked to, and that admits equality if the
other variables do. -/
def LinkSound (st : Store) (tv : TyVar) (tau : Typ) : Prop :=
  ∀ θ : GroundValuation, θ.Respects groundAlgebra st → RowsAdmit st θ →
    (∀ tv' tvd', st.desc tv' = some tvd' → tvd'.equality = true → tv ≠ tv' →
      (θ.ty tv').admitsEquality = true) →
    θ.ty tv = tau.ground θ → (tau.ground θ).admitsEquality = true

theorem desc_link_of_ne (hd : st.desc tv = some tvd)
    (hd' : (st.setTyLink tv (.tyLink tau)).desc tv' = some tvd') : st.desc tv' = some tvd' := by
  have hne : tv ≠ tv' := by
    rintro rfl
    have hlink : (st.setTyLink tv (.tyLink tau)).tyLinkOf tv = some (.tyLink tau) := by
      simp [Store.desc_eq_some_iff.1 hd]
    rw [Store.desc_of_tyLink hlink] at hd'
    cases hd'
  exact (Store.desc_setTyLink_of_ne hne).symm.trans hd'

theorem ground_link (hd : st.desc tv = some tvd)
    (hθ : θ.Respects groundAlgebra (st.setTyLink tv (.tyLink tau))) : θ.ty tv = tau.ground θ :=
  hθ.ty tv tau (by simp [Store.desc_eq_some_iff.1 hd])

/-- An instance after a link is one before it if the variable admits equality. -/
theorem instance_of_link (hd : st.desc tv = some tvd)
    (hθ : Instance (st.setTyLink tv (.tyLink tau)) θ)
    (hadm : tvd.equality = true → (θ.ty tv).admitsEquality = true) : Instance st θ where
  respects := hθ.respects.of_setTyLink hd
  equality tv' tvd' hd' heq := by
    by_cases hsame : tv = tv'
    · subst hsame
      rw [hd] at hd'
      cases hd'
      exact hadm heq
    · exact hθ.equality tv' tvd' ((Store.desc_setTyLink_of_ne hsame).trans hd') heq

/-- Linking a free variable. -/
theorem EqualityInv.link (h : Tracked st) (hd : st.desc tv = some tvd)
    (hsound : tvd.equality = true → LinkSound st tv tau)
    (hcomplete : ∀ θ, Instance st θ → CarriersAdmit st θ →
      (tvd.equality = true → (tau.ground θ).admitsEquality = true) → RowsAdmit st θ) :
    EqualityInv (st.setTyLink tv (.tyLink tau)) where
  tracked :=
    { allocated := fun tv' htv' =>
        (Store.isSome_tyLinkOf_setTyLink).trans (h.allocated tv' htv')
      marked := fun tv' htv' tvd' hd' => h.marked tv' htv' tvd' (desc_link_of_ne hd hd')
      carrier := fun tv' tvd' hd' => h.carrier tv' tvd' (desc_link_of_ne hd hd')
      explicit := fun tv' tvd' extv hd' => h.explicit tv' tvd' extv (desc_link_of_ne hd hd')
      sound := by
        intro θ hθ hrows
        apply h.sound θ _ hrows
        apply instance_of_link hd hθ
        intro heq
        have hval := ground_link hd hθ.respects
        rw [hval]
        apply hsound heq θ (hθ.respects.of_setTyLink hd) hrows _ hval
        intro tv' tvd' hd' heq' hne
        exact hθ.equality tv' tvd' ((Store.desc_setTyLink_of_ne hne).trans hd') heq' }
  complete θ hθ hcarriers := by
    have hadm : tvd.equality = true → (θ.ty tv).admitsEquality = true :=
      fun heq => hcarriers tv (h.carrier tv tvd hd heq)
    apply hcomplete θ (instance_of_link hd hθ hadm) hcarriers
    rw [← ground_link hd hθ.respects]
    exact hadm

end Link

variable {tau : Typ}

theorem EqualityInv.setRecLink (hinv : EqualityInv st) (hfree : st.Unlinked rv) :
    EqualityInv (st.setRecLink rv (.recLink r)) := by
  have hinst : ∀ θ, Instance (st.setRecLink rv (.recLink r)) θ → Instance st θ :=
    fun θ hθ => ⟨hθ.respects.of_setRecLink hfree, hθ.equality⟩
  constructor
  · exact ⟨hinv.tracked.allocated, hinv.tracked.marked, hinv.tracked.carrier,
      hinv.tracked.explicit, fun θ hθ => hinv.tracked.sound θ (hinst θ hθ)⟩
  · exact fun θ hθ => hinv.complete θ (hinst θ hθ)

section Fresh

variable {st : Store}

theorem tyLinkOf_length (st : Store) : st.tyLinkOf st.tyvars.length = none := by
  simp [Store.tyLinkOf]

theorem tyLinkOf_fresh0_of_ne {tv : Nat} (hne : tv ≠ st.tyvars.length) :
    (st.fresh0 equality overloaded explicit).2.tyLinkOf tv = st.tyLinkOf tv := by
  simp only [Store.tyLinkOf, Store.fresh0]
  rcases Nat.lt_or_gt_of_ne hne with hlt | hgt
  · rw [getElem?_append_left hlt]
  · rw [getElem?_eq_none (by simp; omega), getElem?_eq_none (by omega)]

/-- An old variable has the description it had. -/
theorem desc_fresh0 {tv : Nat} (hne : tv ≠ st.tyvars.length) :
    (st.fresh0 equality overloaded explicit).2.desc tv = st.desc tv := by
  rw [Store.desc, tyLinkOf_fresh0_of_ne hne, Store.desc]

theorem desc_fresh0_self (st : Store) (equality : Bool) (overloaded : Option (List TyName))
    (explicit : Option ExplicitTyVar) :
    (st.fresh0 equality overloaded explicit).2.desc st.tyvars.length =
      some ⟨equality, st.currentRank, overloaded, explicit⟩ := by
  simp [Store.desc_eq_some_iff, Store.tyLinkOf, Store.fresh0]

theorem ne_length_of_desc (hd : st.desc tv = some tvd) : tv ≠ st.tyvars.length := by
  rintro rfl
  rw [Store.desc_eq_some_iff, tyLinkOf_length] at hd
  cases hd

theorem instance_of_fresh0 (hθ : Instance (st.fresh0 equality overloaded explicit).2 θ) :
    Instance st θ where
  respects := by
    constructor
    · intro tv ty hl
      have hne : tv ≠ st.tyvars.length := by
        rintro rfl
        rw [tyLinkOf_length] at hl
        cases hl
      exact hθ.respects.ty tv ty ((tyLinkOf_fresh0_of_ne hne).trans hl)
    · exact hθ.respects.row
  equality tv tvd hd := hθ.equality tv tvd ((desc_fresh0 (ne_length_of_desc hd)).trans hd)

/-- The variables recorded after an allocation. -/
theorem mem_carriers_fresh0 :
    tv ∈ (st.fresh0 equality overloaded explicit).2.carriers ↔
      (equality = true ∧ tv = st.tyvars.length) ∨ tv ∈ st.carriers := by
  cases equality <;> simp [Store.fresh0]

theorem EqualityInv.fresh0 (hinv : EqualityInv st)
    (hex : ∀ extv, explicit = some extv → equality = extv.isEquality) :
    EqualityInv (st.fresh0 equality overloaded explicit).2 := by
  have hself := desc_fresh0_self st equality overloaded explicit
  have hold : ∀ tv ∈ st.carriers, tv ≠ st.tyvars.length := by
    rintro tv htv rfl
    have hsome := hinv.tracked.allocated _ htv
    rw [tyLinkOf_length] at hsome
    cases hsome
  constructor
  · constructor
    · intro tv htv
      rcases mem_carriers_fresh0.1 htv with ⟨-, rfl⟩ | hmem
      · exact Store.isSome_tyLinkOf_of_desc hself
      · rw [tyLinkOf_fresh0_of_ne (hold tv hmem)]
        exact hinv.tracked.allocated tv hmem
    · intro tv htv tvd hd
      rcases mem_carriers_fresh0.1 htv with ⟨heq, rfl⟩ | hmem
      · cases hself.symm.trans hd
        exact heq
      · rw [desc_fresh0 (hold tv hmem)] at hd
        exact hinv.tracked.marked tv hmem tvd hd
    · intro tv tvd hd heq
      rw [mem_carriers_fresh0]
      by_cases hnew : tv = st.tyvars.length
      · subst hnew
        cases hself.symm.trans hd
        exact Or.inl ⟨heq, rfl⟩
      · rw [desc_fresh0 hnew] at hd
        exact Or.inr (hinv.tracked.carrier tv tvd hd heq)
    · intro tv tvd extv hd hextv
      by_cases hnew : tv = st.tyvars.length
      · subst hnew
        cases hself.symm.trans hd
        exact hex extv hextv
      · rw [desc_fresh0 hnew] at hd
        exact hinv.tracked.explicit tv tvd extv hd hextv
    · intro θ hθ hrows tv htv
      rcases mem_carriers_fresh0.1 htv with ⟨heq, rfl⟩ | hmem
      · exact hθ.equality _ _ hself heq
      · exact hinv.tracked.sound θ (instance_of_fresh0 hθ) hrows tv hmem
  · intro θ hθ hcarriers
    apply hinv.complete θ (instance_of_fresh0 hθ)
    exact fun tv htv => hcarriers tv (mem_carriers_fresh0.2 (Or.inr htv))

/-- A store that differs only where no instance looks. -/
theorem EqualityInv.of_eq (hinv : EqualityInv st) (hty : st'.tyvars = st.tyvars)
    (hrow : ∀ rv r, st.recLinkOf rv = some (.recLink r) → st'.recLinkOf rv = some (.recLink r))
    (hcarriers : st'.carriers = st.carriers) (hopen : st'.openRows = st.openRows) :
    EqualityInv st' := by
  have hlink : st'.tyLinkOf = st.tyLinkOf := by
    funext tv
    rw [Store.tyLinkOf, hty, Store.tyLinkOf]
  have hdesc : st'.desc = st.desc := by
    funext tv
    rw [Store.desc, hlink, Store.desc]
  have hinst : ∀ θ, Instance st' θ → Instance st θ := by
    intro θ hθ
    refine ⟨⟨?_, fun rv r hl => hθ.respects.row rv r (hrow rv r hl)⟩, ?_⟩
    · rw [← hlink]
      exact hθ.respects.ty
    · rw [← hdesc]
      exact hθ.equality
  constructor
  · constructor
    · rw [hcarriers, hlink]
      exact hinv.tracked.allocated
    · rw [hcarriers, hdesc]
      exact hinv.tracked.marked
    · rw [hcarriers, hdesc]
      exact hinv.tracked.carrier
    · rw [hdesc]
      exact hinv.tracked.explicit
    · intro θ hθ hrows
      rw [CarriersAdmit, hcarriers]
      exact hinv.tracked.sound θ (hinst θ hθ) (by rw [RowsAdmit, ← hopen]; exact hrows)
  · intro θ hθ hadm
    rw [RowsAdmit, hopen]
    exact hinv.complete θ (hinst θ hθ) (by rw [CarriersAdmit, ← hcarriers]; exact hadm)

theorem EqualityInv.freshNormal (hinv : EqualityInv st) : EqualityInv st.freshNormal.2 := by
  apply hinv.fresh0
  nofun

theorem recLinkOf_freshRow {link : RecLink} (h : st.recLinkOf rv = some link) :
    st.freshRow.2.recLinkOf rv = some link := by
  obtain ⟨cell, hcell, rfl⟩ := Option.map_eq_some_iff.1 h
  have hlt : rv < st.rowvars.length := (List.getElem?_eq_some_iff.1 hcell).1
  rw [Store.recLinkOf, Store.freshRow, getElem?_append_left hlt, hcell]
  rfl

theorem EqualityInv.freshRow (hinv : EqualityInv st) : EqualityInv st.freshRow.2 :=
  hinv.of_eq rfl (fun _ _ h => recLinkOf_freshRow h) rfl rfl

end Fresh

end MLKit.Elab
