import MLKit.Elab.Valuation
import MLKit.Elab.Walks
import MLKit.Lib.Except

/-!
# Following links

What `findType` and `findRecType` do to a store: links are shortened, and nothing else changes. The
walks that only read (`RecType.sort`, `RecType_eq` and the occurs checks) do no more than that.
-/

namespace MLKit.Elab

open MLKit.Lib

/-- The second store differs from the first by shortened links only. -/
structure Compressed (st st' : Store) : Prop where
  desc : ∀ tv, st'.desc tv = st.desc tv
  unlinked : ∀ rv, st'.Unlinked rv ↔ st.Unlinked rv
  tyLevel : ∀ tv, st'.tyLevel tv = st.tyLevel tv
  carriers : st'.carriers = st.carriers
  openRows : st'.openRows = st.openRows
  respects : ∀ {T R : Type} (A : TypeAlgebra T R) (θ : Valuation T R),
    θ.Respects A st' ↔ θ.Respects A st

theorem Compressed.refl (st : Store) : Compressed st st where
  desc _ := rfl
  unlinked _ := Iff.rfl
  tyLevel _ := rfl
  carriers := rfl
  openRows := rfl
  respects _ _ := Iff.rfl

variable {st st1 st2 : Store} {tl tl' : TyVar} {ty'' : Typ} {n : Nat} {rl : RowVar}

theorem Compressed.trans (h1 : Compressed st st1) (h2 : Compressed st1 st2) :
    Compressed st st2 where
  desc tv := (h2.desc tv).trans (h1.desc tv)
  unlinked rv := (h2.unlinked rv).trans (h1.unlinked rv)
  tyLevel tv := (h2.tyLevel tv).trans (h1.tyLevel tv)
  carriers := h2.carriers.trans h1.carriers
  openRows := h2.openRows.trans h1.openRows
  respects A θ := (h2.respects A θ).trans (h1.respects A θ)

/-- What `findType` returns. -/
structure FoundType (st : Store) (ty ty' : Typ) (st' : Store) : Prop where
  compressed : Compressed st st'
  eval : ∀ {T R : Type} (A : TypeAlgebra T R) (θ : Valuation T R),
    θ.Respects A st → ty'.eval A θ = ty.eval A θ

variable {T R : Type} {ty ty' : Typ} {st' : Store}

theorem FoundType.refl : FoundType st ty ty st where
  compressed := .refl st
  eval _ _ _ := rfl

/-- What `findRecType` returns: every link that it has changed leads to the row it found. -/
structure FoundRow (st : Store) (r r' : RecType) (st' : Store) : Prop where
  compressed : Compressed st st'
  head : r' = r ∨ ∃ rv, r = .var rv ∧ st'.recLinkOf rv = some (.recLink r')
  changed : ∀ rv, st'.recLinkOf rv = st.recLinkOf rv ∨ st'.recLinkOf rv = some (.recLink r')
  free : ∀ rv, r' = .var rv → st'.Unlinked rv

variable {r r' : RecType}

theorem FoundRow.refl (hfree : ∀ rv, r = .var rv → st.Unlinked rv) : FoundRow st r r st where
  compressed := .refl st
  head := Or.inl rfl
  changed _ := Or.inl rfl
  free := hfree

variable {A : TypeAlgebra T R} {θ : Valuation T R}

theorem FoundRow.eval_of_respects (h : FoundRow st r r' st') (hθ : θ.Respects A st') : r'.eval A θ =
    r.eval A θ := by
  rcases h.head with rfl | ⟨rv, rfl, hl⟩
  · rfl
  · exact (hθ.row rv r' hl).symm

theorem FoundRow.eval (h : FoundRow st r r' st') (hθ : θ.Respects A st) :
    r'.eval A θ = r.eval A θ :=
  h.eval_of_respects ((h.compressed.respects A θ).2 hθ)

section RowLink

variable {st st1 : Store}

section

variable (hl : st.recLinkOf rl = some (.recLink r))

include hl

section

variable (h : FoundRow st r r' st1)

include h

end

end

end RowLink

end MLKit.Elab
