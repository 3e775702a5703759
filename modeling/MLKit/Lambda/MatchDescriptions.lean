import MLKit.Lambda.MatchScope
import Mathlib.Order.Interval.Finset.Basic
import Mathlib.Data.Int.Interval

/-!
# Descriptions of values

The match compiler keeps a description of the value as a stack of partly described
constructors.  The stack is treated once, for any reading of descriptions that a
constructor passes on from its arguments; `View` is such a reading.  The first
reading is of compile time: every constructor in a description stood at a path
that overlays the present one.  The second one is of a value that the description
is true of.
-/

namespace MLKit.Lambda.Match

open MLKit.Lib List

/-! ## Stacks -/

/-- A reading of descriptions at paths. -/
structure View where
  Holds : Path → Termd → Prop
  Placed : Path → Con → Prop
  pos : ∀ {p : Path} {c : Con} {ds : List Termd}, Placed p c → ds.length = arity c →
    (∀ i d, ds[i]? = some d → Holds (.access i c p) d) → Holds p (.pos c ds)

namespace View

variable (V : View)

/-- The constructor `c` at `q`: what is known of the arguments that are done, the last
one first, and of those to do. -/
structure Frame (q : Path) (c : Con) (args : List Termd) (paths : List Path)
    (dargs : List Termd) : Prop where
  placed : V.Placed q c
  length : args.length + dargs.length = arity c
  paths_eq : paths = (List.range' args.length dargs.length).map fun i => .access i c q
  done : ∀ i d, args.reverse[i]? = some d → V.Holds (.access i c q) d
  todo : ∀ i d, dargs[i]? = some d → V.Holds (.access (args.length + i) c q) d

/-- The stack describes everything but the component at the path. -/
inductive Hole : Path → Context → List Work → Prop
  | obj : Hole .obj [] []
  | arg (hole : Hole q ctx work)
      (frame : ∀ d, V.Holds (.access args.length c q) d → V.Frame q c (d :: args) paths dargs) :
      Hole (.access args.length c q) ((c, args) :: ctx) ((pats, paths, dargs) :: work)

/-- The stack describes everything, with the components of the work still to match. -/
inductive Pending : Context → List Work → Prop
  | obj : Pending [] []
  | arg (hole : V.Hole q ctx work)
      (frame : V.Frame q c args paths dargs) :
      Pending ((c, args) :: ctx) ((pats, paths, dargs) :: work)

variable {V}

variable {paths : List Path}

theorem Frame.holds (h : V.Frame q c args paths dargs) :
    V.Holds q (.pos c (args.reverse ++ dargs)) := by
  refine V.pos h.placed (by simpa using h.length) ?_
  intro i d hi
  by_cases hlt : i < args.length
  · rw [getElem?_append_left (by simpa using hlt)] at hi
    exact h.done i d hi
  · rw [getElem?_append_right (by simpa using hlt), length_reverse] at hi
    have htodo := h.todo _ d hi
    rwa [show args.length + (i - args.length) = i by omega] at htodo

variable {work : List Work} {ctx : Context}

theorem Hole.augment (h : V.Hole p ctx work) (hd : V.Holds p d) :
    V.Pending (augment ctx d) work := by
  cases h with
  | obj => exact .obj
  | arg hole frame => exact .arg hole (frame d hd)

/-- With the component described, the whole value is. -/
theorem Hole.buildtermd (h : V.Hole p ctx work) (hd : V.Holds p d) :
    ∃ D, buildtermd ctx d work = .ok D ∧ V.Holds .obj D := by
  induction h generalizing d with
  | obj => exact ⟨d, rfl, hd⟩
  | @arg q ctx work c args pats paths dargs hole frame ih =>
    have hpos := (frame d hd).holds
    rw [reverse_cons, append_assoc] at hpos
    exact ih hpos

theorem Pending.norm (h : V.Pending ctx (([], [], []) :: work)) :
    ∃ ctx', norm ctx = .ok ctx' ∧ V.Pending ctx' work := by
  cases h with
  | arg hole frame =>
    have hpos := frame.holds
    rw [append_nil] at hpos
    exact ⟨_, rfl, hole.augment hpos⟩

/-- The next component of the work is known as its description says. -/
theorem Pending.next (h : V.Pending ctx ((p :: ps, path :: paths, d :: ds) :: work)) :
    V.Holds path d ∧ V.Hole path ctx ((ps, paths, ds) :: work) := by
  cases h with
  | @arg q ctx work c args _ _ _ hole frame =>
    obtain ⟨rfl, hpaths⟩ : path = .access args.length c q ∧
        paths = (List.range' (args.length + 1) ds.length).map fun i => .access i c q := by
      have h := frame.paths_eq
      exact ⟨(List.cons.inj h).1, (List.cons.inj h).2⟩
    refine ⟨by simpa using frame.todo 0 d rfl, .arg hole fun d' hd' => ?_⟩
    refine ⟨frame.placed, ?_, by simpa using hpaths, ?_, ?_⟩
    · have hlen := frame.length
      simp only [length_cons] at hlen ⊢
      omega
    · intro i d'' hi
      rw [reverse_cons] at hi
      by_cases hlt : i < args.length
      · rw [getElem?_append_left (by simpa using hlt)] at hi
        exact frame.done i d'' hi
      · rw [getElem?_append_right (by simpa using hlt), length_reverse] at hi
        obtain ⟨hz, rfl⟩ : i - args.length = 0 ∧ d' = d'' := by
          rcases hi' : i - args.length with _ | k
          · rw [hi'] at hi
            exact ⟨rfl, by simpa using hi⟩
          · rw [hi'] at hi
            simp at hi
        rwa [show i = args.length by omega]
    · intro i d'' hi
      have htodo := frame.todo (i + 1) d'' (by simpa using hi)
      rwa [show args.length + (i + 1) = (d' :: args).length + i by simp; omega] at htodo

theorem Pending.lengths (h : V.Pending ctx ((ps, paths, ds) :: work)) :
    paths.length = ds.length := by
  cases h with
  | arg hole frame => simp [frame.paths_eq]

/-- A constructor is entered with its arguments to do. -/
theorem Hole.enter (pats : List Pat) (h : V.Hole path ctx work)
    (hc : V.Placed path c) (hlen : dargs.length = arity c)
    (hd : ∀ i d, dargs[i]? = some d → V.Holds (.access i c path) d) :
    V.Pending ((c, []) :: ctx)
      ((pats, (List.range (arity c)).map fun i => .access i c path, dargs) :: work) := by
  refine .arg h ⟨hc, by simpa using hlen, ?_, by simp, by simpa using hd⟩
  rw [hlen, range_eq_range']
  rfl

end View

/-! ## Overlays of paths -/

theorem conEq_refl (c : Con) : conEq c c = true := by
  cases c <;> simp [conEq]

variable {c : Con}

theorem conEq_trans (h : conEq c d = true) (h' : conEq d e = true) : conEq c e = true := by
  cases c <;> cases d <;> cases e <;> simp_all [conEq]

/-- A description with the constructor `c` may be matched with a pattern `d` and leave
its arguments to the pattern's. -/
structure Over (c d : Con) : Prop where
  arity_eq : arity c = arity d
  eq_or : conEq d c = true ∨ c.isExcon = true

theorem Over.refl (c : Con) : Over c c := ⟨rfl, .inl (conEq_refl c)⟩

theorem Over.trans (h : Over c d) (h' : Over d e) : Over c e := by
  refine ⟨h.arity_eq.trans h'.arity_eq, ?_⟩
  rcases h.eq_or with hc | hc
  · rcases h'.eq_or with hd | hd
    · exact .inl (conEq_trans hd hc)
    · right
      cases c <;> cases d <;> simp_all [conEq, Con.isExcon]
  · exact .inr hc

inductive Overlay : Path → Path → Prop
  | obj : Overlay .obj .obj
  | access {p q : Path} {c d : Con} (i : Nat) (h : Overlay p q) (hcd : Over c d) :
      Overlay (.access i c p) (.access i d q)

theorem Overlay.refl : ∀ p : Path, Overlay p p
  | .obj => .obj
  | .access i c p => .access i (Overlay.refl p) (.refl c)

variable {p : Path}

theorem Overlay.trans (h : Overlay p q) (h' : Overlay q r) : Overlay p r := by
  induction h generalizing r with
  | obj => exact h'
  | access i h hcd ih =>
    cases h' with
    | access _ h' hde => exact .access i (ih h') (hcd.trans hde)

namespace Scope

variable (sc : Scope) (τ₀ : Ty)

/-- The path leads from a value of type `τ₀` to one of this type. -/
inductive PathTy : Path → Ty → Prop
  | obj : PathTy .obj τ₀
  | access {i : Nat} {c : Con} {p : Path} {τ t : Ty} {ts : List Ty} (hp : PathTy p τ)
      (hc : sc.ConTy c τ ts) (ht : ts[i]? = some t) : PathTy (.access i c p) t

variable {sc τ₀}

theorem PathTy.unique (h : sc.PathTy τ₀ p τ) (h' : sc.PathTy τ₀ p σ) : τ = σ := by
  induction h generalizing σ with
  | obj =>
    cases h'
    rfl
  | access hp hc ht ih =>
    cases h' with
    | access hp' hc' ht' =>
      cases ih hp'
      cases hc.unique hc'
      exact Option.some.inj (ht.symm.trans ht')

/-! ## Where the constructors of a description stood -/

variable (sc τ₀)

mutual

def Origin : Termd → Path → Prop
  | .neg _, _ => True
  | .pos c ds, p => ∃ q τ ts, Overlay q p ∧ sc.PathTy τ₀ q τ ∧ sc.ConTy c τ ts ∧
      ds.length = arity c ∧ Origins ds c q 0

def Origins : List Termd → Con → Path → Nat → Prop
  | [], _, _, _ => True
  | d :: ds, c, q, i => Origin d (.access i c q) ∧ Origins ds c q (i + 1)

end

variable {sc τ₀}

theorem origins_iff :
    ∀ {ds : List Termd} {i : Nat},
    sc.Origins τ₀ ds c q i ↔ ∀ j d, ds[j]? = some d → sc.Origin τ₀ d (.access (i + j) c q)
  | [], i => by simp [Origins]
  | d :: ds, i => by
    rw [Origins, origins_iff]
    constructor
    · rintro ⟨hd, hds⟩ j e hj
      cases j with
      | zero =>
        cases hj
        exact hd
      | succ j =>
        have h := hds j e hj
        rwa [show i + 1 + j = i + (j + 1) by omega] at h
    · intro h
      refine ⟨h 0 d rfl, fun j e hj => ?_⟩
      have h' := h (j + 1) e hj
      rwa [show i + (j + 1) = i + 1 + j by omega] at h'

theorem Origin.overlay (h : sc.Origin τ₀ d p) (hpq : Overlay p q) : sc.Origin τ₀ d q := by
  cases d with
  | neg n => trivial
  | pos c ds =>
    obtain ⟨r, τ, ts, hr, hrest⟩ := h
    exact ⟨r, τ, ts, hr.trans hpq, hrest⟩

variable (sc τ₀)

/-- The constructor belongs to the type at the path. -/
def ConAt (p : Path) (c : Con) : Prop := ∃ τ ts, sc.PathTy τ₀ p τ ∧ sc.ConTy c τ ts

def originView : View where
  Holds p d := sc.Origin τ₀ d p
  Placed := sc.ConAt τ₀
  pos := by
    rintro p c ds ⟨τ, ts, hp, hc⟩ hlen hds
    refine ⟨p, τ, ts, .refl p, hp, hc, hlen, origins_iff.2 fun j d hj => ?_⟩
    simpa using hds j d hj

/-! ## True descriptions -/

mutual

def Describes : Termd → Val → Ty → Prop
  | .pos c ds, u, τ => ∃ ts, sc.ConTy c τ ts ∧ sc.builtWith c u = true ∧ DescribesAll ds u.args ts
  | .neg n, u, τ => n.size = n.cons.length ∧ n.cons.Nodup ∧
      ∀ c ∈ n.cons, (∃ ts, sc.ConTy c τ ts) ∧ sc.builtWith c u = false

def DescribesAll : List Termd → List Val → List Ty → Prop
  | [], [], [] => True
  | d :: ds, u :: us, t :: ts => Describes d u t ∧ DescribesAll ds us ts
  | _, _, _ => False

end

/-- The component of `v` at the path, which has the type of the path. -/
structure At (v : Val) (p : Path) (u : Val) (τ : Ty) : Prop where
  component_eq : sc.component v p = some u
  pathTy : sc.PathTy τ₀ p τ
  hasTy : sc.HasTy u τ

variable {sc τ₀}

theorem describesAll_iff : ∀ {ds : List Termd} {us : List Val} {ts : List Ty},
    us.length = ts.length → (sc.DescribesAll ds us ts ↔ ds.length = ts.length ∧
      ∀ (i : Nat) d u t, ds[i]? = some d → us[i]? = some u → ts[i]? = some t → sc.Describes d u t)
  | [], [], [], _ | [], _ :: _, _ :: _, _ | _ :: _, [], [], _ => by simp [DescribesAll]
  | d :: ds, u :: us, t :: ts, h => by
    rw [DescribesAll, describesAll_iff (by simpa using h)]
    constructor
    · rintro ⟨hd, hlen, hds⟩
      refine ⟨by simpa using hlen, fun i d' u' t' hi hu ht => ?_⟩
      cases i with
      | zero =>
        cases hi
        cases hu
        cases ht
        exact hd
      | succ i => exact hds i d' u' t' hi hu ht
    · rintro ⟨hlen, hds⟩
      exact ⟨hds 0 d u t rfl rfl rfl, by simpa using hlen,
        fun i d' u' t' hi hu ht => hds (i + 1) d' u' t' hi hu ht⟩

/-- The arguments of the constructor that a component was built with. -/
theorem At.arg (h : sc.At τ₀ v p u τ)
    (hc : sc.ConTy c τ ts) (hb : sc.builtWith c u = true) (ht : ts[i]? = some t) :
    ∃ w, u.args[i]? = some w ∧ sc.At τ₀ v (.access i c p) w t := by
  obtain ⟨w, hw, hty⟩ := (h.hasTy.args hc hb).get ht
  refine ⟨w, hw, ?_, .access h.pathTy hc ht, hty⟩
  simp [component, h.component_eq, hb, hw]

theorem At.unique (h : sc.At τ₀ v p u τ) (h' : sc.At τ₀ v p u' τ') : u = u' ∧ τ = τ' :=
  ⟨Option.some.inj (h.component_eq.symm.trans h'.component_eq), h.pathTy.unique h'.pathTy⟩

variable (sc τ₀)

def describesView (v : Val) : View where
  Holds p d := ∃ u τ, sc.At τ₀ v p u τ ∧ sc.Describes d u τ
  Placed p c := ∃ u τ ts, sc.At τ₀ v p u τ ∧ sc.ConTy c τ ts ∧ sc.builtWith c u = true
  pos := by
    rintro p c ds ⟨u, τ, ts, hu, hc, hb⟩ hlen hds
    have hus := (hu.hasTy.args hc hb).length_eq
    refine ⟨u, τ, hu, ts, hc, hb, (describesAll_iff hus).2 ⟨hlen.trans hc.length.symm, ?_⟩⟩
    intro i d w t hi hw ht
    obtain ⟨w', t', hw', hd⟩ := hds i d hi
    obtain ⟨w'', hw2, hat⟩ := hu.arg hc hb ht
    obtain ⟨rfl, rfl⟩ := hat.unique hw'
    cases hw.symm.trans hw2
    exact hd

end Scope

end MLKit.Lambda.Match
