import MLKit.Lambda.StaticMatch
import MLKit.Lambda.DagInvariant

/-!
# Runs of the match compiler

Patterns made of one constructor over given argument patterns, and how the compiler
runs through them when the arguments are wildcards.  Where the compiler returns, so
does every call that it makes on the way.
-/

namespace MLKit.Lambda.Match

open MLKit.Lib MLKit.Edlib List

/-! ## Constructor patterns -/

def wild : Pat := .atpat .wildcard

def argPat (p : Pat) : Pat := .atpat (.par p)

def rowsFrom : Nat → List Pat → Patrow
  | _, [] => .none
  | i, p :: ps => .row (some (.labInfo i)) (argPat p) (rowsFrom (i + 1) ps)

def argpatsFrom : Nat → List Pat → List (Nat × Pat)
  | _, [] => []
  | i, p :: ps => (i, argPat p) :: argpatsFrom (i + 1) ps

/-- The pattern of a constructor over argument patterns. -/
def conPat : Con → List Pat → Pat
  | .con x (.finite n) true, _ => .atpat (.longid (some (.conInfo n x)) x)
  | .con x (.finite n) false, p :: _ => .cons (some (.conInfo n x)) (.par p)
  | .scon s, _ => .atpat (.scon s)
  | .excon x true, _ => .atpat (.longid (some (.exconInfo x)) x)
  | .excon x false, p :: _ => .cons (some (.exconInfo x)) (.par p)
  | .tuple _, ps => .atpat (.record (rowsFrom 0 ps))
  | _, _ => wild

theorem argpatsFrom_eq (c : Con) (path : Path) : ∀ (i : Nat) (ps : List Pat),
    (argpatsFrom i ps).map (·.2) = ps.map argPat ∧
      (argpatsFrom i ps).map (fun a => Path.access a.1 c path) =
        (List.range' i ps.length).map (fun i => .access i c path)
  | _, [] => ⟨rfl, rfl⟩
  | i, p :: ps => by
    obtain ⟨hpats, hpaths⟩ := argpatsFrom_eq c path (i + 1) ps
    simp only [argpatsFrom, map_cons, hpats, hpaths, length_cons, List.range'_succ]
    exact ⟨trivial, trivial⟩

@[simp] theorem argpatsFrom_length : ∀ (i : Nat) (ps : List Pat),
    (argpatsFrom i ps).length = ps.length
  | _, [] => rfl
  | i, _ :: ps => congrArg (· + 1) (argpatsFrom_length (i + 1) ps)

theorem le_of_mem_argpatsFrom : ∀ {i : Nat} {ps : List Pat} {a : Nat × Pat},
    a ∈ argpatsFrom i ps → i ≤ a.1
  | i, _ :: ps, a, h => by
    rcases mem_cons.1 h with rfl | h
    · exact Nat.le_refl i
    · exact Nat.le_of_succ_le (le_of_mem_argpatsFrom h)

theorem argpatsFrom_pairwise : ∀ (i : Nat) (ps : List Pat),
    (argpatsFrom i ps).Pairwise fun a b => a.1 < b.1
  | _, [] => .nil
  | i, _ :: ps =>
    .cons (fun _ h => le_of_mem_argpatsFrom h) (argpatsFrom_pairwise (i + 1) ps)

theorem sortArgs_argpatsFrom (i : Nat) (ps : List Pat) :
    sortArgs (argpatsFrom i ps) = argpatsFrom i ps := by
  have hsorted : (sortArgs (argpatsFrom i ps)).Pairwise fun a b => decide (a.1 < b.1) = true := by
    refine sort_pairwise (fun a b c hab hbc => ?_) _ ?_
    · simp only [decide_eq_true_eq] at hab hbc ⊢
      omega
    · refine (argpatsFrom_pairwise i ps).imp fun {a b} hab => ?_
      simp only [decide_eq_true_eq]
      exact .inl hab
  have hlt : (sortArgs (argpatsFrom i ps)).Pairwise fun a b => a.1 < b.1 :=
    hsorted.imp fun hab => of_decide_eq_true hab
  refine List.Perm.eq_of_pairwise (fun a b _ _ hab hba => ?_) hlt (argpatsFrom_pairwise i ps)
    (sort_perm _ _)
  omega

variable {caller : String} {c : Con} {τ : Ty} {ts us : List Ty} {ps : List Pat} {u : Val}
  {path : Path} {args ds : List Termd} {paths : List Path} {e : Edge}

theorem recordArgs_rowsFrom : ∀ (i : Nat) (ps : List Pat),
    recordArgs caller (rowsFrom i ps) = .ok (argpatsFrom i ps)
  | _, [] => rfl
  | i, p :: ps => by
    obtain ⟨rows, hrows, hlab⟩ := bind_ok (recordArgs_rowsFrom (i + 1) ps)
    have hmake : makeRows caller (rowsFrom i (p :: ps)) =
        .ok ((some (.labInfo i), argPat p) :: rows) := ok_bind hrows
    exact (ok_bind hmake).trans (ok_bind hlab)

/-- What is left to match under the constructor of such a pattern. -/
theorem argWork_argpatsFrom (c : Con) (ps : List Pat) (path : Path) (d : Termd) :
    argWork c (argpatsFrom 0 ps) path d = (ps.map argPat,
      (List.range' 0 ps.length).map (fun i => .access i c path),
      getdargs (argpatsFrom 0 ps) d) := by
  rw [argWork, (argpatsFrom_eq c path 0 ps).1, (argpatsFrom_eq c path 0 ps).2]

theorem getdargs_neg (ps : List Pat) (n : Negset) :
    getdargs (argpatsFrom 0 ps) (.neg n) = List.replicate ps.length (.neg .empty) := by
  simp [getdargs, map_const']

theorem matchPat_tuple (ps : List Pat) (st : DagState) (path : Path) (d : Termd) (ctx : Context)
    (work : List Work) (rhs : Node) (rules : List Rule) :
    matchPat st (conPat (.tuple ps.length) ps) path d ctx work rhs rules =
      matchCon st (.tuple ps.length) (argpatsFrom 0 ps) path d ctx work rhs rules := by
  rw [conPat, matchPat, matchAtpat_record, ok_bind (recordArgs_rowsFrom 0 ps),
    sortArgs_argpatsFrom, argpatsFrom_length]

section Scope

variable {sc : Scope}

/-- A constructor and as many patterns as it has arguments. -/
inductive ConShape : Con → List Pat → Prop where
  | con0 {x : Longid} {n : Nat} : ConShape (.con x (.finite n) true) []
  | con1 {x : Longid} {n : Nat} {p : Pat} : ConShape (.con x (.finite n) false) [p]
  | scon {s : SCon} : ConShape (.scon s) []
  | excon0 {x : Longid} : ConShape (.excon x true) []
  | excon1 {x : Longid} {p : Pat} : ConShape (.excon x false) [p]
  | tuple {qs : List Pat} : ConShape (.tuple qs.length) qs

theorem conShape (hc : sc.ConTy c τ ts) (hps : ps.length = arity c) : ConShape c ps := by
  cases c with
  | con x span nullary =>
    obtain ⟨e, args, -, rfl, -, -, -⟩ := hc
    cases nullary with
    | true => exact eq_nil_of_length_eq_zero hps ▸ .con0
    | false =>
      obtain ⟨p, rfl⟩ := length_eq_one_iff.1 hps
      exact .con1
  | scon s => exact eq_nil_of_length_eq_zero hps ▸ .scon
  | excon x nullary =>
    cases nullary with
    | true => exact eq_nil_of_length_eq_zero hps ▸ .excon0
    | false =>
      obtain ⟨p, rfl⟩ := length_eq_one_iff.1 hps
      exact .excon1
  | tuple n => exact (show ps.length = n from hps) ▸ .tuple

theorem matchPat_conPat {ps : List Pat} (hc : sc.ConTy c τ ts) (hps : ps.length = arity c) (st : DagState)
    (path : Path) (d : Termd) (ctx : Context) (work : List Work) (rhs : Node) (rules : List Rule) :
    matchPat st (conPat c ps) path d ctx work rhs rules =
      matchCon st c (argpatsFrom 0 ps) path d ctx work rhs rules := by
  cases conShape hc hps with
  | con0 | scon | excon0 =>
    rw [conPat, matchPat, matchAtpat]
    rfl
  | con1 | excon1 =>
    rw [conPat, matchPat]
    rfl
  | tuple => exact matchPat_tuple ps st path d ctx work rhs rules

theorem rowsFrom_ty :
    ∀ {i : Nat} {ps : List Pat} {ts : List Ty},
    List.Forall₂ sc.PatTy ps ts → (∀ j t, ts[j]? = some t → us[i + j]? = some t) →
    sc.RowsTy (rowsFrom i ps) us
  | _, [], [], _, _ => trivial
  | i, p :: ps, t :: ts, h, hget => by
    obtain ⟨hp, hps⟩ := forall₂_cons.1 h
    refine ⟨⟨t, hget 0 t rfl, hp⟩, rowsFrom_ty hps fun j t' hj => ?_⟩
    have hnext := hget (j + 1) t' hj
    rwa [show i + (j + 1) = i + 1 + j by omega] at hnext

theorem rowLabels_rowsFrom : ∀ (i : Nat) (ps : List Pat),
    Scope.rowLabels (rowsFrom i ps) = List.range' i ps.length
  | _, [] => rfl
  | i, p :: ps => by
    rw [rowsFrom, Scope.rowLabels, rowLabels_rowsFrom, length_cons, List.range'_succ]

theorem conPat_ty (hc : sc.ConTy c τ ts) (hps : List.Forall₂ sc.PatTy ps ts) :
    sc.PatTy (conPat c ps) τ := by
  cases conShape hc (hps.length_eq.trans hc.length) with
  | con0 | scon | excon0 =>
    cases hps
    exact hc
  | con1 | excon1 =>
    obtain ⟨t, us, hp, hus, rfl⟩ := forall₂_cons_left_iff.1 hps
    cases hus
    exact ⟨t, hc, hp⟩
  | tuple =>
    refine ⟨ts, hc.1, rowsFrom_ty hps (by simp), ?_⟩
    rw [rowLabels_rowsFrom, hps.length_eq, ← range_eq_range']

theorem wilds_ty (sc : Scope) (ts : List Ty) : List.Forall₂ sc.PatTy (List.replicate ts.length wild)
    ts := by
  induction ts with
  | nil => exact .nil
  | cons t ts ih => exact .cons trivial ih

theorem matchesRows_rowsFrom : ∀ (i : Nat) (ps : List Pat) (us vs : List Val),
    (∀ j, vs[i + j]? = us[j]?) → ps.length = us.length →
    sc.matchesRows (rowsFrom i ps) vs = (ps.zip us).all fun a => sc.matchesPat a.1 a.2
  | _, [], [], _, _, _ => rfl
  | i, p :: ps, u :: us, vs, hget, hlen => by
    have ih := matchesRows_rowsFrom (i + 1) ps us vs
      (fun j => by rw [Nat.add_assoc, Nat.add_comm 1 j, hget, List.getElem?_cons_succ])
      (by simpa using hlen)
    rw [rowsFrom, Scope.matchesRows, ih, show vs[i]? = some u from hget 0, zip_cons_cons, all_cons]
    rfl

/-- Such a pattern matches the values of its constructor whose arguments match. -/
theorem matchesPat_conPat {ps : List Pat} (hc : sc.ConTy c τ ts) (hps : ps.length = arity c)
    (hu : sc.HasTy u τ) : sc.matchesPat (conPat c ps) u =
      (sc.builtWith c u && (ps.zip u.args).all fun a => sc.matchesPat a.1 a.2) := by
  -- the argument of a unary constructor
  have hone : ∀ (p : Pat), arity c = 1 →
      (sc.builtWith c u && u.args.head?.any (sc.matchesAtpat (.par p))) =
        (sc.builtWith c u && ([p].zip u.args).all fun a => sc.matchesPat a.1 a.2) := by
    intro p h1
    cases hb : sc.builtWith c u with
    | false => rfl
    | true =>
      have hlen := (hu.args hc hb).length_eq.trans (hc.length.trans h1)
      obtain ⟨w, hw⟩ := length_eq_one_iff.1 hlen
      simp [hw, Scope.matchesAtpat]
  cases conShape hc hps with
  | con0 | scon | excon0 =>
    rw [conPat, Scope.matchesPat, Scope.matchesAtpat]
    simp
  | con1 | excon1 =>
    rw [conPat, Scope.matchesPat]
    exact hone _ rfl
  | tuple =>
    obtain ⟨rfl, hlen⟩ := hc
    cases u with
    | record vs =>
      have hvs := hlen.trans (Scope.HasTys.length_eq hu).symm
      rw [conPat, Scope.matchesPat, Scope.matchesAtpat,
        matchesRows_rowsFrom 0 ps vs vs (by simp) hvs]
      simp [Scope.builtWith, hvs, Val.args]
    | scon s => cases s <;> exact hu.elim
    | con _ _ | excon _ _ | other _ => exact hu.elim

theorem matchesPat_wilds (hc : sc.ConTy c τ ts) (hu : sc.HasTy u τ) :
    sc.matchesPat (conPat c (List.replicate (arity c) wild)) u = sc.builtWith c u := by
  rw [matchesPat_conPat hc (by simp) hu, Bool.and_eq_left_iff_imp, all_eq_true]
  rintro - a ha
  rw [eq_of_mem_replicate (of_mem_zip ha).1]
  rfl

end Scope

/-! ## Running through wildcards -/

variable {n : Nat}

section Run

variable {st st' : DagState} {c : Con} {ctx : Context} {work : List Work}
  {rhs : Node} {rules : List Rule}

@[simp] theorem matchPat_argPat (p : Pat) (d : Termd) :
    matchPat st (argPat p) path d ctx work rhs rules = matchPat st p path d ctx work rhs rules := by
  rw [argPat, matchPat, matchAtpat]

@[simp] theorem matchPat_wild (d : Termd) :
    matchPat st wild path d ctx work rhs rules = succeed st (augment ctx d) work rhs rules := by
  rw [wild, matchPat, matchAtpat]

/-- Wildcards pass the descriptions on to the constructor. -/
theorem succeed_wilds (ps : List Pat) (paths : List Path) (ds : List Termd) :
    ∀ (paths1 : List Path) (ds1 args : List Termd), paths1.length = ds1.length →
    succeed st ((c, args) :: ctx) (((List.replicate ds1.length wild).map argPat ++ ps,
        paths1 ++ paths, ds1 ++ ds) :: work) rhs rules =
      succeed st ((c, ds1.reverse ++ args) :: ctx) ((ps, paths, ds) :: work) rhs rules
  | [], [], args, _ => rfl
  | path1 :: paths1, d1 :: ds1, args, h => by
    have ih := succeed_wilds ps paths ds paths1 ds1 (d1 :: args) (by simpa using h)
    rw [length_cons, replicate_succ, map_cons, cons_append,
      cons_append, cons_append, succeed, matchPat_argPat, matchPat_wild]
    simpa [augment] using ih

/-- Descriptions of another number of arguments end in an error. -/
theorem succeed_mismatch : ∀ {n : Nat} {paths : List Path} {ds args : List Termd},
    paths.length = n → ds.length ≠ n →
    succeed st ((c, args) :: ctx)
      (((List.replicate n wild).map argPat, paths, ds) :: work) rhs rules = .error "succeed"
  | 0, [], [], _, _, h => absurd rfl h
  | 0, [], _ :: _, _, _, _ => by
    rw [replicate_zero, map_nil, succeed] <;> simp
  | n + 1, _ :: _, [], _, _, _ => by
    rw [replicate_succ, map_cons, succeed] <;> simp
  | n + 1, path :: paths, d :: ds, args, hp, hd => by
    rw [replicate_succ, map_cons, succeed, matchPat_argPat, matchPat_wild]
    exact succeed_mismatch (by simpa using hp) (by simpa using hd)

/-- With wildcards only, the constructor is described as far as it was. -/
theorem succeed_all_wilds (hds : ds.length = n)
    (hpaths : paths.length = n) :
    succeed st ((c, args) :: ctx) (((List.replicate n wild).map argPat, paths, ds) :: work)
        rhs rules =
      succeed st (augment ctx (.pos c (args.reverse ++ ds))) work rhs rules := by
  have hw : succeed st ((c, args) :: ctx) (((List.replicate ds.length wild).map argPat ++ [],
      paths ++ [], ds ++ []) :: work) rhs rules =
        succeed st ((c, ds.reverse ++ args) :: ctx) (([], [], []) :: work) rhs rules :=
    succeed_wilds [] [] [] paths ds args (hpaths.trans hds.symm)
  simp only [append_nil, hds] at hw
  rw [hw, succeed, norm, reverse_append, reverse_reverse]
  rfl

/-- A constructor that the description does not refute is entered. -/
theorem matchCon_entered {argpats : List (Nat × Pat)} {d : Termd} (base : List Node)
    (h : matchCon st c argpats path d ctx work rhs rules = .ok (e, st'))
    (hs : staticmatch c d ≠ .ok .no) :
    ∃ e1 st1, succeed st ((c, []) :: ctx) (argWork c argpats path d :: work) rhs rules =
        .ok (e1, st1) ∧
      (st.Ok base → (∀ r ∈ rules, r.2 ∈ base) → rhs ∈ base → ∀ (sc : Scope) v,
        sc.tests v path c = true → sc.walk v e = sc.walk v e1) := by
  rcases matchCon_cases h with ⟨-, h⟩ | ⟨hno, -⟩ |
    ⟨-, left, st1, D, right, st2, hleft, -, hright, hbranch⟩
  · exact ⟨e, st', h, fun _ _ _ _ _ _ => rfl⟩
  · exact absurd hno hs
  · refine ⟨left, st1, hleft, fun hok hrules hrhs sc v ht => ?_⟩
    rw [maybe_walk hok hrules hrhs hleft hright hbranch, if_pos ht]

theorem staticmatch_empty (c : Con) : staticmatch c (.neg .empty) ≠ .ok .no := by
  intro h
  obtain ⟨s, -, h⟩ := bind_ok h
  cases hs : s.eqInt (Negset.empty.size + 1) <;> simp [hs] at h

end Run

end MLKit.Lambda.Match
