import MLKit.Lambda.MatchRuns
import MLKit.Lambda.MatchDescriptions

/-!
# Where the match compiler dies

A description with an exception constructor is not refuted by any other constructor,
so the descriptions of its arguments are handed to the argument patterns of that
constructor.  When their numbers differ, `succeed` calls `die`.  Two patterns whose
paths overlay up to such a place make the compiler die.
-/

namespace MLKit.Lambda.Match

open MLKit.Lib List

abbrev unknown : Termd := .neg .empty

/-! ## Patterns along a path -/

/-- The constructors of a path from the root, each with the argument that is taken. -/
def Path.steps : Path → List (Con × Nat)
  | .obj => []
  | .access i c p => p.steps ++ [(c, i)]

/-- The pattern `p` under the constructors of the path, and wildcards beside it. -/
def spinePat : List (Con × Nat) → Pat → Pat
  | [], p => p
  | (c, i) :: ss, p =>
    conPat c (List.replicate i wild ++ spinePat ss p :: List.replicate (arity c - i - 1) wild)

def spineDesc : List (Con × Nat) → Termd → Termd
  | [], d => d
  | (c, i) :: ss, d =>
    .pos c (List.replicate i unknown ++ spineDesc ss d :: List.replicate (arity c - i - 1) unknown)

/-- The steps lead from the one type to the other. -/
def StepsTy (sc : Scope) : Ty → List (Con × Nat) → Ty → Prop
  | τ, [], σ => τ = σ
  | τ, (c, i) :: ss, σ => ∃ ts t, sc.ConTy c τ ts ∧ ts[i]? = some t ∧ StepsTy sc t ss σ

variable {sc : Scope} {τ τ0 t : Ty} {p q path : Path} {c : Con} {st st' : DagState} {rhs : Node}
  {rules : List Rule} {k i n : Nat} {ctx : List (Con × List Termd)} {paths : List Path}
  {ds1 ds2 : List Termd} {d : Termd} {work : List Work} {r : Edge × DagState} {ts : List Ty}
  {e : Edge}

section Steps

theorem StepsTy.append : ∀ {ss : List (Con × Nat)} {τ σ ρ : Ty} {ts : List Ty} {c : Con} {i : Nat},
    StepsTy sc τ ss σ → sc.ConTy c σ ts → ts[i]? = some ρ → StepsTy sc τ (ss ++ [(c, i)]) ρ
  | [], _, _, ρ, ts, _, _, h, hc, ht => by
    cases h
    exact ⟨ts, ρ, hc, ht, rfl⟩
  | _ :: _, _, _, _, _, _, _, ⟨us, t, hd, ht', h⟩, hc, ht => ⟨us, t, hd, ht', h.append hc ht⟩

theorem Scope.PathTy.steps (h : sc.PathTy τ0 p τ) : StepsTy sc τ0 p.steps τ := by
  induction h with
  | obj => rfl
  | access hp hc ht ih => exact ih.append hc ht

/-- One path of constructors over another. -/
def Overlays : List (Con × Nat) → List (Con × Nat) → Prop :=
  List.Forall₂ fun a b => a.2 = b.2 ∧ Over a.1 b.1

theorem Overlay.steps (h : Overlay p q) : Overlays p.steps q.steps := by
  induction h with
  | obj => exact .nil
  | access i h hcd ih => exact rel_append ih (.cons ⟨rfl, hcd⟩ .nil)

theorem spinePat_ty {sc : Scope} {p : Pat} :
    ∀ {ss : List (Con × Nat)} {τ σ : Ty}, StepsTy sc τ ss σ →
    sc.PatTy p σ → sc.PatTy (spinePat ss p) τ
  | [], _, _, h, hp => by
    cases h
    exact hp
  | (c, i) :: ss, _, _, ⟨ts, t, hc, ht, h⟩, hp => by
    refine conPat_ty hc ?_
    obtain ⟨hi, rfl⟩ := List.getElem?_eq_some_iff.1 ht
    have hsplit : ts = ts.take i ++ ts[i] :: ts.drop (i + 1) := by simp
    have hpre := wilds_ty sc (ts.take i)
    have hpost := wilds_ty sc (ts.drop (i + 1))
    rw [length_take, Nat.min_eq_left (Nat.le_of_lt hi)] at hpre
    rw [length_drop, Nat.sub_add_eq, hc.length] at hpost
    have hmid : List.Forall₂ sc.PatTy (spinePat ss p :: List.replicate (arity c - i - 1) wild)
        (ts[i] :: ts.drop (i + 1)) := .cons (spinePat_ty h hp) hpost
    rw [hsplit]
    exact rel_append hpre hmid

end Steps

/-! ## Runs along a path -/

section Run

variable {sc : Scope}

/-- The wildcards before an argument are passed, and the argument comes next. -/
theorem succeed_middle {p : Pat} (h1 : ds1.length = i) (h2 : ds2.length = k)
    (hpaths : paths.length = i + (k + 1))
    (h : succeed st ((c, []) :: ctx) (((List.replicate i wild ++ p ::
      List.replicate k wild).map argPat, paths, ds1 ++ d :: ds2) :: work) rhs rules = .ok r) :
    ∃ path paths2, paths2.length = k ∧
      matchPat st p path d ((c, ds1.reverse) :: ctx)
        (((List.replicate k wild).map argPat, paths2, ds2) :: work) rhs rules = .ok r := by
  subst h1
  obtain ⟨paths1, paths', rfl, hlen1⟩ : ∃ paths1 paths', paths = paths1 ++ paths' ∧
      paths1.length = ds1.length :=
    ⟨paths.take ds1.length, paths.drop ds1.length, by simp, by simp; omega⟩
  cases paths' with
  | nil =>
    simp only [append_nil] at hpaths
    omega
  | cons path paths2 =>
    refine ⟨path, paths2, ?_, ?_⟩
    · simp only [length_append, length_cons] at hpaths
      omega
    · rwa [map_append, map_cons, succeed_wilds _ _ _ _ _ _ hlen1, succeed,
        matchPat_argPat, append_nil] at h

theorem replicate_split (h : i < n) (d : Termd) :
    List.replicate n d = List.replicate i d ++ d :: List.replicate (n - i - 1) d := by
  rw [← replicate_succ, replicate_append_replicate]
  congr 1
  omega

theorem spine_length (h : i < arity c) (p : Pat) :
    (List.replicate i wild ++ p :: List.replicate (arity c - i - 1) wild).length = arity c := by
  simp
  omega

theorem lt_arity (hc : sc.ConTy c τ ts) (ht : ts[i]? = some t) : i < arity c :=
  hc.length ▸ (List.getElem?_eq_some_iff.1 ht).1

/-- A constructor on its own, of which nothing is known. -/
theorem matchPat_wilds_entered {ctx : Context} (base : List Node) (hc : sc.ConTy c τ ts)
    (h : matchPat st (conPat c (List.replicate (arity c) wild)) path unknown ctx work rhs rules =
      .ok (e, st')) :
    ∃ e1 st1, succeed st (augment ctx (.pos c (List.replicate (arity c) unknown))) work rhs rules =
        .ok (e1, st1) ∧
      (st.Ok base → (∀ r ∈ rules, r.2 ∈ base) → rhs ∈ base → ∀ (sc : Scope) v,
        sc.tests v path c = true → sc.walk v e = sc.walk v e1) := by
  rw [matchPat_conPat hc (by simp)] at h
  obtain ⟨e1, st1, hsucc, hwalk⟩ := matchCon_entered base h (staticmatch_empty c)
  refine ⟨e1, st1, ?_, hwalk⟩
  rw [argWork_argpatsFrom, getdargs_neg, length_replicate,
    succeed_all_wilds (by simp) (by simp)] at hsucc
  exact hsucc

/-- The same along a path. -/
theorem matchPat_spine_entered {c : Con} {τ : Ty} {ts : List Ty} {st : DagState} {rhs : Node}
    {rules : List Rule} (hc : sc.ConTy c τ ts) : ∀ {ss : List (Con × Nat)} {σ : Ty} {path : Path}
    {ctx : Context} {work : List Work} {e : Edge} {st' : DagState}, StepsTy sc σ ss τ →
    matchPat st (spinePat ss (conPat c (List.replicate (arity c) wild))) path unknown ctx work rhs
      rules = .ok (e, st') →
    ∃ r, succeed st (augment ctx (spineDesc ss (.pos c (List.replicate (arity c) unknown)))) work
      rhs rules = .ok r
  | [], _, _, _, _, _, _, hss, h => by
    cases hss
    obtain ⟨e1, st1, hsucc, -⟩ := matchPat_wilds_entered [] hc h
    exact ⟨_, hsucc⟩
  | (d, i) :: ss, σ, path, ctx, work, e, st', ⟨us, t, hd, ht, hss⟩, h => by
    have hi := lt_arity hd ht
    have hlen := spine_length hi (spinePat ss (conPat c (List.replicate (arity c) wild)))
    rw [spinePat, matchPat_conPat hd hlen] at h
    obtain ⟨e1, st1, hsucc, -⟩ := matchCon_entered [] h (staticmatch_empty d)
    rw [argWork_argpatsFrom, getdargs_neg, hlen, replicate_split hi unknown] at hsucc
    obtain ⟨path', paths2, hpaths, hmid⟩ := succeed_middle (by simp) (by simp)
      (by simp; omega) hsucc
    obtain ⟨r, hr⟩ := matchPat_spine_entered hc hss hmid
    rw [augment, succeed_all_wilds (by simp) hpaths] at hr
    refine ⟨r, ?_⟩
    rw [spineDesc, ← hr]
    simp

/-- A pattern over the path of a described exception constructor that takes another
number of arguments makes the compiler die. -/
theorem matchPat_spine_dies {c c' : Con} {τ σ : Ty} {ts ts' : List Ty} {st : DagState} {rhs : Node}
    {rules : List Rule} (hc : sc.ConTy c τ ts) (hexc : c.isExcon = true) (hc' : sc.ConTy c' σ ts')
    (hne : arity c ≠ arity c') :
    ∀ {ss ss' : List (Con × Nat)} {ρ : Ty} {path : Path} {ctx : Context} {work : List Work}
      {e : Edge} {st' : DagState}, Overlays ss ss' → StepsTy sc ρ ss' σ →
    matchPat st (spinePat ss' (conPat c' (List.replicate (arity c') wild))) path
      (spineDesc ss (.pos c (List.replicate (arity c) unknown))) ctx work rhs rules ≠ .ok (e, st')
  | [], [], _, path, ctx, work, _, _, _, hss, h => by
    cases hss
    have hs : staticmatch c' (.pos c (List.replicate (arity c) unknown)) ≠ .ok .no := by
      simp only [staticmatch, hexc]
      split <;> simp
    rw [spinePat, spineDesc, matchPat_conPat hc' (by simp)] at h
    obtain ⟨e1, st1, hsucc, -⟩ := matchCon_entered [] h hs
    rw [argWork_argpatsFrom, getdargs, succeed_mismatch (by simp) (by simpa using hne)] at hsucc
    cases hsucc
  | (d, i) :: ss, (d', j) :: ss', ρ, path, ctx, work, _, _, hover, ⟨us, t, hd', ht, hss⟩, h => by
    obtain ⟨⟨hij, hdd⟩, hrest⟩ := forall₂_cons.1 hover
    cases hij
    have hi := lt_arity hd' ht
    have hlen := spine_length hi (spinePat ss' (conPat c' (List.replicate (arity c') wild)))
    have hs : ∀ ds, staticmatch d' (.pos d ds) ≠ .ok .no := by
      intro ds
      rcases hdd.eq_or with heq | hex
      · simp [staticmatch, heq]
      · simp only [staticmatch, hex]
        split <;> simp
    rw [spinePat, spineDesc, matchPat_conPat hd' hlen] at h
    obtain ⟨e1, st1, hsucc, -⟩ := matchCon_entered [] h (hs _)
    rw [argWork_argpatsFrom, getdargs, hlen] at hsucc
    obtain ⟨path', paths2, -, hmid⟩ := succeed_middle (by simp) (by simp [hdd.arity_eq])
      (by simp; omega) hsucc
    exact matchPat_spine_dies hc hexc hc' hne hrest hss hmid

end Run

end MLKit.Lambda.Match
