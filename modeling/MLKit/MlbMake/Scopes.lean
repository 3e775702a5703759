import Mathlib.Data.List.Forall2
import MLKit.Lib.Except
import MLKit.MlbMake.Before

/-!
# Projects whose identifiers are in scope

`dep` binds identifiers where the traversal for the scheduler binds none: at `open`, at the
second import of an mlb-file, and at a basis that is the name of another one.  Of two declarations of an
identifier `dep` finds the first one.  If no identifier is declared twice, and every identifier that
is looked up is bound by a declaration in the text, then the files that a source file depends on come
before it.
-/

namespace MLKit.MlbMake

open MLKit.Lib List

/-! ## What the text binds -/

def LongBid.path (longbid : LongBid) : List Bid := longbid.bid :: longbid.rest

/-- The mlb-files read so far, and the identifiers declared in them. -/
structure Scanned where
  mlbfiles : List String
  declared : List Bid

mutual

def Bexp.scope (vis : List (List Bid)) (scanned : Scanned) :
    Bexp → Option (List (List Bid) × Scanned)
  | .bas bdec => bdec.scope vis scanned
  | .letIn bdec bexp => do
    let (binds, scanned) ← bdec.scope vis scanned
    bexp.scope (vis ++ binds) scanned
  -- a basis that is the name of another one has no identifiers inside
  | .longbid longbid => if longbid.path ∈ vis then some ([], scanned) else none

/-- The paths that a declaration binds among those that are visible before it, if each path that is
looked up is visible and no identifier is declared twice. -/
def Bdec.scope (vis : List (List Bid)) (scanned : Scanned) :
    Bdec → Option (List (List Bid) × Scanned)
  | .seq bdec₁ bdec₂ => do
    let (binds₁, scanned) ← bdec₁.scope vis scanned
    let (binds₂, scanned) ← bdec₂.scope (vis ++ binds₁) scanned
    return (binds₁ ++ binds₂, scanned)
  | .empty => some ([], scanned)
  | .loc bdec₁ bdec₂ => do
    let (binds, scanned) ← bdec₁.scope vis scanned
    bdec₂.scope (vis ++ binds) scanned
  | .basis bid bexp => do
    let (binds, scanned) ← bexp.scope vis scanned
    if bid ∈ scanned.declared then none
    else some ([bid] :: binds.map (bid :: ·), { scanned with declared := bid :: scanned.declared })
  -- the identifiers of an opened basis are visible by their paths only
  | .opn longbids => if ∀ l ∈ longbids, l.path ∈ vis then some ([], scanned) else none
  | .atbdec _ => some ([], scanned)
  | .mlbfile mlbfile parsed =>
    -- a second import binds nothing
    if mlbfile ∈ scanned.mlbfiles then some ([], scanned)
    else do
      let (binds, scanned) ← parsed.scope [] scanned
      return (binds, { scanned with mlbfiles := mlbfile :: scanned.mlbfiles })
  | .scripts _ => some ([], scanned)
  | .ann _ bdec => bdec.scope vis scanned

end

/-- No basis identifier is declared twice, and each one that is looked up is visible in the text. -/
def Project.Scoped (p : Project) : Prop :=
  (Bdec.scope [] ⟨[], []⟩ (.mlbfile p.mlbfile p.parsed)).isSome = true

instance (p : Project) : Decidable p.Scoped := inferInstanceAs (Decidable (_ = true))

/-! ## What an identifier stands for -/

/-- The identifiers that are bound in one part of the text. -/
abbrev Level := List (Deps (List String))

/-- What the traversal for the scheduler binds identifiers to, when no one is declared twice. -/
abbrev Bases := Bid → Option (List String × Level)

def Bases.Le (G G' : Bases) : Prop := ∀ b x, G b = some x → G' b = some x

inductive KnownDeps (G : Bases) : Level → Prop
  | mk {ds : Level} :
      (∀ b t m, .dep b t m ∈ ds → G b = some (t, m)) →
      (∀ b t m, .dep b t m ∈ ds → KnownDeps G m) → KnownDeps G ds

/-- The files of an identifier in an environment of `dep` are among those it stands for. -/
inductive KnownEnv (G : Bases) : DepEnv → Prop
  | mk {d : DepEnv} :
      (∀ b d', (b, d') ∈ d.getM → ∃ t m, G b = some (t, m) ∧ d'.getL ⊆ t) →
      (∀ b d', (b, d') ∈ d.getM → KnownEnv G d') → KnownEnv G d

section Known

variable {G G' : Bases} {m m₁ m₂ : Level} {d d₁ d₂ : DepEnv}

theorem KnownDeps.mono (hle : G.Le G') (h : KnownDeps G m) : KnownDeps G' m := by
  induction h with
  | mk hself _ ih => exact ⟨fun b t m hmem => hle _ _ (hself b t m hmem), ih⟩

theorem KnownDeps.append (h₁ : KnownDeps G m₁) (h₂ : KnownDeps G m₂) : KnownDeps G (m₁ ++ m₂) := by
  cases h₁ with
  | mk hself₁ hinner₁ =>
    cases h₂ with
    | mk hself₂ hinner₂ =>
      exact ⟨fun b t m hmem => (mem_append.1 hmem).elim (hself₁ b t m) (hself₂ b t m),
        fun b t m hmem => (mem_append.1 hmem).elim (hinner₁ b t m) (hinner₂ b t m)⟩

theorem KnownDeps.single {b : Bid} {t : List String} (hb : G b = some (t, m))
    (hm : KnownDeps G m) : KnownDeps G [.dep b t m] := by
  refine ⟨fun b' t' m' hmem => ?_, fun b' t' m' hmem => ?_⟩
  all_goals
    cases mem_singleton.1 hmem
    assumption

theorem KnownEnv.mono (hle : G.Le G') (h : KnownEnv G d) : KnownEnv G' d := by
  induction h with
  | mk hself _ ih =>
    refine ⟨fun b d' hmem => ?_, ih⟩
    obtain ⟨t, m, hb, hsub⟩ := hself b d' hmem
    exact ⟨t, m, hle _ _ hb, hsub⟩

theorem KnownEnv.plus (h₁ : KnownEnv G d₁) (h₂ : KnownEnv G d₂) : KnownEnv G (d₁.plus d₂) := by
  cases h₁ with
  | mk hself₁ hinner₁ =>
    cases h₂ with
    | mk hself₂ hinner₂ =>
      exact ⟨fun b d' hmem => (mem_append.1 hmem).elim (hself₁ b d') (hself₂ b d'),
        fun b d' hmem => (mem_append.1 hmem).elim (hinner₁ b d') (hinner₂ b d')⟩

theorem KnownEnv.of_getM_nil (h : d.getM = []) : KnownEnv G d := by
  refine ⟨fun b d' hmem => ?_, fun b d' hmem => ?_⟩
  all_goals
    rw [h] at hmem
    cases hmem

theorem look_mem {M : List (Bid × DepEnv)} {y : Bid} (h : DepEnv.look M y = some d) :
    (y, d) ∈ M := by
  induction M with
  | nil => cases h
  | cons entry M ih =>
    obtain ⟨x, d'⟩ := entry
    rw [DepEnv.look] at h
    split at h
    · next heq =>
        cases h
        rw [heq]
        exact .head _
    · exact .tail _ (ih h)

/-- What `dep` finds has files of the last identifier of the path only. -/
theorem KnownEnv.lookD (hd : KnownEnv G d) {y : Bid} {ys : List Bid} {d' : DepEnv}
    (h : d.lookD y ys = some d') :
    KnownEnv G d' ∧ ∃ t m, G (ys.getLastD y) = some (t, m) ∧ d'.getL ⊆ t := by
  induction ys generalizing y d with
  | nil =>
    cases hd with
    | mk hself hinner => exact ⟨hinner y d' (look_mem h), hself y d' (look_mem h)⟩
  | cons z ys ih =>
    obtain ⟨d₁, hlook, hrest⟩ := Option.bind_eq_some_iff.1 h
    cases hd with
    | mk _ hinner =>
      rw [getLastD_cons]
      exact ih (hinner y d₁ (look_mem hlook)) hrest

theorem findEntry_mem {b : Bid} {t : List String} (h : findEntry b m = some (t, m₁)) :
    .dep b t m₁ ∈ m := by
  induction m with
  | nil => cases h
  | cons d m ih =>
    obtain ⟨b', t', m'⟩ := d
    rw [findEntry] at h
    split at h
    · next heq =>
        cases h
        rw [heq]
        exact .head _
    · exact .tail _ (ih h)

theorem exists_findEntry {b : Bid} {t : List String} (h : .dep b t m₁ ∈ m) :
    ∃ entry, findEntry b m = some entry := by
  induction m with
  | nil => cases h
  | cons d m ih =>
    obtain ⟨b', t', m'⟩ := d
    rw [findEntry]
    split
    · exact ⟨_, rfl⟩
    · next hne =>
        rcases mem_cons.1 h with heq | h
        · cases heq
          exact absurd rfl hne
        · exact ih h

theorem KnownDeps.findInMap (hm : KnownDeps G m) {y : Bid} {ys : List Bid} {t : List String}
    (h : findInMap y ys m = some t) : ∃ inner, G (ys.getLastD y) = some (t, inner) := by
  induction ys generalizing y m with
  | nil =>
    obtain ⟨⟨t, inner⟩, hentry, rfl⟩ := Option.map_eq_some_iff.1 h
    cases hm with
    | mk hself _ => exact ⟨inner, hself _ _ _ (findEntry_mem hentry)⟩
  | cons z ys ih =>
    obtain ⟨⟨t, inner⟩, hentry, hrest⟩ := Option.bind_eq_some_iff.1 h
    cases hm with
    | mk _ hinner =>
      rw [getLastD_cons]
      exact ih (hinner _ _ _ (findEntry_mem hentry)) hrest

/-- The path is bound in a level. -/
def Found : List Bid → Level → Prop
  | [], _ => True
  | y :: ys, m => ∃ t inner, .dep y t inner ∈ m ∧ Found ys inner

theorem Found.mono {path : List Bid} (h : Found path m₁) (hsub : m₁ ⊆ m₂) : Found path m₂ := by
  cases path with
  | nil => trivial
  | cons y ys =>
    obtain ⟨t, inner, hmem, hrest⟩ := h
    exact ⟨t, inner, hsub hmem, hrest⟩

theorem Found.exists_findInMap (hm : KnownDeps G m) {y : Bid} {ys : List Bid}
    (h : Found (y :: ys) m) : ∃ t, MlbMake.findInMap y ys m = some t := by
  induction ys generalizing y m with
  | nil =>
    obtain ⟨t, inner, hmem, -⟩ := h
    obtain ⟨entry, hentry⟩ := exists_findEntry hmem
    exact ⟨entry.1, by rw [MlbMake.findInMap, hentry]; rfl⟩
  | cons z ys ih =>
    obtain ⟨t, inner, hmem, hrest⟩ := h
    obtain ⟨⟨t', inner'⟩, hentry⟩ := exists_findEntry hmem
    cases hm with
    | mk hself hinner =>
      -- the entry that is found is the one that was bound, since there is no other
      have heq := (hself _ _ _ hmem).symm.trans (hself _ _ _ (findEntry_mem hentry))
      cases heq
      obtain ⟨t', hfind⟩ := ih (hinner _ _ _ hmem) hrest
      exact ⟨t', by rw [MlbMake.findInMap, hentry]; exact hfind⟩

/-- A path that is bound in some level is found. -/
theorem findInMaps_of_found {longbid : LongBid} {ms : List Level}
    (hms : ∀ m ∈ ms, KnownDeps G m) (hfound : ∃ m ∈ ms, Found longbid.path m) :
    ∃ t inner, findInMaps longbid ms = some t ∧
      G (longbid.rest.getLastD longbid.bid) = some (t, inner) := by
  induction ms with
  | nil =>
    obtain ⟨m, hm, -⟩ := hfound
    cases hm
  | cons m ms ih =>
    obtain ⟨hm, hms⟩ := forall_mem_cons.1 hms
    rw [findInMaps]
    cases hfind : findInMap longbid.bid longbid.rest m with
    | some t =>
      obtain ⟨inner, hG⟩ := hm.findInMap hfind
      exact ⟨t, inner, rfl, hG⟩
    | none =>
      obtain ⟨m', hmem, hpath⟩ := hfound
      rcases mem_cons.1 hmem with rfl | hmem
      · obtain ⟨t, hsome⟩ := hpath.exists_findInMap hm
        rw [hsome] at hfind
        cases hfind
      · exact ih hms ⟨m', hmem, hpath⟩

end Known

/-! ## Levels -/

/-- The levels of an environment. There is always one, also before anything is bound. -/
def levels : List Level → List Level
  | [] => [[]]
  | m :: ms => m :: ms

theorem levels_addLevel (s : BeforeState) : levels s.addLevel.bidMap = [] :: levels s.bidMap := by
  rw [BeforeState.addLevel]
  cases s.bidMap <;> rfl

theorem eq_of_levels {m₁ m₂ : Level} {ms ms' : List Level}
    (h : levels ms = m₁ :: m₂ :: ms') : ms = m₁ :: m₂ :: ms' := by
  cases ms with
  | nil => cases h
  | cons m ms => exact h

theorem findInMaps_levels (longbid : LongBid) (ms : List Level) :
    findInMaps longbid (levels ms) = findInMaps longbid ms := by
  cases ms with
  | nil => cases h : longbid.rest <;> simp [levels, findInMaps, h, findInMap, findEntry]
  | cons m ms => rfl

/-! ## The two traversals side by side -/

/-- The files that a source file depends on come before it. -/
def Listed (lists before : List (String × List String)) : Prop :=
  ∀ f L, (f, L) ∈ lists → ∃ S, (f, S) ∈ before ∧ L ⊆ S

theorem Listed.cons {lists before : List (String × List String)} (h : Listed lists before)
    {f : String} {L S : List String} (hsub : L ⊆ S) : Listed ((f, L) :: lists) ((f, S) :: before) := by
  intro f' L' hmem
  rcases mem_cons.1 hmem with heq | hmem
  · cases heq
    exact ⟨S, .head _, hsub⟩
  · obtain ⟨S', hmem', hsub'⟩ := h f' L' hmem
    exact ⟨S', .tail _ hmem', hsub'⟩

/-- The states of the traversals. -/
structure Agrees (G : Bases) (A : DepState) (s : BeforeState) (mlbs : List (String × List String))
    (scanned : Scanned) : Prop where
  maps : ∀ m ∈ levels s.bidMap, KnownDeps G m
  fresh : ∀ b ∉ scanned.declared, G b = none
  imported : Forall₂ (fun x y => x.1 = y.1 ∧ KnownEnv G x.2 ∧ x.2.getL ⊆ y.2) A.mlbfiles mlbs
  read : scanned.mlbfiles = mlbs.map Prod.fst
  written : Listed A.written s.out

/-- What the traversals know of the text before. -/
structure InScope (G : Bases) (d : DepEnv) (s : BeforeState) (before : List String)
    (vis : List (List Bid)) : Prop where
  known : KnownEnv G d
  files : d.getL ⊆ before
  vis : ∀ path ∈ vis, ∃ m ∈ levels s.bidMap, Found path m

/-- What the traversals return: the innermost level has grown by what the text binds. -/
structure Returned (G : Bases) (m : Level) (ms : List Level)
    (dep : DepEnv × DepState) (r : BeforeResult) (scope : List (List Bid) × Scanned) : Prop where
  agrees : Agrees G dep.2 r.state r.mlbs scope.2
  known : KnownEnv G dep.1
  files : dep.1.getL ⊆ r.before
  levels : ∃ new, levels r.state.bidMap = (new ++ m) :: ms ∧ ∀ path ∈ scope.1, Found path new

section Traversals

variable {G G' : Bases} {d : DepEnv} {A : DepState} {s : BeforeState}
  {mlbs : List (String × List String)} {before : List String} {vis : List (List Bid)}
  {scanned : Scanned} {m : Level} {ms : List Level}
  {dep : DepEnv × DepState} {r : BeforeResult} {scope : List (List Bid) × Scanned}

theorem Bases.Le.refl (G : Bases) : G.Le G := fun _ _ h => h

theorem Bases.Le.trans {G₁ G₂ G₃ : Bases} (h₁ : G₁.Le G₂) (h₂ : G₂.Le G₃) : G₁.Le G₃ :=
  fun b x h => h₂ b x (h₁ b x h)

theorem Agrees.addLevel (h : Agrees G A s mlbs scanned) : Agrees G A s.addLevel mlbs scanned where
  maps := by
    rw [levels_addLevel]
    exact forall_mem_cons.2 ⟨⟨nofun, nofun⟩, h.maps⟩
  fresh := h.fresh
  imported := h.imported
  read := h.read
  written := h.written

theorem InScope.addLevel (h : InScope G d s before vis) : InScope G d s.addLevel before vis where
  known := h.known
  files := h.files
  vis path hpath := by
    obtain ⟨m, hm, hfound⟩ := h.vis path hpath
    rw [levels_addLevel]
    exact ⟨m, .tail _ hm, hfound⟩

/-- After a declaration its identifiers are visible too. -/
theorem Returned.inScope (h : Returned G' m ms dep r scope) (hin : InScope G d s before vis)
    (hle : G.Le G') (hlevels : MlbMake.levels s.bidMap = m :: ms) (hsub : before ⊆ r.before) :
    InScope G' (d.plus dep.1) r.state r.before (vis ++ scope.1) where
  known := (hin.known.mono hle).plus h.known
  files := append_subset.2 ⟨List.Subset.trans hin.files hsub, h.files⟩
  vis path hpath := by
    obtain ⟨new, hnew, hfound⟩ := h.levels
    rw [hnew]
    rcases mem_append.1 hpath with hpath | hpath
    · obtain ⟨m', hm', hfound'⟩ := hin.vis path hpath
      rw [hlevels] at hm'
      rcases mem_cons.1 hm' with rfl | hm'
      · exact ⟨_, .head _, hfound'.mono (subset_append_right _ _)⟩
      · exact ⟨m', .tail _ hm', hfound'⟩
    · exact ⟨_, .head _, (hfound path hpath).mono (subset_append_left _ _)⟩

/-- A declaration that binds no identifiers. -/
theorem Agrees.returned (h : Agrees G dep.2 r.state r.mlbs scanned) (hknown : KnownEnv G dep.1)
    (hfiles : dep.1.getL ⊆ r.before) (hlevels : MlbMake.levels r.state.bidMap = m :: ms) :
    Returned G m ms dep r ([], scanned) :=
  ⟨h, hknown, hfiles, [], hlevels, nofun⟩

theorem lookup_follows (h : Agrees G A s mlbs scanned) (hin : InScope G d s before vis)
    {longbid : LongBid} (hpath : longbid.path ∈ vis) {d' : DepEnv}
    (hlook : lookupOrError d longbid = .ok d') :
    KnownEnv G d' ∧ d'.getL ⊆ (findInMaps longbid s.bidMap).getD [] := by
  rw [lookupOrError] at hlook
  split at hlook
  · next d₁ hlook₁ =>
      cases hlook
      obtain ⟨hknown, t, inner, hG, hsub⟩ := hin.known.lookD hlook₁
      obtain ⟨t', inner', hfind, hG'⟩ := findInMaps_of_found h.maps (hin.vis _ hpath)
      rw [findInMaps_levels] at hfind
      cases hG.symm.trans hG'
      rw [hfind]
      exact ⟨hknown, hsub⟩
  · cases hlook

theorem subset_opens (longbids : List LongBid) (ms : List Level)
    (files : List String) :
    files ⊆ longbids.foldl (fun acc l => (findInMaps l ms).getD [] ++ acc) files := by
  induction longbids generalizing files with
  | nil => exact List.Subset.refl _
  | cons l longbids ih => exact List.Subset.trans (subset_append_right _ _) (ih _)

/-- What comes before a declaration comes before what follows it. -/
theorem subset_beforeBdec : ∀ (bdec : Bdec) (s : BeforeState) (mlbs : List (String × List String))
    (before : List String), before ⊆ (beforeBdec s mlbs before bdec).before
  | .seq bdec₁ bdec₂, _, _, _ | .loc bdec₁ bdec₂, _, _, _ =>
    List.Subset.trans (subset_beforeBdec bdec₁ _ _ _) (subset_beforeBdec bdec₂ _ _ _)
  | .empty, _, _, before | .basis _ _, _, _, before | .scripts _, _, _, before =>
    List.Subset.refl before
  | .opn longbids, s, _, before => subset_opens longbids s.bidMap before
  | .atbdec smlfile, _, _, before => subset_cons_self smlfile before
  | .mlbfile mlbfile parsed, s, mlbs, before => by
    rw [beforeBdec]
    split <;> exact subset_append_left _ _
  | .ann _ bdec, _, _, _ => subset_beforeBdec bdec _ _ _

theorem opens_follow (h : Agrees G A s mlbs scanned) (hin : InScope G d s before vis)
    {longbids : List LongBid} (hpaths : ∀ l ∈ longbids, l.path ∈ vis) {acc d' : DepEnv}
    {files : List String} (hacc : KnownEnv G acc) (hsub : acc.getL ⊆ files)
    (hopen : longbids.foldlM (fun acc longbid => do return acc.plus (← lookupOrError d longbid))
      acc = .ok d') :
    KnownEnv G d' ∧
      d'.getL ⊆ longbids.foldl (fun acc l => (findInMaps l s.bidMap).getD [] ++ acc) files := by
  induction longbids generalizing acc files with
  | nil =>
    cases hopen
    exact ⟨hacc, hsub⟩
  | cons l longbids ih =>
    obtain ⟨hl, hpaths⟩ := forall_mem_cons.1 hpaths
    rw [foldlM_cons] at hopen
    obtain ⟨acc', hacc', hopen⟩ := bind_ok hopen
    obtain ⟨d₁, hlook, hacc'⟩ := bind_ok hacc'
    cases hacc'
    obtain ⟨hknown, hfiles⟩ := lookup_follows h hin hl hlook
    have hsub' : (acc.plus d₁).getL ⊆ (findInMaps l s.bidMap).getD [] ++ files :=
      append_subset.2 ⟨List.Subset.trans hsub (subset_append_right _ _),
        List.Subset.trans hfiles (subset_append_left _ _)⟩
    exact ih hpaths (hacc.plus hknown) hsub' hopen

theorem scripts_follow {out : List (String × List String)} (hsub : d.getL ⊆ before)
    (smlfiles : List String) (h : Listed A.written out) :
    Listed (smlfiles.foldl (fun A f => maybeWriteDep A f d) A).written
      (smlfiles.foldl (fun out f => (f, before) :: out) out) ∧
    (smlfiles.foldl (fun A f => maybeWriteDep A f d) A).mlbfiles = A.mlbfiles := by
  induction smlfiles generalizing A out with
  | nil => exact ⟨h, rfl⟩
  | cons f smlfiles ih => exact ih (A := maybeWriteDep A f d) (h.cons hsub)

theorem find_follows {α β : Type} {R : String × α → String × β → Prop} {xs : List (String × α)}
    {ys : List (String × β)} (hR : ∀ x y, R x y → x.1 = y.1) (h : Forall₂ R xs ys) (k : String) :
    Option.Rel R (xs.find? fun x => x.1 = k) (ys.find? fun y => y.1 = k) := by
  induction h with
  | nil => exact .none
  | @cons x y xs ys hxy _ ih =>
    rw [find?_cons, find?_cons, hR x y hxy]
    split
    · exact .some hxy
    · exact ih

/-- A declared identifier. -/
theorem Agrees.declare {bid : Bid} {new : Level}
    (h : Agrees G A r.state r.mlbs scanned) (hbid : bid ∉ scanned.declared)
    (hnew : levels r.state.bidMap = new :: m :: ms) :
    let G' := Function.update G bid (some (r.before, new))
    G.Le G' ∧ Agrees G' A
      { r.state with bidMap := wrapLevel r.state.bidMap bid r.before } r.mlbs
      { scanned with declared := bid :: scanned.declared } ∧
      levels (wrapLevel r.state.bidMap bid r.before) = (.dep bid r.before new :: m) :: ms := by
  intro G'
  have hle : G.Le G' := fun b x hb => by
    have hne : b ≠ bid := by
      rintro rfl
      rw [h.fresh b hbid] at hb
      cases hb
    rw [← hb]
    exact Function.update_of_ne hne _ _
  have hwrap : wrapLevel r.state.bidMap bid r.before = (.dep bid r.before new :: m) :: ms := by
    rw [eq_of_levels hnew]
    rfl
  have hmaps := h.maps
  rw [hnew] at hmaps
  obtain ⟨hknown, hmaps⟩ := forall_mem_cons.1 hmaps
  obtain ⟨hm, hms⟩ := forall_mem_cons.1 hmaps
  refine ⟨hle, ⟨?_, fun b hb => ?_, ?_, h.read, h.written⟩, by rw [hwrap]; rfl⟩
  · rw [hwrap]
    refine forall_mem_cons.2 ⟨?_, fun m' hm' => (hms m' hm').mono hle⟩
    exact (KnownDeps.single (Function.update_self ..) (hknown.mono hle)).append (hm.mono hle)
  · obtain ⟨hne, hb⟩ := not_or.1 (mt mem_cons.2 hb)
    exact (Function.update_of_ne hne _ _).trans (h.fresh b hb)
  · exact h.imported.imp fun x y hxy => ⟨hxy.1, hxy.2.1.mono hle, hxy.2.2⟩

/-- The level of a local declaration is dropped. -/
theorem Agrees.killLocal {new hidden : Level}
    (h : Agrees G A r.state mlbs scanned) (hnew : levels r.state.bidMap = new :: hidden :: m :: ms) :
    Agrees G A { r.state with bidMap := MlbMake.killLocal r.state.bidMap } mlbs scanned ∧
      levels (MlbMake.killLocal r.state.bidMap) = (new ++ m) :: ms := by
  have hkill : MlbMake.killLocal r.state.bidMap = (new ++ m) :: ms := by
    rw [eq_of_levels hnew]
    rfl
  have hmaps := h.maps
  rw [hnew] at hmaps
  simp only [forall_mem_cons] at hmaps
  refine ⟨⟨?_, h.fresh, h.imported, h.read, h.written⟩, by rw [hkill]; rfl⟩
  rw [hkill]
  exact forall_mem_cons.2 ⟨hmaps.1.append hmaps.2.2.1, hmaps.2.2.2⟩

/-- The two traversals of a basis expression, from states that agree. -/
def FollowsBexp (bexp : Bexp) : Prop :=
  ∀ ⦃G A s mlbs scanned d before vis m ms dep scope⦄, Agrees G A s mlbs scanned →
    InScope G d s before vis → levels s.bidMap = m :: ms → depBexp d A bexp = .ok dep →
    bexp.scope vis scanned = some scope →
    ∃ G', G.Le G' ∧ Returned G' m ms dep (beforeBexp s mlbs before bexp) scope

def FollowsBdec (bdec : Bdec) : Prop :=
  ∀ ⦃G A s mlbs scanned d before vis m ms dep scope⦄, Agrees G A s mlbs scanned →
    InScope G d s before vis → levels s.bidMap = m :: ms → depBdec d A bdec = .ok dep →
    bdec.scope vis scanned = some scope →
    ∃ G', G.Le G' ∧ Returned G' m ms dep (beforeBdec s mlbs before bdec) scope

section Cases

variable {bdec bdec₁ bdec₂ : Bdec} {bexp : Bexp}

theorem FollowsBexp.letIn (ih : FollowsBdec bdec) (ih' : FollowsBexp bexp) :
    FollowsBexp (.letIn bdec bexp) := by
  intro G A s mlbs scanned d before vis m ms dep scope h hin hlevels hdep hscope
  obtain ⟨⟨d₁, A₁⟩, hdep₁, hdep⟩ := bind_ok hdep
  obtain ⟨⟨binds₁, scanned₁⟩, hscope₁, hscope⟩ := Option.bind_eq_some_iff.1 hscope
  obtain ⟨G₁, hle₁, hret₁⟩ := ih h hin hlevels hdep₁ hscope₁
  obtain ⟨new₁, hnew₁, -⟩ := hret₁.levels
  obtain ⟨G₂, hle₂, hret₂⟩ := ih' hret₁.agrees
    (hret₁.inScope hin hle₁ hlevels (subset_beforeBdec ..)) hnew₁ hdep hscope
  obtain ⟨new₂, hnew₂, hfound₂⟩ := hret₂.levels
  refine ⟨G₂, hle₁.trans hle₂, hret₂.agrees, hret₂.known, hret₂.files, new₂ ++ new₁, ?_,
    fun path hpath => (hfound₂ path hpath).mono (subset_append_left _ _)⟩
  rw [append_assoc]
  exact hnew₂

theorem FollowsBexp.longbid (longbid : LongBid) : FollowsBexp (.longbid longbid) := by
  intro G A s mlbs scanned d before vis m ms dep scope h hin hlevels hdep hscope
  obtain ⟨d₁, hlook, hdep⟩ := bind_ok hdep
  cases hdep
  rw [Bexp.scope] at hscope
  split at hscope
  · next hpath =>
      cases hscope
      obtain ⟨hknown, hfiles⟩ := lookup_follows h hin hpath hlook
      exact ⟨G, .refl G, Agrees.returned h hknown hfiles hlevels⟩
  · cases hscope

theorem FollowsBdec.seq (ih₁ : FollowsBdec bdec₁) (ih₂ : FollowsBdec bdec₂) :
    FollowsBdec (.seq bdec₁ bdec₂) := by
  intro G A s mlbs scanned d before vis m ms dep scope h hin hlevels hdep hscope
  obtain ⟨⟨d₁, A₁⟩, hdep₁, hdep⟩ := bind_ok hdep
  obtain ⟨⟨d₂, A₂⟩, hdep₂, hdep⟩ := bind_ok hdep
  cases hdep
  obtain ⟨⟨binds₁, scanned₁⟩, hscope₁, hscope⟩ := Option.bind_eq_some_iff.1 hscope
  obtain ⟨⟨binds₂, scanned₂⟩, hscope₂, hscope⟩ := Option.bind_eq_some_iff.1 hscope
  cases hscope
  obtain ⟨G₁, hle₁, hret₁⟩ := ih₁ h hin hlevels hdep₁ hscope₁
  obtain ⟨new₁, hnew₁, hfound₁⟩ := hret₁.levels
  obtain ⟨G₂, hle₂, hret₂⟩ := ih₂ hret₁.agrees
    (hret₁.inScope hin hle₁ hlevels (subset_beforeBdec ..)) hnew₁ hdep₂ hscope₂
  obtain ⟨new₂, hnew₂, hfound₂⟩ := hret₂.levels
  refine ⟨G₂, hle₁.trans hle₂, hret₂.agrees, (hret₁.known.mono hle₂).plus hret₂.known,
    append_subset.2 ⟨List.Subset.trans hret₁.files (subset_beforeBdec bdec₂ ..), hret₂.files⟩,
    new₂ ++ new₁, ?_, fun path hpath => ?_⟩
  · rw [append_assoc]
    exact hnew₂
  · rcases mem_append.1 hpath with hpath | hpath
    · exact (hfound₁ path hpath).mono (subset_append_right _ _)
    · exact (hfound₂ path hpath).mono (subset_append_left _ _)

theorem FollowsBdec.empty : FollowsBdec .empty := by
  intro G A s mlbs scanned d before vis m ms dep scope h hin hlevels hdep hscope
  cases hdep
  cases hscope
  exact ⟨G, .refl G, Agrees.returned h (.of_getM_nil rfl) (nil_subset _) hlevels⟩

/-- The first part is dropped again, and the levels of both become one. -/
theorem FollowsBdec.loc (ih₁ : FollowsBdec bdec₁) (ih₂ : FollowsBdec bdec₂) :
    FollowsBdec (.loc bdec₁ bdec₂) := by
  intro G A s mlbs scanned d before vis m ms dep scope h hin hlevels hdep hscope
  obtain ⟨⟨d₁, A₁⟩, hdep₁, hdep₂⟩ := bind_ok hdep
  obtain ⟨⟨binds₁, scanned₁⟩, hscope₁, hscope₂⟩ := Option.bind_eq_some_iff.1 hscope
  have hlevels₀ : levels s.addLevel.bidMap = [] :: m :: ms := by rw [levels_addLevel, hlevels]
  obtain ⟨G₁, hle₁, hret₁⟩ := ih₁ h.addLevel hin.addLevel hlevels₀ hdep₁ hscope₁
  obtain ⟨new₁, hnew₁, -⟩ := hret₁.levels
  have hin₁ := hret₁.inScope hin.addLevel hle₁ hlevels₀ (subset_beforeBdec ..)
  rw [beforeBdec]
  generalize beforeBdec s.addLevel mlbs before bdec₁ = r₁ at *
  have hlevels₁ : levels r₁.state.addLevel.bidMap = [] :: (new₁ ++ []) :: m :: ms := by
    rw [levels_addLevel, hnew₁]
  obtain ⟨G₂, hle₂, hret₂⟩ := ih₂ hret₁.agrees.addLevel hin₁.addLevel hlevels₁ hdep₂ hscope₂
  generalize beforeBdec r₁.state.addLevel r₁.mlbs r₁.before bdec₂ = r₂ at *
  obtain ⟨new₂, hnew₂, hfound₂⟩ := hret₂.levels
  rw [append_nil] at hnew₂
  obtain ⟨hagrees, hkill⟩ := hret₂.agrees.killLocal hnew₂
  exact ⟨G₂, hle₁.trans hle₂, hagrees, hret₂.known, hret₂.files, new₂, hkill, hfound₂⟩

theorem FollowsBdec.basis (bid : Bid) (ih : FollowsBexp bexp) : FollowsBdec (.basis bid bexp) := by
  intro G A s mlbs scanned d before vis m ms dep scope h hin hlevels hdep hscope
  obtain ⟨⟨d₁, A₁⟩, hdep₁, hdep⟩ := bind_ok hdep
  cases hdep
  obtain ⟨⟨binds₁, scanned₁⟩, hscope₁, hscope⟩ := Option.bind_eq_some_iff.1 hscope
  have hlevels₀ : levels s.addLevel.bidMap = [] :: m :: ms := by rw [levels_addLevel, hlevels]
  obtain ⟨G₁, hle₁, hret₁⟩ := ih h.addLevel hin.addLevel hlevels₀ hdep₁ hscope₁
  obtain ⟨new, hnew, hfound⟩ := hret₁.levels
  rw [append_nil] at hnew
  dsimp only at hscope
  split at hscope
  · cases hscope
  · next hbid =>
      cases hscope
      obtain ⟨hle, hagrees, hwrap⟩ := hret₁.agrees.declare hbid hnew
      refine ⟨_, hle₁.trans hle, hagrees, ⟨fun b d' hmem => ?_, fun b d' hmem => ?_⟩,
        nil_subset _, [.dep bid _ new], hwrap, fun path hpath => ?_⟩
      · cases mem_singleton.1 hmem
        exact ⟨_, new, Function.update_self .., hret₁.files⟩
      · cases mem_singleton.1 hmem
        exact hret₁.known.mono hle
      · rcases mem_cons.1 hpath with rfl | hpath
        · exact ⟨_, new, .head _, trivial⟩
        · obtain ⟨path', hpath', rfl⟩ := mem_map.1 hpath
          exact ⟨_, new, .head _, hfound path' hpath'⟩

theorem FollowsBdec.opn (longbids : List LongBid) : FollowsBdec (.opn longbids) := by
  intro G A s mlbs scanned d before vis m ms dep scope h hin hlevels hdep hscope
  obtain ⟨d', hopen, hdep⟩ := bind_ok hdep
  cases hdep
  rw [Bdec.scope] at hscope
  split at hscope
  · next hpaths =>
      cases hscope
      obtain ⟨hknown, hfiles⟩ := opens_follow h hin hpaths
        (.of_getM_nil rfl) (nil_subset before) hopen
      exact ⟨G, .refl G, Agrees.returned h hknown hfiles hlevels⟩
  · cases hscope

theorem FollowsBdec.atbdec (smlfile : String) : FollowsBdec (.atbdec smlfile) := by
  intro G A s mlbs scanned d before vis m ms dep scope h hin hlevels hdep hscope
  cases hdep
  cases hscope
  have hagrees : Agrees G (maybeWriteDep A smlfile d)
      { s with out := (smlfile, before) :: s.out } mlbs scanned :=
    ⟨h.maps, h.fresh, h.imported, h.read, h.written.cons hin.files⟩
  refine ⟨G, .refl G, Agrees.returned hagrees (.of_getM_nil rfl) ?_ hlevels⟩
  exact cons_subset.2 ⟨.head _, nil_subset _⟩

/-- Both traversals have read the mlb-file before, or none has. -/
theorem FollowsBdec.mlbfile (mlbfile : String) (ih : FollowsBdec bdec) :
    FollowsBdec (.mlbfile mlbfile bdec) := by
  intro G A s mlbs scanned d before vis m ms dep scope h hin hlevels hdep hscope
  have hrel := find_follows (fun x y hxy => hxy.1) h.imported mlbfile
  rw [depBdec, lookupA] at hdep
  rw [Bdec.scope, h.read] at hscope
  rw [beforeBdec]
  generalize A.mlbfiles.find? (fun entry => entry.1 = mlbfile) = x at hrel hdep
  generalize hfind : mlbs.find? (fun entry => entry.1 = mlbfile) = y at hrel
  cases hrel with
  | @some x y hxy =>
    cases hdep
    have hmem : mlbfile ∈ mlbs.map Prod.fst := by
      have hname : y.1 = mlbfile := by simpa using find?_some hfind
      rw [← hname]
      exact mem_map_of_mem (mem_of_find?_eq_some hfind)
    rw [if_pos hmem] at hscope
    cases hscope
    exact ⟨G, .refl G, Agrees.returned h hxy.2.1
      (List.Subset.trans hxy.2.2 (subset_append_right _ _)) hlevels⟩
  | none =>
    obtain ⟨⟨d₁, A₁⟩, hdep₁, hdep⟩ := bind_ok hdep
    cases hdep
    have hnot : mlbfile ∉ mlbs.map Prod.fst := by
      intro hmem
      obtain ⟨y, hy, rfl⟩ := mem_map.1 hmem
      have hne := find?_eq_none.1 hfind y hy
      simp at hne
    rw [if_neg hnot] at hscope
    obtain ⟨⟨binds₁, scanned₁⟩, hscope₁, hscope⟩ := Option.bind_eq_some_iff.1 hscope
    cases hscope
    have hstart : InScope G DepEnv.empty s [] [] := ⟨.of_getM_nil rfl, nil_subset _, nofun⟩
    obtain ⟨G₁, hle₁, hret₁⟩ := ih h hstart hlevels hdep₁ hscope₁
    have hagrees := hret₁.agrees
    refine ⟨G₁, hle₁, ⟨hagrees.maps, hagrees.fresh, .cons ⟨rfl, hret₁.known, hret₁.files⟩
      hagrees.imported, ?_, hagrees.written⟩, hret₁.known,
      List.Subset.trans hret₁.files (subset_append_right _ _), hret₁.levels⟩
    rw [map_cons, ← hagrees.read]

theorem FollowsBdec.scripts (smlfiles : List String) : FollowsBdec (.scripts smlfiles) := by
  intro G A s mlbs scanned d before vis m ms dep scope h hin hlevels hdep hscope
  cases hdep
  cases hscope
  obtain ⟨hwritten, hmlbfiles⟩ := scripts_follow hin.files smlfiles h.written
  have hagrees : Agrees G (smlfiles.foldl (fun A f => maybeWriteDep A f d) A)
      { s with out := smlfiles.foldl (fun out f => (f, before) :: out) s.out } mlbs scanned :=
    ⟨h.maps, h.fresh, by rw [hmlbfiles]; exact h.imported, h.read, hwritten⟩
  exact ⟨G, .refl G, Agrees.returned hagrees (.of_getM_nil rfl) (nil_subset _) hlevels⟩

end Cases

mutual

theorem depBexp_follows : ∀ bexp : Bexp, FollowsBexp bexp
  | .bas bdec => depBdec_follows bdec
  | .letIn bdec bexp => .letIn (depBdec_follows bdec) (depBexp_follows bexp)
  | .longbid longbid => .longbid longbid

theorem depBdec_follows : ∀ bdec : Bdec, FollowsBdec bdec
  | .seq bdec₁ bdec₂ => .seq (depBdec_follows bdec₁) (depBdec_follows bdec₂)
  | .empty => .empty
  | .loc bdec₁ bdec₂ => .loc (depBdec_follows bdec₁) (depBdec_follows bdec₂)
  | .basis bid bexp => .basis bid (depBexp_follows bexp)
  | .opn longbids => .opn longbids
  | .atbdec smlfile => .atbdec smlfile
  | .mlbfile mlbfile parsed => .mlbfile mlbfile (depBdec_follows parsed)
  | .scripts smlfiles => .scripts smlfiles
  | .ann _ bdec => depBdec_follows bdec

end

end Traversals

/-- In a project whose identifiers are in scope the files that a source file depends on come before
it. -/
theorem Project.Scoped.follows {p : Project} (hscoped : p.Scoped)
    {lists : List (String × List String)} (hdep : p.dep = .ok lists) :
    Listed lists p.before := by
  obtain ⟨dep, hdep', hlists⟩ := bind_ok hdep
  cases hlists
  obtain ⟨scope, hscope⟩ := Option.isSome_iff_exists.1 hscoped
  have hstart : Agrees (fun _ => none) DepState.empty ⟨[], []⟩ [] ⟨[], []⟩ := by
    refine ⟨fun m hm => ?_, fun _ _ => rfl, .nil, rfl, nofun⟩
    cases mem_singleton.1 hm
    exact ⟨nofun, nofun⟩
  have hin : InScope (fun _ => none) DepEnv.empty ⟨[], []⟩ [] [] :=
    ⟨.of_getM_nil rfl, nil_subset _, nofun⟩
  obtain ⟨G, -, hret⟩ := depBdec_follows _ hstart hin rfl hdep' hscope
  exact hret.agrees.written

end MLKit.MlbMake
