import MLKit.MlbMake.Scopes
import MLKit.MlbMake.Tokens

/-!
# Parallel builds and dependencies

When the files that the scheduler hands out respect the dependency lists.
-/

namespace MLKit.MlbMake

open MLKit.Lib BuildGraph Relation List

/-! ## All source files are in the graph -/

variable {s : BeforeState} {fs1 fs2 : List String} {r1 r2 : BeforeResult} {f : String}
  {β : Type} {before : β} {out : List (String × β)} {bg : List (Elem Source)} {e : Elem Source}
  {later earlier : List (Event Source)}

section Complete

variable (imports : List (String × Bdec))

/-- The files of the mlb-files that have been read are in the graph. -/
def Read (s : BeforeState) (mlbs : List (String × List String)) : Prop :=
  ∀ m ∈ mlbs.map Prod.fst, ∀ b, (m, b) ∈ imports → ∀ f ∈ b.files, f ∈ s.out.map Prod.fst

structure Reads (s : BeforeState) (files : List String) (r : BeforeResult) : Prop where
  read : Read imports r.state r.mlbs
  files : ∀ f ∈ files, f ∈ r.state.out.map Prod.fst
  mono : ∀ f ∈ s.out.map Prod.fst, f ∈ r.state.out.map Prod.fst

variable {imports}

theorem Reads.trans (h1 : Reads imports s fs1 r1)
    (h2 : Reads imports r1.state fs2 r2) : Reads imports s (fs1 ++ fs2) r2 := by
  refine ⟨h2.read, fun f hf => ?_, fun f hf => h2.mono f (h1.mono f hf)⟩
  rcases mem_append.1 hf with hf | hf
  · exact h2.mono f (h1.files f hf)
  · exact h2.files f hf

theorem mem_scripts_out {smlfiles : List String} :
    f ∈ (smlfiles.foldl (fun out f => (f, before) :: out) out).map Prod.fst ↔
      f ∈ smlfiles ∨ f ∈ out.map Prod.fst := by
  induction smlfiles generalizing out with
  | nil => simp
  | cons f' smlfiles ih =>
    rw [foldl_cons, ih, map_cons, mem_cons, mem_cons]
    tauto

mutual

theorem beforeBexp_reads
    (hsame : ∀ m b b', (m, b) ∈ imports → (m, b') ∈ imports → b = b')
    (s : BeforeState) (mlbs : List (String × List String)) (before : List String)
    (hread : Read imports s mlbs) : ∀ bexp : Bexp, (∀ i ∈ bexp.imports, i ∈ imports) →
    Reads imports s bexp.files (beforeBexp s mlbs before bexp)
  | .bas bdec, hsub => by
    exact beforeBdec_reads hsame s mlbs before hread bdec hsub
  | .letIn bdec bexp, hsub => by
    have h1 := beforeBdec_reads hsame s mlbs before hread bdec fun i hi =>
      hsub i (mem_append_left _ hi)
    exact h1.trans (beforeBexp_reads hsame _ _ _ h1.read bexp fun i hi =>
      hsub i (mem_append_right _ hi))
  | .longbid _, _ => by
    exact ⟨hread, by simp [Bexp.files], fun f hf => hf⟩

theorem beforeBdec_reads
    (hsame : ∀ m b b', (m, b) ∈ imports → (m, b') ∈ imports → b = b')
    (s : BeforeState) (mlbs : List (String × List String)) (before : List String)
    (hread : Read imports s mlbs) : ∀ bdec : Bdec, (∀ i ∈ bdec.imports, i ∈ imports) →
    Reads imports s bdec.files (beforeBdec s mlbs before bdec)
  | .seq bdec1 bdec2, hsub => by
    have h1 := beforeBdec_reads hsame s mlbs before hread bdec1 fun i hi =>
      hsub i (mem_append_left _ hi)
    exact h1.trans (beforeBdec_reads hsame _ _ _ h1.read bdec2 fun i hi =>
      hsub i (mem_append_right _ hi))
  | .empty, _ => by
    exact ⟨hread, by simp [Bdec.files], fun f hf => hf⟩
  | .loc bdec1 bdec2, hsub => by
    rw [beforeBdec]
    have h1 := beforeBdec_reads hsame s.addLevel mlbs before hread bdec1 fun i hi =>
      hsub i (mem_append_left _ hi)
    generalize beforeBdec s.addLevel mlbs before bdec1 = r1 at h1 ⊢
    have h2 := beforeBdec_reads hsame r1.state.addLevel r1.mlbs r1.before h1.read bdec2
      fun i hi => hsub i (mem_append_right _ hi)
    generalize beforeBdec r1.state.addLevel r1.mlbs r1.before bdec2 = r2 at h2 ⊢
    have h2' : Reads imports r1.state bdec2.files r2 := ⟨h2.read, h2.files, h2.mono⟩
    have h := h1.trans h2'
    exact ⟨h.read, h.files, h.mono⟩
  | .basis bid bexp, hsub => by
    have h1 := beforeBexp_reads hsame s.addLevel mlbs before hread bexp hsub
    exact ⟨h1.read, h1.files, h1.mono⟩
  | .opn longbids, _ => by
    rw [beforeBdec]
    exact ⟨hread, by simp [Bdec.files], fun f hf => hf⟩
  | .atbdec smlfile, _ => by
    rw [beforeBdec]
    refine ⟨fun m hm b hb f hf => ?_, ?_, fun f hf => .tail _ hf⟩
    · exact .tail _ (hread m hm b hb f hf)
    · simp [Bdec.files]
  | .mlbfile mlbfile parsed, hsub => by
    have hself : (mlbfile, parsed) ∈ imports := hsub _ (.head _)
    rw [beforeBdec]
    split
    · next m before2 hfind =>
        have hname : m = mlbfile := by simpa using find?_some hfind
        have hmem := mem_of_find?_eq_some hfind
        refine ⟨hread, hread mlbfile ?_ parsed hself, fun f hf => hf⟩
        rw [← hname]
        exact mem_map_of_mem hmem
    · have h1 := beforeBdec_reads hsame s mlbs [] hread parsed fun i hi =>
        hsub i (.tail _ hi)
      refine ⟨fun m hm b hb => ?_, h1.files, h1.mono⟩
      rcases mem_cons.1 hm with rfl | hm
      · rw [hsame _ b parsed hb hself]
        exact h1.files
      · exact h1.read m hm b hb
  | .scripts smlfiles, _ => by
    refine ⟨fun m hm b hb f hf => ?_, fun f hf => ?_, fun f hf => ?_⟩
    · exact mem_scripts_out.2 (Or.inr (hread m hm b hb f hf))
    · exact mem_scripts_out.2 (Or.inl hf)
    · exact mem_scripts_out.2 (Or.inr hf)
  | .ann _ bdec, hsub => by
    exact beforeBdec_reads hsame s mlbs before hread bdec hsub

end

end Complete

/-! ## Respecting dependencies -/

/-- The states of the parallel builds of a project. -/
def Project.Builds (p : Project) (b : Build Source) : Prop :=
  ∃ graph, p.sources = .ok graph ∧ Build.Reachable graph.2 b

variable {b : Build Source}

section Main

variable {bg : List (Elem Source)} (hbg : Numbered bg)

include hbg

end Main

/-- The files before a source file include its dependency list, in a project whose identifiers are in
scope. -/
theorem Project.Scoped.subset {p : Project} (hscoped : p.Scoped) {bg : List (Elem Source)}
    (hnodup : (bg.reverse.map fun e => e.elem.name).Nodup)
    (hbefore : p.before = bg.map fun e => (e.elem.name, image bg e.dependStatus))
    {lists : List (String × List String)} (hdep : p.dep = .ok lists) {e : Elem Source} (he : e ∈ bg)
    {L : List String} (hL : (e.elem.name, L) ∈ lists) : L ⊆ image bg e.dependStatus := by
  obtain ⟨S, hS, hsub⟩ := hscoped.follows hdep _ L hL
  rw [hbefore] at hS
  obtain ⟨e', he', heq⟩ := mem_map.1 hS
  obtain ⟨hname, rfl⟩ := Prod.mk.inj heq
  rw [map_reverse, nodup_reverse] at hnodup
  rwa [inj_on_of_nodup_map hnodup he' he hname] at hsub

theorem Tracks.mem_compiling_iff {bg : List (Elem Source)} (hb : Tracks bg b) (he : e ∈ bg) :
    e.id ∈ b.compiling.map File.id ↔
      e.id ∉ doneIds b.events ∧ ∀ j ∈ e.dependStatus, j ∈ doneIds b.events := by
  have hout : e.id ∈ (outFiles b.events).map File.id ↔
      ∀ j ∈ e.dependStatus, j ∈ doneIds b.events := by
    rw [← hb.out, hb.queued e he]
    exact forall₂_congr fun d _ => hb.status d
  rw [← hout, mem_map, mem_map]
  constructor
  · rintro ⟨f, hf, hid⟩
    obtain ⟨hf, hnot⟩ := (hb.compiling f).1 hf
    exact ⟨hid ▸ hnot, f, hf, hid⟩
  · rintro ⟨hnot, f, hf, hid⟩
    exact ⟨f, (hb.compiling f).2 ⟨hf, hid ▸ hnot⟩, hid⟩

/-- The orders in which compilations end are those that respect the graph, and no others. -/
theorem build_orders_iff {p : Project} {bg : List (Elem Source)} (hgraph : p.graph = .ok bg)
    (X : List Nat) : (∃ b, Build.Reachable (turn bg).2 b ∧ doneIds b.events = X) ↔
      Serial (Waits bg) X ∧ ∀ i ∈ X, ∃ e ∈ bg, e.id = i := by
  obtain ⟨hbg, -⟩ := Project.graph_spec hgraph
  constructor
  · rintro ⟨b, hb, rfl⟩
    have htracks := reachable_tracks hbg hb
    exact ⟨htracks.serial, htracks.known⟩
  · rintro ⟨hX, hknown⟩
    exact exists_build hbg hX hknown

/-- At any time of any build the files that are handed out and not done are those that wait for
nothing, and there is one unless all are done. -/
theorem compiling_iff_ready {p : Project} {bg : List (Elem Source)} (hgraph : p.graph = .ok bg)
    {b : Build Source} (hb : Build.Reachable (turn bg).2 b) :
    (∀ e ∈ bg, e.id ∈ b.compiling.map File.id ↔
      e.id ∉ doneIds b.events ∧ ∀ j ∈ e.dependStatus, j ∈ doneIds b.events) ∧
    ((∃ e ∈ bg, e.id ∉ doneIds b.events) → b.compiling ≠ []) := by
  obtain ⟨hbg, -⟩ := Project.graph_spec hgraph
  have hiff := fun e he => (reachable_tracks hbg hb).mem_compiling_iff (e := e) he
  refine ⟨hiff, ?_⟩
  rintro ⟨e, he, hnot⟩ hidle
  -- the first file that is not done waits for nothing
  induction hn : e.id using Nat.strongRecOn generalizing e with
  | ind n ih =>
    have hcomp := (hiff e he).2 ⟨hnot, fun j hj => ?_⟩
    · rw [hidle] at hcomp
      cases hcomp
    · obtain ⟨hlt, e', he', rfl⟩ := hbg.exists_dep he hj
      by_contra hnot'
      exact ih _ (hn ▸ hlt) e' he' hnot' rfl

/-- A basis `A` with a basis `B` inside, and a file after two declarations:
`basis A = bas basis B = bas x.sml end end  open ...  open ...  z.sml`. -/
def openInner (first second : LongBid) : Project where
  mlbfile := "project.mlb"
  parsed := .seq (.basis "A" (.bas (.basis "B" (.bas (.atbdec "x.sml")))))
    (.seq (.opn [first]) (.seq (.opn [second]) (.atbdec "z.sml")))
  consistent := by
    intro m b b' hb hb'
    simp only [Bdec.imports, Bexp.imports, append_nil, mem_singleton, Prod.mk.injEq] at hb hb'
    rw [hb.2, hb'.2]

theorem open_inner_orders : ∃ bg, (openInner ⟨"A", []⟩ ⟨"A", ["B"]⟩).graph = .ok bg ∧
    ((∃ b, Build.Reachable (turn bg).2 b ∧ doneIds b.events = [1]) ↔
      Serial (Waits bg) [1] ∧ ∀ i ∈ [1], ∃ e ∈ bg, e.id = i) :=
  ⟨_, rfl, build_orders_iff (p := openInner ⟨"A", []⟩ ⟨"A", ["B"]⟩) rfl [1]⟩

theorem open_inner_start : ∃ bg, (openInner ⟨"A", []⟩ ⟨"A", ["B"]⟩).graph = .ok bg ∧
    (Build.start (turn bg).2).compiling ≠ [] :=
  ⟨_, rfl, (compiling_iff_ready (p := openInner ⟨"A", []⟩ ⟨"A", ["B"]⟩) rfl .start).2
    ⟨_, .head _, nofun⟩⟩

end MLKit.MlbMake
