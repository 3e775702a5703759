import MLKit.Common.DiGraph

/-!
# What graph operations do to the flags

A search changes flags only, and it is known which.  The operations that first
mark and then unmark the nodes of a result give back the very heap they were
applied to.
-/

namespace MLKit.DiGraph

open MLKit.Lib Heap List

variable {ι ρ A : Type} {h h' : Heap ι ρ}

/-- No node is marked: what `DiGraph` demands in between its operations. -/
def Heap.Clean (h : Heap ι ρ) : Prop := ∀ n, h.nodeIsVisited n = false

variable {g : GraphNode ι} {n c : Node} {b : Bool} {fuel : Nat} {succ : Heap ι ρ → Node → List Node}
  {ns r l : List Node} {a a' : A} {key : Node → Node} {F : Node → Bool}

namespace Heap

@[simp] theorem withMarks_rep (F : Node → Bool) : (h.withMarks F).rep = h.rep := rfl

@[simp] theorem withMarks_marks (F : Node → Bool) : (h.withMarks F).marks = F := rfl

@[simp] theorem withMarks_withMarks (F G : Node → Bool) :
    (h.withMarks F).withMarks G = h.withMarks G := rfl

theorem withMarks_self : h.withMarks h.marks = h := rfl

theorem nodeIsVisited_eq (n : Node) : h.nodeIsVisited n = h.marks (h.rep n) := rfl

@[simp] theorem nodeIsVisited_withMarks (F : Node → Bool) (n : Node) :
    (h.withMarks F).nodeIsVisited n = F (h.rep n) := rfl

theorem Clean.marks_ne (hclean : h.Clean) (n : Node) : h.marks (h.rep n) ≠ true := by
  rw [← nodeIsVisited_eq, hclean n]
  simp

/-- A field of a graph node after a graph node is replaced. -/
theorem cell_setNode (f : GraphNode ι → A) (n m : Node) (g : GraphNode ι) :
    f ((h.setNode n g).cell (h.rep m)) = if h.rep m = h.rep n then f g else f (h.cell (h.rep m)) :=
    by
  change f (Function.update h.cell (h.rep n) g (h.rep m)) = _
  rw [Function.update_apply]
  split <;> rfl

theorem cell_setNode_of_eq (f : GraphNode ι → A) (m : Node) (hg : f g = f (h.cell (h.rep n))) :
    f ((h.setNode n g).cell (h.rep m)) = f (h.cell (h.rep m)) := by
  refine (cell_setNode f n m g).trans ?_
  split
  · rename_i hm
    rw [hg, hm]
  · rfl

theorem clean_withMarks_iff (F : Node → Bool) :
    (h.withMarks F).Clean ↔ ∀ n, F (h.rep n) = false := Iff.rfl

theorem setVisited_eq (n : Node) (b : Bool) :
    h.setVisited n b = h.withMarks (Function.update h.marks (h.rep n) b) := by
  unfold setVisited setNode withMarks
  congr 1
  funext c
  by_cases hc : c = h.rep n
  · subst hc
    simp
  · simp only [Function.update_of_ne hc]
    rfl

/-- Marking or unmarking the nodes of a list. -/
theorem foldl_setVisited {g : List Node} :
    g.foldl (fun h n => h.setVisited n b) h =
      h.withMarks fun c => if c ∈ g.map h.rep then b else h.marks c := by
  induction g generalizing h with
  | nil => rfl
  | cons n g ih =>
    rw [foldl_cons, ih, setVisited_eq, withMarks_withMarks]
    congr 1
    funext c
    rw [withMarks_rep, withMarks_marks, map_cons]
    by_cases hc : c = h.rep n
    · subst hc
      simp
    · simp [hc]

theorem unvisit_eq (g : List Node) :
    h.unvisit g = h.withMarks fun c => if c ∈ g.map h.rep then false else h.marks c :=
  foldl_setVisited

theorem visit_eq (g : List Node) :
    h.visit g = h.withMarks fun c => if c ∈ g.map h.rep then true else h.marks c :=
  foldl_setVisited

end Heap

/-! ## Searches -/

section Search

variable {pre post : Node → A → Except Stop A}

/-- A search changes flags only. -/
theorem search_eq_ok (hs : search succ b pre post fuel ns h a = .ok (h', a')) :
    ∃ F, h' = h.withMarks F ∧ Traversal h.rep (succ h) b pre post ns h.marks a F a' := by
  obtain ⟨⟨F, a1⟩, hd, hs⟩ := bind_ok hs
  cases hs
  exact ⟨F, rfl, depthFirst_traversal hd⟩

theorem search_marks (hs : search succ b pre post fuel ns h a = .ok (h', a')) (c : Node) :
    h'.marks c = b ↔ h.marks c = b ∨ Found h.rep (succ h) (fun d => h.marks d ≠ b) ns c := by
  obtain ⟨F, rfl, hd⟩ := search_eq_ok hs
  exact hd.marks_iff c

theorem found_unmarked_iff {succ : Node → List Node} (hclean : h.Clean) :
    Found h.rep succ (fun d => h.marks d ≠ true) ns c ↔ Found h.rep succ (fun _ => True) ns c :=
  ⟨fun hf => hf.mono (fun _ => id) fun _ _ => trivial,
    fun hf => hf.mono (fun _ => id) fun n _ => hclean.marks_ne n⟩

/-- A search for marks that are all missing reaches everything. -/
theorem search_marks_of_clean (hs : search succ true pre post fuel ns h a = .ok (h', a'))
    (hclean : h.Clean) (n : Node) :
    h'.marks (h.rep n) = true ↔ Found h.rep (succ h) (fun _ => True) ns (h.rep n) := by
  rw [search_marks hs, found_unmarked_iff hclean, or_iff_right (hclean.marks_ne n)]

end Search

theorem collect_mem (n : Node) (a a' : List Node) (h : collect n a = .ok a') (c : Node) :
    c ∈ a'.map key ↔ c ∈ a.map key ∨ (fun _ => True) c ∧ c = key n := by
  cases h
  rw [map_cons, mem_cons]
  tauto

theorem keep_mem (n : Node) (a a' : List Node) (h : keep n a = .ok a') (c : Node) :
    c ∈ a'.map key ↔ c ∈ a.map key ∨ (fun _ => False) c ∧ c = key n := by
  cases h
  tauto

variable {post pre : Node → List Node → Except Stop (List Node)}

/-- The nodes that a search collects are the classes it marks. -/
theorem search_collected (hone : (pre = collect ∧ post = keep) ∨ (pre = keep ∧ post = collect))
    (hs : search succ true pre post fuel ns h [] = .ok (h', r)) (c : Node) :
    c ∈ r.map h.rep ↔ h'.marks c = true ∧ h.marks c ≠ true := by
  obtain ⟨F, rfl, hd⟩ := search_eq_ok hs
  rcases hone with ⟨rfl, rfl⟩ | ⟨rfl, rfl⟩
  · simpa using hd.mem_iff (fun a c => c ∈ a.map h.rep) collect_mem keep_mem c
  · simpa using hd.mem_iff (fun a c => c ∈ a.map h.rep) keep_mem collect_mem c

theorem search_found (hone : (pre = collect ∧ post = keep) ∨ (pre = keep ∧ post = collect))
    (hs : search succ true pre post fuel ns h [] = .ok (h', r)) (c : Node) :
    c ∈ r.map h.rep ↔ Found h.rep (succ h) (fun d => h.marks d ≠ true) ns c := by
  rw [search_collected hone hs c, search_marks hs c]
  constructor
  · rintro ⟨hc | hc, hn⟩
    · exact absurd hc hn
    · exact hc
  · intro hc
    exact ⟨.inr hc, hc.holds⟩

/-- Unmarking what a search has collected undoes the search. -/
theorem unvisit_collected (hr : ∀ c, c ∈ r.map h.rep ↔ F c = true ∧ h.marks c ≠ true)
    (hgrow : ∀ c, h.marks c = true → F c = true) : (h.withMarks F).unvisit r = h := by
  rw [unvisit_eq, withMarks_withMarks]
  conv => rhs; rw [← withMarks_self (h := h)]
  congr 1
  funext c
  rw [withMarks_rep, withMarks_marks]
  by_cases hc : c ∈ r.map h.rep
  · rw [if_pos hc]
    exact (eq_false_of_ne_true ((hr c).1 hc).2).symm
  · rw [if_neg hc]
    by_cases hm : h.marks c = true
    · rw [hm, hgrow c hm]
    · have hF : ¬ F c = true := fun hF => hc ((hr c).2 ⟨hF, hm⟩)
      rw [eq_false_of_ne_true hF, eq_false_of_ne_true hm]

theorem search_unvisit (hone : (pre = collect ∧ post = keep) ∨ (pre = keep ∧ post = collect))
    (hs : search succ true pre post fuel ns h [] = .ok (h', r)) : h'.unvisit r = h := by
  have hcollected := search_collected hone hs
  have hmarks := search_marks hs
  obtain ⟨F, rfl, -⟩ := search_eq_ok hs
  exact unvisit_collected hcollected fun c hc => (hmarks c).2 (.inl hc)

/-! ## Sorted subgraphs -/

theorem subgraph_heap (hs : subgraph fuel l h = .ok (r, h')) : h' = h := by
  obtain ⟨⟨r1, h1⟩, hd, hs⟩ := bind_ok hs
  obtain ⟨⟨h2, r2⟩, hsearch, hr⟩ := bind_ok hd
  cases hr
  cases hs
  exact search_unvisit (.inl ⟨rfl, rfl⟩) hsearch

theorem mem_subgraph (hs : subgraph fuel l h = .ok (r, h')) (c : Node) :
    c ∈ r.map h.rep ↔ Found h.rep (outs h) (fun d => h.marks d ≠ true) l c := by
  obtain ⟨⟨r1, h1⟩, hd, hs⟩ := bind_ok hs
  obtain ⟨⟨h2, r2⟩, hsearch, hr⟩ := bind_ok hd
  cases hr
  cases hs
  rw [map_reverse, mem_reverse]
  exact search_found (.inl ⟨rfl, rfl⟩) hsearch c

section

variable (hs : topsort fuel l h = .ok (r, h'))

include hs

theorem topsort_heap : h' = h := by
  obtain ⟨⟨h2, r2⟩, hd, hr⟩ := bind_ok hs
  cases hr
  exact search_unvisit (.inr ⟨rfl, rfl⟩) hd

theorem mem_topsort (c : Node) :
    c ∈ r.map h.rep ↔ Found h.rep (outs h) (fun d => h.marks d ≠ true) l c := by
  obtain ⟨⟨h2, r2⟩, hd, hr⟩ := bind_ok hs
  cases hr
  exact search_found (.inr ⟨rfl, rfl⟩) hd c

/-- A topological sort lists no class twice. -/
theorem topsort_nodup : (r.map h.rep).Nodup := by
  obtain ⟨⟨h2, r2⟩, hd, hr⟩ := bind_ok hs
  cases hr
  obtain ⟨F, -, hd⟩ := search_eq_ok hd
  refine hd.nodup (fun a => (a.map h.rep).Nodup) (fun _ hpq => hpq.1) keep_mem collect_mem
    ?_ ?_ (by simp) (by simp)
  · intro n a a' ha hnodup _
    cases ha
    exact hnodup
  · intro n a a' ha hnodup hn
    cases ha
    rw [map_cons, nodup_cons]
    exact ⟨hn trivial, hnodup⟩

end

/-! ## Marking and unmarking whole reaches -/

theorem unvisitAll_eq_ok (hv : unvisitAll fuel ns h = .ok h') :
    ∃ F, h' = h.withMarks F ∧
      ∀ c, F c = true ↔ h.marks c = true ∧
        ¬ Found h.rep (outs h) (fun d => h.marks d = true) ns c := by
  obtain ⟨⟨h1, ⟨⟩⟩, hs, hv⟩ := bind_ok hv
  cases hv
  have hmarks := search_marks hs
  obtain ⟨F, rfl, -⟩ := search_eq_ok hs
  refine ⟨F, rfl, fun c => ?_⟩
  have hc := hmarks c
  rw [withMarks_marks] at hc
  simp only [← Bool.not_eq_false, hc, not_or]

end MLKit.DiGraph
