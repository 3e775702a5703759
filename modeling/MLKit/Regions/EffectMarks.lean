import MLKit.Common.Grafting
import MLKit.Regions.Effect

/-!
# The flags after the operations on effects

Which nodes are marked after each of the operations of `Effect` on a graph
without marks.
-/

namespace MLKit.Effect

open MLKit.Lib MLKit.DiGraph MLKit.DiGraph.Heap List

variable {h h' : EHeap}

/-! ## Lists of nodes -/

variable {fuel key level : Nat} {l r l₂ l₁ nodes : List Node} {x n n1 n2 : Node} {b : Bool}
  {delta : DeltaPhi} {F : Node → Bool} {inst : Option Node}

theorem removeDuplicates_heap (hr : removeDuplicates h fuel l = .ok (r, h')) : h' = h := by
  obtain ⟨⟨h1, r1⟩, hs, hr⟩ := bind_ok hr
  cases hr
  exact search_unvisit (.inl ⟨rfl, rfl⟩) hs

/-- `setminus` leaves the nodes of its second list unmarked, and other nodes as they were. -/
theorem setminus_heap (l₁ l₂ : List Node) (h : EHeap) :
    (setminus l₁ l₂ h).2 = h.withMarks fun c => if c ∈ l₂.map h.rep then false else h.marks c := by
  change (h.visit l₂).unvisit l₂ = _
  rw [visit_eq, unvisit_eq, withMarks_withMarks]
  congr 1
  funext c
  rw [withMarks_rep, withMarks_marks]
  split <;> simp_all

theorem setVisited_of_unmarked (hx : ¬ h.nodeIsVisited x = true) :
    h.setVisited x false = h := by
  have hmark : h.marks (h.rep x) = false := eq_false_of_ne_true hx
  rw [setVisited_eq, ← hmark, Function.update_eq_self, withMarks_self]

theorem unvisitAcc_heap (l : List Node) (acc : Bool) (h : EHeap) :
    (unvisitAcc l acc h).2 = h.unvisit l := by
  induction l generalizing acc h with
  | nil => rfl
  | cons x l ih =>
    rw [unvisitAcc]
    split
    · exact ih ..
    · rename_i hx
      rw [ih, unvisit, unvisit, foldl_cons, setVisited_of_unmarked hx]

theorem unvisitAcc_iff (l : List Node) (acc : Bool) (h : EHeap) :
    (unvisitAcc l acc h).1 = true ↔
      acc = true ∧ (l.map h.rep).Nodup ∧ ∀ n ∈ l, h.nodeIsVisited n = true := by
  induction l generalizing acc h with
  | nil => simp [unvisitAcc]
  | cons x l ih =>
    rw [unvisitAcc, map_cons, nodup_cons, forall_mem_cons]
    split
    · rename_i hx
      have hall : (∀ n ∈ l, (h.setVisited x false).nodeIsVisited n = true) ↔
          h.rep x ∉ l.map h.rep ∧ ∀ n ∈ l, h.nodeIsVisited n = true := by
        simp only [nodeIsVisited_setVisited]
        grind
      rw [ih, hall]
      change _ ∧ (l.map h.rep).Nodup ∧ _ ↔ _
      tauto
    · rename_i hx
      rw [ih]
      simp [hx]

theorem unvisitedAcc_heap (l : List Node) (acc : Bool) (h : EHeap) :
    (unvisitedAcc l acc h).2 = h.unvisit l := by
  induction l generalizing acc h with
  | nil => rfl
  | cons x l ih =>
    rw [unvisitedAcc]
    split
    · exact ih ..
    · rename_i hx
      rw [ih, unvisit, unvisit, foldl_cons, setVisited_of_unmarked hx]

/-- Every node of the first list is a node of the second. -/
def Covers (h : EHeap) (l₂ l₁ : List Node) : Prop := ∀ n ∈ l₁, h.Lists l₂ n

theorem covers_iff : Covers h l₂ l₁ ↔ ∀ c ∈ l₁.map h.rep, c ∈ l₂.map h.rep := by
  rw [forall_mem_map]
  rfl

/-- The second pass over the first list is skipped when the first pass fails. -/
theorem sameLists_clean_iff (hclean : h.Clean) :
    (sameLists l₁ l₂ h).2.Clean ↔ Covers h l₂ l₁ ∨ (Covers h l₁ l₂ ∧ (l₂.map h.rep).Nodup) := by
  have hframe : Frame h (h.visit l₁) := by
    rw [visit_eq]
    exact frame_withMarks
  have hvisited : ∀ n, (h.visit l₁).nodeIsVisited n = true ↔ h.Lists l₁ n := by
    intro n
    rw [visit_eq, nodeIsVisited_withMarks, ← nodeIsVisited_eq, hclean n]
    simp [Heap.Lists]
  have hacc := unvisitAcc_iff l₂ true (h.visit l₁)
  have hheap := unvisitAcc_heap l₂ true (h.visit l₁)
  rw [sameLists]
  rcases hu : unvisitAcc l₂ true (h.visit l₁) with ⟨b, h1⟩
  rw [hu] at hheap hacc
  dsimp only at hheap hacc ⊢
  subst hheap
  simp only [hvisited, hframe.rep] at hacc
  cases b with
  | true =>
    obtain ⟨-, hnodup, hcovers⟩ := hacc.1 rfl
    refine iff_of_true (fun n => eq_false_of_ne_true fun hn => ?_) (.inr ⟨hcovers, hnodup⟩)
    rw [if_pos rfl, unvisitedAcc_heap, nodeIsVisited_unvisit, nodeIsVisited_unvisit, hvisited,
      (hframe.trans (frame_unvisit _ l₂)).lists_iff] at hn
    exact hn.2 hn.1.1
  | false =>
    have hnot : ¬ (Covers h l₁ l₂ ∧ (l₂.map h.rep).Nodup) := fun hc => by
      cases hacc.2 ⟨trivial, hc.2, hc.1⟩
    rw [if_neg (by simp), or_iff_left hnot, Heap.Clean]
    simp only [← Bool.not_eq_true, nodeIsVisited_unvisit, hvisited, hframe.lists_iff,
      not_and_not_right]
    exact ⟨fun hc n hn => hc n (lists_of_mem hn), fun hc n hn => covers_iff.1 hc _ hn⟩

/-! ## Comparing effects -/

/-- The classes that can be reached from a list of nodes along out-edges. -/
def Reaches (h : EHeap) (roots : List Node) (c : Node) : Prop :=
  Found h.rep (outs h) (fun _ => True) roots c

/-- A PUT or GET node that can be reached from `n`. -/
def PutsAndGets (h : EHeap) (n c : Node) : Prop :=
  Reaches h [n] c ∧ ((h.cell c).info = .put ∨ (h.cell c).info = .get)

theorem isPutOrGet_iff (n : Node) :
    isPutOrGet h n = true ↔ h.findInfo n = .put ∨ h.findInfo n = .get := by
  unfold isPutOrGet
  split <;> simp_all

theorem findPutAndGets_spec (hclean : h.Clean) (hf : findPutAndGets fuel n h = .ok (l, h')) :
    h' = h ∧ (l.map h.rep).Nodup ∧ ∀ c, c ∈ l.map h.rep ↔ PutsAndGets h n c := by
  obtain ⟨⟨r, h1⟩, ht, hf⟩ := bind_ok hf
  cases hf
  obtain rfl := topsort_heap ht
  have hmem := mem_topsort ht
  refine ⟨rfl, (topsort_nodup ht).sublist (filter_sublist.map _), fun c => ?_⟩
  rw [PutsAndGets, Reaches, ← found_unmarked_iff hclean, ← hmem c]
  simp only [mem_map, mem_filter, isPutOrGet_iff]
  constructor
  · rintro ⟨m, ⟨hm, hinfo⟩, rfl⟩
    exact ⟨⟨m, hm, rfl⟩, hinfo⟩
  · rintro ⟨⟨m, hm, rfl⟩, hinfo⟩
    exact ⟨m, ⟨hm, hinfo⟩, rfl⟩

theorem sameEffect_clean_iff (hclean : h.Clean) (hs : sameEffect fuel n1 n2 h = .ok (b, h')) :
    h'.Clean ↔ (∀ c, PutsAndGets h n1 c → PutsAndGets h n2 c) ∨
      (∀ c, PutsAndGets h n2 c → PutsAndGets h n1 c) := by
  obtain ⟨⟨l₁, h1⟩, hf1, hrest⟩ := bind_ok hs
  obtain ⟨⟨l₂, h2⟩, hf2, hlists⟩ := bind_ok hrest
  obtain ⟨rfl, -, hl1⟩ := findPutAndGets_spec hclean hf1
  obtain ⟨rfl, hnodup, hl2⟩ := findPutAndGets_spec hclean hf2
  have hh' : h' = (sameLists l₁ l₂ h2).2 := (congrArg Prod.snd (Except.ok.inj hlists)).symm
  rw [hh', sameLists_clean_iff hclean, covers_iff, covers_iff]
  simp only [hl1, hl2, hnodup, and_true]

/-! ## Increments -/

/-- The classes that `computeIncrement` visits. -/
def Searched (h : EHeap) (delta : DeltaPhi) (c : Node) : Prop :=
  Found h.rep (incrementSucc h) (fun _ => True) delta.nodes c

/-- The visited classes that are reached from the increment along out-edges of
visited classes only. -/
def Unsearched (h : EHeap) (delta : DeltaPhi) (c : Node) : Prop :=
  Found h.rep (outs h) (Searched h delta) delta.nodes c

theorem computeIncrement_marks (hclean : h.Clean)
    (hc : computeIncrement fuel delta h = .ok (nodes, h')) :
    ∃ F, h' = h.withMarks F ∧
      ∀ n, F (h.rep n) = true ↔ Searched h delta (h.rep n) ∧ ¬ Unsearched h delta (h.rep n) := by
  obtain ⟨⟨h1, nodes1⟩, hs, hc⟩ := bind_ok hc
  obtain ⟨h2, hu, hc⟩ := bind_ok hc
  cases hc
  have hmarks := search_marks_of_clean hs hclean
  obtain ⟨F, rfl, -⟩ := search_eq_ok hs
  obtain ⟨G, rfl, hG⟩ := unvisitAll_eq_ok hu
  have hsearched : ∀ n, F (h.rep n) = true ↔ Searched h delta (h.rep n) := by
    intro n
    rw [← withMarks_marks (h := h) F, hmarks n]
    exact ⟨fun hf => hf.mono (fun m hm => (delta.mem_nodesRight m).1 hm) fun _ => id,
      fun hf => hf.mono (fun m hm => (delta.mem_nodesRight m).2 hm) fun _ => id⟩
  refine ⟨G, rfl, fun n => ?_⟩
  have hn := hG (h.rep n)
  rw [withMarks_rep, withMarks_marks, hsearched] at hn
  rw [hn]
  have hsame : Found h.rep (outs (h.withMarks F)) (fun d => F d = true) delta.nodes (h.rep n) ↔
      Unsearched h delta (h.rep n) :=
    ⟨fun hf => hf.mono (fun _ => id) fun m => (hsearched m).1,
      fun hf => hf.mono (fun _ => id) fun m => (hsearched m).2⟩
  rw [hsame]

theorem clean_withMarks_of_iff {P : Node → Prop} (hF : ∀ n, F (h.rep n) = true ↔ P n) :
    (h.withMarks F).Clean ↔ ∀ n, ¬ P n := by
  simp only [clean_withMarks_iff, ← hF, Bool.not_eq_true]

/-- The unmarking after `computeIncrement` follows out-edges only. -/
theorem computeIncrement_clean_iff (hclean : h.Clean)
    (hc : computeIncrement fuel delta h = .ok (nodes, h')) :
    h'.Clean ↔ ∀ n, Searched h delta (h.rep n) → Unsearched h delta (h.rep n) := by
  obtain ⟨F, rfl, hF⟩ := computeIncrement_marks hclean hc
  simp only [clean_withMarks_of_iff hF, not_and_not_right]

/-- The subgraph and the difference that `update_areff` computes leave marks as they are. -/
theorem updateAreff_marks (hclean : h.Clean) (hinfo : h.findInfo n = .eps key level inst)
    (hincr : h.globals.globalIncs key = some delta) (hu : updateAreff fuel n h = .ok h') :
    ∃ F added, h' = (h.withMarks F).addEdges n added ∧
      ∀ m, F (h.rep m) = true ↔ Searched h delta (h.rep m) ∧ ¬ Unsearched h delta (h.rep m) := by
  rw [updateAreff, hinfo] at hu
  dsimp only at hu
  rw [hincr] at hu
  obtain ⟨⟨nodes, h1⟩, hc, hu⟩ := bind_ok hu
  obtain ⟨⟨below, h2⟩, hs, hu⟩ := bind_ok hu
  cases hu
  obtain ⟨F, rfl, hF⟩ := computeIncrement_marks hclean hc
  have hbelow := mem_subgraph hs
  obtain rfl := subgraph_heap hs
  rw [setminus_heap]
  refine ⟨_, _, rfl, fun m => ?_⟩
  rw [← hF m, withMarks_rep, withMarks_marks]
  split
  · rename_i hin
    have hunmarked := ((hbelow _).1 hin).holds
    rw [withMarks_marks] at hunmarked
    rw [eq_false_of_ne_true hunmarked]
  · rfl

theorem clean_addEdges_iff (n : Node) (l : List Node) : (h.addEdges n l).Clean ↔ h.Clean := by
  simp only [Heap.Clean, addEdges, nodeIsVisited_setOutOfNode]

/-- The effect variable `n` has an increment whose search reaches a class that
is not reached along out-edges. -/
def Leaves (h : EHeap) (n : Node) : Prop :=
  ∃ key level inst delta, h.findInfo n = .eps key level inst ∧
    h.globals.globalIncs key = some delta ∧
    ∃ m, Searched h delta (h.rep m) ∧ ¬ Unsearched h delta (h.rep m)

theorem updateAreff_clean_iff (hclean : h.Clean) (hu : updateAreff fuel n h = .ok h') :
    h'.Clean ↔ ¬ Leaves h n := by
  by_cases hincr : ∃ key level inst delta, h.findInfo n = .eps key level inst ∧
      h.globals.globalIncs key = some delta
  · obtain ⟨key, level, inst, delta, hinfo, hdelta⟩ := hincr
    obtain ⟨F, added, rfl, hF⟩ := updateAreff_marks hclean hinfo hdelta hu
    rw [clean_addEdges_iff, clean_withMarks_of_iff hF, ← not_exists, not_iff_not]
    refine ⟨fun hm => ⟨key, level, inst, delta, hinfo, hdelta, hm⟩, ?_⟩
    rintro ⟨key', level', inst', delta', hinfo', hdelta', hm⟩
    rw [hinfo] at hinfo'
    cases hinfo'
    rw [hdelta] at hdelta'
    cases hdelta'
    exact hm
  · have hsame : h' = h := by
      rw [updateAreff] at hu
      split at hu
      · rename_i key level inst hinfo
        split at hu
        · rename_i delta hdelta
          exact absurd ⟨key, level, inst, delta, hinfo, hdelta⟩ hincr
        · exact (Except.ok.inj hu).symm
      · exact (Except.ok.inj hu).symm
    subst hsame
    refine iff_of_true hclean ?_
    rintro ⟨key, level, inst, delta, hinfo, hdelta, -⟩
    exact hincr ⟨key, level, inst, delta, hinfo, hdelta⟩

end MLKit.Effect
