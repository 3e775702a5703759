import MLKit.Common.Marks

/-!
# Merging two classes

What a union does to classes, graph nodes and flags.  The functions that
combine two graph nodes may change graph nodes and the caller's state, but no
class.
-/

namespace MLKit.DiGraph

open MLKit.Lib Heap Function List

variable {ι ρ : Type} {h h' : Heap ι ρ}

/-- Heaps that differ in ranks only. -/
structure UpToRank (h h₀ : Heap ι ρ) : Prop where
  rep : h₀.rep = h.rep
  cell : h₀.cell = h.cell

theorem UpToRank.refl (h : Heap ι ρ) : UpToRank h h := ⟨rfl, rfl⟩

theorem upToRank_bumpRank (h : Heap ι ρ) (e : Node) : UpToRank h (h.bumpRank e) := ⟨rfl, rfl⟩

/-- The heap that the combining function of a union is applied to. -/
def Heap.ranked (h : Heap ι ρ) (n n' : Node) : Heap ι ρ :=
  if h.rank (h.rep n) = h.rank (h.rep n') then h.bumpRank (h.rep n') else h

theorem upToRank_ranked (h : Heap ι ρ) (n n' : Node) : UpToRank h (h.ranked n n') := by
  unfold Heap.ranked
  split
  · exact upToRank_bumpRank h _
  · exact .refl h

variable {n n' m y : Node} {combine : Combine ι ρ (GraphNode ι)} {infoCombine : Combine ι ρ ι}
  {visitChildren : ι → Bool} {fuel : Nat} {ns ns2 : List Node}
  {acc acc' acc2 acc3 : List Node × List Node} {h2 h3 : Heap ι ρ}

theorem ufUnion_cases (hu : ufUnion combine n n' h = .ok (m, h')) :
    h.rep n ≠ h.rep n' ∧ ∃ g h₁,
      combine (h.cell (h.rep n)) (h.cell (h.rep n')) (h.ranked n n') = .ok (g, h₁) ∧
      ((m = h.rep n' ∧ h' = (h₁.setNode (h.rep n') g).link (h.rep n) (h.rep n')) ∨
        (m = h.rep n ∧ h' = (h₁.setNode (h.rep n) g).link (h.rep n') (h.rep n))) := by
  rw [ufUnion] at hu
  split at hu
  · cases hu
  rename_i hne
  refine ⟨hne, ?_⟩
  split at hu
  · rename_i hlt
    obtain ⟨⟨g, h₁⟩, hg, hu⟩ := bind_ok hu
    cases hu
    refine ⟨g, h₁, ?_, .inl ⟨rfl, rfl⟩⟩
    rwa [Heap.ranked, if_neg (Nat.ne_of_lt hlt)]
  split at hu
  · rename_i hlt
    obtain ⟨⟨g, h₁⟩, hg, hu⟩ := bind_ok hu
    cases hu
    refine ⟨g, h₁, ?_, .inr ⟨rfl, rfl⟩⟩
    rwa [Heap.ranked, if_neg (Nat.ne_of_lt hlt).symm]
  · obtain ⟨⟨g, h₁⟩, hg, hu⟩ := bind_ok hu
    cases hu
    refine ⟨g, h₁, ?_, .inl ⟨rfl, rfl⟩⟩
    rwa [Heap.ranked, if_pos (by omega)]

/-- The classes of `n` and `n'` have become one class, with representative `m`
and graph node `g`; other graph nodes are those of `h₁`. -/
structure Merged (h h₁ h' : Heap ι ρ) (n n' m : Node) (g : GraphNode ι) : Prop where
  ne : h.rep n ≠ h.rep n'
  side : m = h.rep n ∨ m = h.rep n'
  rep : ∀ x, h'.rep x = if h.rep x = h.rep n ∨ h.rep x = h.rep n' then m else h.rep x
  cell_self : h'.cell m = g
  cell_of_ne : ∀ c, c ≠ m → h'.cell c = h₁.cell c

variable {h₁ : Heap ι ρ} {g : GraphNode ι} {x : Node}

theorem merged_link (hrep : h₁.rep = h.rep) (hne : h.rep n ≠ h.rep n') :
    Merged h h₁ ((h₁.setNode (h.rep n') g).link (h.rep n) (h.rep n')) n n' (h.rep n') g where
  ne := hne
  side := .inr rfl
  rep := by
    intro x
    change (h₁.setNode (h.rep n') g).linkRep (h.rep n) (h.rep n') x = _
    change (if h₁.rep x = h₁.rep (h.rep n) then h₁.rep (h.rep n') else h₁.rep x) = _
    rw [hrep, h.rep_rep, h.rep_rep]
    by_cases hn : h.rep x = h.rep n
    · rw [if_pos hn, if_pos (.inl hn)]
    · by_cases hn' : h.rep x = h.rep n'
      · rw [if_neg hn, if_pos (.inr hn'), hn']
      · rw [if_neg hn, if_neg (by tauto)]
  cell_self := by
    change update h₁.cell (h₁.rep (h.rep n')) g (h.rep n') = g
    rw [hrep, h.rep_rep, update_self]
  cell_of_ne := by
    intro c hc
    change update h₁.cell (h₁.rep (h.rep n')) g c = _
    rw [hrep, h.rep_rep, update_of_ne hc]

theorem Merged.swap (hm : Merged h h₁ h' n' n m g) : Merged h h₁ h' n n' m g where
  ne := hm.ne.symm
  side := hm.side.symm
  rep := by
    intro x
    rw [hm.rep x]
    simp only [or_comm]
  cell_self := hm.cell_self
  cell_of_ne := hm.cell_of_ne

theorem ufUnion_merged (hcombine : ∀ g g' h₀ r h₁, combine g g' h₀ = .ok (r, h₁) → h₁.rep = h₀.rep)
    (hu : ufUnion combine n n' h = .ok (m, h')) :
    ∃ g h₁, h₁.rep = h.rep ∧
      combine (h.cell (h.rep n)) (h.cell (h.rep n')) (h.ranked n n') = .ok (g, h₁) ∧
      Merged h h₁ h' n n' m g := by
  obtain ⟨hne, g, h₁, hg, hcases⟩ := ufUnion_cases hu
  have hrep : h₁.rep = h.rep := (hcombine _ _ _ _ _ hg).trans (upToRank_ranked h n n').rep
  refine ⟨g, h₁, hrep, hg, ?_⟩
  rcases hcases with ⟨rfl, rfl⟩ | ⟨rfl, rfl⟩
  · exact merged_link hrep hne
  · exact (merged_link hrep hne.symm).swap

namespace Merged

variable {h₁ : Heap ι ρ} {g : GraphNode ι}

section

variable (hm : Merged h h₁ h' n n' m g)

include hm

theorem rep_eq_iff (x : Node) : h'.rep x = m ↔ h.rep x = h.rep n ∨ h.rep x = h.rep n' := by
  rw [hm.rep x]
  constructor
  · intro hx
    by_contra hnot
    rw [if_neg hnot] at hx
    rcases hm.side with hs | hs
    · exact hnot (.inl (hx.trans hs))
    · exact hnot (.inr (hx.trans hs))
  · intro hx
    rw [if_pos hx]

theorem rep_of_ne (hx : h'.rep x ≠ m) : h'.rep x = h.rep x := by
  have hnot := fun hx' => hx ((hm.rep_eq_iff x).2 hx')
  rw [hm.rep x, if_neg hnot]

/-- Classes only grow. -/
theorem rep_eq_of_eq (hxy : h.rep x = h.rep y) : h'.rep x = h'.rep y := by
  rw [hm.rep x, hm.rep y, hxy]

/-- Which flags are set after a union. -/
theorem clean_iff (hrep : h₁.rep = h.rep) (hvisited : g.visited = h₁.nodeIsVisited n') :
    h'.Clean ↔ ∀ x, h.rep x ≠ h.rep n → h₁.nodeIsVisited x = false := by
  constructor
  · intro hclean x hx
    have hcell := hclean x
    by_cases hx' : h.rep x = h.rep n'
    · rw [nodeIsVisited, (hm.rep_eq_iff x).2 (.inr hx'), hm.cell_self, hvisited] at hcell
      rwa [nodeIsVisited, hrep, hx', ← hrep]
    · have hne : h'.rep x ≠ m := fun he => ((hm.rep_eq_iff x).1 he).elim hx hx'
      rw [nodeIsVisited, hm.cell_of_ne _ hne, hm.rep_of_ne hne] at hcell
      rwa [nodeIsVisited, hrep]
  · intro hother x
    by_cases hx : h'.rep x = m
    · rw [nodeIsVisited, hx, hm.cell_self, hvisited]
      exact hother n' hm.ne.symm
    · rw [nodeIsVisited, hm.cell_of_ne _ hx, hm.rep_of_ne hx, ← hrep]
      exact hother x fun he => hx ((hm.rep_eq_iff x).2 (.inl he))

end

end Merged

/-- A combining function that looks at the two values only. -/
def Combine.Pure {τ : Type} (combine : Combine ι ρ τ) : Prop :=
  ∀ a b h r h', combine a b h = .ok (r, h') → h' = h

theorem union_merged (hpure : infoCombine.Pure) (hu : union infoCombine n n' h = .ok (m, h')) :
    ∃ h₁ g, UpToRank h h₁ ∧ Merged h h₁ h' n n' m g ∧
      g.out = h.outOfNode n ++ h.outOfNode n' ∧ g.visited = h₁.nodeIsVisited n' := by
  obtain ⟨g, h₁, -, hg, hm⟩ := ufUnion_merged (by
    intro g g' h₀ r h₁ hr
    obtain ⟨⟨i, h2⟩, hi, hr⟩ := bind_ok hr
    cases hr
    rw [hpure _ _ _ _ _ hi]) hu
  have h0eq := upToRank_ranked h n n'
  obtain ⟨⟨i, h2⟩, hi, hr⟩ := bind_ok hg
  have hi2 := hpure _ _ _ _ _ hi
  cases hr
  rw [← hi2] at h0eq
  exact ⟨h₁, _, h0eq, hm, rfl, rfl⟩

theorem union_clean (hpure : infoCombine.Pure) (hu : union infoCombine n n' h = .ok (m, h'))
    (hclean : h.Clean) : h'.Clean := by
  obtain ⟨h₁, g, h1eq, hm, -, hvisited⟩ := union_merged hpure hu
  refine (hm.clean_iff h1eq.rep hvisited).2 fun x _ => ?_
  change (h₁.cell (h₁.rep x)).visited = false
  rw [h1eq.cell, h1eq.rep]
  exact hclean x

/-! ## Unions without duplicate edges -/

section Onto

/-- What a call of `onto` marks it has visited. -/
theorem onto_spec (ho : onto visitChildren fuel ns h acc = .ok (h', acc')) :
    ∃ F, h' = h.withMarks F ∧ (∀ c, h.marks c = true → F c = true) ∧
      ∀ c, c ∈ acc'.2.map h.rep ↔ c ∈ acc.2.map h.rep ∨ F c = true ∧ h.marks c ≠ true := by
  have hmarks := search_marks ho
  obtain ⟨F, rfl, hd⟩ := search_eq_ok ho
  refine ⟨F, rfl, fun c hc => (hmarks c).2 (.inl hc), fun c => ?_⟩
  have hmem := hd.mem_iff (fun a c => c ∈ a.2.map h.rep) (p := fun _ => True)
    (q := fun _ => False) ?_ ?_ c
  · simpa using hmem
  · intro n a a' ha c
    cases ha
    rw [map_cons, mem_cons]
    tauto
  · intro n a a' ha c
    cases ha
    tauto

/-- The two calls of `onto` in a union are undone when the visited nodes are unmarked. -/
theorem onto_onto_unvisit (ho2 : onto visitChildren fuel ns h ([], []) = .ok (h2, acc2))
    (ho3 : onto visitChildren fuel ns2 h2 acc2 = .ok (h3, acc3)) : h3.unvisit acc3.2 = h := by
  obtain ⟨F, rfl, hmF, hsnd⟩ := onto_spec ho2
  obtain ⟨G, rfl, hFG, hsnd'⟩ := onto_spec ho3
  simp only [withMarks_rep, withMarks_marks, withMarks_withMarks, map_nil, not_mem_nil,
    false_or] at hFG hsnd hsnd' ⊢
  refine unvisit_collected (fun c => ?_) fun c hc => hFG c (hmF c hc)
  rw [hsnd', hsnd]
  tauto

end Onto

theorem unionWithoutEdgeDuplication_merged
    (hrep : ∀ i i' h₀ r h₁, infoCombine i i' h₀ = .ok (r, h₁) → h₁.rep = h₀.rep)
    (hu : unionWithoutEdgeDuplication fuel infoCombine visitChildren n n' h = .ok (m, h')) :
    ∃ h₁ g, infoCombine (h.findInfo n) (h.findInfo n') (h.ranked n n') = .ok (g.info, h₁) ∧
      h₁.rep = h.rep ∧ Merged h h₁ h' n n' m g ∧ g.visited = h₁.nodeIsVisited n' := by
  obtain ⟨g, h₁, hrep1, hg, hm⟩ := ufUnion_merged (by
    intro g g' h₀ r h₁ hr
    obtain ⟨⟨i, h2⟩, hi, hr⟩ := bind_ok hr
    obtain ⟨⟨h3, acc3⟩, ho3, hr⟩ := bind_ok hr
    obtain ⟨⟨h4, acc4⟩, ho4, hr⟩ := bind_ok hr
    cases hr
    rw [onto_onto_unvisit ho3 ho4, hrep _ _ _ _ _ hi]) hu
  obtain ⟨⟨i, h2⟩, hi, hr⟩ := bind_ok hg
  obtain ⟨⟨h3, acc3⟩, ho3, hr⟩ := bind_ok hr
  obtain ⟨⟨h4, acc4⟩, ho4, hr⟩ := bind_ok hr
  dsimp only at hr
  rw [onto_onto_unvisit ho3 ho4] at hr
  cases hr
  exact ⟨h₁, ⟨i, _, _, acc4.1⟩, hi, hrep1, hm, rfl⟩

end MLKit.DiGraph
