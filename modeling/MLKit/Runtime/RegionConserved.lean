import MLKit.Runtime.RegionGc

/-!
# Region pages are conserved

What holds of the pages of all regions after every sequence of operations.
-/

namespace MLKit.Runtime.Seq

open MLKit.Lib List

variable {cfg : Config} {m : Malloc} {h h' : Heap}

/-- The marks of a generation: the type its region was allocated with, and whether it
is the old generation. -/
def Heap.allocatedMarks (h : Heap) (g : Gen) : Nat := firstMarks g ||| (h.kind g.region).mark

/-- The pages of a generation. -/
structure PageList (cfg : Config) (h : Heap) (g : Gen) (l : List Nat) : Prop where
  nonempty : l ≠ []
  chain : Chain 0 h.next (cfg.clearFp (h.fp g)) l
  last : l.getLast? = some (lastRp (h.a g))
  owner : ∀ p ∈ l, h.owner p = some g
  marks : h.marks g = h.allocatedMarks g

/-- The pages of the generations on the region stack and the free pages are all the
pages there are, and no page is in two lists or twice in one. -/
def Conserved (cfg : Config) (h : Heap) : Prop :=
  ∃ (owned : List (Gen × List Nat)) (free : List Nat), (owned.map Prod.fst).Perm
    (h.regions.flatMap cfg.gens) ∧
    (∀ o ∈ owned, PageList cfg h o.1 o.2) ∧ Chain 0 h.next h.freelist free ∧
    (owned.flatMap Prod.snd ++ free).Nodup ∧
    (owned.flatMap Prod.snd ++ free).length = h.rpTotal

/-- The state between operations. -/
structure Stable (cfg : Config) (h : Heap) : Prop where
  doingGc : h.doingGc = false
  marks : ∀ g ∈ h.regions.flatMap cfg.gens, h.marks g = h.allocatedMarks g
  good : Good cfg (fun _ => True) h (h.regions.flatMap cfg.gens) []

theorem Stable.conserved (hs : Stable cfg h) : Conserved cfg h := by
  obtain ⟨owned, free, hperm, hne, hinv⟩ := hs.good
  refine ⟨owned, free, hperm.symm, fun o ho => ?_, hinv.freePages, ?_, ?_⟩
  · have hg := hinv.gen o ho
    refine ⟨hne o ho, hg.plainChain (hinv.plain o ho trivial), ?_, hg.owner, ?_⟩
    · obtain ⟨p, hp⟩ : ∃ p, o.2.getLast? = some p :=
        Option.isSome_iff_exists.1 (by simpa using hne o ho)
      rw [hg.lastRp_eq hp]
      exact hp
    · exact hs.marks o.1 (hperm.mem_iff.2 (mem_map_of_mem ho))
  · simpa only [append_nil] using hinv.pages.nodup
  · simpa only [append_nil] using hinv.pages.total

theorem stable_initial (cfg : Config) : Stable cfg Heap.initial where
  doingGc := rfl
  marks := by simp [Heap.initial]
  good := by
    refine ⟨[], [], List.Perm.refl _, by simp, nodup_nil, by simp, by simp, rfl, by simp, ?_⟩
    exact ⟨nodup_nil, rfl, by simp, by simp⟩

theorem Stable.of_frame (hs : Stable cfg h) (hframe : Frame h h')
    (hgood : Good cfg (fun _ => True) h' (h.regions.flatMap cfg.gens) []) : Stable cfg h' where
  doingGc := hframe.doingGc.trans hs.doingGc
  marks := by
    intro g hg
    rw [hframe.regions] at hg
    rw [hframe.marks, hs.marks g hg, Heap.allocatedMarks, Heap.allocatedMarks, hframe.kind]
  good := by
    rw [hframe.regions]
    exact hgood

/-! ## Each operation -/

variable {r n fuel : Nat} {kind : RType} {regions : List Nat} {events : List GcEvent} {major : Bool}
  {ops : List Op}

theorem allocateRegion_stable (m : Malloc) (hs : Stable cfg h) (hr : r ∉ h.regions)
    (hkind : cfg.enableGc = true ∨ kind = .tagged) :
    Stable cfg (allocateRegion cfg m r kind h) := by
  have hnew : ∀ g ∈ cfg.gens r, g ∉ h.regions.flatMap cfg.gens := by
    intro g hg hmem
    obtain ⟨r', hr', hg'⟩ := mem_flatMap.1 hmem
    have heq : r' = r := (Config.mem_gens hg').1.symm.trans (Config.mem_gens hg).1
    exact hr (heq ▸ hr')
  have hgens : (cfg.gens r).Nodup := by
    rw [Config.gens]
    split <;> simp
  have hnodup : (cfg.gens r ++ h.regions.flatMap cfg.gens).Nodup := by
    refine nodup_append.2 ⟨hgens, hs.good.nodup, ?_⟩
    rintro g hg g' hg' rfl
    exact hnew g hg hg'
  have hold : ∀ g ∈ cfg.gens r, g.old = true → cfg.enableGc = true :=
    fun g hg hgold => cfg.gc_of_gen ((Config.mem_gens hg).2 hgold)
  obtain ⟨hgood1, hgc1, hregions1, hkind1, hmarks1⟩ :=
    firstBlocks_good m hs.good hnodup hold hs.doingGc rfl
  rw [allocateRegion, allocateRegion0]
  generalize hh1 : (cfg.gens r).foldl (fun h g => firstBlock cfg m g h) h = h1 at *
  have hgood2 : Good cfg (fun _ => True) { h1 with regions := r :: h1.regions }
      (cfg.gens r ++ h.regions.flatMap cfg.gens) [] :=
    hgood1.withStack _ _ _ _
  have hmark : kind.mark < 8 := by cases kind <;> decide
  obtain ⟨hgood3, hgc3, hregions3, hkind3, hmarks3⟩ := setKind_good hmark
    (hkind.imp_right fun htagged => by rw [htagged]; rfl) hgood2 hgens
    (fun g hg => mem_append_left _ hg) rfl
  generalize hh3 : (cfg.gens r).foldl (fun h g => h.setFpOf g (setFp (h.fp g) kind.mark))
    { h1 with regions := r :: h1.regions } = h3 at *
  have hstack : h3.regions = r :: h.regions := by
    rw [hregions3]
    exact congrArg _ hregions1
  constructor
  case doingGc => exact hgc3.trans hgc1
  case good =>
    rw [hstack]
    exact hgood3.withStack _ _ _ _
  case marks =>
    intro g (hg : g ∈ h3.regions.flatMap cfg.gens)
    rw [hstack, flatMap_cons, mem_append] at hg
    show h3.marks g = firstMarks g ||| (Function.update h3.kind r kind g.region).mark
    have hmarks2 : ({ h1 with regions := r :: h1.regions } : Heap).marks g = h1.marks g := rfl
    have hkind2 : h3.kind = h.kind := hkind3.trans hkind1
    rw [hmarks3, hmarks2, hmarks1]
    rcases hg with hg | hg
    · rw [if_pos hg, if_pos hg, (Config.mem_gens hg).1, Function.update_self, firstMarks]
      split <;> rfl
    · have hout : g ∉ cfg.gens r := fun hg' => hnew g hg' hg
      obtain ⟨r', hr', hgr'⟩ := mem_flatMap.1 hg
      have hne : g.region ≠ r := by
        rw [(Config.mem_gens hgr').1]
        rintro rfl
        exact hr hr'
      rw [if_neg hout, if_neg hout, Function.update_of_ne hne, hkind2]
      exact hs.marks g hg

theorem alloc_stable (m : Malloc) (hs : Stable cfg h) (hr : r ∈ h.regions) :
    Stable cfg (allocGen cfg m ⟨r, false⟩ n h) := by
  have hmem : (⟨r, false⟩ : Gen) ∈ h.regions.flatMap cfg.gens := mem_flatMap.2 ⟨r, hr, .head _⟩
  obtain ⟨hgood, hframe⟩ := allocGen_good hs.good hmem fun _ => hs.doingGc
  exact hs.of_frame hframe hgood

theorem resetRegion_stable (hs : Stable cfg h) (hr : r ∈ h.regions) :
    Stable cfg (resetRegion cfg r h) := by
  obtain ⟨hgood, hframe⟩ := resetGens_good hs.good
    (fun g hg => mem_flatMap.2 ⟨r, hr, hg⟩) (fun _ _ => trivial) rfl
  exact hs.of_frame hframe hgood

theorem deallocateRegion_stable (hs : Stable cfg h) (hr : h.regions = r :: regions) :
    ∃ h', deallocateRegion cfg h = some h' ∧ h'.regions = regions ∧ Stable cfg h' := by
  have hgood := hs.good
  rw [hr, flatMap_cons] at hgood
  obtain ⟨hgood', hframe⟩ := freeGens_good hgood (fun _ _ => trivial) rfl
  refine ⟨_, by rw [deallocateRegion, hr], rfl, ?_⟩
  constructor
  case doingGc => exact hframe.doingGc.trans hs.doingGc
  case good => exact hgood'.withStack _ _ _ _
  case marks =>
    intro g (hg : g ∈ regions.flatMap cfg.gens)
    have hmem : g ∈ h.regions.flatMap cfg.gens := by
      rw [hr, flatMap_cons]
      exact mem_append_right _ hg
    refine (hframe.marks g).trans ((hs.marks g hmem).trans ?_)
    rw [Heap.allocatedMarks, Heap.allocatedMarks]
    rw [hframe.kind]

/-- The loop ends at a region above the address. -/
theorem deallocateLoop_stable (hs : Stable cfg h) (hr : ∃ r' ∈ h.regions, r < r')
    (hfuel : h.regions.length < fuel) :
    ∃ h', deallocateLoop cfg r fuel h = some h' ∧ Stable cfg h' := by
  induction fuel generalizing h with
  | zero => omega
  | succ fuel ih =>
    rw [deallocateLoop]
    obtain ⟨r', hr', hlt⟩ := hr
    cases hregions : h.regions with
    | nil => simp [hregions] at hr'
    | cons top regions =>
      dsimp only
      by_cases htop : top ≤ r
      · obtain ⟨h1, heq, hstack, hs1⟩ := deallocateRegion_stable hs hregions
        rw [if_pos htop, heq, Option.bind_some]
        apply ih hs1
        · rw [hregions, mem_cons] at hr'
          rw [hstack]
          exact ⟨r', hr'.resolve_left (by omega), hlt⟩
        · rw [hregions, length_cons] at hfuel
          rw [hstack]
          omega
      · rw [if_neg htop]
        exact ⟨h, rfl, hs⟩

theorem gc_stable (m : Malloc) (hs : Stable cfg h) (hgc : cfg.enableGc = true)
    (hregions : h.regions ≠ [])
    (hevents : ∀ event ∈ events, event.gen ∈ h.regions.flatMap cfg.gens) :
    ∃ h', gc cfg m major events h = some h' ∧ Stable cfg h' := by
  have hgood0 : Good cfg (fun _ => True) { h with doingGc := true, majorP := major }
      (h.regions.flatMap cfg.gens) [] := hs.good.withStack _ _ _ _
  obtain ⟨moved, hne, hgood1, hframe1⟩ := mkFromSpace_good m hgc hgood0 hregions
  obtain ⟨hgood2, hframe2⟩ := gcEvents_good m hgc hgood1 hevents
  have hgood3 := freeFromSpace_good hgood2 hne
  have hframe3 := (hframe1.trans hframe2).trans (freeFromSpace_frame _)
  obtain ⟨h4, heq, hgood4, hframe4⟩ := clearTospaceGens_good hgood3 fun g hg => hg
  have hframe := hframe3.trans hframe4
  refine ⟨{ h4 with doingGc := false }, ?_, ?_⟩
  · rw [gc, hframe3.regions, heq]
    rfl
  · constructor
    case doingGc => rfl
    case good =>
      rw [hframe.regions]
      exact (hgood4.weaken fun g hg _ => Or.inr hg).withStack _ _ _ _
    case marks =>
      intro g (hg : g ∈ h4.regions.flatMap cfg.gens)
      rw [hframe.regions] at hg
      refine (hframe.marks g).trans ((hs.marks g hg).trans ?_)
      rw [Heap.allocatedMarks, Heap.allocatedMarks, hframe.kind]

/-! ## All operations -/

theorem op_stable (m : Malloc) {op : Op} (hs : Stable cfg h) (hadm : op.Admissible cfg h) :
    ∃ h', op.run cfg m h = some h' ∧ Stable cfg h' := by
  cases op with
  | allocateRegion r kind => exact ⟨_, rfl, allocateRegion_stable m hs hadm.1 hadm.2⟩
  | alloc r n => exact ⟨_, rfl, alloc_stable m hs hadm.1⟩
  | resetRegion r => exact ⟨_, rfl, resetRegion_stable hs hadm⟩
  | deallocateRegion =>
    obtain ⟨r, regions, hr⟩ := exists_cons_of_ne_nil hadm
    obtain ⟨h', heq, -, hs'⟩ := deallocateRegion_stable hs hr
    exact ⟨h', heq, hs'⟩
  | deallocateRegionsUntil r => exact deallocateLoop_stable hs hadm (Nat.lt_succ_self _)
  | gc major events => exact gc_stable m hs hadm.1 hadm.2.1 hadm.2.2

theorem runs_stable (hs : Stable cfg h) (hruns : Runs cfg m ops h h') : Stable cfg h' := by
  induction hruns with
  | nil h => exact hs
  | cons hadm hrun hrest ih =>
    obtain ⟨h1, heq, hs1⟩ := op_stable m hs hadm
    obtain rfl := Option.some.inj (heq.symm.trans hrun)
    exact ih hs1

/-- After every sequence of operations the pages are conserved, and the next operation
ends. -/
theorem region_pages_conserved {ops : List Op} (hruns : Runs cfg m ops Heap.initial h) :
    Conserved cfg h ∧
      ∀ op : Op, op.Admissible cfg h → ∃ h', op.run cfg m h = some h' ∧ Conserved cfg h' := by
  have hs := runs_stable (stable_initial cfg) hruns
  refine ⟨hs.conserved, fun op hadm => ?_⟩
  obtain ⟨h', heq, hs'⟩ := op_stable m hs hadm
  exact ⟨h', heq, hs'.conserved⟩

/-- An allocator that never reuses memory. -/
def bumpMalloc : Malloc where
  addr := fun chunks _ => chunks.foldr (fun c next => next + (c.1 + c.2)) 1
  pos := by
    intro chunks _
    induction chunks with
    | nil => exact Nat.one_pos
    | cons c chunks ih => exact Nat.lt_of_lt_of_le ih (Nat.le_add_right _ _)
  fresh := by
    rintro chunks _ x hle - ⟨c, hc, -, hlt⟩
    induction chunks with
    | nil => cases hc
    | cons d chunks ih =>
      rw [foldr_cons] at hle
      rcases mem_cons.1 hc with rfl | hc
      · omega
      · exact ih (by omega) hc

def genGc : Config where
  enableGc := true
  enableGenGc := true
  gc_of_gen := fun _ => rfl

theorem pair_region_collected :
    ∃ h, Runs genGc bumpMalloc [.allocateRegion 8000 .pair] Heap.initial h ∧
      ∃ h', (Op.gc true [.copy ⟨8000, true⟩ 3, .scanned ⟨8000, true⟩]).run genGc bumpMalloc h =
        some h' ∧ Conserved genGc h' := by
  have hruns : Runs genGc bumpMalloc [.allocateRegion 8000 .pair] Heap.initial
      (allocateRegion genGc bumpMalloc 8000 .pair Heap.initial) :=
    .cons ⟨by simp [Heap.initial], Or.inl rfl⟩ rfl (.nil _)
  have hregions : (allocateRegion genGc bumpMalloc 8000 .pair Heap.initial).regions = [8000] := rfl
  refine ⟨_, hruns, (region_pages_conserved hruns).2 _ ⟨rfl, ?_, ?_⟩⟩
  · exact cons_ne_nil _ _
  · rw [hregions]
    simp [GcEvent.gen, Config.gens, genGc]

end MLKit.Runtime.Seq
