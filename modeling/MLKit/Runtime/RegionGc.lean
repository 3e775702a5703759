import MLKit.Runtime.RegionSteps

/-!
# Regions and the collector

The operations on regions and the collector, as sequences of steps on generations.
-/

namespace MLKit.Runtime.Seq

open MLKit.Lib Function List Nat

variable {cfg : Config}
  {gens gs : List Gen}

/-! ## All generations have pages -/

def Good (cfg : Config) (P : Gen → Prop) (h : Heap) (gens : List Gen) (moved : List Nat) : Prop :=
  ∃ owned free, gens.Perm (owned.map Prod.fst) ∧ (∀ o ∈ owned, o.2 ≠ []) ∧
    Inv cfg P h owned free moved

variable {α : Type*} {h h' : Heap} {moved l free : List Nat} {P Q : Gen → Prop} {g : Gen}
  {step : Heap → α → Heap} {m : Malloc} {n fp c r fuel p : Nat} {rest : List (Gen × List Nat)}
  {event : GcEvent}

section

variable (hgood : Good cfg P h gens moved)

include hgood

theorem Good.weaken (hPQ : ∀ g ∈ gens, Q g → P g) : Good cfg Q h gens moved := by
  obtain ⟨owned, free, hperm, hne, hinv⟩ := hgood
  refine ⟨owned, free, hperm, hne, hinv.weaken fun o ho => hPQ o.1 ?_⟩
  exact hperm.mem_iff.2 (mem_map_of_mem ho)

theorem Good.nodup : gens.Nodup := by
  obtain ⟨owned, free, hperm, -, hinv⟩ := hgood
  exact hperm.nodup_iff.2 hinv.keys

theorem Good.perm (hperm : gens.Perm gs) : Good cfg P h gs moved := by
  obtain ⟨owned, free, howned, hne, hinv⟩ := hgood
  exact ⟨owned, free, hperm.symm.trans howned, hne, hinv⟩

/-- Only what the page lists are made of matters. -/
theorem Good.withStack (regions : List Nat) (kind : Nat → RType) (doingGc majorP : Bool) :
    Good cfg P { h with regions, kind, doingGc, majorP } gens moved := by
  obtain ⟨owned, free, hperm, hne, hinv⟩ := hgood
  exact ⟨owned, free, hperm, hne, hinv.keys,
    fun o ho => (hinv.gen o ho).congr rfl rfl fun _ _ => ⟨rfl, rfl⟩, hinv.plain, hinv.freePages,
    hinv.fromSpace, hinv.pages.perm _ (List.Perm.refl _) rfl rfl⟩

theorem Good.focus (hg : g ∈ gens) :
    ∃ l rest free, gens.Perm (g :: rest.map Prod.fst) ∧ l ≠ [] ∧ (∀ o ∈ rest, o.2 ≠ []) ∧
      Inv cfg P h ((g, l) :: rest) free moved := by
  obtain ⟨owned, free, hperm, hne, hinv⟩ := hgood
  obtain ⟨⟨g', l⟩, ho, rfl⟩ := mem_map.1 (hperm.mem_iff.1 hg)
  obtain ⟨o1, o2, rfl⟩ := append_of_mem ho
  have hfront : (o1 ++ (g', l) :: o2).Perm ((g', l) :: (o1 ++ o2)) := perm_middle
  refine ⟨l, o1 ++ o2, free, ?_, ?_, ?_, hinv.perm hfront⟩
  · exact hperm.trans (hfront.map _)
  · exact hne _ ho
  · intro o ho
    exact hne o (hfront.mem_iff.2 (.tail _ ho))

/-- A step on one generation. -/
theorem Good.on (hg : g ∈ gens)
    (hstep : ∀ l rest free, l ≠ [] → Inv cfg P h ((g, l) :: rest) free moved →
      ∃ l' free', l' ≠ [] ∧ Inv cfg P h' ((g, l') :: rest) free' moved ∧ Frame h h') :
    Good cfg P h' gens moved ∧ Frame h h' := by
  obtain ⟨l, rest, free, hperm, hl, hrest, hinv⟩ := hgood.focus hg
  obtain ⟨l', free', hl', hinv', hframe⟩ := hstep l rest free hl hinv
  exact ⟨⟨(g, l') :: rest, free', hperm, forall_mem_cons.2 ⟨hl', hrest⟩, hinv'⟩, hframe⟩

/-- One step for each element of a list. -/
theorem Good.foldl {xs : List α}
    (hstep : ∀ h, ∀ x ∈ xs, Good cfg P h gens moved → Good cfg P (step h x) gens moved ∧
      Frame h (step h x)) :
    Good cfg P (xs.foldl step h) gens moved ∧ Frame h (xs.foldl step h) := by
  induction xs generalizing h with
  | nil => exact ⟨hgood, Frame.refl h⟩
  | cons x xs ih =>
    obtain ⟨hgood1, hframe1⟩ := hstep h x (.head _) hgood
    obtain ⟨hgood2, hframe2⟩ := ih hgood1 fun h y hy => hstep h y (.tail _ hy)
    exact ⟨hgood2, hframe1.trans hframe2⟩

end

/-! ## Regions -/

section Regions

theorem allocGen_good (hgood : Good cfg P h gens moved) (hg : g ∈ gens)
    (hP : P g → h.doingGc = false) :
    Good cfg P (allocGen cfg m g n h) gens moved ∧ Frame h (allocGen cfg m g n h) :=
  hgood.on hg fun _ _ _ hl hinv => allocGen_inv m n hinv hl hP

theorem resetGen_good (hgood : Good cfg P h gens moved) (hg : g ∈ gens) (hP : P g) :
    Good cfg P (resetGen cfg g h) gens moved ∧ Frame h (resetGen cfg g h) :=
  hgood.on hg fun _ _ _ hl hinv => resetGen_inv hinv hl hP

theorem setFpOf_good (hgood : Good cfg P h gens moved) (hg : g ∈ gens)
    (hfp : cfg.clearFp fp = cfg.clearFp (h.fp g)) : Good cfg P (h.setFpOf g fp) gens moved := by
  obtain ⟨l, rest, free, hperm, hl, hrest, hinv⟩ := hgood.focus hg
  exact ⟨(g, l) :: rest, free, hperm, forall_mem_cons.2 ⟨hl, hrest⟩, hinv.setFpOf hfp⟩

theorem freeGen_good (hgood : Good cfg P h (g :: gens) moved) (hP : P g) :
    Good cfg P (freeGen cfg g h) gens moved := by
  obtain ⟨l, rest, free, hperm, hl, hrest, hinv⟩ := hgood.focus (.head _)
  exact ⟨rest, l ++ free, List.Perm.cons_inv hperm, hrest, freeGen_inv hinv hl hP⟩

/-- The marks that a generation has before the type of its region is set. -/
def firstMarks (g : Gen) : Nat := if g.old then setFp 0 generation else 0

theorem clearFp_firstMarks (hold : g.old = true → cfg.enableGc = true) :
    cfg.clearFp (firstMarks g) = 0 := by
  rw [firstMarks]
  split
  · next h =>
      rw [cfg.clearFp_eq (hold h)]
      rfl
  · exact cfg.clearFp_of_aligned (Nat.dvd_zero _)

theorem firstBlock_good (m : Malloc) (hgood : Good cfg P h gens moved) (hg : g ∉ gens)
    (hold : g.old = true → cfg.enableGc = true) (hgc : h.doingGc = false) :
    Good cfg P (firstBlock cfg m g h) (g :: gens) moved ∧
      Frame (h.setFpOf g (firstMarks g)) (firstBlock cfg m g h) := by
  obtain ⟨owned, free, hperm, hne, hinv⟩ := hgood
  have hadd := hinv.addGen (fun hmem => hg (hperm.mem_iff.2 hmem)) (clearFp_firstMarks hold)
  obtain ⟨np, free', hinv', hframe, -⟩ := expandGen_inv hadd fun _ => hgc
  refine ⟨⟨(g, [np]) :: owned, free', hperm.cons g, ?_, hinv'⟩, hframe⟩
  exact forall_mem_cons.2 ⟨cons_ne_nil _ _, hne⟩

/-- The first pages of the generations of a region. -/
theorem firstBlocks_good (m : Malloc) (hgood : Good cfg P h gens moved) (hgs : (gs ++ gens).Nodup)
    (hold : ∀ g ∈ gs, g.old = true → cfg.enableGc = true) (hgc : h.doingGc = false)
    (hh' : h' = gs.foldl (fun h g => firstBlock cfg m g h) h) :
    Good cfg P h' (gs ++ gens) moved ∧ h'.doingGc = false ∧ h'.regions = h.regions ∧
      h'.kind = h.kind ∧
      ∀ g, h'.marks g = if g ∈ gs then firstMarks g &&& 0x17 else h.marks g := by
  induction gs generalizing h gens with
  | nil =>
    subst hh'
    exact ⟨hgood, hgc, rfl, rfl, fun g => rfl⟩
  | cons g gs ih =>
    have hmid : (gs ++ g :: gens).Nodup := perm_middle.nodup_iff.2 hgs
    have hg : g ∉ gens := fun hmem => (nodup_cons.1 hgs).1 (mem_append_right _ hmem)
    have hgs' : g ∉ gs := fun hmem => (nodup_cons.1 hgs).1 (mem_append_left _ hmem)
    obtain ⟨hgood1, hframe⟩ := firstBlock_good m hgood hg (hold g (.head _)) hgc
    obtain ⟨hgood2, hgc2, hregions, hkind, hmarks⟩ := ih hgood1 hmid
      (fun g' hg' => hold g' (.tail _ hg')) (hframe.doingGc.trans hgc) hh'
    refine ⟨hgood2.perm perm_middle, hgc2, hregions.trans hframe.regions,
      hkind.trans hframe.kind, fun g' => ?_⟩
    rw [hmarks, hframe.marks, setFpOf_marks]
    by_cases heq : g' = g
    · subst heq
      rw [if_neg hgs', if_pos rfl, if_pos (.head _)]
    · simp only [heq, if_false, mem_cons, false_or]

/-- The type of a region is stored in its generations. -/
theorem setKind_good (hc : c < 8) (hgc : cfg.enableGc = true ∨ c = 0)
    (hgood : Good cfg P h gens moved) (hgs : gs.Nodup) (hsub : ∀ g ∈ gs, g ∈ gens)
    (hh' : h' = gs.foldl (fun h g => h.setFpOf g (setFp (h.fp g) c)) h) :
    Good cfg P h' gens moved ∧ h'.doingGc = h.doingGc ∧ h'.regions = h.regions ∧
      h'.kind = h.kind ∧ ∀ g, h'.marks g = if g ∈ gs then h.marks g ||| c else h.marks g := by
  have hlow : c &&& 0x17 = c := by
    have hall : ∀ c < 8, c &&& 0x17 = c := by decide
    exact hall c hc
  induction gs generalizing h with
  | nil =>
    subst hh'
    exact ⟨hgood, rfl, rfl, rfl, fun g => rfl⟩
  | cons g gs ih =>
    have hfp : cfg.clearFp (setFp (h.fp g) c) = cfg.clearFp (h.fp g) := by
      rcases hgc with hgc | rfl
      · exact cfg.clearFp_setFp (by omega) hgc _
      · rw [setFp, or_zero]
    have hgood1 := setFpOf_good hgood (hsub g (.head _)) hfp
    obtain ⟨hgood2, hdoing, hregions, hkind, hmarks⟩ := ih hgood1 (nodup_cons.1 hgs).2
      (fun g' hg' => hsub g' (.tail _ hg')) hh'
    refine ⟨hgood2, hdoing, hregions, hkind, fun g' => ?_⟩
    rw [hmarks, setFpOf_marks]
    by_cases heq : g' = g
    · subst heq
      rw [if_neg (nodup_cons.1 hgs).1, if_pos rfl, if_pos (.head _), setFp,
        and_or_distrib_right, hlow]
      rfl
    · simp only [heq, if_false, mem_cons, false_or]

theorem resetGens_good (hgood : Good cfg P h gens moved) (hsub : ∀ g ∈ gs, g ∈ gens)
    (hP : ∀ g ∈ gs, P g) (hh' : h' = gs.foldl (fun h g => resetGen cfg g h) h) :
    Good cfg P h' gens moved ∧ Frame h h' := by
  subst hh'
  exact hgood.foldl fun h g hg hgood => resetGen_good hgood (hsub g hg) (hP g hg)

theorem freeGens_good (hgood : Good cfg P h (gs ++ gens) moved) (hP : ∀ g ∈ gs, P g)
    (hh' : h' = gs.foldl (fun h g => freeGen cfg g h) h) :
    Good cfg P h' gens moved ∧ Frame h h' := by
  induction gs generalizing h with
  | nil =>
    subst hh'
    exact ⟨hgood, Frame.refl _⟩
  | cons g gs ih =>
    obtain ⟨hgood2, hframe⟩ := ih (freeGen_good hgood (hP g (.head _)))
      (fun g' hg' => hP g' (.tail _ hg')) hh'
    exact ⟨hgood2, (freeGen_frame).trans hframe⟩

end Regions

/-! ## The collector -/

section Gc

/-- The pages of a generation go to from-space, and it gets a new page. -/
theorem mkFromSpaceGen_inv (m : Malloc) (hinv : Inv cfg P h ((g, l) :: rest) free moved)
    (hl : l ≠ []) (hP : P g) (hQ : ∀ g', Q g' → P g') (hQg : ¬ Q g) (hgc : cfg.enableGc = true)
    (hstart : moved = [] → h.fromSpaceBegin = 0 ∧ h.fromSpaceEnd = lastRp (h.a g)) :
    ∃ np free', Inv cfg Q (mkFromSpaceGen cfg m g h) ((g, [np]) :: rest) free' (l ++ moved) ∧
      Frame h (mkFromSpaceGen cfg m g h) := by
  have hg : GenInv cfg h g l := hinv.gen (g, l) (.head _)
  obtain ⟨last, hlast⟩ : ∃ p, l.getLast? = some p := Option.isSome_iff_exists.1 (by simpa using hl)
  obtain ⟨hrest, hfree, hmoved⟩ := hinv.last_apart hlast
  have hperm : (l ++ rest.flatMap Prod.snd ++ free ++ moved).Perm
      ([] ++ rest.flatMap Prod.snd ++ free ++ (l ++ moved)) := by
    rw [nil_append, ← append_assoc]
    refine List.Perm.append_right _ ?_
    rw [append_assoc]
    exact perm_append_comm
  have hlt : allMarksFp (h.fp g) < 32 := lt_succ_of_le and_le_right
  have hclear : cfg.clearFp (setFp 0 (allMarksFp (h.fp g))) = 0 := by
    rw [cfg.clearFp_setFp hlt hgc]
    exact cfg.clearFp_of_aligned (Nat.dvd_zero _)
  have hmarks : setFp 0 (allMarksFp (h.fp g)) &&& 0x17 = h.marks g := setFp_page (Nat.dvd_zero _) _
  have hfromChain : Chain 0 h.next h.fromSpaceBegin moved := by
    cases moved with
    | nil => exact (hstart rfl).1
    | cons p moved => exact (hinv.fromSpace (cons_ne_nil _ _)).1
  have hfromEnd : (l ++ moved).getLast? = some h.fromSpaceEnd := by
    cases moved with
    | nil => rw [append_nil, hlast, (hstart rfl).2, hg.lastRp_eq hlast]
    | cons p moved =>
      rw [List.getLast?_append_of_ne_nil _ (cons_ne_nil _ _)]
      exact (hinv.fromSpace (cons_ne_nil _ _)).2
  have hempty : Inv cfg P
      ({ h.setNext last h.fromSpaceBegin with fromSpaceBegin := cfg.clearFp (h.fp g) }.setFpOf g
        (setFp 0 (allMarksFp (h.fp g)))) ((g, []) :: rest) free (l ++ moved) := by
    refine hinv.update ?_ (setNext_other hrest _) ⟨?_, by simp, by simp⟩ (by simp) ?_ ?_
      (hinv.pages.perm _ hperm rfl rfl)
    · intro g' hg'
      exact ⟨update_of_ne hg' _ _, rfl⟩
    · show cfg.clearFp (update h.fp g _ g) = 0
      rw [update_self]
      exact hclear
    · exact hinv.freePages.update_of_not_mem hfree _
    · intro _
      refine ⟨?_, hfromEnd⟩
      exact (hg.plainChain (hinv.plain (g, l) (.head _) hP)).splice hlast hmoved hfromChain
  have hempty' := hempty.weaken (Q := Q) fun o _ hQo => hQ o.1 hQo
  obtain ⟨np, free', hinv', hframe, -⟩ := expandGen_inv hempty' fun hQg' => absurd hQg' hQg
  rw [mkFromSpaceGen, hg.lastRp_eq hlast]
  refine ⟨np, free', hinv', Frame.trans ?_ hframe⟩
  have hset := setFpOf_frame
    (h := { h.setNext last h.fromSpaceBegin with fromSpaceBegin := cfg.clearFp (h.fp g) }) hmarks
  exact ⟨hset.regions, hset.kind, hset.doingGc, hset.marks⟩

theorem mkFromSpaceGen_good (m : Malloc) (hgood : Good cfg (· ∈ g :: gs) h gens moved)
    (hg : g ∈ gens) (hgs : g ∉ gs) (hgc : cfg.enableGc = true)
    (hstart : moved = [] → h.fromSpaceBegin = 0 ∧ h.fromSpaceEnd = lastRp (h.a g)) :
    ∃ moved', moved' ≠ [] ∧ Good cfg (· ∈ gs) (mkFromSpaceGen cfg m g h) gens moved' ∧
      Frame h (mkFromSpaceGen cfg m g h) := by
  obtain ⟨l, rest, free, hperm, hl, hrest, hinv⟩ := hgood.focus hg
  obtain ⟨np, free', hinv', hframe⟩ := mkFromSpaceGen_inv m hinv hl (.head _)
    (fun g' hg' => .tail _ hg') hgs hgc hstart
  refine ⟨l ++ moved, ?_, ⟨(g, [np]) :: rest, free', hperm, ?_, hinv'⟩, hframe⟩
  · intro hnil
    exact hl (append_eq_nil_iff.1 hnil).1
  · exact forall_mem_cons.2 ⟨cons_ne_nil _ _, hrest⟩

theorem mkFromSpaceGens_good (m : Malloc) (hgood : Good cfg (· ∈ gs) h gens moved) (hgs : gs.Nodup)
    (hsub : ∀ g ∈ gs, g ∈ gens) (hgc : cfg.enableGc = true) (hmoved : moved ≠ [])
    (hh' : h' = gs.foldl (fun h g => mkFromSpaceGen cfg m g h) h) :
    ∃ moved', moved' ≠ [] ∧ Good cfg (· ∈ ([] : List Gen)) h' gens moved' ∧ Frame h h' := by
  induction gs generalizing h moved with
  | nil =>
    subst hh'
    exact ⟨moved, hmoved, hgood, Frame.refl _⟩
  | cons g gs ih =>
    obtain ⟨hg, hgs⟩ := nodup_cons.1 hgs
    obtain ⟨moved1, hne, hgood1, hframe1⟩ := mkFromSpaceGen_good m hgood (hsub g (.head _))
      hg hgc (fun hnil => absurd hnil hmoved)
    obtain ⟨moved2, hne2, hgood2, hframe2⟩ := ih hgood1 hgs
      (fun g' hg' => hsub g' (.tail _ hg')) hne hh'
    exact ⟨moved2, hne2, hgood2, hframe1.trans hframe2⟩

theorem Config.mem_gens (hg : g ∈ cfg.gens r) :
    g.region = r ∧ (g.old = true → cfg.enableGenGc = true) := by
  simp only [Config.gens, mem_cons] at hg
  rcases hg with rfl | hg
  · exact ⟨rfl, by simp⟩
  · split at hg
    · next hgen =>
        obtain rfl : g = ⟨r, true⟩ := by simpa using hg
        exact ⟨rfl, fun _ => hgen⟩
    · simp at hg

theorem mkFromSpace_good (m : Malloc) (hgc : cfg.enableGc = true)
    (hgood : Good cfg (fun _ => True) h (h.regions.flatMap cfg.gens) [])
    (hregions : h.regions ≠ []) :
    ∃ moved, moved ≠ [] ∧
      Good cfg (· ∈ ([] : List Gen)) (mkFromSpace cfg m h) (h.regions.flatMap cfg.gens) moved ∧
      Frame h (mkFromSpace cfg m h) := by
  have hsub : (h.regions.flatMap (collected cfg h.majorP)).Sublist (h.regions.flatMap cfg.gens) := by
    generalize h.regions = regions
    induction regions with
    | nil => exact List.Sublist.refl _
    | cons r regions ih => exact filter_sublist.append ih
  have hnodup := hsub.nodup hgood.nodup
  obtain ⟨r, regions, hr⟩ := exists_cons_of_ne_nil hregions
  -- the youngest region is moved first, so its last page is the end of from-space
  obtain ⟨gs, hgs⟩ : ∃ gs, h.regions.flatMap (collected cfg h.majorP) = ⟨r, false⟩ :: gs := by
    rw [hr, flatMap_cons, collected, Config.gens, filter_cons_of_pos (by simp)]
    exact ⟨_, rfl⟩
  rw [mkFromSpace]
  rw [hgs] at hsub hnodup ⊢
  obtain ⟨hg, hgsnodup⟩ := nodup_cons.1 hnodup
  generalize hh0 : ({ h with
      fromSpaceBegin := 0
      fromSpaceEnd := lastRp (h.a ⟨h.regions.headD 0, false⟩) } : Heap) = h0
  have hframe0 : Frame h h0 := by
    subst hh0
    exact ⟨rfl, rfl, rfl, fun _ => rfl⟩
  have hgood0 : Good cfg (· ∈ ⟨r, false⟩ :: gs) h0 (h.regions.flatMap cfg.gens) [] := by
    obtain ⟨owned, free, hperm, hne, hinv⟩ := hgood.weaken (Q := (· ∈ ⟨r, false⟩ :: gs))
      fun _ _ _ => trivial
    refine ⟨owned, free, hperm, hne, ?_⟩
    subst hh0
    exact ⟨hinv.keys, fun o ho => (hinv.gen o ho).congr rfl rfl fun _ _ => ⟨rfl, rfl⟩, hinv.plain,
      hinv.freePages, fun hnil => absurd rfl hnil,
      hinv.pages.perm _ (List.Perm.refl _) rfl rfl⟩
  have hstart : h0.fromSpaceBegin = 0 ∧ h0.fromSpaceEnd = lastRp (h0.a ⟨r, false⟩) := by
    subst hh0
    refine ⟨rfl, ?_⟩
    rw [hr]
    rfl
  obtain ⟨moved1, hne1, hgood1, hframe1⟩ := mkFromSpaceGen_good m hgood0
    (hsub.subset (.head _)) hg hgc fun _ => hstart
  obtain ⟨moved2, hne2, hgood2, hframe2⟩ := mkFromSpaceGens_good m hgood1 hgsnodup
    (fun g' hg' => hsub.subset (.tail _ hg')) hgc hne1 rfl
  exact ⟨moved2, hne2, hgood2, (hframe0.trans hframe1).trans hframe2⟩

theorem gcEvent_good (m : Malloc) (hgc : cfg.enableGc = true)
    (hgood : Good cfg (· ∈ ([] : List Gen)) h gens moved) (hevent : event.gen ∈ gens) :
    Good cfg (· ∈ ([] : List Gen)) (gcEvent cfg m h event) gens moved ∧
      Frame h (gcEvent cfg m h event) := by
  cases event with
  | copy g n =>
    obtain ⟨hgood1, hframe1⟩ := allocGen_good hgood hevent (fun hnil => absurd hnil (by simp))
    refine ⟨setFpOf_good hgood1 hevent (cfg.clearFp_setFp (by decide) hgc _), hframe1.trans ?_⟩
    exact setFpOf_frame (setFp_status_marks _)
  | scanned g =>
    refine ⟨setFpOf_good hgood hevent ?_, setFpOf_frame (clearStatus_marks _)⟩
    rw [cfg.clearFp_eq hgc, cfg.clearFp_eq hgc, clearStatus_low.1]

theorem gcEvents_good (m : Malloc) (hgc : cfg.enableGc = true) {events : List GcEvent}
    (hgood : Good cfg (· ∈ ([] : List Gen)) h gens moved)
    (hevents : ∀ event ∈ events, event.gen ∈ gens) :
    Good cfg (· ∈ ([] : List Gen)) (events.foldl (gcEvent cfg m) h) gens moved ∧
      Frame h (events.foldl (gcEvent cfg m) h) :=
  hgood.foldl fun _ event he hgood => gcEvent_good m hgc hgood (hevents event he)

theorem freeFromSpace_good (hgood : Good cfg P h gens moved) (hmoved : moved ≠ []) :
    Good cfg P (freeFromSpace h) gens [] := by
  obtain ⟨owned, free, hperm, hne, hinv⟩ := hgood
  obtain ⟨hchain, hend⟩ := hinv.fromSpace hmoved
  have hmem : h.fromSpaceEnd ∈ moved := mem_of_getLast? hend
  have hown : ∀ o ∈ owned, h.fromSpaceEnd ∉ o.2 := fun o ho hpo => hinv.moved_apart ho hpo hmem
  have hfree : h.fromSpaceEnd ∉ free := fun hpf => (hinv.free_apart hpf).2 hmem
  have hother := setNext_other (h := h) hown h.freelist
  refine ⟨owned, moved ++ free, hperm, hne, hinv.keys, ?_, ?_, ?_, fun hnil => absurd rfl hnil, ?_⟩
  · exact fun o ho => (hinv.gen o ho).congr rfl rfl (hother o ho)
  · intro o ho hP p hp
    have hsame : (freeFromSpace h).next p = h.next p := (hother o ho p hp).1
    rw [hsame]
    exact hinv.plain o ho hP p hp
  · exact hchain.splice hend hfree hinv.freePages
  · have hmove : (owned.flatMap Prod.snd ++ free ++ moved).Perm
        (owned.flatMap Prod.snd ++ (moved ++ free) ++ []) := by
      rw [append_nil, append_assoc]
      exact perm_append_comm.append_left _
    exact hinv.pages.perm _ hmove rfl rfl

theorem freeFromSpace_frame (h : Heap) : Frame h (freeFromSpace h) := ⟨rfl, rfl, rfl, fun _ => rfl⟩

/-- The pages of a list have left to-space. -/
def clearOn (h : Heap) (l : List Nat) : Heap :=
  { h with next := fun p => if p ∈ l then h.link p else h.next p }

theorem link_link (h : Heap) (p : Nat) : clearTospaceBit (h.link p) = h.link p :=
  clearTospaceBit_of_not (isTospaceBit_clearTospaceBit _)

theorem clearOn_link (h : Heap) (l : List Nat) : (clearOn h l).link = h.link := by
  funext p
  simp only [Heap.link, clearOn]
  split
  · exact link_link h p
  · rfl

theorem clearTospaceLoop_eq (hchain : Chain 0 h.link p l) (hfuel : l.length < fuel) :
    clearTospaceLoop fuel p h = some (clearOn h l) := by
  induction l generalizing fuel p h with
  | nil =>
    obtain ⟨fuel, rfl⟩ := exists_eq_succ_of_ne_zero (ne_of_gt hfuel)
    rw [Chain.nil_iff] at hchain
    rw [clearTospaceLoop, if_pos hchain, clearOn]
    simp
  | cons q l ih =>
    obtain ⟨fuel, rfl⟩ := exists_eq_succ_of_ne_zero (ne_of_gt (zero_lt_of_lt hfuel))
    have hnodup := nodup_cons.1 hchain.nodup
    obtain ⟨rfl, hne, hchain⟩ := hchain
    have hlink : (h.setNext p (clearTospaceBit (h.next p))).link = h.link := by
      rw [setNext_link]
      exact (congrArg _ (link_link h p)).trans (update_eq_self p h.link)
    have hself : (h.setNext p (clearTospaceBit (h.next p))).next p = h.link p := update_self _ _ _
    rw [clearTospaceLoop, if_neg hne]
    dsimp only
    rw [hself, ih (hlink ▸ hchain) (by simpa using hfuel), clearOn, clearOn, hlink]
    congr 2
    funext r
    by_cases hr : r = p
    · subst hr
      rw [if_neg hnodup.1, if_pos (.head _), hself]
    · simp only [mem_cons, hr, false_or]
      split
      · rfl
      · exact update_of_ne hr _ _

theorem clearOn_frame (h : Heap) (l : List Nat) : Frame h (clearOn h l) :=
  ⟨rfl, rfl, rfl, fun _ => rfl⟩

theorem clearOn_inv (hinv : Inv cfg P h ((g, l) :: rest) free moved) :
    Inv cfg (fun g' => P g' ∨ g' = g) (clearOn h l) ((g, l) :: rest) free moved := by
  have hg : GenInv cfg h g l := hinv.gen (g, l) (.head _)
  have hout : ∀ p, p ∉ l → (clearOn h l).next p = h.next p := fun p hp => if_neg hp
  have hclear : ∀ p ∈ l, isTospaceBit ((clearOn h l).next p) = false := by
    intro p hp
    have hin : (clearOn h l).next p = h.link p := if_pos hp
    rw [hin]
    exact isTospaceBit_clearTospaceBit _
  have hfree : ∀ p ∈ free, p ∉ l := fun p hp => (hinv.free_apart hp).1 (g, l) (.head _)
  have hmoved : ∀ p ∈ moved, p ∉ l := fun p hp hpl => hinv.moved_apart (.head _) hpl hp
  have hother : ∀ o ∈ rest, ∀ p ∈ o.2, (clearOn h l).next p = h.next p ∧
      (clearOn h l).owner p = h.owner p :=
    fun o ho p hp => ⟨hout p (hinv.rest_apart ho hp), rfl⟩
  have hinv' : Inv cfg P (clearOn h l) ((g, l) :: rest) free moved := by
    refine hinv.update (fun _ _ => ⟨rfl, rfl⟩) hother ⟨?_, hg.last, hg.owner⟩ (fun _ => hclear)
      (hinv.freePages.congr fun p hp => hout p (hfree p hp)) ?_
      (hinv.pages.perm _ (List.Perm.refl _) rfl rfl)
    · rw [clearOn_link]
      exact hg.chain
    · exact fun hne => (hinv.fromSpace hne).imp_left (Chain.congr fun p hp => hout p (hmoved p hp))
  refine { hinv' with plain := forall_mem_cons.2 ⟨fun _ => hclear, fun o ho hP => ?_⟩ }
  refine hinv'.plain o (.tail _ ho) (hP.resolve_right ?_)
  exact hinv.rest_ne ho

theorem clearTospaceLoop_good (hgood : Good cfg P h gens moved) (hg : g ∈ gens) :
    ∃ h', clearTospaceLoop (h.rpTotal + 1) (cfg.clearFp (h.fp g)) h = some h' ∧
      Good cfg (fun g' => P g' ∨ g' = g) h' gens moved ∧ Frame h h' := by
  obtain ⟨l, rest, free, hperm, hl, hrest, hinv⟩ := hgood.focus hg
  have hg : GenInv cfg h g l := hinv.gen (g, l) (.head _)
  have hlen : l.length < h.rpTotal + 1 := by
    have htotal := hinv.pages.total
    simp only [flatMap_cons, length_append] at htotal
    omega
  refine ⟨clearOn h l, clearTospaceLoop_eq hg.chain hlen, ?_, clearOn_frame h l⟩
  exact ⟨(g, l) :: rest, free, hperm, forall_mem_cons.2 ⟨hl, hrest⟩, clearOn_inv hinv⟩

theorem clearTospaceGens_good (hgood : Good cfg P h gens moved) (hsub : ∀ g ∈ gs, g ∈ gens) :
    ∃ h', clearTospaceGens cfg gs h = some h' ∧
      Good cfg (fun g => P g ∨ g ∈ gs) h' gens moved ∧ Frame h h' := by
  induction gs generalizing h P with
  | nil => exact ⟨h, rfl, hgood.weaken fun g _ hg => hg.resolve_right (by simp), Frame.refl h⟩
  | cons g gs ih =>
    obtain ⟨h1, heq, hgood1, hframe1⟩ := clearTospaceLoop_good hgood (hsub g (.head _))
    obtain ⟨h2, heq2, hgood2, hframe2⟩ := ih hgood1 fun g' hg' => hsub g' (.tail _ hg')
    refine ⟨h2, ?_, hgood2.weaken fun g' _ hg' => ?_, hframe1.trans hframe2⟩
    · rw [clearTospaceGens, heq]
      exact heq2
    · simpa only [mem_cons, or_assoc] using hg'

end Gc

end MLKit.Runtime.Seq
