import MLKit.X64.PeepholePasses
import Mathlib.Algebra.Order.BigOperators.Group.List
import Mathlib.Algebra.Order.Group.Nat

/-!
# The optimiser preserves programs

`opt` keeps the labels that are referred to and the runs of the code, unless labels lead back to each
other or live code refers to a label that only leads to itself. On labels that lead back to each
other `elim_jmp_jmp` does not end; a label that leads to itself is dropped although the jump to it
stays.
-/

namespace MLKit.X64.InstsX64

open MLKit.Lib Relation List Option

/-- Local labels are defined at most once, and those that are referred to are defined. -/
structure WellLabelled (is : List Inst) : Prop where
  nodup : (labelsIn localOf is).Nodup
  closed : Closed is

/-- The chain of a label ends in a label that is sent to itself. -/
def EndsInSelf (is : List Inst) (l : Label) : Prop :=
  ∃ s, ReflTransGen (Leads is) l s ∧ Leads is s s

/-- The label is sent on. -/
def isSent (is : List Inst) (l : Label) : Bool := ((links .other is).reverse.lookup l).isSome

/-- No labels lead back to each other, and no live instruction refers to a label that only leads to
itself. Labels that are sent on do not count as stops: they are dropped first. -/
structure Optimisable (is : List Inst) : Prop where
  noCycle : ¬ ∃ l, TransGen (fun l l' => Leads is l l' ∧ l ≠ l') l l
  live : ∀ i ∈ liveCode (isSent is) false is, ∀ l ∈ localRefs i, ¬ EndsInSelf is l

/-- The output refers only to labels that it defines once, and it has the runs of the input: from
the start, and from every label of the input whose new name is defined in the output. Labels that
are defined in the output are labels of the input and keep their names. -/
structure Preserves (ρ : Label → Label) (is out : List Inst) : Prop where
  defined : ∀ l ∈ refsIn out, (labelsIn localOf out).count l = 1
  fixed : ∀ l ∈ labelsIn localOf out, ρ l = l
  origin : ∀ k b, codeFrom labOf k out = some b → ∃ a, codeFrom labOf k is = some a
  start : SameRuns ρ is is out out
  label : ∀ k a b, codeFrom labOf k is = some a → codeFrom labOf (renameLab ρ k) out = some b →
    SameRuns ρ is a out b

/-- The second text has the runs of the first one, from the start and from its own labels. -/
structure Follows (P Q : List Inst) : Prop where
  start : SameRuns id P P Q Q
  label : ∀ k b, codeFrom labOf k Q = some b →
    ∃ a, codeFrom labOf k P = some a ∧ SameRuns id P a Q b
  labels : (labelsIn localOf Q).Sublist (labelsIn localOf P)

variable {P Q R is result a b out : List Inst} {refs dropped : Label → Prop} {cuts : Prop}
  {l s l' : Label} {dead : Bool} {E : Edit} {sent : Label → Bool} {i : Inst} {n : Nat}
  {im : LabelMap} {k : Lab}

theorem Follows.trans (h1 : Follows P Q) (h2 : Follows Q R) : Follows P R where
  start := h1.start.trans h2.start
  label k c hc := by
    obtain ⟨b, hb, hbc⟩ := h2.label k c hc
    obtain ⟨a, ha, hab⟩ := h1.label k b hb
    exact ⟨a, ha, hab.trans hbc⟩
  labels := h2.labels.trans h1.labels

section Plain

theorem follows_of_rewrites (hnodup : (labelsIn localOf P).Nodup)
    (hrefs : ∀ l, refs l → l ∈ labelsIn localOf P ∧ ¬ dropped l)
    (h : Rewrites (plainEdit refs dropped cuts) false P Q) : Follows P Q ∧ Closed Q := by
  have hedited : Edited (plainEdit refs dropped cuts) P Q := by
    refine ⟨h, hnodup, ?_⟩
    intro l hl
    obtain ⟨hmem, hkept⟩ := hrefs l hl
    obtain ⟨c, hc⟩ := mem_labelsIn_iff.1 hmem
    rw [← codeFrom_localOf] at hc
    exact ⟨hkept, c, c, hc, hc, .refl P c⟩
  refine ⟨⟨hedited.sameRuns_start, fun k b hb => hedited.sameRuns_lab hb, h.labels_sublist⟩, ?_⟩
  apply h.closed
  rintro l (hl | hl)
  · exact hrefs l hl
  · exact hrefs l hl

/-- A reference to a label that is not defined stays. -/
theorem dangling_kept (h : Rewrites (plainEdit refs dropped False) false P Q) (hl : l ∈ refsIn P)
    (hnot : l ∉ labelsIn localOf P) : l ∈ refsIn Q ∧ l ∉ labelsIn localOf Q := by
  have hnot' : l ∉ labelsIn localOf Q := fun hmem => hnot (h.labels_sublist.subset hmem)
  rcases h.refs_kept (fun hcuts => hcuts) (fun _ _ => rfl) hl with hl' | hl'
  · exact ⟨hl', hnot'⟩
  · exact absurd hl' hnot'

end Plain

theorem Appends.rewrites (h : Appends E dead is [] result) : Rewrites E dead is result := by
  obtain ⟨b, rfl, hrewrites⟩ := h
  exact hrewrites

theorem mem_labsUsedInsts (h : l ∈ refsIn is) : l ∈ labsUsedInsts is := by
  obtain ⟨i, hi, hl⟩ := mem_flatMap.1 h
  refine mem_flatMap.2 ⟨i, hi, ?_⟩
  cases hlab : labOf i with
  | some k =>
    cases i with
    | lab k => cases hl
    | _ => cases hlab
  | none =>
    rw [localRefs_of_labOf hlab] at hl
    obtain ⟨k, hk, hnumber⟩ := mem_filterMap.1 hl
    cases k with
    | localLab l' =>
      cases hnumber
      split
      · cases hlab
      · exact mem_filterMap.2 ⟨_, hk, rfl⟩
    | _ => cases hnumber

section Passes

variable (hnodup : (labelsIn localOf is).Nodup)

include hnodup

theorem follows_peepLoop
    (hlive : ∀ l, LiveRef (fun _ => false) false is l → l ∈ labelsIn localOf is) :
    Follows is (peepLoop is []) ∧ Closed (peepLoop is []) :=
  follows_of_rewrites hnodup (fun _ hl => ⟨hl, not_false⟩) (peepLoop_appends is [] hlive).rewrites

theorem follows_simplJmp (hclosed : Closed is) :
    Follows is (simplJmp is []) ∧ Closed (simplJmp is []) :=
  follows_of_rewrites hnodup (fun _ hl => ⟨hl, not_false⟩)
    (simplJmp_appends false is [] hclosed).rewrites

theorem follows_remUnusedLabs (hclosed : Closed is) :
    Follows is (remUnusedLabs (labsUsedInsts is) is []) ∧
      Closed (remUnusedLabs (labsUsedInsts is) is []) :=
  follows_of_rewrites hnodup
    (fun l hl => ⟨hclosed l hl, fun hunused => hunused (mem_labsUsedInsts hl)⟩)
    (remUnusedLabs_appends false is [] fun _ hl => hl).rewrites

theorem follows_alignlabs (hclosed : Closed is) :
    Follows is (alignlabs is) ∧ Closed (alignlabs is) :=
  follows_of_rewrites hnodup (fun _ hl => ⟨hl, not_false⟩)
    (alignLoop_appends false is [] hclosed).rewrites

/-- `peep` and `alignlabs` keep runs on a text whose live code refers to labels that it defines. -/
theorem follows_peep (hlive : ∀ l, LiveRef (fun _ => false) false is l → l ∈ labelsIn localOf is) :
    Follows is (alignlabs (peep is)) ∧ Closed (alignlabs (peep is)) := by
  obtain ⟨h1, hclosed1⟩ := follows_peepLoop hnodup hlive
  have hnodup1 := hnodup.sublist h1.labels
  obtain ⟨h2, hclosed2⟩ := follows_simplJmp hnodup1 hclosed1
  have hnodup2 := hnodup1.sublist h2.labels
  obtain ⟨h3, hclosed3⟩ := follows_remUnusedLabs hnodup2 hclosed2
  have hnodup3 := hnodup2.sublist h3.labels
  obtain ⟨h4, hclosed4⟩ := follows_alignlabs hnodup3 hclosed3
  exact ⟨((h1.trans h2).trans h3).trans h4, hclosed4⟩

end Passes

theorem mem_of_mem_liveCode (h : i ∈ liveCode sent dead is) : i ∈ is := by
  induction is generalizing dead with
  | nil => cases h
  | cons i' is ih =>
    cases hloc : localOf i' with
    | some l =>
      rw [eq_lab_of_localOf hloc, liveCode] at h
      rw [eq_lab_of_localOf hloc]
      split at h
      · exact .tail _ (ih h)
      · rcases mem_cons.1 h with rfl | h
        · exact .head _
        · exact .tail _ (ih h)
    | none =>
      rw [liveCode_cons hloc] at h
      split at h
      · exact .tail _ (ih h)
      · rcases mem_cons.1 h with rfl | h
        · exact .head _
        · exact .tail _ (ih h)

theorem LiveRef.mem_refsIn (h : LiveRef sent dead is l) : l ∈ refsIn is := by
  obtain ⟨i, hi, hl⟩ := h
  exact mem_flatMap.2 ⟨i, mem_of_mem_liveCode hi, hl⟩

/-- A live reference to a label that is not defined stays in the output. -/
theorem dangling_peep (hl : LiveRef (fun _ => false) false is l) (hnot : l ∉ labelsIn localOf is) :
    l ∈ refsIn (alignlabs (peep is)) ∧ l ∉ labelsIn localOf (alignlabs (peep is)) := by
  have hpeep := (peepLoop_appends is [] fun _ hl => hl).rewrites
  have hnot1 : l ∉ labelsIn localOf (peepLoop is []) := fun hmem =>
    hnot (hpeep.labels_sublist.subset hmem)
  have hl1 : l ∈ refsIn (peepLoop is []) := by
    have hsent : ∀ l, (fun _ => false : Label → Bool) l = true ↔ False := fun _ => by simp
    rcases hpeep.liveRefs hsent (fun _ _ => rfl) hl with href | hmem
    · exact LiveRef.mem_refsIn href
    · exact absurd hmem hnot1
  obtain ⟨hl2, hnot2⟩ := dangling_kept
    (simplJmp_appends false (peepLoop is []) [] fun _ hl => hl).rewrites hl1 hnot1
  obtain ⟨hl3, hnot3⟩ := dangling_kept
    (remUnusedLabs_appends false (simplJmp (peepLoop is []) []) [] fun _ hl => hl).rewrites
    hl2 hnot2
  exact dangling_kept (alignLoop_appends false (peep is) [] fun _ hl => hl).rewrites hl3 hnot3

section Elim

variable (hclosure : closure n (labs [] is) = some im)

include hclosure

theorem dropped_iff : imLook im l ≠ none ↔ ∃ l', Leads is l l' := by
  rw [imLook_closure_ne_none (keyed_labs) hclosure, maps_labs]

theorem isSent_iff (l : Label) : isSent is l = true ↔ imLook im l ≠ none := by
  rw [dropped_iff hclosure, isSent, isSome_iff_exists]
  rfl

/-- The new name of a label is the end of its chain. -/
theorem chain_newName (l : Label) : ReflTransGen (Leads is) l ((imLook im l).getD l) := by
  rw [← maps_labs]
  exact (getD_closure (keyed_labs) hclosure l).1

theorem newName_eq (hs : ReflTransGen (Leads is) l s) (hself : Leads is s s) :
    (imLook im l).getD l = s := by
  rw [← maps_labs] at hs hself
  obtain ⟨hreach, hend⟩ := getD_closure (keyed_labs) hclosure l
  exact eq_end hreach hend hs hself

/-- The new name of a label is not sent on, unless the chain ends in a label sent to itself. -/
theorem newName_dropped_iff : imLook im ((imLook im l).getD l) ≠ none ↔ EndsInSelf is l := by
  rw [dropped_iff hclosure]
  constructor
  · rintro ⟨l', hleads⟩
    obtain ⟨hreach, hend⟩ := getD_closure (keyed_labs) hclosure l
    rw [maps_labs] at hreach hend
    refine ⟨_, hreach, ?_⟩
    rcases hend with hnone | hself
    · rw [imLook_labs_iff.2 hleads] at hnone
      cases hnone
    · exact hself
  · rintro ⟨s, hs, hself⟩
    rw [newName_eq hclosure hs hself]
    exact ⟨s, hself⟩

section

variable (hwell : WellLabelled is)

include hwell

section

variable (hlive : ∀ l, LiveRef (isSent is) false is l → ¬ EndsInSelf is l)

include hlive

/-- `elim_jmp_jmp` as an edit: live code refers to labels whose chains come to an end. -/
theorem edited_elim :
    Edited (elimEdit im fun l => l ∈ labelsIn localOf is ∧ ¬ EndsInSelf is l) is
      (elimLoop im is []) where
  text := by
    apply (elimLoop_appends (isSent_iff hclosure) false is [] _).rewrites
    intro l hl
    exact ⟨hwell.closed l hl.mem_refsIn, hlive l hl⟩
  nodup := hwell.nodup
  target := by
    rintro l ⟨hmem, hend⟩
    constructor
    · intro hdrop
      exact hend ((newName_dropped_iff hclosure).1 hdrop)
    · exact joined_of_chain hwell.nodup hwell.closed (chain_newName hclosure l) hmem

/-- After `elim_jmp_jmp` live code refers to labels that are defined. -/
theorem liveRef_elim (hl' : LiveRef (fun _ => false) false (elimLoop im is []) l') :
    l' ∈ labelsIn localOf (elimLoop im is []) := by
  have hedited := edited_elim hclosure hwell hlive
  obtain ⟨l, hl, rfl⟩ := hedited.text.live_of_liveRef hl'
  obtain ⟨c, c', b, -, -, hb, -, -⟩ := hedited.target_rewrites hl
  rw [codeFrom_localOf] at hb
  exact mem_labelsIn_iff.2 ⟨b, hb⟩

/-- A label whose new name stands in the output of `elim_jmp_jmp` has the runs of its new name. -/
theorem sameRuns_elim (ha : codeFrom labOf k is = some a)
    (hb : codeFrom labOf (renameLab (fun l => (imLook im l).getD l) k) (elimLoop im is []) = some b)
    :
    SameRuns (fun l => (imLook im l).getD l) is a (elimLoop im is []) b := by
  have hedited := edited_elim hclosure hwell hlive
  rcases kind_jmp k with ⟨l, rfl⟩ | ⟨hsame, -⟩
  · have hend : ¬ EndsInSelf is l := fun hend =>
      hedited.text.not_dropped (mem_labelsIn_iff.2 ⟨b, hb⟩) ((newName_dropped_iff hclosure).2 hend)
    rw [renameLab, ← codeFrom_localOf] at hb
    have hmem := mem_labelsIn_iff.2 ⟨a, ha⟩
    rw [← codeFrom_localOf] at ha
    exact hedited.sameRuns_live ⟨hmem, hend⟩ ha hb
  · rw [hsame] at hb
    obtain ⟨a', ha', hruns⟩ := hedited.sameRuns_lab hb
    rw [ha] at ha'
    cases ha'
    exact hruns

theorem opt_preserves :
    Preserves (fun l => (imLook im l).getD l) is (alignlabs (peep (elimLoop im is []))) := by
  have hedited := edited_elim hclosure hwell hlive
  have hnodup := hwell.nodup.sublist hedited.text.labels_sublist
  obtain ⟨hfollows, hclosed⟩ := follows_peep hnodup fun l hl => liveRef_elim hclosure hwell hlive hl
  constructor
  · intro l hl
    exact count_eq_one_of_mem (hnodup.sublist hfollows.labels) (hclosed l hl)
  · intro l hl
    have hkept := hedited.text.not_dropped (hfollows.labels.subset hl)
    have hnone : imLook im l = none := not_not.1 hkept
    rw [hnone, getD_none]
  · intro k b hb
    obtain ⟨c, hc, -⟩ := hfollows.label k b hb
    obtain ⟨a, ha, -⟩ := hedited.sameRuns_lab hc
    exact ⟨a, ha⟩
  · exact hedited.sameRuns_start.trans hfollows.start
  · intro k a b ha hb
    obtain ⟨c, hc, hruns⟩ := hfollows.label _ b hb
    exact (sameRuns_elim hclosure hwell hlive ha hc).trans hruns

end

end

/-- A live reference to a label that only leads to itself is a reference to a label that the output
does not define. -/
theorem dangling_opt (hl : LiveRef (isSent is) false is l) (hend : EndsInSelf is l) :
    ∃ s, s ∈ refsIn (alignlabs (peep (elimLoop im is []))) ∧
      s ∉ labelsIn localOf (alignlabs (peep (elimLoop im is []))) := by
  have helim := (elimLoop_appends (isSent_iff hclosure) false is [] fun _ hl => hl).rewrites
  have hdrop := (newName_dropped_iff hclosure).2 hend
  have hnot : (imLook im l).getD l ∉ labelsIn localOf (elimLoop im is []) := fun hmem =>
    helim.not_dropped hmem hdrop
  have hfixed : ∀ l, ¬ imLook im l ≠ none → (imLook im l).getD l = l := by
    intro l hkept
    rw [not_not.1 hkept, getD_none]
  rcases helim.liveRefs (isSent_iff hclosure) hfixed hl with href | hmem
  · exact ⟨_, dangling_peep href hnot⟩
  · exact absurd hmem hnot

end Elim

theorem opt_eq_some_iff :
    opt n is = some out ↔
      ∃ im, closure n (labs [] is) = some im ∧ out = alignlabs (peep (elimLoop im is [])) := by
  simp only [opt, elimJmpJmp, map_eq_some_iff]
  constructor
  · rintro ⟨_, ⟨im, him, rfl⟩, rfl⟩
    exact ⟨im, him, rfl⟩
  · rintro ⟨im, him, rfl⟩
    exact ⟨_, ⟨im, him, rfl⟩, rfl⟩

theorem noCycle_iff :
    NoCycle (labs [] is) ↔ ¬ ∃ l, TransGen (fun l l' => Leads is l l' ∧ l ≠ l') l l := by
  unfold NoCycle Moves
  rw [maps_labs, not_exists]

theorem Preserves.optimisable {ρ : Label → Label} {is out : List Inst} {n : Nat}
    (hpreserves : Preserves ρ is out) (hopt : opt n is = some out) : Optimisable is := by
  obtain ⟨im, hclosure, rfl⟩ := opt_eq_some_iff.1 hopt
  constructor
  · exact noCycle_iff.1 (noCycle_of_closure (keyed_labs) hclosure)
  · intro i hi l hl hend
    obtain ⟨s, hs, hnot⟩ := dangling_opt hclosure ⟨i, hi, hl⟩ hend
    have hone := hpreserves.defined s hs
    rw [count_eq_zero_of_not_mem hnot] at hone
    cases hone

/-- As many links may have to be followed as there are. -/
theorem Optimisable.exists_opt {is : List Inst} {n : Nat} (h : Optimisable is)
    (hwell : WellLabelled is) (hn : (labs [] is).length ≤ n) :
    ∃ out ρ, opt (n + 1) is = some out ∧ Preserves ρ is out := by
  obtain ⟨im, hclosure⟩ := exists_closure (noCycle_iff.2 h.noCycle) hn
  refine ⟨_, _, opt_eq_some_iff.2 ⟨im, hclosure, rfl⟩, opt_preserves hclosure hwell ?_⟩
  rintro l ⟨i, hi, hl⟩
  exact h.live i hi l hl

/-- The optimiser returns a list that preserves the program exactly when no labels of the program
lead back to each other and no live instruction refers to a label that only leads to itself. -/
theorem opt_preserves_iff (is : List Inst) (hwell : WellLabelled is) :
    (∃ n out ρ, opt n is = some out ∧ Preserves ρ is out) ↔ Optimisable is := by
  constructor
  · rintro ⟨n, out, ρ, hopt, hpreserves⟩
    exact hpreserves.optimisable hopt
  · intro h
    obtain ⟨out, ρ, hopt, hpreserves⟩ := h.exists_opt hwell le_rfl
    exact ⟨_, out, ρ, hopt, hpreserves⟩

/-- A jump to the return that follows it. -/
theorem jump_to_return_preserved :
    ∃ n out ρ, opt n [.jmp (.L (.localLab 1)), .lab (.localLab 1), .ret] = some out ∧
      Preserves ρ [.jmp (.L (.localLab 1)), .lab (.localLab 1), .ret] out := by
  have hleads : ∀ l l', ¬ Leads [.jmp (.L (.localLab 1)), .lab (.localLab 1), .ret] l l' := by
    intro l l' h
    cases h
  apply (opt_preserves_iff _ ⟨by decide, by unfold Closed; decide⟩).2
  constructor
  · rintro ⟨l, hcycle⟩
    obtain ⟨l', hstep, -⟩ := TransGen.head'_iff.1 hcycle
    exact hleads l l' hstep.1
  · rintro i - l - ⟨s, -, hself⟩
    exact hleads s s hself

/-- A label whose first instruction is a jump to itself is dropped, and the jump stays. -/
theorem self_jump_dangles :
    WellLabelled [.lab (.localLab 1), .jmp (.L (.localLab 1))] ∧
      opt 1 [.lab (.localLab 1), .jmp (.L (.localLab 1))] = some [.jmp (.L (.localLab 1))] := by
  constructor
  · exact ⟨by decide, by unfold Closed; decide⟩
  · rw [opt_eq_some_iff]
    refine ⟨[(1, 1)], ?_, ?_⟩
    · rw [labs_eq]
      rfl
    · simp [elimLoop, imLook, onI, onEa, labSubst, peep, peepLoop, remDeadCode, beginsWith,
        simplJmp, remUnusedLabs, alignlabs, alignLoop]

/-! ## Whole programs -/

theorem insts_of_onT {n : Nat} {decl decl' : TopDecl} (h : onT n decl = some decl') :
    opt n decl.insts = some decl'.insts := by
  cases decl with
  | FUN l insts | FN l insts =>
    obtain ⟨out, hopt, rfl⟩ := map_eq_some_iff.1 h
    exact hopt

theorem exists_onT {n : Nat} {decl : TopDecl} {out : List Inst} (h : opt n decl.insts = some out) :
    ∃ decl', onT n decl = some decl' ∧ decl'.insts = out := by
  cases decl with
  | FUN l insts | FN l insts => exact ⟨_, map_eq_some_iff.2 ⟨out, h, rfl⟩, rfl⟩

/-- What the code of every function becomes. -/
def PreservesAll (decls decls' : List TopDecl) : Prop :=
  Forall₂ (fun decl decl' => ∃ ρ, Preserves ρ decl.insts decl'.insts) decls decls'

theorem PreservesAll.optimisable {n : Nat} {decls decls' : List TopDecl}
    (hpreserves : PreservesAll decls decls') (hdecls : decls.mapM (onT n) = some decls') :
    ∀ decl ∈ decls, Optimisable decl.insts := by
  induction decls generalizing decls' with
  | nil => nofun
  | cons decl decls ih =>
    rw [mapM_cons] at hdecls
    obtain ⟨decl', hdecl, hdecls⟩ := Option.bind_eq_some_iff.1 hdecls
    obtain ⟨decls'', hrest, heq⟩ := Option.bind_eq_some_iff.1 hdecls
    cases heq
    cases hpreserves with
    | cons hfirst hpreserves =>
      obtain ⟨ρ, hfirst⟩ := hfirst
      exact forall_mem_cons.2 ⟨hfirst.optimisable (insts_of_onT hdecl), ih hpreserves hrest⟩

theorem exists_preservesAll {n : Nat} {decls : List TopDecl}
    (h : ∀ decl ∈ decls, Optimisable decl.insts) (hwell : ∀ decl ∈ decls, WellLabelled decl.insts)
    (hn : ∀ decl ∈ decls, (labs [] decl.insts).length ≤ n) :
    ∃ decls', decls.mapM (onT (n + 1)) = some decls' ∧ PreservesAll decls decls' := by
  induction decls with
  | nil => exact ⟨[], rfl, .nil⟩
  | cons decl decls ih =>
    obtain ⟨hdecl, h⟩ := forall_mem_cons.1 h
    obtain ⟨hwell', hwell⟩ := forall_mem_cons.1 hwell
    obtain ⟨hn', hn⟩ := forall_mem_cons.1 hn
    obtain ⟨decls', hdecls, hpreserves⟩ := ih h hwell hn
    obtain ⟨out, ρ, hopt, hout⟩ := hdecl.exists_opt hwell' hn'
    obtain ⟨decl', hdecl', rfl⟩ := exists_onT hopt
    refine ⟨decl' :: decls', ?_, .cons ⟨ρ, hout⟩ hpreserves⟩
    rw [mapM_cons, hdecl', hdecls]
    rfl

/-- `optimise` returns a program with the runs of the program exactly when the code of all its
functions can be optimised. -/
theorem optimise_preserves_iff (prg : AsmPrg)
    (hwell : ∀ decl ∈ prg.topDecls, WellLabelled decl.insts) :
    (∃ n prg', optimise n prg = some prg' ∧ PreservesAll prg.topDecls prg'.topDecls) ↔
      ∀ decl ∈ prg.topDecls, Optimisable decl.insts := by
  constructor
  · rintro ⟨n, prg', hprg, hpreserves⟩
    obtain ⟨decls, hdecls, rfl⟩ := map_eq_some_iff.1 hprg
    exact hpreserves.optimisable hdecls
  · intro h
    have hn : ∀ decl ∈ prg.topDecls, (labs [] decl.insts).length ≤
        (prg.topDecls.map fun decl => (labs [] decl.insts).length).sum :=
      fun decl hdecl => le_sum_of_mem (mem_map_of_mem hdecl)
    obtain ⟨decls, hdecls, hpreserves⟩ := exists_preservesAll h hwell hn
    exact ⟨_, _, map_eq_some_iff.2 ⟨decls, hdecls, rfl⟩, hpreserves⟩

end MLKit.X64.InstsX64
