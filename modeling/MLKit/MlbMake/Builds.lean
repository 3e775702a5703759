import Mathlib.Data.List.Nodup
import MLKit.Lib.Precedence
import MLKit.MlbMake.BuildGraph

/-!
# What the scheduler does

In every build a file is handed out exactly when the files of its tokens are done.
-/

namespace MLKit.MlbMake

open MLKit.Lib BuildGraph Relation List

variable {α : Type}

/-! ## Graphs -/

/-- The elements are numbered from one on, and wait for elements before them. -/
def Numbered : List (Elem α) → Prop
  | [] => True
  | e :: bg => e.id = bg.length + 1 ∧ (∀ d ∈ e.dependStatus, 1 ≤ d ∧ d ≤ bg.length) ∧ Numbered bg

variable {bg : List (Elem α)}

theorem addFirst_eq (hbg : Numbered bg) (deps : List Nat) (elem : α) :
    addFirst bg deps elem = (⟨bg.length + 1, elem, deps⟩ :: bg, bg.length + 1) := by
  cases bg with
  | nil => rfl
  | cons e bg => simp only [addFirst, hbg.1, length_cons]

/-- Element `i` waits for element `j`. -/
def Waits (ns : List (Elem α)) (j i : Nat) : Prop := ∃ e ∈ ns, e.id = i ∧ j ∈ e.dependStatus

variable {e e' : Elem α} {i d j : Nat} {m : Nat → List (B α)} {y x : B α}
  {l l1 l2 r : List (Elem α)} {events later : List (Event α)} {b' : Build α} {X : List Nat}

theorem Numbered.mem (hbg : Numbered bg) (he : e ∈ bg) :
    1 ≤ e.id ∧ e.id ≤ bg.length ∧ ∀ d ∈ e.dependStatus, 1 ≤ d ∧ d < e.id := by
  induction bg with
  | nil => cases he
  | cons e' bg ih =>
    obtain ⟨hid, hdeps, hbg⟩ := hbg
    rcases mem_cons.1 he with rfl | he
    · refine ⟨by omega, by simp [hid], fun d hd => ?_⟩
      obtain ⟨hlo, hhi⟩ := hdeps d hd
      exact ⟨hlo, by omega⟩
    · obtain ⟨hlo, hhi, hd⟩ := ih hbg he
      exact ⟨hlo, by rw [length_cons]; omega, hd⟩

theorem Numbered.exists_elem (hbg : Numbered bg) (hlo : 1 ≤ i) (hhi : i ≤ bg.length) :
    ∃ e ∈ bg, e.id = i := by
  induction bg with
  | nil => simp only [length_nil] at hhi; omega
  | cons e bg ih =>
    obtain ⟨hid, -, hbg⟩ := hbg
    rw [length_cons] at hhi
    by_cases hi : i = bg.length + 1
    · exact ⟨e, .head _, by omega⟩
    · obtain ⟨e', he', heq⟩ := ih hbg (by omega)
      exact ⟨e', .tail _ he', heq⟩

theorem Numbered.exists_dep (hbg : Numbered bg) (he : e ∈ bg) (hd : d ∈ e.dependStatus) :
    d < e.id ∧ ∃ e' ∈ bg, e'.id = d := by
  obtain ⟨-, hle, hdeps⟩ := hbg.mem he
  obtain ⟨hlo, hhi⟩ := hdeps d hd
  exact ⟨hhi, hbg.exists_elem hlo (by omega)⟩

theorem Numbered.eq_of_id (hbg : Numbered bg) (he : e ∈ bg) (he' : e' ∈ bg)
    (hid : e.id = e'.id) : e = e' := by
  induction bg with
  | nil => cases he
  | cons e0 bg ih =>
    obtain ⟨hid0, -, hbg⟩ := hbg
    rcases mem_cons.1 he with rfl | hin
    · rcases mem_cons.1 he' with rfl | hin'
      · rfl
      · have hle := (hbg.mem hin').2.1
        omega
    · rcases mem_cons.1 he' with rfl | hin'
      · have hle := (hbg.mem hin).2.1
        omega
      · exact ih hbg hin hin'

/-! ## The map of the graph -/

/-- The numbers under which an element is found. -/
def FoundFrom (e : Elem α) (i : Nat) : Prop :=
  (e.dependStatus = [] ∧ i = 0) ∨ (i ∈ e.dependStatus ∧ i ≠ e.id - 1)

theorem mem_updatesMap : x ∈ updatesMap m i y j ↔ x ∈ m j ∨ (j = i ∧ x = y) := by
  by_cases hj : j = i
  · subst hj
    simp [updatesMap, or_comm]
  · simp [updatesMap, hj]

theorem mem_foldl_updatesMap {l : List Nat} :
    x ∈ l.foldl (fun m i => updatesMap m i y) m j ↔ x ∈ m j ∨ (j ∈ l ∧ x = y) := by
  induction l generalizing m with
  | nil => simp
  | cons i l ih =>
    rw [foldl_cons, ih, mem_updatesMap, mem_cons]
    tauto

variable {accm : B α × (Nat → List (B α))}

theorem mem_turnElem :
    x ∈ (turnElem accm e).2 i ↔ x ∈ accm.2 i ∨ (FoundFrom e i ∧ x = e :: accm.1) := by
  have hpart : e.dependStatus.partition (fun i => decide (i ≠ e.id - 1)) =
      (e.dependStatus.filter (fun i => decide (i ≠ e.id - 1)),
        e.dependStatus.filter (fun i => !decide (i ≠ e.id - 1))) := partition_eq_filter_filter
  rw [turnElem]
  rw [hpart]
  generalize hother : e.dependStatus.filter (fun i => decide (i ≠ e.id - 1)) = other
  generalize hprev : e.dependStatus.filter (fun i => !decide (i ≠ e.id - 1)) = prev
  have hmem : ∀ j, j ∈ other ↔ j ∈ e.dependStatus ∧ j ≠ e.id - 1 := by
    subst hother
    simp
  have hnil : e.dependStatus = [] ↔ other = [] ∧ prev = [] := by
    subst hother hprev
    constructor
    · intro h
      rw [h]
      exact ⟨rfl, rfl⟩
    · rintro ⟨h1, h2⟩
      refine eq_nil_iff_forall_not_mem.2 fun j hj => ?_
      have h1 := filter_eq_nil_iff.1 h1 j hj
      have h2 := filter_eq_nil_iff.1 h2 j hj
      simp only [decide_eq_true_eq, Bool.not_eq_true', decide_eq_false_iff_not] at h1 h2
      exact h2 h1
  have hfound : FoundFrom e i ↔ (other = [] ∧ prev = [] ∧ i = 0) ∨ i ∈ other := by
    rw [FoundFrom, hnil, hmem, and_assoc]
  rw [hfound]
  cases other with
  | nil =>
    cases prev with
    | nil => simp [mem_updatesMap]
    | cons p prev => simp
  | cons j other => simp [mem_foldl_updatesMap, mem_updatesMap, or_assoc, or_and_right]

theorem mem_turn_foldl :
    (l.foldl turnElem accm).1 = l.reverse ++ accm.1 ∧
      (x ∈ (l.foldl turnElem accm).2 i ↔ x ∈ accm.2 i ∨
        ∃ l1 e l2, l = l1 ++ e :: l2 ∧ FoundFrom e i ∧ x = e :: (l1.reverse ++ accm.1)) := by
  induction l generalizing accm with
  | nil => simp
  | cons e l ih =>
    obtain ⟨hlist, hmap⟩ := @ih (turnElem accm e)
    have hfst : (turnElem accm e).1 = e :: accm.1 := rfl
    refine ⟨by rw [foldl_cons, hlist, hfst]; simp, ?_⟩
    rw [foldl_cons, hmap, mem_turnElem, hfst]
    constructor
    · rintro ((hx | ⟨hfound, hx⟩) | ⟨l1, e', l2, rfl, hfound, hx⟩)
      · exact Or.inl hx
      · exact Or.inr ⟨[], e, l, rfl, hfound, hx⟩
      · exact Or.inr ⟨e :: l1, e', l2, rfl, hfound, by simpa using hx⟩
    · rintro (hx | ⟨l1, e', l2, hl, hfound, hx⟩)
      · exact Or.inl (Or.inl hx)
      · cases l1 with
        | nil =>
          obtain ⟨rfl, rfl⟩ := List.cons.inj hl
          exact Or.inl (Or.inr ⟨hfound, hx⟩)
        | cons e'' l1 =>
          obtain ⟨rfl, rfl⟩ := List.cons.inj hl
          exact Or.inr ⟨l1, e', l2, rfl, hfound, by simpa using hx⟩

/-- What the map has under a number: the lists of the elements from one on that is
found there. -/
theorem mem_turn : x ∈ (turn bg).2 i ↔ ∃ e r, x = e :: r ∧ x <:+ bg.reverse ∧ FoundFrom e i := by
  rw [turn, mem_turn_foldl.2]
  constructor
  · rintro (hx | ⟨l1, e, l2, rfl, hfound, rfl⟩)
    · cases hx
    · refine ⟨e, _, rfl, ⟨l2.reverse, ?_⟩, hfound⟩
      simp
  · rintro ⟨e, r, rfl, ⟨l, hl⟩, hfound⟩
    refine Or.inr ⟨r.reverse, e, l.reverse, ?_, hfound, by simp⟩
    have hrev := congrArg List.reverse hl
    simpa using hrev.symm

theorem Numbered.of_append (hbg : Numbered (l1 ++ l2)) : Numbered l2 := by
  induction l1 with
  | nil => exact hbg
  | cons e l1 ih => exact ih hbg.2.2

/-- The list behind an element starts with the element after it. -/
theorem Numbered.suffix_next (hbg : Numbered bg) (hsuffix : e :: r <:+ bg.reverse)
    (he' : e' ∈ bg) (hid : e'.id = e.id + 1) : ∃ r', r = e' :: r' := by
  obtain ⟨l, hl⟩ := hsuffix
  have hbg' : bg = r.reverse ++ e :: l.reverse := by
    have hrev := congrArg List.reverse hl
    simpa using hrev.symm
  have hpos : e.id = l.length + 1 := by
    have hnum := (hbg' ▸ hbg : Numbered (r.reverse ++ e :: l.reverse)).of_append.1
    simpa using hnum
  have hle := (hbg.mem he').2.1
  cases r with
  | nil =>
    rw [hbg'] at hle
    simp only [reverse_nil, nil_append, length_cons, length_reverse] at hle
    omega
  | cons e'' r' =>
    have hsplit : bg = r'.reverse ++ e'' :: (e :: l.reverse) := by
      rw [hbg']
      simp
    have hnum := (hsplit ▸ hbg : Numbered (r'.reverse ++ e'' :: (e :: l.reverse))).of_append.1
    have hin : e'' ∈ bg := by
      rw [hsplit]
      simp
    obtain rfl : e'' = e' := by
      apply hbg.eq_of_id hin he'
      simp only [length_cons, length_reverse] at hnum
      omega
    exact ⟨r', rfl⟩

theorem suffix_mem (hsuffix : e :: r <:+ bg.reverse) : e ∈ bg :=
  mem_reverse.1 (hsuffix.subset (.head _))

/-! ## Handing out files -/

/-- All that an element waits for is done. -/
def Ready (cells : Cells) (e : Elem α) : Prop := ∀ d ∈ e.dependStatus, cells.status d = true

structure HandsOut (m : Nat → List (B α)) (xs : List (B α)) (cells : Cells) (fs : List (File α))
    (cells' : Cells) : Prop where
  status : cells'.status = cells.status
  queued : ∀ i, cells'.queued i = true ↔ cells.queued i = true ∨ i ∈ fs.map File.id
  file : ∀ f ∈ fs, ∃ e r, e :: r ∈ xs ∧ f = ⟨e.elem, e :: r, e.id, fromMap m e.id cells⟩ ∧
    cells.queued e.id = false ∧ Ready cells e
  nodup : (fs.map File.id).Nodup
  complete : ∀ e r, e :: r ∈ xs → Ready cells e → cells'.queued e.id = true

variable {cells' cells : Cells} {xs : List (B α)} {fs : List (File α)} {f : File α}

/-- A list that is not taken. -/
theorem HandsOut.skip (hout : HandsOut m xs cells fs cells')
    (hx : ∀ e r, x = e :: r → Ready cells e → cells.queued e.id = true) :
    HandsOut m (x :: xs) cells fs cells' where
  status := hout.status
  queued := hout.queued
  file := by
    intro f hf
    obtain ⟨e, r, hmem, hrest⟩ := hout.file f hf
    exact ⟨e, r, .tail _ hmem, hrest⟩
  nodup := hout.nodup
  complete := by
    intro e r hmem hready
    rcases mem_cons.1 hmem with rfl | hmem
    · exact (hout.queued e.id).2 (Or.inl (hx e r rfl hready))
    · exact hout.complete e r hmem hready

def BuildGraph.Cells.queue (cells : Cells) (i : Nat) : Cells :=
  { cells with queued := Function.update cells.queued i true }

theorem BuildGraph.Cells.queue_queued :
    (cells.queue i).queued j = true ↔ j = i ∨ cells.queued j = true := by
  rw [Cells.queue]
  by_cases hj : j = i
  · subst hj
    simp
  · simp [hj]

/-- A list whose first element is taken. -/
theorem HandsOut.take (hqueued : cells.queued e.id = false) (hready : Ready cells e)
    (hout : HandsOut m xs (cells.queue e.id) fs cells') :
    HandsOut m ((e :: r) :: xs) cells (⟨e.elem, e :: r, e.id, fromMap m e.id cells⟩ :: fs)
      cells' where
  status := hout.status
  queued := by
    intro i
    rw [hout.queued, Cells.queue_queued, map_cons, mem_cons]
    tauto
  file := by
    refine forall_mem_cons.2 ⟨⟨e, r, .head _, rfl, hqueued, hready⟩, fun f hf => ?_⟩
    obtain ⟨e', r', hmem, hf', hqueued', hready'⟩ := hout.file f hf
    refine ⟨e', r', .tail _ hmem, hf', ?_, hready'⟩
    have hnot := mt Cells.queue_queued.2 (Bool.eq_false_iff.1 hqueued')
    exact Bool.eq_false_iff.2 fun h => hnot (Or.inr h)
  nodup := by
    refine nodup_cons.2 ⟨fun hmem => ?_, hout.nodup⟩
    obtain ⟨f, hf, hid⟩ := mem_map.1 hmem
    obtain ⟨e', r', -, rfl, hqueued', -⟩ := hout.file f hf
    exact Bool.eq_false_iff.1 hqueued' (Cells.queue_queued.2 (Or.inl hid))
  complete := by
    intro e' r' hmem hready'
    rcases mem_cons.1 hmem with heq | hmem
    · obtain ⟨rfl, rfl⟩ := List.cons.inj heq
      exact (hout.queued _).2 (Or.inl (Cells.queue_queued.2 (Or.inl rfl)))
    · exact hout.complete e' r' hmem hready'

theorem files_handsOut (m : Nat → List (B α)) (xs : List (B α)) (cells : Cells) :
    HandsOut m xs cells (files m xs cells).1 (files m xs cells).2 := by
  induction xs generalizing cells with
  | nil => exact ⟨rfl, by simp [files], by simp [files], by simp [files], by simp⟩
  | cons x xs ih =>
    cases x with
    | nil =>
      exact (ih cells).skip fun e r hx => by cases hx
    | cons e r =>
      have hall : e.dependStatus.all cells.status = true ↔ Ready cells e := all_eq_true
      by_cases htake : (!cells.queued e.id && e.dependStatus.all cells.status) = true
      · have hfiles : files m ((e :: r) :: xs) cells =
            (⟨e.elem, e :: r, e.id, fromMap m e.id cells⟩ :: (files m xs (cells.queue e.id)).1,
              (files m xs (cells.queue e.id)).2) := by
          rw [files, file, projectB, if_pos htake]
          rfl
        rw [hfiles]
        rw [Bool.and_eq_true, Bool.not_eq_true', hall] at htake
        exact HandsOut.take htake.1 htake.2 (ih _)
      · have hfiles : files m ((e :: r) :: xs) cells = files m xs cells := by
          rw [files, file, projectB, if_neg htake]
          rfl
        rw [hfiles]
        rw [Bool.and_eq_true, Bool.not_eq_true', hall] at htake
        refine (ih cells).skip fun e' r' hx hready => ?_
        obtain ⟨rfl, rfl⟩ := List.cons.inj hx
        exact eq_true_of_ne_false fun hq => htake ⟨hq, hready⟩

/-! ## All builds -/

def doneIds : List (Event α) → List Nat
  | [] => []
  | .handedOut _ :: events => doneIds events
  | .done f :: events => f.id :: doneIds events

def outFiles : List (Event α) → List (File α)
  | [] => []
  | .handedOut f :: events => f :: outFiles events
  | .done _ :: events => outFiles events

theorem doneIds_append (es events : List (Event α)) :
    doneIds (es ++ events) = doneIds es ++ doneIds events := by
  induction es with
  | nil => rfl
  | cons ev es ih => cases ev <;> simp [doneIds, ih]

theorem doneIds_outs (fs : List (File α)) : doneIds (fs.map Event.handedOut) = [] := by
  induction fs with
  | nil => rfl
  | cons f fs ih => exact ih

theorem doneIds_handOut (fs : List (File α)) (events : List (Event α)) :
    doneIds (Build.handOut fs events) = doneIds events := by
  rw [Build.handOut, doneIds_append, ← map_reverse, doneIds_outs, nil_append]

theorem outFiles_outs (fs : List (File α)) (events : List (Event α)) :
    outFiles (fs.map Event.handedOut ++ events) = fs ++ outFiles events := by
  induction fs with
  | nil => rfl
  | cons f fs ih => rw [map_cons, cons_append, outFiles, ih, cons_append]

theorem outFiles_handOut (fs : List (File α)) (events : List (Event α)) :
    outFiles (Build.handOut fs events) = fs.reverse ++ outFiles events := by
  rw [Build.handOut, ← map_reverse, outFiles_outs]

/-- Whenever a file is handed out, all that it waits for has been done, and only a
file that was handed out is done. -/
def Timely (bg : List (Elem α)) : List (Event α) → Prop
  | [] => True
  | .handedOut f :: events =>
    (∀ j, TransGen (Waits bg) j f.id → j ∈ doneIds events) ∧ Timely bg events
  | .done f :: events => f ∈ outFiles events ∧ Timely bg events

theorem timely_handOut (hfs : ∀ f ∈ fs, ∀ j, TransGen (Waits bg) j f.id → j ∈ doneIds events)
    (hevents : Timely bg events) : Timely bg (Build.handOut fs events) := by
  have hall : ∀ l : List (File α), (∀ f ∈ l, f ∈ fs) →
      Timely bg (l.map Event.handedOut ++ events) := by
    intro l hl
    induction l with
    | nil => exact hevents
    | cons f l ih =>
      refine ⟨fun j hj => ?_, ih fun f' hf' => hl f' (.tail _ hf')⟩
      show j ∈ doneIds (l.map Event.handedOut ++ events)
      rw [doneIds_append, doneIds_outs, nil_append]
      exact hfs f (hl f (.head _)) j hj
  rw [Build.handOut, ← map_reverse]
  exact hall fs.reverse fun f hf => mem_reverse.1 hf

theorem Timely.of_append (h : Timely bg (later ++ events)) : Timely bg events := by
  induction later with
  | nil => exact h
  | cons ev later ih =>
    cases ev with
    | handedOut f | done f => exact ih h.2

/-- A file as it was handed out. -/
structure FileOk (bg : List (Elem α)) (f : File α) : Prop where
  exists_elem : ∃ e r, f.node = e :: r ∧ e :: r <:+ bg.reverse ∧ f.elem = e.elem ∧ f.id = e.id
  waiting : ∀ x, x ∈ f.waiting ↔ x ∈ (turn bg).2 f.id

/-- What holds all the time. -/
structure Recorded (bg : List (Elem α)) (b : Build α) : Prop where
  serial : Serial (Waits bg) (doneIds b.events)
  known : ∀ i ∈ doneIds b.events, ∃ e ∈ bg, e.id = i
  status : ∀ i, b.cells.status i = true ↔ i ∈ doneIds b.events
  out : ∀ i, b.cells.queued i = true ↔ i ∈ (outFiles b.events).map File.id
  nodup : ((outFiles b.events).map File.id).Nodup
  file : ∀ f ∈ outFiles b.events, FileOk bg f
  compiling : ∀ f, f ∈ b.compiling ↔ f ∈ outFiles b.events ∧ f.id ∉ doneIds b.events
  compilingNodup : (b.compiling.map File.id).Nodup
  timely : Timely bg b.events

structure Tracks (bg : List (Elem α)) (b : Build α) : Prop extends Recorded bg b where
  queued : ∀ e ∈ bg, b.cells.queued e.id = true ↔ Ready b.cells e

theorem exists_suffix (he : e ∈ bg) : ∃ r, e :: r <:+ bg.reverse := by
  obtain ⟨l1, l2, heq⟩ := append_of_mem (mem_reverse.2 he)
  exact ⟨l2, l1, heq.symm⟩

/-- What holds before files are handed out: those in `xs` may be ready, and all that
have become ready are there. -/
structure Pending (bg : List (Elem α)) (b : Build α) (xs : List (B α)) : Prop
    extends Recorded bg b where
  queued : ∀ e ∈ bg, b.cells.queued e.id = true → Ready b.cells e
  done : ∀ i ∈ doneIds b.events, b.cells.queued i = true
  candidates : ∀ e ∈ bg, Ready b.cells e → b.cells.queued e.id = true ∨ ∃ r, e :: r ∈ xs
  suffix : ∀ e r, e :: r ∈ xs → e :: r <:+ bg.reverse

variable {b : Build α}

section Invariant

variable {bg : List (Elem α)} (hbg : Numbered bg)

include hbg

theorem waits_iff (he : e ∈ bg) : Waits bg j e.id ↔ j ∈ e.dependStatus := by
  constructor
  · rintro ⟨e', he', hid, hj⟩
    rw [← hbg.eq_of_id he' he hid]
    exact hj
  · intro hj
    exact ⟨e, he, rfl, hj⟩

/-- No file that waits for a file that is handed out has been compiled. -/
theorem Pending.fromMap_eq (hp : Pending bg b xs) (he : e ∈ bg)
    (hqueued : b.cells.queued e.id = false) (x : B α) :
    x ∈ fromMap (turn bg).2 e.id b.cells ↔ x ∈ (turn bg).2 e.id := by
  rw [fromMap, mem_filter, and_iff_left_iff_imp]
  intro hx
  obtain ⟨e', r, rfl, hsuffix, hfound⟩ := mem_turn.1 hx
  have he' : e' ∈ bg := suffix_mem hsuffix
  have hwaits : Waits bg e.id e'.id := by
    rcases hfound with ⟨-, h0⟩ | ⟨hmem, -⟩
    · have hpos := (hbg.mem he).1
      omega
    · exact (waits_iff hbg he').2 hmem
  have hstatus : b.cells.status e'.id = false := by
    refine Bool.eq_false_iff.2 fun hstatus => ?_
    have hdone := hp.serial.mem_of_before ((hp.status _).1 hstatus) hwaits
    rw [hp.done _ hdone] at hqueued
    cases hqueued
  rw [isPending, hstatus]
  rfl

theorem Pending.tracks (hp : Pending bg b xs) (hout : HandsOut (turn bg).2 xs b.cells fs cells') :
    Tracks bg ⟨cells', b.compiling ++ fs, Build.handOut fs b.events⟩ := by
  have hready : ∀ e : Elem α, Ready cells' e ↔ Ready b.cells e := by
    intro e
    rw [Ready, Ready, hout.status]
  have hfile : ∀ f ∈ fs, FileOk bg f ∧ b.cells.queued f.id ≠ true ∧
      ∀ j, Waits bg j f.id → j ∈ doneIds b.events := by
    intro f hf
    obtain ⟨e, r, hmem, rfl, hqueued, hr⟩ := hout.file f hf
    have hsuffix := hp.suffix e r hmem
    have he := suffix_mem hsuffix
    refine ⟨⟨⟨e, r, rfl, hsuffix, rfl, rfl⟩, hp.fromMap_eq hbg he hqueued⟩,
      ne_true_of_eq_false hqueued, fun j hj => ?_⟩
    exact (hp.status j).1 (hr j ((waits_iff hbg he).1 hj))
  have hnew : ∀ f ∈ fs, f.id ∉ (outFiles b.events).map File.id := fun f hf hmem =>
    (hfile f hf).2.1 ((hp.out f.id).2 hmem)
  refine ⟨⟨?serial, ?known, ?status, ?out, ?nodup, ?file, ?compiling, ?compilingNodup,
    timely_handOut (fun f hf j hj => hp.serial.mem_of_ready (hfile f hf).2.2 hj) hp.timely⟩, ?queued⟩
  case serial => rw [doneIds_handOut]; exact hp.serial
  case known => rw [doneIds_handOut]; exact hp.known
  case status => rw [doneIds_handOut]; dsimp only; rw [hout.status]; exact hp.status
  case queued =>
    intro e he
    rw [hready]
    constructor
    · intro hq
      rcases (hout.queued e.id).1 hq with hq | hmem
      · exact hp.queued e he hq
      · obtain ⟨f, hf, hid⟩ := mem_map.1 hmem
        intro d hd
        refine (hp.status d).2 ((hfile f hf).2.2 d ?_)
        rw [hid]
        exact (waits_iff hbg he).2 hd
    · intro hr
      rcases hp.candidates e he hr with hq | ⟨r, hmem⟩
      · exact (hout.queued e.id).2 (Or.inl hq)
      · exact hout.complete e r hmem hr
  case out =>
    intro i
    rw [outFiles_handOut, map_append, map_reverse, mem_append, mem_reverse]
    exact (hout.queued i).trans ((or_congr_left (hp.out i)).trans or_comm)
  case nodup =>
    rw [outFiles_handOut, map_append, map_reverse]
    refine nodup_append.2 ⟨nodup_reverse.2 hout.nodup, hp.nodup, ?_⟩
    rintro i hi j hj rfl
    obtain ⟨f, hf, rfl⟩ := mem_map.1 (mem_reverse.1 hi)
    exact hnew f hf hj
  case file =>
    rw [outFiles_handOut]
    exact forall_mem_append.2 ⟨fun f hf => (hfile f (mem_reverse.1 hf)).1, hp.file⟩
  case compiling =>
    intro f
    rw [outFiles_handOut, doneIds_handOut, mem_append, mem_append, mem_reverse, hp.compiling]
    constructor
    · rintro (⟨hf, hnd⟩ | hf)
      · exact ⟨Or.inr hf, hnd⟩
      · exact ⟨Or.inl hf, fun hmem => (hfile f hf).2.1 (hp.done _ hmem)⟩
    · rintro ⟨hf | hf, hnd⟩
      · exact Or.inr hf
      · exact Or.inl ⟨hf, hnd⟩
  case compilingNodup =>
    rw [map_append]
    refine nodup_append.2 ⟨hp.compilingNodup, hout.nodup, ?_⟩
    rintro i hi j hj rfl
    obtain ⟨f, hf, rfl⟩ := mem_map.1 hj
    obtain ⟨f', hf', hid⟩ := mem_map.1 hi
    refine hnew f hf ?_
    rw [← hid]
    exact mem_map_of_mem ((hp.compiling f').1 hf').1

theorem start_tracks : Tracks bg (Build.start (turn bg).2) := by
  have hout := files_handsOut (turn bg).2 (fromMap (turn bg).2 firstB Cells.initial) Cells.initial
  have hp : Pending bg ⟨Cells.initial, [], []⟩ (fromMap (turn bg).2 firstB Cells.initial) := by
    refine ⟨⟨.nil, by simp [doneIds], by simp [doneIds, Cells.initial],
      by simp [outFiles, Cells.initial], nodup_nil, by simp [outFiles], by simp [outFiles], nodup_nil,
      trivial⟩, by simp [Cells.initial], by simp [doneIds], ?candidates, ?suffix⟩
    case candidates =>
      intro e he hready
      refine Or.inr ?_
      have hnil : e.dependStatus = [] := by
        refine eq_nil_iff_forall_not_mem.2 fun d hd => ?_
        cases hready d hd
      obtain ⟨r, hsuffix⟩ := exists_suffix he
      refine ⟨r, mem_filter.2 ⟨?_, rfl⟩⟩
      exact mem_turn.2 ⟨e, r, rfl, hsuffix, Or.inl ⟨hnil, rfl⟩⟩
    case suffix =>
      intro e r hmem
      obtain ⟨e', r', -, hsuffix, -⟩ := mem_turn.1 (mem_filter.1 hmem).1
      exact hsuffix
  exact hp.tracks hbg hout

/-- The elements that become ready when a file is done are looked at. -/
theorem Tracks.candidates (hb : Tracks bg b) (hf : f ∈ b.compiling) (he : e ∈ bg)
    (hready : Ready (BuildGraph.done f.id b.cells) e) :
    b.cells.queued e.id = true ∨ ∃ r, e :: r ∈ (next f.node).toList ++ f.waiting := by
  by_cases hold : Ready b.cells e
  · exact Or.inl ((hb.queued e he).2 hold)
  have hmem : f.id ∈ e.dependStatus := by
    by_contra hnot
    refine hold fun d hd => ?_
    have hne : d ≠ f.id := fun heq => hnot (heq ▸ hd)
    have hd' := hready d hd
    simp only [BuildGraph.done, Function.update_of_ne hne] at hd'
    exact hd'
  obtain ⟨⟨e0, r0, hnode, hsuffix, -, hid⟩, hwaiting⟩ := hb.file f ((hb.compiling f).1 hf).1
  have hpos := ((hbg.mem he).2.2 _ hmem).2
  refine Or.inr ?_
  by_cases hnext : f.id = e.id - 1
  · -- the element right behind the file
    obtain ⟨r', hr'⟩ := hbg.suffix_next hsuffix he (by omega)
    refine ⟨r', mem_append_left _ ?_⟩
    rw [hnode, BuildGraph.next, hr']
    exact mem_singleton_self _
  · obtain ⟨r, hr⟩ := exists_suffix he
    refine ⟨r, mem_append_right _ ((hwaiting _).2 ?_)⟩
    exact mem_turn.2 ⟨e, r, rfl, hr, Or.inr ⟨hmem, hnext⟩⟩

theorem step_tracks (hb : Tracks bg b) (hstep : Build.Step (turn bg).2 b b') : Tracks bg b' := by
  obtain ⟨hcomp, hdone⟩ := hstep
  rename_i fs gs hs f cells
  have hf : f ∈ b.compiling := by
    rw [hcomp]
    simp
  obtain ⟨hfout, hfdone⟩ := (hb.compiling f).1 hf
  obtain ⟨⟨e0, r0, hnode, hsuffix, helem, hid⟩, hwaiting⟩ := hb.file f hfout
  have he0 : e0 ∈ bg := suffix_mem hsuffix
  have hready0 : Ready b.cells e0 := by
    refine (hb.queued e0 he0).1 ((hb.out e0.id).2 ?_)
    rw [← hid]
    exact mem_map_of_mem hfout
  have hstatus : ∀ i, (BuildGraph.done f.id b.cells).status i = true ↔
      i ∈ doneIds (.done f :: b.events) := by
    intro i
    rw [BuildGraph.done, doneIds, mem_cons]
    by_cases hi : i = f.id
    · simp [hi]
    · simp [hi, hb.status]
  have hqueued : ∀ i ∈ doneIds b.events, b.cells.queued i = true := by
    intro i hi
    obtain ⟨e, he, rfl⟩ := hb.known i hi
    refine (hb.queued e he).2 fun d hd => (hb.status d).2 ?_
    exact hb.serial.mem_of_before hi ((waits_iff hbg he).2 hd)
  have hnodup := hb.compilingNodup
  rw [hcomp, map_append, map_cons, nodup_middle, nodup_cons] at hnodup
  have hp : Pending bg ⟨BuildGraph.done f.id b.cells, fs ++ gs, .done f :: b.events⟩
      ((next f.node).toList ++ f.waiting) := by
    refine ⟨⟨?serial, forall_mem_cons.2 ⟨⟨e0, he0, hid.symm⟩, hb.known⟩, hstatus, hb.out, hb.nodup,
      hb.file, ?compiling, ?compilingNodup, hfout, hb.timely⟩, ?queued,
      forall_mem_cons.2 ⟨(hb.out _).2 (mem_map_of_mem hfout), hqueued⟩,
      fun e he hready => Tracks.candidates (b := b) hbg hb hf he hready, ?suffix⟩
    case serial =>
      refine .cons (fun j hj => ?_) hfdone hb.serial
      rw [hid, waits_iff hbg he0] at hj
      exact (hb.status j).1 (hready0 j hj)
    case queued =>
      intro e he hq d hd
      refine (hstatus d).2 (.tail _ ((hb.status d).1 ?_))
      exact (hb.queued e he).1 hq d hd
    case suffix =>
      intro e r hmem
      rcases mem_append.1 hmem with hmem | hmem
      · rw [hnode, BuildGraph.next, Option.toList_some, mem_singleton] at hmem
        rw [hmem]
        obtain ⟨l, hl⟩ := hsuffix
        exact ⟨l ++ [e0], by simpa using hl⟩
      · obtain ⟨e', r', -, hsuffix', -⟩ := mem_turn.1 ((hwaiting _).1 hmem)
        exact hsuffix'
    case compiling =>
      intro f'
      have hf' := hb.compiling f'
      rw [hcomp] at hf'
      show f' ∈ fs ++ gs ↔ f' ∈ outFiles b.events ∧ f'.id ∉ f.id :: doneIds b.events
      rw [mem_cons, not_or]
      constructor
      · intro hmem
        obtain ⟨hout, hnd⟩ := hf'.1 (by simp at hmem ⊢; tauto)
        refine ⟨hout, fun heq => hnodup.1 ?_, hnd⟩
        rw [← heq, ← map_append]
        exact mem_map_of_mem hmem
      · rintro ⟨hout, hne, hnd⟩
        have hmem := hf'.2 ⟨hout, hnd⟩
        have hff : f' ≠ f := fun heq => hne (by rw [heq])
        simp only [mem_append, mem_cons, hff, false_or] at hmem ⊢
        exact hmem
    case compilingNodup =>
      rw [map_append]
      exact hnodup.2
  have hout := files_handsOut (turn bg).2 ((next f.node).toList ++ f.waiting)
    (BuildGraph.done f.id b.cells)
  rw [show files (turn bg).2 _ _ = (hs, cells) from hdone] at hout
  exact hp.tracks hbg hout

theorem reachable_tracks (hb : Build.Reachable (turn bg).2 b) : Tracks bg b := by
  induction hb with
  | start => exact start_tracks hbg
  | step _ hstep ih => exact step_tracks hbg ih hstep

/-- Every order that respects the graph is the order of some build. -/
theorem exists_build (hX : Serial (Waits bg) X) (hknown : ∀ i ∈ X, ∃ e ∈ bg, e.id = i) :
    ∃ b, Build.Reachable (turn bg).2 b ∧ doneIds b.events = X := by
  induction hX with
  | nil =>
    refine ⟨_, .start, ?_⟩
    exact doneIds_handOut _ _
  | cons hbefore hnew hX ih =>
    rename_i i X
    obtain ⟨b, hb, hdone⟩ := ih fun j hj => hknown j (.tail _ hj)
    have htracks := reachable_tracks hbg hb
    obtain ⟨e, he, rfl⟩ := hknown i (.head _)
    have hq : b.cells.queued e.id = true := by
      refine (htracks.queued e he).2 fun d hd => (htracks.status d).2 ?_
      rw [hdone]
      exact hbefore d ((waits_iff hbg he).2 hd)
    obtain ⟨f, hf, hid⟩ := mem_map.1 ((htracks.out e.id).1 hq)
    have hcomp : f ∈ b.compiling := by
      refine (htracks.compiling f).2 ⟨hf, ?_⟩
      rw [hdone, hid]
      exact hnew
    obtain ⟨fs, gs, hsplit⟩ := append_of_mem hcomp
    refine ⟨_, .step hb (.finish hsplit rfl), ?_⟩
    rw [doneIds_handOut, doneIds, hdone, hid]

end Invariant

end MLKit.MlbMake
