import MLKit.X64.InstsX64
import Mathlib.Logic.Relation
import Mathlib.Data.List.Dedup
import Mathlib.Order.WellFounded
import Mathlib.Data.Fintype.EquivFin

/-!
# Chains of jumps

`elim_jmp_jmp` sends a label that stands in a run of labels to the first label of the run, and a
label that stands before a jump to the target of the jump. Its `close` follows these links. It ends
at every label, in labels that are not sent on, exactly when no label leads back to itself.
-/

namespace MLKit.X64.InstsX64

open Relation List

/-- What stands before an instruction: a run of labels with its first label and whether a `.quad`
precedes it, a `.quad`, or something else. -/
inductive Place where
  | other
  | quad
  | run (first : Label) (afterQuad : Bool)

/-- The links of a list of instructions, in the order of the text. -/
def links : Place → List Inst → List (Label × Label)
  | _, [] => []
  | .run first afterQuad, .lab (.localLab l) :: is => (l, first) :: links (.run first afterQuad) is
  | .quad, .lab (.localLab l) :: is => links (.run l true) is
  | .other, .lab (.localLab l) :: is => links (.run l false) is
  | .run first false, .jmp (.L (.localLab l)) :: is => (first, l) :: links .other is
  | _, .dotQuad _ :: is => links .quad is
  | _, _ :: is => links .other is

/-- A label is sent to another one; a label that is defined twice is sent where its last definition
says. -/
def Leads (is : List Inst) (l l' : Label) : Prop := (links .other is).reverse.lookup l = some l'

theorem lookup_cons_ite (l k v : Label) (im : LabelMap) :
    ((k, v) :: im).lookup l = if l = k then some v else im.lookup l := by
  rw [lookup_cons]
  by_cases h : l = k
  · simp [h]
  · rw [beq_false_of_ne h, if_neg h]

theorem imLook_imAdd (l1 l2 l : Label) (im : LabelMap) :
    imLook (imAdd l1 l2 im) l = if l = l1 then some l2 else imLook im l := by
  unfold imLook imAdd
  rw [lookup_cons_ite]
  split
  · rfl
  next h =>
    induction im with
    | nil => rfl
    | cons entry im ih =>
      rcases entry with ⟨k, v⟩
      rw [lookup_cons_ite]
      by_cases hk : k = l1
      · subst hk
        rw [filter_cons_of_neg (by simp), ih, if_neg h]
      · rw [filter_cons_of_pos (by simpa using hk), lookup_cons_ite, ih]

/-- The map after a list of links has been added. -/
def addLinks (im : LabelMap) (entries : List (Label × Label)) : LabelMap :=
  entries.foldl (fun im entry => imAdd entry.1 entry.2 im) im

theorem imLook_addLinks (entries : List (Label × Label)) (im : LabelMap) (l : Label) :
    imLook (addLinks im entries) l = (entries.reverse.lookup l).or (imLook im l) := by
  induction entries generalizing im with
  | nil => rfl
  | cons entry entries ih =>
    rcases entry with ⟨k, v⟩
    rw [addLinks, foldl_cons, ← addLinks, ih, imLook_imAdd, reverse_cons,
      lookup_append, lookup_cons_ite]
    cases entries.reverse.lookup l with
    | some l' => rfl
    | none => by_cases h : l = k <;> simp [h]

variable {is : List Inst} {afterQuad : Bool} {first l l' l1 l2 l'' s e : Label}
  {im entries out : LabelMap} {n : Nat}

/-- After something that is neither a label nor a jump a run of labels is over. -/
theorem links_run (hlab : ∀ l is', is = .lab (.localLab l) :: is' → False)
    (hjmp : afterQuad = false → ∀ l is', is = .jmp (.L (.localLab l)) :: is' → False) :
    links (.run first afterQuad) is = links .other is := by
  cases is with
  | nil => rfl
  | cons i is =>
    cases i with
    | lab l =>
      cases l with
      | localLab l => exact absurd rfl (hlab l is)
      | _ => rfl
    | jmp ea =>
      cases ea with
      | L l =>
        cases l with
        | localLab l =>
          cases afterQuad with
          | true => rfl
          | false => exact absurd rfl (hjmp rfl l is)
        | _ => cases afterQuad <;> rfl
      | _ => cases afterQuad <;> rfl
    | _ => cases afterQuad <;> rfl

theorem links_quad (hlab : ∀ l is', is = .lab l :: is' → False) :
    links .quad is = links .other is := by
  cases is with
  | nil => rfl
  | cons i is =>
    cases i with
    | lab l => exact absurd rfl (hlab l is)
    | jmp ea =>
      cases ea with
      | L l => cases l <;> rfl
      | _ => rfl
    | _ => rfl

/-- `labs` adds the links of the text to the map. -/
theorem labs_eq (im : LabelMap) (is : List Inst) : labs im is = addLinks im (links .other is) := by
  fun_induction labs im is with
  | case1 im => rfl
  | case2 im l1 l2 is ih | case3 im q l1 l2 is ih | case5 im l1 l2 is ih => rw [ih]; rfl
  | case4 im q l is hnot ih =>
    rw [ih]
    cases l with
    | localLab l1 =>
      have hrun : links (.run l1 true) is = links .other is :=
        links_run (fun l2 is' his => hnot l1 l2 is' his rfl) nofun
      rw [← hrun]
      rfl
    | _ => rfl
  | case6 im i is h1 h2 h3 h4 ih =>
    rw [ih]
    cases i with
    | lab l =>
      cases l with
      | localLab l1 =>
        have hrun : links (.run l1 false) is = links .other is :=
          links_run (fun l2 is' his => h1 l1 l2 is' rfl his)
            fun _ l2 is' his => h4 l1 l2 is' rfl his
        rw [← hrun]
        rfl
      | _ => rfl
    | dotQuad q =>
      have hquad : links .quad is = links .other is :=
        links_quad fun l is' his => h3 q l is' rfl his
      rw [← hquad]
      rfl
    | jmp ea =>
      cases ea with
      | L l => cases l <;> rfl
      | _ => rfl
    | _ => rfl

theorem imLook_labs_iff : imLook (labs [] is) l = some l' ↔ Leads is l l' := by
  rw [labs_eq, imLook_addLinks, Leads]
  cases (links .other is).reverse.lookup l <;> simp [imLook]

/-- Every label has one entry. -/
def Keyed (im : LabelMap) : Prop := (im.map Prod.fst).Nodup

theorem keyed_imAdd (h : Keyed im) (l1 l2 : Label) : Keyed (imAdd l1 l2 im) := by
  unfold Keyed imAdd
  rw [map_cons, nodup_cons]
  constructor
  · intro hmem
    obtain ⟨entry, hentry, heq⟩ := mem_map.1 hmem
    have hne := (mem_filter.1 hentry).2
    simp only [decide_eq_true_eq] at hne
    exact hne heq
  · exact h.sublist (filter_sublist.map _)

theorem keyed_addLinks (h : Keyed im) (entries : List (Label × Label)) :
    Keyed (addLinks im entries) := by
  induction entries generalizing im with
  | nil => exact h
  | cons entry entries ih => exact ih (keyed_imAdd h entry.1 entry.2)

/-- In a map with one entry for each label an entry is what `im_look` finds. -/
theorem mem_iff_imLook (h : Keyed im) : (l, l') ∈ im ↔ imLook im l = some l' := by
  unfold imLook
  induction im with
  | nil => simp
  | cons entry im ih =>
    rcases entry with ⟨k, v⟩
    obtain ⟨hnot, hrest⟩ := nodup_cons.1 (by simpa only [Keyed, map_cons] using h)
    rw [lookup_cons_ite, mem_cons, Prod.mk.injEq]
    by_cases hk : l = k
    · subst hk
      rw [if_pos rfl, Option.some.injEq]
      constructor
      · rintro (⟨-, rfl⟩ | hmem)
        · rfl
        · exact absurd (mem_map_of_mem (f := Prod.fst) hmem) hnot
      · rintro rfl
        exact Or.inl ⟨rfl, rfl⟩
    · rw [if_neg hk, ← ih hrest]
      constructor
      · rintro (⟨heq, -⟩ | hmem)
        · exact absurd heq hk
        · exact hmem
      · exact Or.inr

section Closure

/-- The link of a label in a map. -/
def Maps (im : LabelMap) (l l' : Label) : Prop := imLook im l = some l'

theorem Maps.unique (h1 : Maps im l l1) (h2 : Maps im l l2) : l1 = l2 :=
  Option.some.inj (h1.symm.trans h2)

/-- What `close` returns is reached by links, and it is not sent on, or sent to itself. -/
theorem close_reaches (h : close im n l = some l') :
    ReflTransGen (Maps im) l l' ∧ (imLook im l' = none ∨ Maps im l' l') := by
  induction n generalizing l with
  | zero => cases h
  | succ n ih =>
    rw [close] at h
    cases hlook : imLook im l with
    | none =>
      rw [hlook] at h
      cases h
      exact ⟨.refl, Or.inl hlook⟩
    | some l1 =>
      rw [hlook] at h
      dsimp only at h
      split at h
      · next heq =>
          cases h
          exact ⟨.refl, Or.inr (heq ▸ hlook)⟩
      · obtain ⟨hreach, hend⟩ := ih h
        exact ⟨.head hlook hreach, hend⟩

/-- A link to another label. -/
def Moves (im : LabelMap) (l l' : Label) : Prop := Maps im l l' ∧ l ≠ l'

theorem moves_of_maps (h : ReflTransGen (Maps im) l l') : ReflTransGen (Moves im) l l' := by
  induction h using ReflTransGen.head_induction_on with
  | refl => exact .refl
  | @head l l1 hstep _ ih =>
    by_cases heq : l = l1
    · rw [heq]
      exact ih
    · exact .head ⟨hstep, heq⟩ ih

/-- A label that leads back to itself is sent to itself or lies on a cycle of several labels. -/
theorem maps_self_or_moves (h : TransGen (Maps im) l l) :
    Maps im l l ∨ TransGen (Moves im) l l := by
  obtain ⟨l1, hstep, hback⟩ := TransGen.head'_iff.1 h
  by_cases heq : l = l1
  · exact Or.inl (heq ▸ hstep)
  · exact Or.inr (.head' ⟨hstep, heq⟩ (moves_of_maps hback))

/-- No cycle of several labels. -/
def NoCycle (im : LabelMap) : Prop := ∀ l, ¬ TransGen (Moves im) l l

/-- Without a cycle of several labels `close` ends: a label that has been left is not met again, so
that the labels still to be met become fewer. -/
theorem close_of_bound (hcycle : NoCycle im) {S : Finset Label} (hcard : S.card ≤ n)
    (hmet : ∀ x, ReflTransGen (Moves im) l x → imLook im x ≠ none → x ∈ S) :
    ∃ l', close im (n + 1) l = some l' := by
  induction n generalizing l S with
  | zero =>
    rw [close]
    cases hlook : imLook im l with
    | none => exact ⟨l, rfl⟩
    | some l1 =>
      have hmem := hmet l .refl (by rw [hlook]; nofun)
      rw [Nat.le_zero, Finset.card_eq_zero] at hcard
      rw [hcard] at hmem
      exact absurd hmem (Finset.notMem_empty l)
  | succ n ih =>
    rw [close]
    cases hlook : imLook im l with
    | none => exact ⟨l, rfl⟩
    | some l1 =>
      dsimp only
      split
      · exact ⟨l, rfl⟩
      next hne =>
        have hmem := hmet l .refl (by rw [hlook]; nofun)
        apply ih (S := S.erase l)
        · rw [Finset.card_erase_of_mem hmem]
          omega
        · intro x hreach hdom
          refine Finset.mem_erase.2 ⟨?_, hmet x (.head ⟨hlook, hne⟩ hreach) hdom⟩
          rintro rfl
          exact hcycle x (.head' ⟨hlook, hne⟩ hreach)

/-- The map has fewer links than `close` may follow. -/
theorem exists_close (hcycle : NoCycle im) (hn : im.length ≤ n) (l : Label) :
    ∃ l', close im (n + 1) l = some l' := by
  apply close_of_bound hcycle (S := (im.map Prod.fst).toFinset)
  · exact (toFinset_card_le _).trans ((length_map _).trans_le hn)
  · intro x _ hdom
    rw [mem_toFinset, mem_map]
    obtain ⟨v, hv⟩ := Option.ne_none_iff_exists'.1 hdom
    obtain ⟨before, after, heq, -⟩ := lookup_eq_some_iff.1 hv
    exact ⟨(x, v), by rw [heq]; simp, rfl⟩

/-- On a cycle of several labels `close` never ends. -/
theorem close_of_cycle (h : TransGen (Moves im) l l) (n : Nat) : close im n l = none := by
  induction n generalizing l with
  | zero => rfl
  | succ n ih =>
    obtain ⟨l1, hstep, hback⟩ := TransGen.head'_iff.1 h
    have hlook : imLook im l = some l1 := hstep.1
    rw [close, hlook]
    dsimp only
    rw [if_neg hstep.2]
    exact ih (TransGen.tail' hback hstep)

theorem close_of_maps_self (hself : Maps im l l) (h : close im n l = some l') : l' = l := by
  cases n with
  | zero => cases h
  | succ n =>
    have hlook : imLook im l = some l := hself
    rw [close, hlook] at h
    dsimp only at h
    rw [if_pos rfl] at h
    exact (Option.some.inj h).symm

/-- Closing a list of entries in the map. -/
def closeAll (im : LabelMap) (n : Nat) (entries : LabelMap) : Option LabelMap :=
  entries.mapM fun (l, l') => (close im n l').map fun l'' => (l, l'')

theorem closeAll_cons (n : Nat) (l l' : Label) (entries : LabelMap) :
    closeAll im n ((l, l') :: entries) =
      (close im n l').bind fun l'' => (closeAll im n entries).map ((l, l'') :: ·) := by
  unfold closeAll
  rw [mapM_cons]
  dsimp only
  cases close im n l' with
  | none => rfl
  | some l'' =>
    cases (entries.mapM fun entry : Label × Label =>
      (close im n entry.2).map fun l'' => (entry.1, l'')) <;> rfl

theorem exists_closeAll (h : ∀ l l', (l, l') ∈ entries → ∃ l'', close im n l' = some l'') :
    ∃ out, closeAll im n entries = some out := by
  induction entries with
  | nil => exact ⟨[], rfl⟩
  | cons entry entries ih =>
    rcases entry with ⟨l, l'⟩
    obtain ⟨l'', hclose⟩ := h l l' mem_cons_self
    obtain ⟨out, hout⟩ := ih fun k k' hmem => h k k' (.tail _ hmem)
    exact ⟨(l, l'') :: out, by rw [closeAll_cons, hclose, hout]; rfl⟩

/-- Every entry is closed, and its label is sent where `close` brings the label it was sent to. -/
theorem closeAll_spec (h : closeAll im n entries = some out) :
    out.map Prod.fst = entries.map Prod.fst ∧
      (∀ l l', (l, l') ∈ entries → ∃ l'', close im n l' = some l'') ∧
      ∀ l l'', (l, l'') ∈ out ↔ ∃ l', (l, l') ∈ entries ∧ close im n l' = some l'' := by
  induction entries generalizing out with
  | nil =>
    cases h
    simp
  | cons entry entries ih =>
    rcases entry with ⟨k, k'⟩
    rw [closeAll_cons] at h
    obtain ⟨k'', hclose, hrest⟩ := Option.bind_eq_some_iff.1 h
    obtain ⟨out', hout, rfl⟩ := Option.map_eq_some_iff.1 hrest
    obtain ⟨hkeys, hclosed, hmem⟩ := ih hout
    refine ⟨by rw [map_cons, map_cons, hkeys], fun l l' hin => ?_, fun l l'' => ?_⟩
    · rcases mem_cons.1 hin with heq | hin
      · cases heq
        exact ⟨k'', hclose⟩
      · exact hclosed l l' hin
    rw [mem_cons, hmem]
    constructor
    · rintro (heq | ⟨l', hin, hl'⟩)
      · cases heq
        exact ⟨k', .head _, hclose⟩
      · exact ⟨l', .tail _ hin, hl'⟩
    · rintro ⟨l', hin, hl'⟩
      rcases mem_cons.1 hin with heq | hin
      · cases heq
        rw [hclose] at hl'
        cases hl'
        exact Or.inl rfl
      · exact Or.inr ⟨l', hin, hl'⟩

/-- The closure sends a label where `close` brings the label it was sent to. -/
theorem imLook_closure (hkeyed : Keyed im) (h : closure n im = some out) :
    imLook out l = some l'' ↔ ∃ l', Maps im l l' ∧ close im n l' = some l'' := by
  have hkeyed' : Keyed out := by
    unfold Keyed
    rw [(closeAll_spec h).1]
    exact hkeyed
  rw [← mem_iff_imLook hkeyed', (closeAll_spec h).2.2]
  simp only [Maps, mem_iff_imLook hkeyed]

/-- The closure has the labels of the map. -/
theorem imLook_closure_ne_none (hkeyed : Keyed im) (h : closure n im = some out) :
    imLook out l ≠ none ↔ ∃ l', Maps im l l' := by
  rw [Option.ne_none_iff_exists']
  constructor
  · rintro ⟨l'', hl''⟩
    obtain ⟨l', hmaps, -⟩ := (imLook_closure hkeyed h).1 hl''
    exact ⟨l', hmaps⟩
  · rintro ⟨l', hmaps⟩
    obtain ⟨l'', hclose⟩ := (closeAll_spec h).2.1 l l' ((mem_iff_imLook hkeyed).2 hmaps)
    exact ⟨l'', (imLook_closure hkeyed h).2 ⟨l', hmaps, hclose⟩⟩

/-- The closure sends a label to the end of its chain. -/
theorem getD_closure (hkeyed : Keyed im) (h : closure n im = some out) (l : Label) :
    ReflTransGen (Maps im) l ((imLook out l).getD l) ∧
      (imLook im ((imLook out l).getD l) = none ∨
        Maps im ((imLook out l).getD l) ((imLook out l).getD l)) := by
  cases hlook : imLook out l with
  | some l'' =>
    obtain ⟨l', hmaps, hclose⟩ := (imLook_closure hkeyed h).1 hlook
    obtain ⟨hreach, hend⟩ := close_reaches hclose
    exact ⟨.head hmaps hreach, hend⟩
  | none =>
    refine ⟨.refl, Or.inl ?_⟩
    by_contra hsome
    obtain ⟨l', hmaps⟩ := Option.ne_none_iff_exists'.1 hsome
    exact (imLook_closure_ne_none hkeyed h).2 ⟨l', hmaps⟩ hlook

/-- A chain that comes to a label sent to itself ends there. -/
theorem eq_of_maps_self (hself : Maps im s s) (h : ReflTransGen (Maps im) s l) : l = s := by
  induction h with
  | refl => rfl
  | tail _ hstep ih =>
    rw [ih] at hstep
    exact hstep.unique hself

/-- Two ends of a chain are the same label. -/
theorem eq_end (he : ReflTransGen (Maps im) l e) (hend : imLook im e = none ∨ Maps im e e)
    (hs : ReflTransGen (Maps im) l s) (hself : Maps im s s) : e = s := by
  have hunique : Relator.RightUnique (Maps im) := fun _ _ _ h1 h2 => h1.unique h2
  rcases ReflTransGen.total_of_right_unique hunique he hs with hes | hse
  · rcases hend with hnone | heself
    · rcases ReflTransGen.cases_head hes with heq | ⟨l', hstep, -⟩
      · exact heq
      · have hlook : imLook im e = some l' := hstep
        rw [hlook] at hnone
        cases hnone
    · exact (eq_of_maps_self heself hes).symm
  · exact eq_of_maps_self hself hse

/-- No label in the range is in the domain. -/
def Idempotent (im : LabelMap) : Prop := ∀ l l', (l, l') ∈ im → ∀ l'', (l', l'') ∉ im

theorem exists_closure (hcycle : NoCycle im) (hn : im.length ≤ n) :
    ∃ out, closure (n + 1) im = some out :=
  exists_closeAll fun _ l' _ => exists_close hcycle hn l'

theorem noCycle_of_closure (hkeyed : Keyed im) (h : closure n im = some out) : NoCycle im := by
  intro l hcycle
  obtain ⟨l0, -, hstep⟩ := TransGen.tail'_iff.1 hcycle
  have hentry : (l0, l) ∈ im := (mem_iff_imLook hkeyed).2 hstep.1
  obtain ⟨l', hclose⟩ := (closeAll_spec h).2.1 l0 l hentry
  rw [close_of_cycle hcycle] at hclose
  cases hclose

theorem closure_idempotent_iff (hkeyed : Keyed im) :
    (∃ n out, closure n im = some out ∧ Idempotent out) ↔ ¬ ∃ l, TransGen (Maps im) l l := by
  constructor
  · rintro ⟨n, out, hclosure, hidem⟩ ⟨l, hback⟩
    rcases maps_self_or_moves hback with hself | hcycle
    · have hentry : (l, l) ∈ im := (mem_iff_imLook hkeyed).2 hself
      obtain ⟨-, hclosed, hmem⟩ := closeAll_spec hclosure
      obtain ⟨l', hclose⟩ := hclosed l l hentry
      have hl' : l' = l := close_of_maps_self hself hclose
      subst hl'
      have hmem := (hmem l' l').2 ⟨l', hentry, hclose⟩
      exact hidem l' l' hmem l' hmem
    · exact noCycle_of_closure hkeyed hclosure l hcycle
  · intro hback
    have hcycle : NoCycle im := fun l hcycle =>
      hback ⟨l, TransGen.mono (fun _ _ hstep => hstep.1) _ _ hcycle⟩
    obtain ⟨out, hout⟩ := exists_closure hcycle le_rfl
    refine ⟨im.length + 1, out, hout, ?_⟩
    obtain ⟨-, -, hspec⟩ := closeAll_spec hout
    intro l l' hmem l'' hmem'
    obtain ⟨l1, -, hclose⟩ := (hspec l l').1 hmem
    obtain ⟨l2, hentry, -⟩ := (hspec l' l'').1 hmem'
    rcases (close_reaches hclose).2 with hnone | hself
    · rw [(mem_iff_imLook hkeyed).1 hentry] at hnone
      cases hnone
    · exact hback ⟨l', .single hself⟩

end Closure

theorem keyed_labs : Keyed (labs [] is) := by
  rw [labs_eq]
  apply keyed_addLinks
  exact nodup_nil

theorem maps_labs (is : List Inst) : Maps (labs [] is) = Leads is := by
  funext l l'
  exact propext imLook_labs_iff

/-- `elim_jmp_jmp` closes its substitution into one that sends no label on twice exactly when no
label of the code leads back to itself. -/
theorem closure_idempotent_iff_acyclic (is : List Inst) :
    (∃ n im, closure n (labs [] is) = some im ∧ Idempotent im) ↔
      ¬ ∃ l, TransGen (Leads is) l l := by
  rw [closure_idempotent_iff (keyed_labs), maps_labs]

/-- The closure ends exactly when no label leads back to itself through another one, and a label
is then sent to the end of the links that start there. -/
theorem closure_collapses_chains (is : List Inst) :
    ((∃ n im, closure n (labs [] is) = some im) ↔
      ∀ l, ¬ TransGen (fun l l' => Leads is l l' ∧ l ≠ l') l l) ∧
    ∀ n im, closure n (labs [] is) = some im → ∀ l,
      ReflTransGen (Leads is) l ((imLook im l).getD l) ∧
      ∀ l', Leads is ((imLook im l).getD l) l' → l' = (imLook im l).getD l := by
  rw [← maps_labs]
  refine ⟨⟨?_, fun hcycle => ⟨_, exists_closure hcycle le_rfl⟩⟩, fun n im h l => ?_⟩
  · rintro ⟨n, im, h⟩
    exact noCycle_of_closure keyed_labs h
  · obtain ⟨hreach, hend⟩ := getD_closure keyed_labs h l
    refine ⟨hreach, fun l' hl' => ?_⟩
    rcases hend with hnone | hself
    · exact nomatch hnone.symm.trans hl'
    · exact hl'.unique hself

/-- Two labels whose first instructions jump to each other: the closure never ends. -/
theorem jumps_back_and_forth :
    ¬ ∃ n im, closure n (labs [] [.lab (.localLab 1), .jmp (.L (.localLab 2)), .lab (.localLab 2),
      .jmp (.L (.localLab 1))]) = some im := by
  rintro ⟨n, im, h⟩
  apply noCycle_of_closure (keyed_labs) h 1
  apply TransGen.head (b := 2)
  · exact ⟨imLook_labs_iff.2 rfl, nofun⟩
  · exact .single ⟨imLook_labs_iff.2 rfl, nofun⟩

end MLKit.X64.InstsX64
