import MLKit.Backend.CallConvPlaces
import MLKit.Backend.FrameSlots

/-!
# Flushes and fetches use the declared offsets

The offset that a `FLUSH` or a `FETCH` carries is to be the one that the
innermost enclosing pattern, or the call convention, gives to its atom.  The
environment of the pass loses the entries of a pattern that stand before a flow
variable, so this is so exactly when no flow variable follows the entry.
-/

namespace MLKit.Backend.CalcOffset

open MLKit.Lib List

/-! ## What is declared -/

/-- The offset that an entry of a pattern gives to an atom. -/
def styOffset (atom : Atom) : StoreType Int → Option Int
  | .stackSty lv offset => if atom = .var lv then some offset else none
  | .phregSty _ _ => none
  | .flushedCalleeSty phreg offset => if atom = .phreg phreg then some offset else none
  | .flushedCallerSty lv _ offset => if atom = .var lv then some offset else none
  | .fvSty _ _ _ => none

/-- The offsets in scope inside a pattern, which the pass has reversed. -/
def patOffsets (pat : List (StoreType Int)) (env : Atom → Option Int) (atom : Atom) : Option Int :=
  (pat.findSome? (styOffset atom)).or (env atom)

def DeclaredBasic (env : Atom → Option Int) : BasicStmt Int Atom → Prop
  | .flush atom offset => env atom = some offset
  | .fetch atom offset => env atom = some offset
  | _ => True

mutual

/-- Every flush and fetch carries the offset of the innermost declaration. -/
def DeclaredLs (env : Atom → Option Int) : CoStmt → Prop
  | .basic stmt => DeclaredBasic env stmt
  | .letregion _ body => DeclaredLss env body
  | .scope pat scope => DeclaredLss (patOffsets pat env) scope
  | .handle default handl _ handlReturn _ _ _ =>
    DeclaredLss env handl ∧ DeclaredLss env default ∧ DeclaredLss env handlReturn
  | .switch _ _ sels default => DeclaredSels env sels ∧ DeclaredLss env default

def DeclaredLss (env : Atom → Option Int) : List CoStmt → Prop
  | [] => True
  | ls :: lss => DeclaredLs env ls ∧ DeclaredLss env lss

def DeclaredSels (env : Atom → Option Int) : List (Selector × List CoStmt) → Prop
  | [] => True
  | (_, lss) :: sels => DeclaredSels env sels ∧ DeclaredLss env lss

end

/-- The offsets that a call convention gives to parameters and results. -/
def ccOffsets (cc : CallConv.CC) : Atom → Option Int
  | .var lv => addList cc.spilledRes (addList cc.spilledArgs fun _ => none) lv
  | _ => none

/-! ## When it is found -/

/-- Whether the entries of a pattern up to here give an offset to the atom, and
whether the pass still has it: a flow variable drops the variables before it. -/
def entryKept (atom : Atom) (st : Option Bool) : StoreType Unit → Option Bool
  | .stackSty lv _ => if atom = .var lv then some true else st
  | .phregSty _ _ => st
  | .flushedCalleeSty phreg _ => if atom = .phreg phreg then some true else st
  | .flushedCallerSty lv _ _ => if atom = .var lv then some true else st
  | .fvSty _ _ _ =>
    match atom with
    | .var _ => st.map fun _ => false
    | _ => st

def patKept (kept : Atom → Bool) (pat : List (StoreType Unit)) (atom : Atom) : Bool :=
  (pat.foldl (entryKept atom) none).getD (kept atom)

def keptBasic (kept : Atom → Bool) : BasicStmt Unit Atom → Bool
  | .flush atom _ => kept atom
  | .fetch atom _ => kept atom
  | _ => true

mutual

/-- Every flush and fetch is of an atom that is declared, and no flow variable
follows its entry in the innermost pattern that declares it. -/
def keptLs (kept : Atom → Bool) : IffStmt → Bool
  | .basic stmt => keptBasic kept stmt
  | .letregion _ body => keptLss kept body
  | .scope pat scope => keptLss (patKept kept pat) scope
  | .handle default handl _ handlReturn _ _ _ =>
    keptLss kept handl && (keptLss kept default && keptLss kept handlReturn)
  | .switch _ _ sels default => keptSels kept sels && keptLss kept default

def keptLss (kept : Atom → Bool) : List IffStmt → Bool
  | [] => true
  | ls :: lss => keptLs kept ls && keptLss kept lss

def keptSels (kept : Atom → Bool) : List (Selector × List IffStmt) → Bool
  | [] => true
  | (_, lss) :: sels => keptSels kept sels && keptLss kept lss

end

/-! ## The environment of the pass -/

def atomOffset (lvMap phMap : LvMap) : Atom → Option Int
  | .var lv => lvMap lv
  | .phreg phreg => phMap phreg
  | _ => none

theorem lookupLv_eq_ok : lookupLv lvMap lv = .ok offset ↔ lvMap lv = some offset := by
  unfold lookupLv
  cases lvMap lv <;> simp [die]

theorem assignOffsetAtom_eq_ok :
    assignOffsetAtom atom lvMap phMap = .ok offset ↔ atomOffset lvMap phMap atom = some offset := by
  cases atom with
  | var lv | phreg phreg => exact lookupLv_eq_ok
  | _ => simp [assignOffsetAtom, atomOffset, die]

/-- The maps of the pass against the declared offsets: they agree where `kept`
says so, and give nothing beyond the words in use. -/
structure Tracks (env : Atom → Option Int) (kept : Atom → Bool) (lvMap phMap : LvMap)
    (offset : Int) : Prop where
  found : ∀ atom, kept atom = true ↔ ∃ o, atomOffset lvMap phMap atom = some o ∧ env atom = some o
  below : ∀ atom o, atomOffset lvMap phMap atom = some o → o < offset

section

theorem Tracks.mono (h : Tracks env kept lvMap phMap offset) (hle : offset ≤ offset') :
    Tracks env kept lvMap phMap offset' :=
  ⟨h.found, fun atom o ho => (h.below atom o ho).trans_le hle⟩

/-- In the middle of a pattern that began at `start` with the outer maps. -/
structure EntryAt (lvMapOuter phMapOuter lvMap phMap : LvMap) (start offset : Int)
    (acc : List (StoreType Int)) (st : Option Bool) (atom : Atom) : Prop where
  undeclared : st = none → acc.findSome? (styOffset atom) = none ∧
    atomOffset lvMap phMap atom = atomOffset lvMapOuter phMapOuter atom
  declared : ∀ b, st = some b → ∃ o, acc.findSome? (styOffset atom) = some o ∧ start ≤ o ∧
    o < offset ∧ atomOffset lvMap phMap atom =
      if b then some o else atomOffset lvMapOuter phMapOuter atom

namespace EntryAt

variable {acc : List (StoreType Int)}

section

variable (h : EntryAt lvMapOuter phMapOuter lvMap phMap start offset acc st atom)

include h

/-- An entry that is not for the atom. -/
theorem skip (hsty : styOffset atom sty = none)
    (hmap : atomOffset lvMap' phMap' atom = atomOffset lvMap phMap atom) (hle : offset ≤ offset') :
    EntryAt lvMapOuter phMapOuter lvMap' phMap' start offset' (sty :: acc) st atom := by
  have hacc : (sty :: acc).findSome? (styOffset atom) = acc.findSome? (styOffset atom) := by
    rw [findSome?_cons, hsty]
  refine ⟨fun hst => ?_, fun b hb => ?_⟩
  · rw [hacc, hmap]
    exact h.undeclared hst
  · obtain ⟨o, ho, hlo, hhi, hvalue⟩ := h.declared b hb
    exact ⟨o, hacc.trans ho, hlo, hhi.trans_le hle, hmap.trans hvalue⟩

/-- An entry that gives `target` the next word. -/
theorem declare (hstart : start ≤ offset)
    (hsty : styOffset atom sty = if atom = target then some offset else none)
    (hmap : atomOffset lvMap' phMap' atom = if atom =
      target then some offset else atomOffset lvMap phMap atom) :
    EntryAt lvMapOuter phMapOuter lvMap' phMap' start (offset + 1) (sty :: acc)
      (if atom = target then some true else st) atom := by
  by_cases heq : atom = target
  · rw [if_pos heq] at hsty hmap ⊢
    refine ⟨nofun, fun b hb => ⟨offset, by rw [findSome?_cons, hsty], hstart, by omega, ?_⟩⟩
    cases hb
    exact hmap
  · rw [if_neg heq] at hsty hmap ⊢
    exact h.skip hsty hmap (by omega)

/-- A flow variable: the map of the pass is the outer one again. -/
theorem forget (lv : Lvar) (ifTrue ifFalse : Label) :
    EntryAt lvMapOuter phMapOuter lvMapOuter phMap start offset
      (.fvSty lv ifTrue ifFalse :: acc) (entryKept atom st (.fvSty lv ifTrue ifFalse)) atom := by
  cases atom with
  | var lv =>
    refine ⟨fun hst => ⟨(h.undeclared (Option.map_eq_none_iff.mp hst)).1, rfl⟩, fun b hb => ?_⟩
    obtain ⟨b', hb', rfl⟩ := Option.map_eq_some_iff.mp hb
    obtain ⟨o, ho, hlo, hhi, -⟩ := h.declared b' hb'
    exact ⟨o, ho, hlo, hhi, rfl⟩
  | _ => exact h.skip rfl rfl (le_refl _)

end

end EntryAt

theorem atomOffset_addLv : atomOffset (addLv lvMap offset lv) phMap atom =
    if atom = .var lv then some offset else atomOffset lvMap phMap atom := by
  cases atom with
  | var lv' => simp [atomOffset, addLv, Function.update_apply]
  | _ => simp [atomOffset]

theorem atomOffset_addPhreg :
    atomOffset lvMap (addLv phMap offset phreg) atom =
      if atom = .phreg phreg then some offset else atomOffset lvMap phMap atom := by
  cases atom with
  | phreg phreg' => simp [atomOffset, addLv, Function.update_apply]
  | _ => simp [atomOffset]

/-- The maps of the pass in the course of a pattern. -/
theorem assignStysLoop_entries (stys : List (StoreType Unit)) {st : Atom → Option Bool}
    (hr : assignStysLoop lvMapOuter stys acc lvMap phMap offset maxOffset = r)
    (hstart : start ≤ offset)
    (h : ∀ atom, EntryAt lvMapOuter phMapOuter lvMap phMap start offset acc (st atom) atom) :
    start ≤ r.2.2.2.1 ∧ ∀ atom, EntryAt lvMapOuter phMapOuter r.2.1 r.2.2.1 start r.2.2.2.1 r.1
      (stys.foldl (entryKept atom) (st atom)) atom := by
  induction stys generalizing acc st lvMap phMap offset maxOffset with
  | nil =>
    cases hr
    exact ⟨hstart, h⟩
  | cons sty stys ih =>
    cases sty with
    | stackSty lv | flushedCallerSty lv phreg =>
      rw [assignStysLoop, assignSty, bump_eq] at hr
      exact ih hr (by omega) fun atom =>
        (h atom).declare hstart rfl (atomOffset_addLv)
    | phregSty lv phreg => exact ih hr hstart fun atom => (h atom).skip rfl rfl (le_refl _)
    | flushedCalleeSty phreg =>
      rw [assignStysLoop, assignSty, bump_eq] at hr
      exact ih hr (by omega) fun atom =>
        (h atom).declare hstart rfl (atomOffset_addPhreg)
    | fvSty lv ifTrue ifFalse =>
      exact ih hr hstart fun atom => (h atom).forget lv ifTrue ifFalse

/-- The maps inside a pattern. -/
theorem Tracks.pat (h : Tracks env kept lvMap phMap offset) {pat : List (StoreType Unit)}
    (hr : assignStys pat lvMap phMap offset maxOffset = r) :
    Tracks (patOffsets r.1 env) (patKept kept pat) r.2.1 r.2.2.1 r.2.2.2.1 := by
  obtain ⟨hstart, hentries⟩ := assignStysLoop_entries pat hr (le_refl _)
    (fun atom => ⟨fun _ => ⟨rfl, rfl⟩, nofun⟩ :
      ∀ atom, EntryAt lvMap phMap lvMap phMap offset offset [] none atom)
  refine ⟨fun atom => ?_, fun atom o ho => ?_⟩
  · unfold patOffsets patKept
    rcases hst : pat.foldl (entryKept atom) none with _ | b
    · obtain ⟨hnone, hmap⟩ := (hentries atom).undeclared hst
      rw [hnone, hmap]
      exact h.found atom
    · obtain ⟨o, hsome, hlo, -, hmap⟩ := (hentries atom).declared b hst
      rw [hsome, hmap]
      cases b with
      | true => simp
      | false =>
        -- an outer entry is found instead, with another offset
        refine ⟨nofun, fun ⟨o', ho', heq⟩ => ?_⟩
        have hlt := h.below atom o' ho'
        cases heq
        omega
  · rcases hst : pat.foldl (entryKept atom) none with _ | b
    · rw [((hentries atom).undeclared hst).2] at ho
      exact (h.below atom o ho).trans_le hstart
    · obtain ⟨o', -, -, hhi, hmap⟩ := (hentries atom).declared b hst
      rw [hmap] at ho
      cases b with
      | true =>
        cases ho
        exact hhi
      | false => exact (h.below atom o ho).trans_le hstart

theorem assignBinder_le : offset ≤ (assignBinder flags phsize maxOffset offset).2.1 := by
  unfold assignBinder
  split
  · simp [bump_fst]
  · exact le_refl _
  · split
    · simp only [bump_fst]
      omega
    · simp [bump_fst]

theorem assignBinders_le : offset ≤ (assignBinders flags binders offset maxOffset).2.1 := by
  induction binders with
  | nil => exact le_refl _
  | cons binder binders ih => exact ih.trans (assignBinder_le)

end

/-! ## The statements -/

/-- The computation succeeds with a result of which `P` holds. -/
def Yields {α : Type} (x : Except String (α × Int)) (P : α → Prop) : Prop :=
  ∃ a m, x = .ok (a, m) ∧ P a

section Yields

variable {α β : Type} {x : Except String (α × Int)}
  {P : α → Prop}

theorem yields_ok : Yields (.ok (a, m)) P ↔ P a :=
  ⟨fun ⟨_, _, h, hp⟩ => by cases h; exact hp, fun h => ⟨a, m, rfl, h⟩⟩

section

variable (hx : Yields x P ↔ A = true)

include hx

/-- The last of several computations, `C` being what is known of the results before it. -/
theorem yields_last (hf : ∀ a m, Yields (f (a, m)) Q ↔ C ∧ P a) :
    Yields (x >>= f) Q ↔ C ∧ A = true := by
  constructor
  · rintro ⟨b, m', h, hq⟩
    obtain ⟨⟨a, m⟩, ha, h⟩ := bind_ok h
    obtain ⟨hC, hp⟩ := (hf a m).1 ⟨b, m', h, hq⟩
    exact ⟨hC, hx.1 ⟨a, m, ha, hp⟩⟩
  · rintro ⟨hC, hA⟩
    obtain ⟨a, m, ha, hp⟩ := hx.2 hA
    obtain ⟨b, m', h, hq⟩ := (hf a m).2 ⟨hC, hp⟩
    exact ⟨b, m', (ok_bind ha).trans h, hq⟩

theorem yields_bind (hf : ∀ a m, Yields (f (a, m)) Q ↔ (C ∧ P a) ∧ B = true) :
    Yields (x >>= f) Q ↔ C ∧ (A && B) = true := by
  rw [yields_last (C := C ∧ B = true) hx fun a m => (hf a m).trans and_right_comm, and_right_comm,
    and_assoc, Bool.and_eq_true]

theorem yields_map (hf : ∀ a m, Yields (f (a, m)) Q ↔ P a) : Yields (x >>= f) Q ↔ A = true := by
  simpa using yields_last (C := True) hx (by simpa using hf)

theorem yields_first (hf : ∀ a m, Yields (f (a, m)) Q ↔ P a ∧ B = true) :
    Yields (x >>= f) Q ↔ (A && B) = true := by
  simpa using yields_bind (C := True) hx (by simpa using hf)

end

end Yields

theorem coBasic_declared_iff (h : Tracks env kept lvMap phMap offset) :
    Yields (coLs flags (.basic stmt) lvMap phMap offset m) (DeclaredLs env) ↔
      keptBasic kept stmt = true := by
  -- a flush or a fetch of `atom`, the statement being made by `use`
  have hatom : ∀ (atom : Atom) (use : Int → BasicStmt Int Atom),
      (∀ o, DeclaredBasic env (use o) ↔ env atom = some o) →
      (Yields ((assignOffsetAtom atom lvMap phMap >>= fun o => .ok (use o)) >>= fun stmt' =>
        .ok (.basic stmt', m)) (DeclaredLs env) ↔ kept atom = true) := by
    intro atom use huse
    rw [h.found]
    constructor
    · rintro ⟨ls', m', hco, hdecl⟩
      obtain ⟨stmt', hstmt, hco⟩ := bind_ok hco
      obtain ⟨o, ho, hstmt⟩ := bind_ok hstmt
      cases hstmt
      cases hco
      exact ⟨o, assignOffsetAtom_eq_ok.1 ho, (huse o).1 hdecl⟩
    · rintro ⟨o, ho, hdecl⟩
      have hstmt : (assignOffsetAtom atom lvMap phMap >>= fun o => .ok (use o)) = .ok (use o) :=
        ok_bind (assignOffsetAtom_eq_ok.2 ho)
      exact ⟨_, m, ok_bind hstmt, (huse o).2 hdecl⟩
  cases stmt with
  | flush atom => exact hatom atom (.flush atom) fun _ => .rfl
  | fetch atom => exact hatom atom (.fetch atom) fun _ => .rfl
  | _ => exact iff_of_true ⟨_, m, rfl, trivial⟩ rfl

mutual

theorem coLs_declared_iff (h : Tracks env kept lvMap phMap offset) :
    Yields (coLs flags ls lvMap phMap offset m) (DeclaredLs env) ↔ keptLs kept ls = true := by
  match ls with
  | .basic stmt => exact coBasic_declared_iff h
  | .letregion rhos body =>
    exact yields_map (coLss_declared_iff (h.mono (assignBinders_le))) fun _ _ => yields_ok
  | .scope pat scope =>
    exact yields_map (coLss_declared_iff (h.pat rfl)) fun _ _ => yields_ok
  | .handle default handl handlLv handlReturn handlReturnLv bv off =>
    have hle : ∀ m, offset ≤ (bump m offset BI.sizeOfHandle).1 := fun m => by
      rw [bump_fst]
      omega
    refine yields_first (coLss_declared_iff (h.mono (hle _))) fun handl' m1 => ?_
    refine yields_bind (coLss_declared_iff (h.mono (hle _))) fun default' m2 => ?_
    refine yields_last (coLss_declared_iff h) fun handlReturn' m3 => ?_
    exact yields_ok.trans and_assoc.symm
  | .switch kind arg sels default =>
    refine yields_first (coSels_declared_iff h) fun sels' m1 => ?_
    exact yields_last (coLss_declared_iff h) fun _ _ => yields_ok

theorem coLss_declared_iff (h : Tracks env kept lvMap phMap offset) :
    Yields (coLss flags lss lvMap phMap offset m) (DeclaredLss env) ↔ keptLss kept lss = true := by
  match lss with
  | [] => exact iff_of_true ⟨[], m, rfl, trivial⟩ rfl
  | ls :: lss =>
    refine yields_first (coLs_declared_iff h) fun ls' m1 => ?_
    exact yields_last (coLss_declared_iff h) fun _ _ => yields_ok

theorem coSels_declared_iff (h : Tracks env kept lvMap phMap offset) :
    Yields (coSels flags sels lvMap phMap offset m) (DeclaredSels env) ↔
      keptSels kept sels = true := by
  match sels with
  | [] => exact iff_of_true ⟨[], m, rfl, trivial⟩ rfl
  | (sel, lss) :: sels =>
    refine yields_first (coSels_declared_iff h) fun sels' m1 => ?_
    exact yields_last (coLss_declared_iff h) fun _ _ => yields_ok

end

/-! ## Functions -/

theorem addList_mem (h : addList entries lvMap lv = some o) :
    (lv, o) ∈ entries ∨ lvMap lv = some o := by
  induction entries generalizing lvMap with
  | nil => exact .inr h
  | cons entry entries ih =>
    obtain hmem | hadd : (lv, o) ∈ entries ∨ addLv lvMap entry.2 entry.1 lv = some o := ih h
    · exact .inl (.tail _ hmem)
    · rw [addLv, Function.update_apply] at hadd
      split at hadd
      · rename_i heq
        cases hadd
        exact .inl (heq ▸ .head _)
      · exact .inr hadd

/-- The call convention declares the variables it passes on the stack, and they
lie below the frame. -/
theorem tracks_cc (h : CallConv.Places cc formals ress) :
    Tracks (ccOffsets cc) (atomSlotted (spilledLvs cc) [])
      (addList cc.spilledRes (addList cc.spilledArgs fun _ => none)) (fun _ => none) 0 := by
  have hmem : ∀ lv o, ccOffsets cc (.var lv) = some o →
      (lv, o) ∈ cc.spilledRes ∨ (lv, o) ∈ cc.spilledArgs := fun lv o ho =>
    (addList_mem ho).imp_right fun ho => (addList_mem ho).resolve_right (by simp)
  refine ⟨fun atom => ?_, fun atom o ho => ?_⟩
  · cases atom with
    | var lv =>
      rw [atomSlotted, contains_iff_mem]
      constructor
      · intro hlv
        obtain ⟨o, ho⟩ := ((Defines.addList (fun _ hnil => absurd hnil not_mem_nil)
          cc.spilledArgs).addList cc.spilledRes) lv hlv
        exact ⟨o, ho, ho⟩
      · rintro ⟨o, -, ho⟩
        rw [spilledLvs, append_nil, mem_append, mem_reverse, mem_reverse]
        exact (hmem lv o ho).imp (mem_map_of_mem (f := Prod.fst)) (mem_map_of_mem (f := Prod.fst))
    | _ => exact ⟨(by cases ·), by rintro ⟨_, _, ⟨⟩⟩⟩
  · cases atom with
    | var lv =>
      rcases hmem lv o ho with hmem | hmem
      · exact h.spilledRes_neg hmem
      · exact (h.spilledArgs_mem hmem).2
    | _ => cases ho

/-- The pass on a function with a call convention of its formals and results:
it succeeds with every flush and fetch at the offset that the innermost pattern
or the call convention declares, if and only if each is of a declared atom and no
flow variable follows the atom's entry in the innermost pattern that has it. -/
theorem coTopDecl_declared_iff (flags : Flags) (args regArgs ress : List Lvar)
    (clos regVec : Option Lvar) (lss : List IffStmt) {cc : CallConv.CC}
    {formalRegs resRegs : List (Lvar × Lvar)}
    (hcc : CallConv.resolveCc RI.argsPhreg RI.resPhreg
      (CallConv.mkCcFun args clos regVec regArgs ress) = .ok (cc, formalRegs, resRegs)) :
    (∃ cc' lss', coTopDecl flags cc lss = .ok (cc', lss') ∧ DeclaredLss (ccOffsets cc) lss') ↔
      keptLss (atomSlotted (spilledLvs cc) []) lss = true := by
  obtain ⟨cc1, _, hcc1, hplaces⟩ := CallConv.resolveCc_places args clos regVec regArgs ress
  cases hcc.symm.trans hcc1
  rw [← coLss_declared_iff (tracks_cc hplaces), coTopDecl,
    ok_bind (CallConv.getSpilledArgsWithOffsets_eq hplaces.resolved),
    ok_bind (CallConv.getSpilledResWithOffsets_eq hplaces.resolved)]
  constructor
  · rintro ⟨cc', lss', hco, hdecl⟩
    obtain ⟨⟨lssCo, sizeFf⟩, hlss, hco⟩ := bind_ok hco
    obtain ⟨sizeCc, -, hret⟩ := bind_ok hco
    cases hret
    exact ⟨lss', sizeFf, hlss, hdecl⟩
  · rintro ⟨lssCo, sizeFf, hlss, hdecl⟩
    exact ⟨_, lssCo, (ok_bind hlss).trans (ok_bind (CallConv.getCcSize_eq hplaces.resolved)), hdecl⟩

/-- A convention without parameters and results. -/
def noParams : CallConv.CC :=
  { clos := none, args := [], regVec := none, regArgs := [], res := [], frameSize := none }

/-- A stack variable that is flushed, in a pattern with a flow variable. -/
def flushed (pat : StoreType Unit → StoreType Unit → List (StoreType Unit)) : List IffStmt :=
  [.scope (pat (.stackSty (.named 0 false) ()) (.fvSty (.named 1 false) ⟨0⟩ ⟨1⟩))
    [.basic (.flush (.var (.named 0 false)) ())]]

/-- With the flow variable first the flush gets its offset. -/
theorem flow_variable_first :
    ∃ cc' lss', coTopDecl ⟨true, true, false, false⟩ noParams (flushed fun x y => [y, x]) =
      .ok (cc', lss') ∧ DeclaredLss (ccOffsets noParams) lss' :=
  (coTopDecl_declared_iff _ [] [] [] none none (flushed fun x y => [y, x]) rfl).2 (by decide)

/-- With the flow variable last the pass dies, the variable being forgotten. -/
theorem flow_variable_last :
    ∃ msg, coTopDecl ⟨true, true, false, false⟩ noParams (flushed fun x y => [x, y]) = .error msg :=
  ⟨_, rfl⟩

end MLKit.Backend.CalcOffset
