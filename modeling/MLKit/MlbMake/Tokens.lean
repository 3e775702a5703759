import MLKit.Lib.Except
import MLKit.MlbMake.Before
import MLKit.MlbMake.Builds

/-!
# What the tokens of a file stand for

The files before a source file are those of the elements that its element waits for.
-/

namespace MLKit.MlbMake

open MLKit.Lib BuildGraph Relation List Option

/-! ## Environments -/

section Env

variable {τ σ : Type}

mutual

def Deps.map (f : τ → σ) : Deps τ → Deps σ
  | .dep bid deps inner => .dep bid (f deps) (Deps.mapList f inner)

def Deps.mapList (f : τ → σ) : List (Deps τ) → List (Deps σ)
  | [] => []
  | d :: ds => d.map f :: Deps.mapList f ds

end

mutual

def Deps.All (P : τ → Prop) : Deps τ → Prop
  | .dep _ deps inner => P deps ∧ Deps.AllList P inner

def Deps.AllList (P : τ → Prop) : List (Deps τ) → Prop
  | [] => True
  | d :: ds => d.All P ∧ Deps.AllList P ds

end

theorem Deps.allList_append (h1 : Deps.AllList P m1) (h2 : Deps.AllList P m2) :
    Deps.AllList P (m1 ++ m2) := by
  induction m1 with
  | nil => exact h2
  | cons d m1 ih => exact ⟨h1.1, ih h1.2⟩

mutual

theorem Deps.All.mono (hPQ : ∀ t, P t → Q t) : ∀ d : Deps τ, d.All P → d.All Q
  | .dep _ _ inner, h => ⟨hPQ _ h.1, Deps.AllList.mono hPQ inner h.2⟩

theorem Deps.AllList.mono (hPQ : ∀ t, P t → Q t) :
    ∀ ds : List (Deps τ), Deps.AllList P ds → Deps.AllList Q ds
  | [], _ => trivial
  | d :: ds, h => ⟨Deps.All.mono hPQ d h.1, Deps.AllList.mono hPQ ds h.2⟩

end

theorem findEntry_all (hm : Deps.AllList P m) (hfind : findEntry bid m = some entry) :
    P entry.1 ∧ Deps.AllList P entry.2 := by
  induction m with
  | nil => cases hfind
  | cons d m ih =>
    cases d with
    | dep b deps inner =>
      rw [findEntry] at hfind
      split at hfind
      · cases hfind
        exact hm.1
      · exact ih hm.2 hfind

theorem findInMap_all (hm : Deps.AllList P m) (hfind : findInMap bid bids m = some t) : P t := by
  induction bids generalizing bid m with
  | nil =>
    obtain ⟨entry, hentry, rfl⟩ := map_eq_some_iff.1 hfind
    exact (findEntry_all hm hentry).1
  | cons y ys ih =>
    obtain ⟨entry, hentry, hrest⟩ := bind_eq_some_iff.1 hfind
    exact ih (findEntry_all hm hentry).2 hrest

/-- What holds of all tokens of an environment. -/
def AllMaps (P : τ → Prop) (ms : List (List (Deps τ))) : Prop := ∀ m ∈ ms, Deps.AllList P m

theorem findInMaps_all (hms : AllMaps P ms) (hfind : findInMaps longbid ms = some t) : P t := by
  induction ms with
  | nil => cases hfind
  | cons m ms ih =>
    obtain ⟨hm, hms⟩ := forall_mem_cons.1 hms
    rw [findInMaps] at hfind
    split at hfind
    · exact ih hms hfind
    · next ht =>
        cases hfind
        exact findInMap_all hm ht

theorem addLevelMap_all (hms : AllMaps P ms) : AllMaps P (addLevelMap ms) := by
  cases ms with
  | nil => simp [addLevelMap, AllMaps, Deps.AllList]
  | cons m ms => exact forall_mem_cons.2 ⟨trivial, hms⟩

theorem wrapLevel_all (hms : AllMaps P ms) (ht : P t) (bid : Bid) :
    AllMaps P (wrapLevel ms bid t) := by
  match ms, hms with
  | [], _ =>
    intro m hm
    obtain rfl := mem_singleton.1 hm
    exact ⟨⟨ht, trivial⟩, trivial⟩
  | [m], hms =>
    intro m' hm'
    obtain rfl := mem_singleton.1 hm'
    exact ⟨⟨ht, hms m (.head _)⟩, trivial⟩
  | m1 :: m2 :: ms, hms =>
    obtain ⟨h1, hms⟩ := forall_mem_cons.1 hms
    obtain ⟨h2, hms⟩ := forall_mem_cons.1 hms
    exact forall_mem_cons.2 ⟨⟨⟨ht, h1⟩, h2⟩, hms⟩

theorem killLocal_all (hms : AllMaps P ms) : AllMaps P (killLocal ms) := by
  match ms, hms with
  | [], hms | [m], hms => exact hms
  | [m1, m2], hms =>
    exact fun m hm => hms m (by simp [killLocal, wrapLocal] at hm; simp [hm])
  | m1 :: m2 :: m3 :: ms, hms =>
    obtain ⟨h1, hms⟩ := forall_mem_cons.1 hms
    obtain ⟨-, hms⟩ := forall_mem_cons.1 hms
    obtain ⟨h3, hms⟩ := forall_mem_cons.1 hms
    exact forall_mem_cons.2 ⟨Deps.allList_append h1 h3, hms⟩

variable (f : τ → σ)

theorem Deps.mapList_append (m1 m2 : List (Deps τ)) :
    Deps.mapList f (m1 ++ m2) = Deps.mapList f m1 ++ Deps.mapList f m2 := by
  induction m1 with
  | nil => rfl
  | cons d m1 ih => rw [cons_append, Deps.mapList, Deps.mapList, ih, cons_append]

theorem findEntry_map (bid : Bid) (m : List (Deps τ)) :
    findEntry bid (Deps.mapList f m) =
      (findEntry bid m).map fun entry => (f entry.1, Deps.mapList f entry.2) := by
  induction m with
  | nil => rfl
  | cons d m ih =>
    cases d with
    | dep b deps inner =>
      rw [Deps.mapList, Deps.map, findEntry, findEntry]
      split
      · rfl
      · exact ih

theorem findInMap_map (bid : Bid) (bids : List Bid) (m : List (Deps τ)) :
    findInMap bid bids (Deps.mapList f m) = (findInMap bid bids m).map f := by
  induction bids generalizing bid m with
  | nil =>
    rw [findInMap, findInMap, findEntry_map, Option.map_map, Option.map_map]
    rfl
  | cons y ys ih =>
    rw [findInMap, findInMap, findEntry_map]
    cases findEntry bid m with
    | none => rfl
    | some entry => exact ih y entry.2

def mapMaps (ms : List (List (Deps τ))) : List (List (Deps σ)) := ms.map (Deps.mapList f)

theorem findInMaps_map (longbid : LongBid) (ms : List (List (Deps τ))) :
    findInMaps longbid (mapMaps f ms) = (findInMaps longbid ms).map f := by
  induction ms with
  | nil => rfl
  | cons m ms ih =>
    rw [mapMaps, map_cons, findInMaps, findInMaps, findInMap_map]
    cases findInMap longbid.bid longbid.rest m with
    | none => exact ih
    | some t => rfl

theorem addLevelMap_map (ms : List (List (Deps τ))) :
    addLevelMap (mapMaps f ms) = mapMaps f (addLevelMap ms) := by
  cases ms <;> rfl

theorem wrapLevel_map (ms : List (List (Deps τ))) (bid : Bid) (t : τ) :
    wrapLevel (mapMaps f ms) bid (f t) = mapMaps f (wrapLevel ms bid t) := by
  match ms with
  | [] | [m] | m1 :: m2 :: ms => rfl

theorem killLocal_map (ms : List (List (Deps τ))) :
    killLocal (mapMaps f ms) = mapMaps f (killLocal ms) := by
  match ms with
  | [] | [m] | [m1, m2] => rfl
  | m1 :: m2 :: m3 :: ms =>
    simp only [mapMaps, killLocal, wrapLocal, map_cons, Deps.mapList_append]

end Env

/-! ## Tokens are numbers of elements -/

def Bound (n : Nat) (deps : List Nat) : Prop := ∀ d ∈ deps, 1 ≤ d ∧ d ≤ n

theorem Bound.mono (hle : n ≤ n') (deps : List Nat) (h : Bound n deps) : Bound n' deps :=
  fun d hd => ⟨(h d hd).1, Nat.le_trans (h d hd).2 hle⟩

section

theorem Bound.append (h : Bound n deps) (h' : Bound n deps') : Bound n (deps ++ deps') := by
  exact forall_mem_append.2 ⟨h, h'⟩

theorem bound_findInMaps (hms : AllMaps (Bound n) ms) (longbid : LongBid) :
    Bound n ((findInMaps longbid ms).getD []) := by
  cases hfind : findInMaps longbid ms with
  | none => exact fun d hd => by cases hd
  | some t => exact findInMaps_all hms hfind

structure SrcOk (s : SrcState) (mlbs : List (String × List Nat)) : Prop where
  numbered : Numbered s.bg
  bidMap : AllMaps (Bound s.bg.length) s.bidMap
  mlbs : ∀ entry ∈ mlbs, Bound s.bg.length entry.2

variable {mlbs : List (String × List Nat)}

theorem SrcOk.addLevel (hs : SrcOk s mlbs) : SrcOk s.addLevel mlbs :=
  ⟨hs.numbered, addLevelMap_all hs.bidMap, hs.mlbs⟩

/-- A new element. -/
theorem SrcOk.add (hs : SrcOk s mlbs) (hdeps : Bound s.bg.length deps) (x : Source) :
    SrcOk { s with bg := ⟨s.bg.length + 1, x, deps⟩ :: s.bg } mlbs := by
  have hmono : ∀ t, Bound s.bg.length t → Bound (s.bg.length + 1) t := Bound.mono (Nat.le_succ _)
  refine ⟨⟨rfl, hdeps, hs.numbered⟩, fun m hm => ?_, fun entry hentry => ?_⟩
  · exact Deps.AllList.mono hmono m (hs.bidMap m hm)
  · exact hmono _ (hs.mlbs entry hentry)

theorem addScripts_ok (hs : SrcOk s mlbs) (hdeps : Bound s.bg.length deps)
    (mlbfile : String) (anns : List String) (smlfiles : List String) :
    SrcOk { s with bg := addScripts mlbfile anns deps s.bg smlfiles } mlbs ∧
      s.bg <:+ addScripts mlbfile anns deps s.bg smlfiles := by
  induction smlfiles generalizing s with
  | nil => exact ⟨hs, suffix_refl _⟩
  | cons f smlfiles ih =>
    have hadd := hs.add hdeps ⟨.script f, mlbfile, anns⟩
    obtain ⟨hok, hsuffix⟩ := ih hadd (hdeps.mono (Nat.le_succ _))
    have heq : addScripts mlbfile anns deps s.bg (f :: smlfiles) = addScripts mlbfile anns deps
        (⟨s.bg.length + 1, ⟨.script f, mlbfile, anns⟩, deps⟩ :: s.bg) smlfiles := by
      rw [addScripts, foldl_cons, addFirst_eq hs.numbered]
      rfl
    rw [heq]
    exact ⟨hok, (suffix_cons _ _).trans hsuffix⟩

/-- What a traversal does to the tokens: the graph grows, and all tokens are in it. -/
structure SrcsOk (s : SrcState) (r : SrcResult) : Prop where
  ok : SrcOk r.state r.mlbs
  deps : Bound r.state.bg.length r.deps
  suffix : s.bg <:+ r.state.bg

/-! ## The files of a token -/

/-- The file of a token and of all that its element waits for. -/
def filesOf : List (Elem Source) → Nat → List String
  | [], _ => []
  | e :: bg, i =>
    if e.id = i then e.elem.name :: e.dependStatus.flatMap (filesOf bg) else filesOf bg i

def image (bg : List (Elem Source)) (deps : List Nat) : List String := deps.flatMap (filesOf bg)

theorem filesOf_append (hbg : Numbered (l ++ bg)) (hi : i ≤ bg.length) :
    filesOf (l ++ bg) i = filesOf bg i := by
  induction l with
  | nil => rfl
  | cons e l ih =>
    rw [cons_append] at hbg
    obtain ⟨hid, -, hbg⟩ := hbg
    rw [length_append] at hid
    rw [cons_append, filesOf, if_neg (by omega), ih hbg]

theorem image_append (hbg : Numbered (l ++ bg)) (hdeps : Bound bg.length deps) :
    image (l ++ bg) deps = image bg deps := by
  exact flatMap_congr fun d hd => filesOf_append hbg (hdeps d hd).2

/-- A token stands for its file and the files before it. -/
theorem filesOf_elem (hbg : Numbered bg) (he : e ∈ bg) :
    filesOf bg e.id = e.elem.name :: image bg e.dependStatus := by
  obtain ⟨l, bg', rfl⟩ := append_of_mem he
  obtain ⟨hid, hdeps, hbg'⟩ := hbg.of_append
  rw [filesOf_append hbg (by simp [hid]), filesOf, if_pos rfl]
  have hsplit : l ++ e :: bg' = (l ++ [e]) ++ bg' := by simp
  rw [hsplit] at hbg ⊢
  rw [image_append hbg hdeps]
  rfl

/-- The files before a source file are the files of all that its element waits for. -/
theorem mem_image (hbg : Numbered bg) (he : e ∈ bg) :
    x ∈ image bg e.dependStatus ↔ ∃ e' ∈ bg, TransGen (Waits bg) e'.id e.id ∧ e'.elem.name = x := by
  induction hid : e.id using Nat.strongRecOn generalizing e with
  | ind i ih =>
    subst hid
    rw [image, mem_flatMap]
    constructor
    · rintro ⟨d, hd, hx⟩
      obtain ⟨hlt, e', he', rfl⟩ := hbg.exists_dep he hd
      have hwaits : Waits bg e'.id e.id := (waits_iff hbg he).2 hd
      rw [filesOf_elem hbg he', mem_cons] at hx
      rcases hx with rfl | hx
      · exact ⟨e', he', .single hwaits, rfl⟩
      · obtain ⟨e'', he'', hpath, hname⟩ := (ih _ hlt he' rfl).1 hx
        exact ⟨e'', he'', hpath.tail hwaits, hname⟩
    · rintro ⟨e', he', hpath, rfl⟩
      cases hpath with
      | single hwaits =>
        refine ⟨e'.id, (waits_iff hbg he).1 hwaits, ?_⟩
        rw [filesOf_elem hbg he']
        exact .head _
      | tail hpath hwaits =>
        have hd := (waits_iff hbg he).1 hwaits
        obtain ⟨hlt, e'', he'', rfl⟩ := hbg.exists_dep he hd
        refine ⟨_, hd, ?_⟩
        rw [filesOf_elem hbg he'']
        exact .tail _ ((ih _ hlt he'' rfl).2 ⟨e', he', hpath, rfl⟩)

/-! ## The traversal for the scheduler -/

end

section Simulation

variable (full : List (Elem Source))

/-- The state of a traversal with files for tokens. -/
def SrcState.image (s : SrcState) : BeforeState :=
  ⟨s.bg.map fun e => (e.elem.name, MlbMake.image full e.dependStatus),
    mapMaps (MlbMake.image full) s.bidMap⟩

def imageMlbs (mlbs : List (String × List Nat)) : List (String × List String) :=
  mlbs.map fun entry => (entry.1, MlbMake.image full entry.2)

def SrcResult.image (r : SrcResult) : BeforeResult :=
  ⟨r.state.image full, MlbMake.image full r.deps, imageMlbs full r.mlbs⟩

theorem image_findInMaps (longbid : LongBid) (ms : List (List (Deps (List Nat)))) :
    (findInMaps longbid (mapMaps (image full) ms)).getD [] =
      image full ((findInMaps longbid ms).getD []) := by
  rw [findInMaps_map]
  cases findInMaps longbid ms <;> rfl

theorem image_app (deps deps' : List Nat) :
    image full (deps ++ deps') = image full deps ++ image full deps' :=
  flatMap_append

theorem addLevel_image (s : SrcState) : (s.image full).addLevel = s.addLevel.image full := by
  rw [BeforeState.addLevel, SrcState.image, addLevelMap_map]
  rfl

theorem find_imageMlbs (mlbs : List (String × List Nat)) (mlbfile : String) :
    (imageMlbs full mlbs).find? (fun entry => entry.1 = mlbfile) =
      (mlbs.find? fun entry => entry.1 = mlbfile).map
        fun entry => (entry.1, image full entry.2) := by
  rw [imageMlbs, List.find?_map]
  rfl

theorem opens_image (ms : List (List (Deps (List Nat)))) (longbids : List LongBid)
    (deps : List Nat) :
    longbids.foldl (fun acc l => (findInMaps l (mapMaps (image full) ms)).getD [] ++ acc)
        (image full deps) =
      image full (longbids.foldl (fun acc l => (findInMaps l ms).getD [] ++ acc) deps) := by
  induction longbids generalizing deps with
  | nil => rfl
  | cons l longbids ih =>
    rw [foldl_cons, foldl_cons, image_findInMaps, ← image_app]
    exact ih _

theorem addScripts_image (mlbfile : String) (anns : List String) (deps : List Nat)
    (bg : List (Elem Source)) (smlfiles : List String) :
    (addScripts mlbfile anns deps bg smlfiles).map
        (fun e => (e.elem.name, image full e.dependStatus)) =
      smlfiles.foldl (fun out f => (f, image full deps) :: out)
        (bg.map fun e => (e.elem.name, image full e.dependStatus)) := by
  induction smlfiles generalizing bg with
  | nil => rfl
  | cons f smlfiles ih =>
    exact ih (addFirst bg deps ⟨.script f, mlbfile, anns⟩).1

variable {full}

/-- A token that has just been made. -/
theorem image_token (hfull : Numbered full) (hsuffix : ⟨n, x, deps⟩ :: bg <:+ full) :
    image full [n] = x.name :: image full deps := by
  have hmem := hsuffix.subset (.head _)
  rw [image, flatMap_singleton]
  exact filesOf_elem hfull hmem

/-- A traversal that keeps the tokens, and that a traversal with files for tokens follows in every
graph that the graph becomes a part of. -/
structure Traversed (s : SrcState) (before : List (Elem Source) → BeforeResult)
    (r : SrcResult) : Prop extends SrcsOk s r where
  image : ∀ full, Numbered full → r.state.bg <:+ full → before full = r.image full

mutual

theorem srcsBexp_traversed (hs : SrcOk s mlbs) (hdeps : Bound s.bg.length deps) : ∀ (bexp : Bexp)
    {r : SrcResult},
    srcsBexp s mlbfile current mlbs anns deps bexp = .ok r → Traversed s (fun full =>
      beforeBexp (s.image full) (imageMlbs full mlbs) (image full deps) bexp) r
  | .bas bdec, r, hr => by
    exact srcsBdec_traversed hs hdeps bdec hr
  | .letIn bdec bexp, r, hr => by
    obtain ⟨r1, hr1, hr⟩ := bind_ok hr
    have h1 := srcsBdec_traversed hs hdeps bdec hr1
    have h2 := srcsBexp_traversed h1.ok h1.deps bexp hr
    refine ⟨⟨h2.ok, h2.deps, h1.suffix.trans h2.suffix⟩, fun full hfull hsuffix => ?_⟩
    rw [beforeBexp, h1.image full hfull (h2.suffix.trans hsuffix)]
    exact h2.image full hfull hsuffix
  | .longbid longbid, r, hr => by
    cases hr
    refine ⟨⟨hs, bound_findInMaps hs.bidMap longbid, suffix_refl _⟩, fun full _ _ => ?_⟩
    rw [beforeBexp, SrcResult.image, SrcState.image, image_findInMaps]

theorem srcsBdec_traversed (hs : SrcOk s mlbs) (hdeps : Bound s.bg.length deps) : ∀ (bdec : Bdec)
    {r : SrcResult},
    srcsBdec s mlbfile current mlbs anns deps bdec = .ok r → Traversed s (fun full =>
      beforeBdec (s.image full) (imageMlbs full mlbs) (image full deps) bdec) r
  | .seq bdec1 bdec2, r, hr => by
    obtain ⟨r1, hr1, hr⟩ := bind_ok hr
    have h1 := srcsBdec_traversed hs hdeps bdec1 hr1
    have h2 := srcsBdec_traversed h1.ok h1.deps bdec2 hr
    refine ⟨⟨h2.ok, h2.deps, h1.suffix.trans h2.suffix⟩, fun full hfull hsuffix => ?_⟩
    rw [beforeBdec, h1.image full hfull (h2.suffix.trans hsuffix)]
    exact h2.image full hfull hsuffix
  | .empty, r, hr => by
    cases hr
    refine ⟨⟨hs, hdeps, suffix_refl _⟩, fun full _ _ => ?_⟩
    rw [beforeBdec, SrcResult.image]
  | .loc bdec1 bdec2, r, hr => by
    rw [srcsBdec] at hr
    obtain ⟨r1, hr1, hr⟩ := bind_ok hr
    obtain ⟨r2, hr2, hr⟩ := bind_ok hr
    cases hr
    have h1 := srcsBdec_traversed hs.addLevel hdeps bdec1 hr1
    have h2 := srcsBdec_traversed h1.ok.addLevel h1.deps bdec2 hr2
    refine ⟨⟨⟨h2.ok.numbered, killLocal_all h2.ok.bidMap, h2.ok.mlbs⟩, h2.deps,
      h1.suffix.trans h2.suffix⟩, fun full hfull hsuffix => ?_⟩
    have heq1 := h1.image full hfull (h2.suffix.trans hsuffix)
    have heq2 := h2.image full hfull hsuffix
    rw [beforeBdec, addLevel_image, heq1, SrcResult.image]
    rw [addLevel_image, heq2, SrcResult.image, SrcState.image]
    rw [killLocal_map]
    rfl
  | .basis bid bexp, r, hr => by
    obtain ⟨r1, hr1, hr⟩ := bind_ok hr
    cases hr
    have h1 := srcsBexp_traversed hs.addLevel hdeps bexp hr1
    refine ⟨⟨⟨h1.ok.numbered, wrapLevel_all h1.ok.bidMap h1.deps bid, h1.ok.mlbs⟩,
      hdeps.mono h1.suffix.length_le, h1.suffix⟩, fun full hfull hsuffix => ?_⟩
    have heq1 := h1.image full hfull hsuffix
    rw [beforeBdec, addLevel_image, heq1, SrcResult.image, SrcState.image]
    rw [wrapLevel_map]
    rfl
  | .opn longbids, r, hr => by
    rw [srcsBdec] at hr
    cases hr
    refine ⟨⟨hs, ?_, suffix_refl _⟩, fun full _ _ => ?_⟩
    · induction longbids generalizing deps with
      | nil => exact hdeps
      | cons l longbids ih => exact ih ((bound_findInMaps hs.bidMap l).append hdeps)
    · rw [beforeBdec, SrcResult.image, SrcState.image]
      rw [opens_image]
  | .atbdec smlfile, r, hr => by
    rw [srcsBdec, addFirst_eq hs.numbered] at hr
    cases hr
    refine ⟨⟨hs.add hdeps _, ?_, suffix_cons _ _⟩, fun full hfull hsuffix => ?_⟩
    · intro d hd
      obtain rfl := mem_singleton.1 hd
      exact ⟨Nat.succ_le_succ (Nat.zero_le _), Nat.le_refl _⟩
    · have htoken := image_token hfull hsuffix
      exact congrArg (fun before => (⟨_, before, _⟩ : BeforeResult)) htoken.symm
  | .mlbfile mlbfile' parsed, r, hr => by
    rw [srcsBdec] at hr
    split at hr
    · cases hr
    split at hr
    · next m deps2 hfind =>
        cases hr
        refine ⟨⟨hs, hdeps.append (hs.mlbs _ (mem_of_find?_eq_some hfind)), suffix_refl _⟩,
          fun full _ _ => ?_⟩
        rw [beforeBdec, find_imageMlbs, hfind, SrcResult.image, image_app]
        rfl
    · next hfind =>
        obtain ⟨r1, hr1, hr⟩ := bind_ok hr
        cases hr
        have h1 := srcsBdec_traversed hs (fun d hd => by cases hd) parsed hr1
        refine ⟨⟨⟨h1.ok.numbered, h1.ok.bidMap, forall_mem_cons.2 ⟨h1.deps, h1.ok.mlbs⟩⟩,
          (hdeps.mono h1.suffix.length_le).append h1.deps, h1.suffix⟩, fun full hfull hsuffix => ?_⟩
        have heq1 := h1.image full hfull hsuffix
        rw [beforeBdec, find_imageMlbs, hfind]
        rw [show beforeBdec (s.image full) (imageMlbs full mlbs) [] parsed = r1.image full from heq1,
          SrcResult.image, SrcResult.image, image_app]
        rfl
  | .scripts smlfiles, r, hr => by
    cases hr
    obtain ⟨hok, hsuffix⟩ := addScripts_ok hs hdeps mlbfile anns smlfiles
    refine ⟨⟨hok, hdeps.mono hsuffix.length_le, hsuffix⟩, fun full _ _ => ?_⟩
    rw [beforeBdec, SrcResult.image, SrcState.image, SrcState.image, addScripts_image]
  | .ann ann bdec, r, hr => by
    exact srcsBdec_traversed hs hdeps bdec hr

end

end Simulation

/-- The graph of a project, and what its tokens stand for. -/
theorem Project.graph_spec {p : Project} (hbg : p.graph = .ok bg) :
    Numbered bg ∧ p.before = bg.map fun e => (e.elem.name, image bg e.dependStatus) := by
  obtain ⟨r, hr, hbg⟩ := bind_ok hbg
  cases hbg
  have hs : SrcOk ⟨[], []⟩ [] :=
    ⟨trivial, fun m hm => (not_mem_nil hm).elim, fun m hm => (not_mem_nil hm).elim⟩
  have hdeps : Bound ([] : List (Elem Source)).length [] := fun d hd => (not_mem_nil hd).elim
  have hok := srcsBdec_traversed hs hdeps _ hr
  have himage := hok.image _ hok.ok.numbered (suffix_refl _)
  refine ⟨hok.ok.numbered, ?_⟩
  have hout := congrArg (fun r => r.state.out) himage
  exact hout

end MLKit.MlbMake
