import MLKit.Backend.FlowRuns

/-!
# What is left to do

The notions of a text for what is left to do somewhere in it. Going on in the text keeps them: every
definition that is left is still fine, no uses are added, and no labels.
-/

namespace MLKit.Backend.FlowVars

open List Nat

variable {code : RegionCode} {lv : Lvar}

section Items

variable (code : RegionCode) (lv : Lvar)

/-- Every definition and use of the variable in what is left to do is fine. -/
def FineItems : List Item → Prop
  | [] => True
  | .stmt ls :: K => FineLs code lv ls K ∧ FineItems K
  | .uninstall ret :: K => FineItems ret ∧ FineItems K
  | .install handlLv :: K => lv ∉ getVarAtom handlLv ∧ FineItems K
  | .receive aty :: K => lv ∉ getVarAtom aty ∧ FineItems K
  | .region _ _ :: K => FineItems K

/-- What is left to do comes from linearisation. -/
def PlainItems : List Item → Prop
  | [] => True
  | .stmt ls :: K => PlainLs ls ∧ PlainItems K
  | .uninstall ret :: K => PlainItems ret ∧ PlainItems K
  | .install _ :: K => PlainItems K
  | .receive _ :: K => PlainItems K
  | .region _ _ :: K => PlainItems K

/-- The uses of the variable in what is left to do. Either an exception is raised or not. -/
def usesItems : List Item → Nat
  | [] => 0
  | .stmt ls :: K => usesLs lv ls + usesItems K
  | .uninstall ret :: K => max (usesItems ret) (usesItems K)
  | .install handlLv :: K => (if lv ∈ getVarAtom handlLv then 1 else 0) + usesItems K
  | .receive _ :: K => usesItems K
  | .region _ _ :: K => usesItems K

/-- The labels set in what is left to do. -/
def placesItems : List Item → List (Label × List Item)
  | [] => []
  | .stmt ls :: K => placesLs code ls K ++ placesItems K
  | .uninstall ret :: K => placesItems ret ++ placesItems K
  | .install _ :: K => placesItems K
  | .receive _ :: K => placesItems K
  | .region _ _ :: K => placesItems K

end Items

mutual

def sizeLs : FvStmt → Nat
  | .basic _ => 1
  | .letregion _ body => 1 + sizeLss body
  | .scope _ scope => 1 + sizeLss scope
  | .handle default handl _ _ _ _ _ => 1 + sizeLss default + sizeLss handl
  | .switch _ _ sels default => 1 + sizeSels sels + sizeLss default

def sizeLss : List FvStmt → Nat
  | [] => 0
  | ls :: lss => sizeLs ls + sizeLss lss

def sizeSels : List (Selector × List FvStmt) → Nat
  | [] => 0
  | (_, lss) :: sels => sizeLss lss + sizeSels sels

end

/-- The size of the statements left to do. -/
def sizeItems : List Item → Nat
  | [] => 0
  | .stmt ls :: K => sizeLs ls + sizeItems K
  | _ :: K => sizeItems K

/-- What is left to do in the annotated body. -/
def annItems (labels : FreshLabels) (okSet : Finset Lvar) : List Item → List Item
  | [] => []
  | .stmt ls :: K =>
    .stmt (mapLs (annAty labels okSet) (annSty labels okSet) ls) :: annItems labels okSet K
  | .uninstall ret :: K => .uninstall (annItems labels okSet ret) :: annItems labels okSet K
  | .install handlLv :: K => .install (annAty labels okSet handlLv) :: annItems labels okSet K
  | .receive aty :: K => .receive (annAty labels okSet aty) :: annItems labels okSet K
  | .region op rho :: K => .region op rho :: annItems labels okSet K

variable {labels : FreshLabels} {okSet : Finset Lvar} {K' ret : List Item} {item : Item}
  {ls : FvStmt}

section Append

variable {lss : List FvStmt}
  (op : RegionOp) (rhos : List (Binder × Unit)) (K : List Item)

theorem stmts_cons : stmts (ls :: lss) ++ K = .stmt ls :: (stmts lss ++ K) := rfl

@[simp] theorem fineItems_stmts :
    FineItems code lv (stmts lss ++ K) ↔ FineLss code lv lss K ∧ FineItems code lv K := by
  induction lss with
  | nil => simp [stmts, FineLss]
  | cons ls lss ih =>
    rw [stmts_cons, FineItems, FineLss, ih, and_assoc]

@[simp] theorem plainItems_stmts : PlainItems (stmts lss ++ K) ↔ PlainLss lss ∧ PlainItems K := by
  induction lss with
  | nil => simp [stmts, PlainLss]
  | cons ls lss ih =>
    rw [stmts_cons, PlainItems, PlainLss, ih, and_assoc]

@[simp] theorem usesItems_stmts :
    usesItems lv (stmts lss ++ K) = usesLss lv lss + usesItems lv K := by
  induction lss with
  | nil => simp [stmts, usesLss]
  | cons ls lss ih =>
    rw [stmts_cons, usesItems, usesLss, ih, add_assoc]

@[simp] theorem placesItems_stmts :
    placesItems code (stmts lss ++ K) = placesLss code lss K ++ placesItems code K := by
  induction lss with
  | nil => simp [stmts, placesLss]
  | cons ls lss ih =>
    rw [stmts_cons, placesItems, placesLss, ih, append_assoc]

@[simp] theorem sizeItems_stmts : sizeItems (stmts lss ++ K) = sizeLss lss + sizeItems K := by
  induction lss with
  | nil => simp [stmts, sizeLss]
  | cons ls lss ih =>
    rw [stmts_cons, sizeItems, sizeLss, ih, add_assoc]

@[simp] theorem annItems_stmts : annItems labels okSet (stmts lss ++ K) =
    stmts (annLss labels okSet lss) ++ annItems labels okSet K := by
  unfold annLss
  induction lss with
  | nil => simp [stmts, mapLss]
  | cons ls lss ih =>
    rw [stmts_cons, annItems, mapLss, ih]
    rfl

@[simp] theorem fineItems_regions :
    FineItems code lv (rhos.map (.region op) ++ K) ↔ FineItems code lv K := by
  induction rhos with
  | nil => rfl
  | cons rho rhos ih => simpa [FineItems] using ih

@[simp] theorem plainItems_regions : PlainItems (rhos.map (.region op) ++ K) ↔ PlainItems K := by
  induction rhos with
  | nil => rfl
  | cons rho rhos ih => simpa [PlainItems] using ih

@[simp] theorem usesItems_regions : usesItems lv (rhos.map (.region op) ++ K) = usesItems lv K := by
  induction rhos with
  | nil => rfl
  | cons rho rhos ih => simpa [usesItems] using ih

@[simp] theorem placesItems_regions :
    placesItems code (rhos.map (.region op) ++ K) = placesItems code K := by
  induction rhos with
  | nil => rfl
  | cons rho rhos ih => simpa [placesItems] using ih

@[simp] theorem sizeItems_regions : sizeItems (rhos.map (.region op) ++ K) = sizeItems K := by
  induction rhos with
  | nil => rfl
  | cons rho rhos ih => simpa [sizeItems] using ih

@[simp] theorem annItems_regions : annItems labels okSet (rhos.map (.region op) ++ K) =
    rhos.map (.region op) ++ annItems labels okSet K := by
  induction rhos with
  | nil => rfl
  | cons rho rhos ih => simpa [annItems] using ih

end Append

/-- What is left to do after a statement that only says what to do. -/
inductive Opens (code : RegionCode) : List Item → List Item → Prop where
  | letregion {rhos : List (Binder × Unit)} {body : List FvStmt} {K : List Item} :
      Opens code (.stmt (.letregion rhos body) :: K)
        ((code.entry rhos).map (.region .alloc) ++ bodyItems code rhos body K)
  | scope {pat : List Sty} {scope : List FvStmt} {K : List Item} :
      Opens code (.stmt (.scope pat scope) :: K) (stmts scope ++ K)
  | handle {default handl handlReturn : List FvStmt} {handlLv handlReturnLv : Atom}
      {bv : List Word32} {offset : Unit} {K : List Item} :
      Opens code (.stmt (.handle default handl handlLv handlReturn handlReturnLv bv offset) :: K)
        (handleItems default handl handlLv handlReturn handlReturnLv K)
  | branch {kind : SwitchKind} {arg : Atom} {sels : List (Selector × List FvStmt)}
      {default : List FvStmt} {sel : Selector} {lss : List FvStmt} {K : List Item} :
      (sel, lss) ∈ sels →
      Opens code (.stmt (.switch kind arg sels default) :: K) (stmts lss ++ K)
  | default {kind : SwitchKind} {arg : Atom} {sels : List (Selector × List FvStmt)}
      {default : List FvStmt} {K : List Item} :
      Opens code (.stmt (.switch kind arg sels default) :: K) (stmts default ++ K)

variable {K : List Item}

section Branches

variable {sels : List (Selector × List FvStmt)} {sel : Selector} {lss : List FvStmt}
  (h : (sel, lss) ∈ sels)

include h

theorem fineLss_of_mem (hfine : FineSels code lv sels K) : FineLss code lv lss K := by
  induction h with
  | head sels =>
    exact hfine.1
  | tail head _ ih =>
    exact ih hfine.2

theorem plainLss_of_mem (hplain : PlainSels sels) : PlainLss lss := by
  induction h with
  | head sels =>
    exact hplain.1
  | tail head _ ih =>
    exact ih hplain.2

theorem usesLss_le_of_mem : usesLss lv lss ≤ usesSels lv sels := by
  induction h with
  | head sels =>
    exact le_add_right _ _
  | tail head _ ih =>
    exact ih.trans (le_add_left _ _)

theorem sizeLss_le_of_mem : sizeLss lss ≤ sizeSels sels := by
  induction h with
  | head sels =>
    exact le_add_right _ _
  | tail head _ ih =>
    exact ih.trans (le_add_left _ _)

theorem placesLss_subset_of_mem (K : List Item) :
    placesLss code lss K ⊆ placesSels code sels K := by
  induction h with
  | head sels =>
    exact subset_append_left _ _
  | tail head _ ih =>
    exact List.Subset.trans ih (subset_append_right _ _)

theorem mem_mapSels (f : Atom → Atom) (g : Sty → Sty) :
    (sel, mapLss f g lss) ∈ mapSels f g sels := by
  induction h with
  | head sels =>
    exact .head _
  | tail head _ ih =>
    exact .tail _ ih

end Branches

namespace Opens

variable (h : Opens code K K')

include h

theorem fine (hfine : FineItems code lv K) : FineItems code lv K' := by
  cases h with
  | letregion => simpa [FineItems, FineLs, bodyItems] using hfine
  | scope => simpa [FineItems, FineLs] using hfine
  | handle =>
    simp only [FineItems, FineLs] at hfine
    simp only [handleItems, returnItems, fineItems_stmts, FineItems]
    tauto
  | branch hmem =>
    simp only [FineItems, FineLs] at hfine
    exact (fineItems_stmts _).2 ⟨fineLss_of_mem hmem hfine.1.2.1, hfine.2⟩
  | default =>
    simp only [FineItems, FineLs] at hfine
    exact (fineItems_stmts _).2 ⟨hfine.1.2.2, hfine.2⟩

theorem plain (hplain : PlainItems K) : PlainItems K' := by
  cases h with
  | letregion => simpa [PlainItems, PlainLs, bodyItems] using hplain
  | scope => simpa [PlainItems, PlainLs] using hplain
  | handle =>
    simp only [PlainItems, PlainLs] at hplain
    simp only [handleItems, returnItems, plainItems_stmts, PlainItems]
    tauto
  | branch hmem =>
    simp only [PlainItems, PlainLs] at hplain
    exact (plainItems_stmts _).2 ⟨plainLss_of_mem hmem hplain.1.2.1, hplain.2⟩
  | default =>
    simp only [PlainItems, PlainLs] at hplain
    exact (plainItems_stmts _).2 ⟨hplain.1.2.2, hplain.2⟩

theorem uses : usesItems lv K' ≤ usesItems lv K := by
  cases h with
  | letregion => simp [usesItems, usesLs, bodyItems]
  | scope => simp [usesItems, usesLs]
  | handle =>
    simp only [handleItems, returnItems, usesItems_stmts, usesItems, usesLs]
    omega
  | branch hmem =>
    have hle := @usesLss_le_of_mem lv _ _ _ hmem
    simp only [usesItems_stmts, usesItems, usesLs]
    omega
  | default =>
    simp only [usesItems_stmts, usesItems, usesLs]
    omega

theorem size : sizeItems K' < sizeItems K := by
  cases h with
  | letregion => simp [sizeItems, sizeLs, bodyItems]
  | scope => simp [sizeItems, sizeLs]
  | handle =>
    simp only [handleItems, sizeItems_stmts, sizeItems, sizeLs]
    omega
  | branch hmem =>
    have hle := sizeLss_le_of_mem hmem
    simp only [sizeItems_stmts, sizeItems, sizeLs]
    omega
  | default =>
    simp only [sizeItems_stmts, sizeItems, sizeLs]
    omega

theorem places : placesItems code K' ⊆ placesItems code K := by
  cases h with
  | letregion => simp [placesItems, placesLs, bodyItems]
  | scope => simp [placesItems, placesLs]
  | handle =>
    simp only [handleItems, returnItems, placesItems_stmts, placesItems, placesLs]
    intro place hplace
    simp only [mem_append] at hplace ⊢
    tauto
  | branch hmem =>
    simp only [placesItems_stmts, placesItems, placesLs]
    have hsub := @placesLss_subset_of_mem code _ _ _ hmem
    intro place hplace
    simp only [mem_append] at hplace ⊢
    exact hplace.imp (fun hin => .inl (.inr (hsub _ hin))) id
  | default =>
    simp only [placesItems_stmts, placesItems, placesLs]
    intro place hplace
    simp only [mem_append] at hplace ⊢
    exact hplace.imp .inr id

theorem ann (labels : FreshLabels) (okSet : Finset Lvar) :
    Opens code (annItems labels okSet K) (annItems labels okSet K') := by
  cases h with
  | letregion =>
    rw [annItems, mapLs, bodyItems, annItems_regions, annItems_stmts, annItems_regions]
    exact .letregion
  | scope =>
    rw [annItems, mapLs, annItems_stmts]
    exact .scope
  | handle =>
    rw [annItems, mapLs, handleItems, annItems_stmts, annItems, annItems_stmts, annItems,
      returnItems, annItems, annItems_stmts]
    exact .handle
  | branch hmem =>
    rw [annItems, mapLs, annItems_stmts]
    exact .branch (mem_mapSels hmem _ _)
  | default =>
    rw [annItems, mapLs, annItems_stmts]
    exact .default

end Opens

section Tail

theorem fineItems_tail (h : FineItems code lv (item :: K)) : FineItems code lv K := by
  cases item <;> simp_all [FineItems]

theorem plainItems_tail (h : PlainItems (item :: K)) : PlainItems K := by
  cases item <;> simp_all [PlainItems]

theorem usesItems_tail : usesItems lv K ≤ usesItems lv (item :: K) := by
  cases item <;> simp [usesItems]

theorem placesItems_tail : placesItems code K ⊆ placesItems code (item :: K) := by
  cases item <;> simp [placesItems]

end Tail

section Unwind

/-- What holds of what is left to do holds where an exception goes on. -/
theorem unwind_rule {P : List Item → Prop} (tail : ∀ item K, P (item :: K) → P K)
    (h : unwind K = some ret) (hK : P K) : ∃ K', P (.uninstall ret :: K') := by
  fun_induction unwind K with
  | case1 => cases h
  | case2 ret' K =>
    cases h
    exact ⟨K, hK⟩
  | case3 item K hne ih => exact ih h (tail item K hK)

theorem unwind_uses (h : unwind K = some ret) : usesItems lv ret ≤ usesItems lv K := by
  obtain ⟨K', hle⟩ := @unwind_rule ret K (usesItems lv · ≤ usesItems lv K)
    (fun _ _ => usesItems_tail.trans) h le_rfl
  rw [usesItems] at hle
  exact (le_max_left _ _).trans hle

theorem unwind_ann (labels : FreshLabels) (okSet : Finset Lvar) (K : List Item) :
    unwind (annItems labels okSet K) = (unwind K).map (annItems labels okSet) := by
  fun_induction unwind K with
  | case1 => rw [annItems, unwind, Option.map_none]
  | case2 ret' K => rw [annItems, unwind, Option.map_some]
  | case3 item K hne ih =>
    cases item with
    | uninstall ret' => exact absurd rfl (hne ret')
    | _ => simpa [annItems, unwind] using ih

end Unwind

end MLKit.Backend.FlowVars
