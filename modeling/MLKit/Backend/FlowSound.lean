import MLKit.Backend.FlowSim
import Mathlib.Tactic.DeriveEncodable

/-!
# Soundness of flow variables

The analysis takes finite regions to execute no code. Code generation stores a tag where a finite
region is entered that holds pairs, references or triples without tags of their own, if values are
tagged. A definition that jumps over such a region leaves out the tag. The analysis takes a switch on
an integer to compare with its selector, but code generation tags the selector at the precisions of
tagged integers. Apart from these, jumping to a branch of the switch is the same as storing the
boolean and switching on it.
-/

namespace MLKit.Backend.FlowVars

open MLKit.Lib MLKit.Lib.Machine List
open MLKit.X64 (boxedNum maybeTagIntOrWord)

variable {body : List FvStmt} {okSet : Finset Lvar} {code : RegionCode} {labels : FreshLabels}
  {lv : Lvar}

section Runs

variable {V : Type}

theorem simulates_follows {A : Annotated V}
    (hset : ∀ lv ∈ A.okSet, ∀ b, timesSet (A.labels.label lv b) A.places' ≤ 1) :
    Simulates (bodyMachine A.code A.values A.places) (bodyMachine A.code A.values A.places') .stuck
      (Follows A) := by
  rintro c ⟨K', env'⟩ ⟨⟨K, env⟩, hreach, hrel⟩
  obtain rfl : K' = annItems A.labels A.okSet K := hrel.items
  have hlock : Lockstep A (K, env) (annItems A.labels A.okSet K, env') := hrel.lockstep hset
  obtain ⟨d, hland, hstuck | ⟨d', hland', hmatch⟩⟩ := hlock
  · exact ⟨d, .of_reaches hreach hland, .inl hstuck⟩
  · exact ⟨d, .of_reaches hreach hland, .inr ⟨d', hland', hmatch⟩⟩

variable {env : Env V} {values : Values V}

/-- A body whose flow variables have one use and fine definitions runs as its annotated body. -/
theorem bodyRuns_ann (hplain : PlainLss body) (hone : ∀ lv ∈ okSet, usesLss lv body = 1)
    (hfine : ∀ lv ∈ okSet, FineLss code lv body []) (henv : ∀ lv ∈ okSet, env lv = none)
    (hsel : ∀ {kind : SwitchKind} {s : Selector} {b : Bool} (v : Bool), selBool kind s = some b →
      code.onBool kind s = true → values.sel kind s (values.bool v) = (v == b))
    (hsafe : ∀ events, BodyRuns code values body env events → .stuck ∉ events)
    (events : List (Event V)) :
    BodyRuns code values body env events ↔
      BodyRuns code values (annLss labels okSet body) env events := by
  have hset : ∀ lv ∈ okSet, ∀ b, timesSet (labels.label lv b)
      (placesLss code (annLss labels okSet body) []) ≤ 1 := fun lv hlv b =>
    (timesSet_placesLss lv b body [] hplain).trans_eq (hone lv hlv)
  have hitems : stmts body = stmts body ++ [] := (append_nil _).symm
  have hann : annItems labels okSet (stmts body) = stmts (annLss labels okSet body) := by
    rw [hitems, annItems_stmts, annItems, append_nil]
  have hrel : Related ⟨code, values, labels, okSet, placesLss code body [],
      placesLss code (annLss labels okSet body) [], hsel⟩ (stmts body, env)
      (stmts (annLss labels okSet body), env) :=
    { items := hann.symm
      placed :=
        { plain := by
            rw [hitems, plainItems_stmts, PlainItems]
            exact ⟨hplain, trivial⟩
          fine := fun lv hlv => by
            rw [hitems, fineItems_stmts, FineItems]
            exact ⟨hfine lv hlv, trivial⟩
          uses := fun lv hlv => by
            rw [hitems, usesItems_stmts, hone lv hlv, usesItems]
          places := by
            have happ : placesItems code (stmts (annLss labels okSet body) ++ []) = _ :=
              placesItems_stmts []
            rw [append_nil, placesItems, append_nil] at happ
            rw [hann, happ]
            exact List.Subset.refl _ }
      agree := fun _ _ => rfl
      used := fun lv hlv hne => absurd (henv lv hlv) hne }
  exact runs_iff (simulates_follows hset) hrel.follows hsafe events

end Runs

/-! ## Regions that store a tag -/

/-- Code generation stores a tag where the finite region is entered. -/
def Target.storesTag (target : Target) (rho : Binder × Unit) : Bool :=
  match rho.1.2 with
  | .words (_ + 1) => !target.flags.regionProfiling && target.valuesInRegionUntagged rho.1.1
  | _ => false

/-- A tag is stored before the next statement that executes code. -/
inductive TagStored (target : Target) : List Item → Prop where
  | entry {rhos : List (Binder × Unit)} {body : List FvStmt} {K : List Item} {rho : Binder × Unit} :
      rho ∈ rhos → target.storesTag rho = true →
      TagStored target (.stmt (.letregion rhos body) :: K)
  | letregion {rhos : List (Binder × Unit)} {body : List FvStmt} {K : List Item} :
      TagStored target (bodyItems (targetCode target) rhos body K) →
      TagStored target (.stmt (.letregion rhos body) :: K)
  | scope {pat : List Sty} {scope : List FvStmt} {K : List Item} :
      TagStored target (stmts scope ++ K) → TagStored target (.stmt (.scope pat scope) :: K)

/-! ## Switches on stored booleans -/

/-- The code of a switch on a boolean compares with the boolean as it is stored: integers are not
tagged, or the selector of a constructor is. -/
def onStored (flags : Flags) : SwitchKind → Selector → Bool
  | .int precision, _ => !flags.tagValues && (precision == 32 || precision == 64)
  | .con, .con con (.enum i) | .con, .con con (.unboxed i) => i == if con = conTrue then 3 else 1
  | _, _ => false

theorem boolNumber_beq (b b' : Bool) : (boolNumber b == boolNumber b') = (b == b') := by
  cases b <;> cases b' <;> rfl

theorem onBool_targetCode {target : Target} {kind : SwitchKind} {sel : Selector} {b : Bool}
    (h : selBool kind sel = some b) :
    (targetCode target).onBool kind sel = true ↔
      comparesWith target.flags kind sel = some (boolNumber b) := by
  simp [targetCode, h]

/-- A switch on a stored boolean takes the branch of its selector for the boolean of the selector. -/
theorem Values.Compiled.sel_bool {V : Type} {target : Target} {values : Values V}
    (hvalues : values.Compiled target.flags) {kind : SwitchKind} {s : Selector} {b : Bool} (v : Bool)
    (hsel : selBool kind s = some b) (honBool : (targetCode target).onBool kind s = true) :
    values.sel kind s (values.bool v) = (v == b) := by
  rw [hvalues kind s _ v ((onBool_targetCode hsel).1 honBool), boolNumber_beq]

/-- A tagged selector is not the boolean that was tagged. -/
theorem maybeTag_boolNumber (b : Bool) (precision : Nat) :
    (maybeTagIntOrWord (boolNumber b) precision).toOption = some (boolNumber b) ↔
      precision = 32 ∨ precision = 64 := by
  unfold maybeTagIntOrWord
  split_ifs with htag hplain
  · have hne : 2 * boolNumber b + 1 ≠ boolNumber b := by cases b <;> decide
    simp only [Except.toOption, Option.some.injEq, hne, false_iff]
    omega
  · exact iff_of_true rfl hplain
  · exact iff_of_false nofun hplain

theorem comparesWith_iff {flags : Flags} {kind : SwitchKind} {sel : Selector} {b : Bool}
    (h : selBool kind sel = some b) :
    comparesWith flags kind sel = some (boolNumber b) ↔ onStored flags kind sel = true := by
  cases kind with
  | con =>
    cases sel with
    | con con conKind =>
      have hcon : con = conTrue ∧ b = true ∨ con = conFalse ∧ b = false := by
        simp only [selBool, conBool] at h
        split_ifs at h <;> simp_all
      rcases hcon with ⟨rfl, rfl⟩ | ⟨rfl, rfl⟩ <;> cases conKind <;>
        simp [comparesWith, onStored, boolNumber, mlTrue, mlFalse, conTrue, conFalse] <;> omega
    | _ => cases h
  | int precision =>
    cases sel with
    | num value =>
      have hvalue : value = boolNumber b := by
        simp only [selBool] at h
        split_ifs at h <;> simp_all [boolNumber]
      subst hvalue
      have htag := maybeTag_boolNumber b precision
      cases hvalues : flags.tagValues <;> simp [comparesWith, boxedNum, onStored, hvalues, htag]
    | _ => cases h
  | _ => cases sel <;> cases h

section Kept

variable (target : Target) (lv : Lvar)

mutual

/-- No tag is stored between a definition of the variable and the next statement that executes code,
and a switch on the variable compares with booleans as they are stored. -/
def KeptLs : FvStmt → List Item → Prop
  | .basic stmt, K => lv ∈ defVarLs stmt → ¬ TagStored target K
  | .letregion rhos body, K =>
    KeptLss body (((targetCode target).exit rhos).map (.region .dealloc) ++ K)
  | .scope _ scope, K => KeptLss scope K
  | .handle default handl handlLv handlReturn handlReturnLv _ _, K =>
    KeptLss handl (.install handlLv ::
      (stmts default ++ .uninstall (returnItems handlReturn handlReturnLv K) :: K)) ∧
    KeptLss default (.uninstall (returnItems handlReturn handlReturnLv K) :: K) ∧
    KeptLss handlReturn K
  | .switch kind arg sels default, K =>
    (lv ∈ getVarAtom arg → ∀ sel ∈ sels.map Prod.fst, onStored target.flags kind sel = true) ∧
      KeptSels sels K ∧ KeptLss default K

def KeptLss : List FvStmt → List Item → Prop
  | [], _ => True
  | ls :: lss, K => KeptLs ls (stmts lss ++ K) ∧ KeptLss lss K

def KeptSels : List (Selector × List FvStmt) → List Item → Prop
  | [], _ => True
  | (_, lss) :: sels, K => KeptLss lss K ∧ KeptSels sels K

end

end Kept

variable {K : List Item}

section Target

variable (target : Target)

theorem exit_analysisCode :
    (analysisCode target.flags.regionProfiling).exit = (targetCode target).exit := by
  funext rhos
  simp only [analysisCode, targetCode, codeRhos, removeZeroRhos, removeFiniteRhos]
  split
  all_goals
    next hprofiling =>
      refine filter_congr fun rho _ => ?_
      obtain ⟨⟨place, phsize⟩, u⟩ := rho
      rcases phsize with _ | _ | n <;> simp [Target.deallocates, hprofiling]

theorem entry_targetCode (rhos : List (Binder × Unit)) : (targetCode target).entry rhos = [] ↔
    (analysisCode target.flags.regionProfiling).entry rhos = [] ∧
      ∀ rho ∈ rhos, target.storesTag rho = false := by
  have hpoint : ∀ rho, target.allocates rho = true ↔
      codeRhos target.flags.regionProfiling [rho] ≠ [] ∨ target.storesTag rho = true := by
    rintro ⟨⟨place, phsize⟩, u⟩
    cases hprofiling : target.flags.regionProfiling <;> rcases phsize with _ | _ | n <;>
      simp [Target.allocates, Target.storesTag, codeRhos, removeZeroRhos, removeFiniteRhos,
        hprofiling]
  have hcode : ∀ rhos, codeRhos target.flags.regionProfiling rhos = [] ↔
      ∀ rho ∈ rhos, codeRhos target.flags.regionProfiling [rho] = [] := by
    intro rhos
    unfold codeRhos removeZeroRhos removeFiniteRhos
    split <;> simp [filter_eq_nil_iff]
  simp only [targetCode, analysisCode, filter_eq_nil_iff, hcode rhos, ← forall_and]
  refine forall_congr' fun rho => ?_
  rw [hpoint]
  refine forall_congr' fun _ => ?_
  rw [not_or, not_not, Bool.not_eq_true]

theorem leads_targetCode :
    Leads (targetCode target) lv K ↔
    Leads (analysisCode target.flags.regionProfiling) lv K ∧ ¬ TagStored target K := by
  constructor
  · intro h
    induction h with
    | switch hsel => exact ⟨.switch hsel, nofun⟩
    | scope _ ih =>
      refine ⟨.scope ih.1, ?_⟩
      rintro (_ | _ | htag)
      exact ih.2 htag
    | letregion hnil _ ih =>
      rw [entry_targetCode] at hnil
      have hleads := ih.1
      rw [bodyItems, ← exit_analysisCode] at hleads
      refine ⟨.letregion hnil.1 hleads, ?_⟩
      intro htag
      cases htag with
      | entry hmem hstores => exact absurd (hnil.2 _ hmem) (by simp [hstores])
      | letregion htag => exact ih.2 htag
  · rintro ⟨h, htag⟩
    induction h with
    | switch hsel => exact .switch hsel
    | scope _ ih => exact .scope (ih fun h => htag (.scope h))
    | letregion hnil _ ih =>
      rw [bodyItems, exit_analysisCode] at ih
      refine .letregion ?_ (ih fun h => htag (.letregion h))
      rw [entry_targetCode]
      refine ⟨hnil, fun rho hmem => ?_⟩
      cases hstores : target.storesTag rho with
      | false => rfl
      | true => exact absurd (.entry hmem hstores) htag

theorem switch_targetCode {mem : Prop} {kind : SwitchKind} {arg : Atom} {lv : Lvar}
    {sels : List (Selector × List FvStmt)} :
    (mem → ∃ sel lss b, sels = [(sel, lss)] ∧ arg = .var lv ∧ selBool kind sel = some b ∧
        (targetCode target).onBool kind sel = true) ↔
      (mem → ∃ sel lss b, sels = [(sel, lss)] ∧ arg = .var lv ∧ selBool kind sel = some b ∧
        (analysisCode target.flags.regionProfiling).onBool kind sel = true) ∧
      (mem → ∀ sel ∈ sels.map Prod.fst, onStored target.flags kind sel = true) := by
  refine (forall_congr' fun _ => ?_).trans forall_and
  constructor
  · rintro ⟨sel, lss, b, rfl, harg, hb, honBool⟩
    refine ⟨⟨sel, lss, b, rfl, harg, hb, rfl⟩, fun sel' hmem => ?_⟩
    rw [mem_singleton.1 hmem]
    exact (comparesWith_iff hb).1 ((onBool_targetCode hb).1 honBool)
  · rintro ⟨⟨sel, lss, b, rfl, harg, hb, -⟩, hstored⟩
    refine ⟨sel, lss, b, rfl, harg, hb, (onBool_targetCode hb).2 ((comparesWith_iff hb).2 ?_)⟩
    exact hstored sel (mem_singleton_self _)

mutual

theorem fineLs_targetCode (lv : Lvar) : ∀ (ls : FvStmt) (K : List Item),
    FineLs (targetCode target) lv ls K ↔
      FineLs (analysisCode target.flags.regionProfiling) lv ls K ∧
        KeptLs target lv ls K
  | .basic stmt, K => by
    rw [FineLs, FineLs, KeptLs, leads_targetCode]
    tauto
  | .letregion rhos body, K => by
    rw [FineLs, FineLs, KeptLs, exit_analysisCode]
    exact fineLss_targetCode lv body _
  | .scope pat scope, K => by
    exact fineLss_targetCode lv scope K
  | .handle default handl handlLv handlReturn handlReturnLv bv offset, K => by
    rw [FineLs, FineLs, KeptLs, fineLss_targetCode lv handl, fineLss_targetCode lv default,
      fineLss_targetCode lv handlReturn]
    tauto
  | .switch kind arg sels default, K => by
    rw [FineLs, FineLs, KeptLs, fineSels_targetCode lv sels, fineLss_targetCode lv default,
      switch_targetCode]
    tauto

theorem fineLss_targetCode (lv : Lvar) : ∀ (lss : List FvStmt) (K : List Item),
    FineLss (targetCode target) lv lss K ↔
      FineLss (analysisCode target.flags.regionProfiling) lv lss K ∧
        KeptLss target lv lss K
  | [], K => by
    rw [FineLss, FineLss, KeptLss, and_true]
  | ls :: lss, K => by
    rw [FineLss, FineLss, KeptLss, fineLs_targetCode lv ls, fineLss_targetCode lv lss]
    tauto

theorem fineSels_targetCode (lv : Lvar) : ∀ (sels : List (Selector × List FvStmt)) (K : List Item),
    FineSels (targetCode target) lv sels K ↔
      FineSels (analysisCode target.flags.regionProfiling) lv sels K ∧
        KeptSels target lv sels K
  | [], K => by
    rw [FineSels, FineSels, KeptSels, and_true]
  | (sel, lss) :: sels, K => by
    rw [FineSels, FineSels, KeptSels, fineLss_targetCode lv lss, fineSels_targetCode lv sels]
    tauto

end

end Target

/-! ## Soundness -/

/-- The variable has one use, which is the operand of a two-way switch whose code compares with a
boolean, and every definition of it sets a boolean and goes on to that switch without executing
code. -/
structure GoesStraight (target : Target) (lv : Lvar) (body : List FvStmt) : Prop where
  uses : usesLss lv body = 1
  fine : FineLss (targetCode target) lv body []

/-- The annotated body has the runs of the body, if the body reads no variable without a value. -/
def KeepsRuns (target : Target) (cc : CallConv.CC) (okSet : Finset Lvar) (body : List FvStmt) :
    Prop :=
  ∀ (labels : FreshLabels) (V : Type) (values : Values V) (env : Env V),
    values.Compiled target.flags →
    (∀ lv, env lv ≠ none → lv ∈ CallConv.getArgLvars cc) →
    (∀ events, BodyRuns (targetCode target) values body env events → .stuck ∉ events) →
    ∀ events, BodyRuns (targetCode target) values body env events ↔
      BodyRuns (targetCode target) values (annLss labels okSet body) env events

/-- Flow variables are sound exactly when no variable with one use in a switch on booleans, whose
definitions set booleans and go on to that switch through scopes and finite regions, is defined
before a region that stores a tag, and the code of that switch compares with the boolean as it is
stored. -/
theorem flow_variables_sound_iff {target : Target} {cc : CallConv.CC} {body : List FvStmt}
    {okSet : Finset Lvar} (hplain : PlainLss body)
    (h : fvOkSet target.flags.regionProfiling cc body = .ok okSet) :
    ((∀ lv ∈ okSet, GoesStraight target lv body) ∧ KeepsRuns target cc okSet body) ↔
      ∀ lv, lv ∉ CallConv.getResLvars cc ++ CallConv.getArgLvars cc → usesLss lv body = 1 →
        FineLss (analysisCode target.flags.regionProfiling) lv body [] →
        KeptLss target lv body [] := by
  constructor
  · rintro ⟨hstraight, -⟩ lv hcc hone hfine
    have hmem := (mem_fvOkSet_iff h hplain).2 ⟨hcc, hone, hfine⟩
    exact ((fineLss_targetCode target lv body []).1 (hstraight lv hmem).fine).2
  · intro hkept
    have hstraight : ∀ lv ∈ okSet, GoesStraight target lv body := fun lv hlv => by
      obtain ⟨hcc, hone, hfine⟩ := (mem_fvOkSet_iff h hplain).1 hlv
      exact ⟨hone, (fineLss_targetCode target lv body []).2 ⟨hfine, hkept lv hcc hone hfine⟩⟩
    refine ⟨hstraight, fun labels V values env hvalues hargs hsafe events => ?_⟩
    refine bodyRuns_ann hplain (fun lv hlv => (hstraight lv hlv).uses)
      (fun lv hlv => (hstraight lv hlv).fine) (fun lv hlv => ?_) hvalues.sel_bool hsafe events
    -- flow variables are no arguments
    by_contra hset
    have hcc := ((mem_fvOkSet_iff h hplain).1 hlv).1
    exact hcc (mem_append_right _ (hargs lv hset))

/-! ## A comparison before a finite region -/

def taggingFlags : Flags := ⟨true, true, false, false⟩

/-- Values are tagged, apart from the pairs in regions that hold pairs only. -/
def taggingTarget (ty : Option RunType) : Target where
  flags := taggingFlags
  tagPairs := false
  placeTy _ := ty

def comparedLv : Lvar := .named 0 false

def pairRho : Binder × Unit := ((⟨0⟩, .words 2), ())

/-- The result of a comparison decides in the scope of a finite region. -/
def comparesBeforeRegion : List FvStmt :=
  [.basic (.prim "Less_int63" [.integer 1 63, .integer 2 63] [.var comparedLv]),
    .letregion [pairRho] [.switch .con (.var comparedLv) [(.con conTrue (.enum 3), [])] []]]

def emptyCC : CallConv.CC := ⟨none, [], none, [], [], none⟩

variable {target : Target}

theorem not_tagStored (h : ∀ rho, target.storesTag rho = false) :
    ¬ TagStored target K := by
  intro htag
  induction htag with
  | entry _ hstores => exact absurd hstores (by simp [h])
  | letregion _ ih | scope _ ih => exact ih

theorem comparison_before_plain_region :
    fvOkSet false emptyCC comparesBeforeRegion = .ok {comparedLv} ∧
      (∀ lv ∈ ({comparedLv} : Finset Lvar),
        GoesStraight (taggingTarget none) lv comparesBeforeRegion) ∧
      KeepsRuns (taggingTarget none) emptyCC {comparedLv} comparesBeforeRegion := by
  have hok : fvOkSet false emptyCC comparesBeforeRegion = .ok {comparedLv} := by rfl
  have hplain : PlainLss comparesBeforeRegion := by
    simp [comparesBeforeRegion, PlainLss, PlainLs, PlainSels, plainBasic, isFlow, plainOperand,
      comparedLv, Lvar.isReg]
  have hiff := @flow_variables_sound_iff (taggingTarget none) emptyCC comparesBeforeRegion
    {comparedLv} hplain hok
  refine ⟨hok, hiff.2 fun lv _ _ _ => ?_⟩
  have htag : ∀ K, ¬ TagStored (taggingTarget none) K := fun K => not_tagStored fun rho => by
    unfold Target.storesTag
    split <;> rfl
  simp [comparesBeforeRegion, KeptLss, KeptLs, KeptSels, htag, onStored]

deriving instance Encodable for Reg

deriving instance Encodable for Lvar

/-- Labels numbered by the variable and the boolean they belong to. -/
def encodedLabels : FreshLabels where
  label lv b := ⟨Encodable.encode (lv, b)⟩
  distinct h := by
    have heq := Encodable.encode_injective (congrArg Label.key h)
    cases heq
    exact ⟨rfl, rfl⟩

/-- Booleans as the only values. -/
def boolValues (flags : Flags) : Values Bool where
  bool b := b
  sel kind s v := comparesWith flags kind s == some (boolNumber v)

theorem boolValues_compiled (flags : Flags) : (boolValues flags).Compiled flags := by
  intro kind s i v h
  simp only [boolValues, h]
  exact BEq.comm

/-- The comparison, and then the tag of the region that is entered. -/
def comparisonThenTag : List (Event Bool) :=
  [.cond "Less_int63" [.integer 1 63, .integer 2 63] [] true, .region .alloc pairRho]

/-- The result of a comparison decides, as a tagged integer. -/
def comparesTagged : List FvStmt :=
  [.basic (.prim "Equal_int32ub" [.integer 1 32, .integer 1 32] [.var comparedLv]),
    .switch (.int 63) (.var comparedLv) [(.num mlTrue, [.basic (.raise .unit [])])] []]

/-- The comparison, and then the end of the body. -/
def comparisonThenFall : List (Event Bool) :=
  [.cond "Equal_int32ub" [.integer 1 32, .integer 1 32] [] true, .fall]

/-- The code that jumps to the branch does not store the tag of the pair in the region. The code that
stores the boolean compares the number 3 of true with 7, and does not come to the branch for true. -/
theorem jump_unlike_switch :
    (boolValues taggingFlags).Compiled taggingFlags ∧
    (fvOkSet false emptyCC comparesBeforeRegion = .ok {comparedLv} ∧
      ¬ GoesStraight (taggingTarget (some .pair)) comparedLv comparesBeforeRegion ∧
      BodyRuns (targetCode (taggingTarget (some .pair))) (boolValues taggingFlags)
        comparesBeforeRegion (fun _ => none) comparisonThenTag ∧
      ¬ BodyRuns (targetCode (taggingTarget (some .pair))) (boolValues taggingFlags)
        (annLss encodedLabels {comparedLv} comparesBeforeRegion) (fun _ => none)
        comparisonThenTag) ∧
    (fvOkSet false emptyCC comparesTagged = .ok {comparedLv} ∧
      BodyRuns (targetCode (taggingTarget none)) (boolValues taggingFlags) comparesTagged
        (fun _ => none) comparisonThenFall ∧
      ¬ BodyRuns (targetCode (taggingTarget none)) (boolValues taggingFlags)
        (annLss encodedLabels {comparedLv} comparesTagged) (fun _ => none)
        comparisonThenFall) := by
  refine ⟨boolValues_compiled _, ⟨rfl, ?notStraight, ?storesTag, ?jumps⟩, rfl, ?falls, ?jumps'⟩
  case notStraight =>
    intro hstraight
    have htag : TagStored (taggingTarget (some .pair))
        [.stmt (.letregion [pairRho]
          [.switch .con (.var comparedLv) [(.con conTrue (.enum 3), [])] []])] :=
      .entry (.head _) rfl
    have hkept := ((fineLss_targetCode _ _ _ _).1 hstraight.fine).2
    exact hkept.1 (mem_singleton_self _) htag
  case storesTag =>
    refine .step ⟨.refl, rfl⟩ (.cond rfl rfl) ?_
    exact .step ⟨.of_step rfl, rfl⟩ .region .nil
  case falls =>
    refine .step ⟨.refl, rfl⟩ (.cond rfl rfl) ?_
    exact .last ⟨.of_step rfl, rfl⟩ .fall
  case jumps | jumps' =>
    intro hruns
    cases hruns with
    | step hland hemit hrest =>
      cases eq_of_reaches hland.1 rfl
      cases hemit with
      | cond htest hdeliver =>
        cases htest
        cases hdeliver
        cases hrest with
        | last hland' hemit' | step hland' hemit' _ =>
          cases eq_of_reaches hland'.1 rfl
          cases hemit'

end MLKit.Backend.FlowVars
