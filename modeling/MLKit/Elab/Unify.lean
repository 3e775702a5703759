import MLKit.Elab.Walks

/-!
# Unification

`restricted_unify` of `StatObject`. Links are made in `unify_with_tyvar`, `unifyExplicit` and
`unifyRowVar`. Rows are sorted before they are compared, and a row that lacks a label is padded by
splitting the row variable at its end.
-/

namespace MLKit.Elab

/-- `unify_with_overloaded_tyvar`. -/
def unifyWithOverloadedTyvar (n : Nat) (tynames1 : List TyName) (st : Store) (tau : Typ) :
    Except Stop Store := do
  let (tau, st) ← findType n st tau
  match tau with
  | .tyvar tv => do
    let tvd ← st.tyVarDesc tv "unify_with_overloaded_tyvar"
    match tvd.explicit with
    | some _ => .error (.unify "unify_with_overloaded_tyvar: explicit tyvar")
    | none =>
      match tvd.overloaded with
      | none =>
        .ok (st.setTyLink tv (.noTyLink { tvd with overloaded := some tynames1 }))
      | some tynames2 =>
        let overloadSet := tynames1.filter (· ∈ tynames2)
        if overloadSet.isEmpty then
          .error (.unify "unify_with_overloaded_tyvar: tyvars overloaded with distinct tynames")
        else .ok (st.setTyLink tv (.noTyLink { tvd with overloaded := some overloadSet }))
  | .constype _ _ tyname =>
    if tyname ∈ tynames1 then .ok st
    else .error (.unify "unify_with_overloaded_tyvar: not overloaded to this tyname")
  | _ => .error (.unify "unify_with_overloaded_tyvar: only overloaded to tynames")

/-- The first declaration of `unify_with_tyvar`. -/
def equalityOn (n : Nat) (st : Store) (equality : Bool) (tau : Typ) : Except Stop Store :=
  if equality then do
    match (← makeEquality0 n st tau) with
    | some st => .ok st
    | none => .error (.unify "unify_with_tyvar.1")
  else .ok st

/-- The second declaration of `unify_with_tyvar`. -/
def overloadingOn (n : Nat) (st : Store) (overloaded : Option (List TyName)) (tau : Typ) :
    Except Stop Store :=
  match overloaded with
  | some tynames => unifyWithOverloadedTyvar n tynames st tau
  | none => .ok st

section Restricted

variable (restrictedTyvars : List TyVar)

/-- `unify_with_tyvar`: the attributes of the variable are passed on before it is linked. -/
def unifyWithTyvar (n : Nat) (st : Store) (tv : TyVar) (tau : Typ) : Except Stop Store := do
  let tvd ← st.tyVarDesc tv "unify_with_tyvar"
  let st ← equalityOn n st tvd.equality tau
  let st ← overloadingOn n st tvd.overloaded tau
  if tv ∈ restrictedTyvars then .error (.unify "unify_with_tyvar.2")
  else .ok (st.setTyLink tv (.tyLink tau))

/-- `unifyExplicit`; `extv` is the explicit type variable of `tv`. -/
def unifyExplicit (st : Store) (tv : TyVar) (extv : ExplicitTyVar) (ty' : Typ) :
    Except Stop Store :=
  match ty' with
  | .tyvar tv' => do
    let tvd' ← st.tyVarDesc tv' "unifyExplicit"
    let level := (← st.tyCell tv).level
    let level' := (← st.tyCell tv').level
    match tvd'.explicit with
    | some _ =>
      if tv = tv' then
        if level = level' then .ok st else .error (.unify "unifyExplicit.level")
      else .error (.unify "unifyExplicit.eq")
    | none =>
      if tvd'.equality && !extv.isEquality then .error (.unify "unifyExplicit.2")
      else if tv' ∈ restrictedTyvars then .error (.unify "unifyExplicit.3")
      else if tvd'.overloaded.isSome then .error (.unify "unifyExplicit.4")
      else if level' < level then .error (.unify "unifyExplicit.5")
      else .ok (st.setTyLink tv' (.tyLink (.tyvar tv)))
  | _ => .error (.unify "unifyExplicit.7")

/-- The second clause of `unifyTyVar`: two variables that are not linked. -/
def unifyTyVars (n : Nat) (st : Store) (tv tv' : TyVar) : Except Stop Store := do
  let tvd ← st.tyVarDesc tv "unifyTyVar"
  let tvd' ← st.tyVarDesc tv' "unifyTyVar"
  if tv = tv' then .ok st
  else do
    let rank := min tvd.rank tvd'.rank
    let st := st.setTyLink tv (.noTyLink { tvd with rank := rank })
    let st := st.setTyLink tv' (.noTyLink { tvd' with rank := rank })
    let level := min (← st.tyCell tv).level (← st.tyCell tv').level
    if tv ∈ restrictedTyvars then
      if tv' ∈ restrictedTyvars then .error (.unify "unifyTyVar")
      else unifyWithTyvar restrictedTyvars n (st.setTyLevel tv level) tv' (.tyvar tv)
    else unifyWithTyvar restrictedTyvars n (st.setTyLevel tv' level) tv (.tyvar tv')

/-- The third clause of `unifyTyVar`: a variable that is not linked and a type that is no variable. -/
def unifyTyVarType (n : Nat) (st : Store) (tv : TyVar) (ty' : Typ) : Except Stop Store := do
  let level := (← st.tyCell tv).level
  if level = Level.generic then .error (.die "unifyTyVar.GENERIC")
  else do
    let st ← decrLevelType level n st ty'
    let tvd ← st.tyVarDesc tv "unifyTyVar"
    let st ← decrRankType tv tvd.rank n st ty'
    let (b, st) ← occursTvInType tv n st ty'
    if b || decide (tv ∈ restrictedTyvars) then .error (.unify "unifyTyVar.2")
    else unifyWithTyvar restrictedTyvars n st tv ty'

def unifyTyVar (n : Nat) (st : Store) (tv : TyVar) (ty' : Typ) : Except Stop Store := do
  let tvd ← st.tyVarDesc tv "unifyTyVar"
  match tvd.explicit, ty' with
  | some extv, ty' => unifyExplicit restrictedTyvars st tv extv ty'
  | none, .tyvar tv' => unifyTyVars restrictedTyvars n st tv tv'
  | none, ty' => unifyTyVarType restrictedTyvars n st tv ty'

def unifyRowVar (n : Nat) (st : Store) (rv : RowVar) (row : RecType) : Except Stop Store := do
  let st ← decrLevelRecType (← st.rowCell rv).level n st row
  let (b, st) ← occursRvInRecType rv n st row
  if b then .error (.unify "unifyRowVar") else .ok (st.setRecLink rv (.recLink row))

/-- The row variable at the end of a row. -/
def rowVar : Nat → Store → RecType → Except Stop (Option RowVar × Store)
  | 0, _, _ => .error .fuel
  | n + 1, st, row => do
    let (row, st) ← findRecType n st row
    match row with
    | .nil => .ok (none, st)
    | .var rv => .ok (some rv, st)
    | .row _ _ row' => rowVar n st row'

/-- `extract`: the row variable at the end of the row is split. -/
def extract (n : Nat) (st : Store) (lab : Lab) (row : RecType) : Except Stop Store := do
  let (rv, st) ← rowVar n st row
  match rv with
  | none => .error (.unify "extract")
  | some rv =>
    let (ty, st) := st.freshNormal
    let (rest, st) := st.freshRow
    unifyRowVar n st rv (.row lab ty rest)

mutual

def unifyType : Nat → Store → Typ → Typ → Except Stop Store
  | 0, _, _, _ => .error .fuel
  | n + 1, st, ty, ty' => do
    let (ty, st) ← findType n st ty
    let (ty', st) ← findType n st ty'
    match ty, ty' with
    | .tyvar tv, ty' => unifyTyVar restrictedTyvars n st tv ty'
    | ty, .tyvar tv' => unifyTyVar restrictedTyvars n st tv' ty
    | .rectype _ r, .rectype _ r' => unifyRow n st r r'
    | .arrow _ tau1 tau2, .arrow _ tau3 tau4 => do
      let st ← unifyType n st tau1 tau3
      unifyType n st tau2 tau4
    | .constype _ tys tyname, .constype _ tys' tyname' =>
      if tyname = tyname' then
        (tys.zip tys').foldlM (fun st (ty, ty') => unifyType n st ty ty') st
      else .error (.unify "unifyConsType")
    | _, _ => .error (.unify "unifyType")

/-- `unifyRow`, with the body of `unifyRow'` after the rows are sorted. -/
def unifyRow : Nat → Store → RecType → RecType → Except Stop Store
  | 0, _, _, _ => .error .fuel
  | n + 1, st, row1, row2 => do
    let (row1, st) ← sort n st row1
    let (row2, st) ← sort n st row2
    let (same, st) ← recTypeEq n st row1 row2
    if same then .ok st
    else
      match row1, row2 with
      | .nil, .nil => .ok st
      | row1, .var rho => unifyRowVar n st rho row1
      | .var rho, row2 => unifyRowVar n st rho row2
      | .row lab1 ty1 row1', .row lab2 ty2 row2' =>
        if lab1 = lab2 then do
          let st ← unifyType n st ty1 ty2
          unifyRow n st row1' row2'
        else if Lab.lt lab1 lab2 then do
          let st ← extract n st lab1 (.row lab2 ty2 row2')
          unifyRow n st (.row lab1 ty1 row1') (.row lab2 ty2 row2')
        else do
          let st ← extract n st lab2 (.row lab1 ty1 row1')
          unifyRow n st (.row lab1 ty1 row1') (.row lab2 ty2 row2')
      | _, _ => .error (.unify "unifyRow'")

end

end Restricted

/-- `unify_result`, with the store that a successful call leaves. -/
inductive UnifyResult where
  | unifyOk (st : Store)
  | unifyFail (s : String)
  | unifyRankError (tv : TyVar) (tyname : TyName)

def restrictedUnify (restrictedTyvars : List TyVar) (n : Nat) (st : Store) (tau tau' : Typ) :
    Except Stop UnifyResult :=
  match unifyType restrictedTyvars n st tau tau' with
  | .ok st => .ok (.unifyOk st)
  | .error (.unify s) => .ok (.unifyFail s)
  | .error (.rank tv tn) => .ok (.unifyRankError tv tn)
  | .error e => .error e

def unify (n : Nat) (st : Store) (ty1 ty2 : Typ) : Except Stop UnifyResult :=
  restrictedUnify [] n st ty1 ty2

end MLKit.Elab
