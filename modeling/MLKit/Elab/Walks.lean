import MLKit.Elab.Types

/-!
# Walks over types

`findType` and `findRecType` follow the links of a store and shorten them; the walks of
unification (`RecType.sort`, `RecType_eq`, the occurs checks, the lowering of levels and ranks,
`make_equality`) go through them at every node. The recursion is bounded by a number, since a store
with a cycle of links has no end.
-/

namespace MLKit.Elab

def findType : Nat → Store → Typ → Except Stop (Typ × Store)
  | 0, _, _ => .error .fuel
  | n + 1, st, .tyvar tl => do
    match (← st.tyCell tl).link with
    | .noTyLink _ => .ok (.tyvar tl, st)
    | .tyLink (.tyvar tl') =>
      match (← st.tyCell tl').link with
      | .noTyLink _ => .ok (.tyvar tl', st)
      | .tyLink ty'' => findType n (st.setTyLink tl (.tyLink ty'')) ty''
    | .tyLink ty' => .ok (ty', st)
  | _ + 1, st, ty => .ok (ty, st)

def findRecType : Nat → Store → RecType → Except Stop (RecType × Store)
  | 0, _, _ => .error .fuel
  | n + 1, st, .var rl => do
    match (← st.rowCell rl).link with
    | .noRecLink => .ok (.var rl, st)
    | .recLink r' => do
      let (r'', st) ← findRecType n st r'
      .ok (r'', st.setRecLink rl (.recLink r''))
  | _ + 1, st, r => .ok (r, st)

namespace SortedFinMap

/-- `SortedFinMap.add Lab.<`: a field that is there already is replaced. -/
def add {α : Type} (x' : Lab) (y' : α) : List (Lab × α) → List (Lab × α)
  | [] => [(x', y')]
  | (x, y) :: rest =>
    if x = x' then (x', y') :: rest
    else if Lab.lt x x' then (x, y) :: add x' y' rest
    else (x', y') :: (x, y) :: rest

end SortedFinMap

def sanitiseRecType :
    Nat → Store → RecType → Except Stop ((List (Lab × Typ) × Option RowVar) × Store)
  | 0, _, _ => .error .fuel
  | n + 1, st, r => do
    let (r, st) ← findRecType n st r
    match r with
    | .nil => .ok (([], none), st)
    | .var rv => .ok (([], some rv), st)
    | .row lab tau r' => do
      let ((map, rvOpt), st) ← sanitiseRecType n st r'
      .ok ((SortedFinMap.add lab tau map, rvOpt), st)

/-- The row with the fields of a map, closed or ending in a row variable. -/
def RecType.ofMap (rvOpt : Option RowVar) : List (Lab × Typ) → RecType
  | [] =>
    match rvOpt with
    | some rv => .var rv
    | none => .nil
  | (lab, ty) :: rest => .row lab ty (RecType.ofMap rvOpt rest)

/-- `RecType.sort`. -/
def sort (n : Nat) (st : Store) (r : RecType) : Except Stop (RecType × Store) := do
  let ((m, varrecOpt), st) ← sanitiseRecType n st r
  .ok (RecType.ofMap varrecOpt m, st)

/-- The level reference of a type that is not a variable, or the level kept with the variable. -/
def Typ.level (st : Store) : Typ → Except Stop Int
  | .tyvar tv => do .ok (← st.tyCell tv).level
  | .arrow l _ _ => st.levelOf l
  | .rectype l _ => st.levelOf l
  | .constype l _ _ => st.levelOf l

mutual

/-- `Type_eq0 EQ_SIGNIFICANT`; one cell is equal to itself in its equality attribute too. -/
def typeEq : Nat → Store → Typ → Typ → Except Stop (Bool × Store)
  | 0, _, _, _ => .error .fuel
  | n + 1, st, ty, ty' => do
    let (ty, st) ← findType n st ty
    let (ty', st) ← findType n st ty'
    if (← ty.level st) ≠ (← ty'.level st) then .ok (false, st)
    else
      match ty, ty' with
      | .tyvar tv, .tyvar tv' => .ok (decide (tv = tv'), st)
      | .arrow _ ty1 ty1', .arrow _ ty2 ty2' => do
        let (b, st) ← typeEq n st ty1 ty2
        if b then typeEq n st ty1' ty2' else .ok (false, st)
      | .rectype _ r1, .rectype _ r2 => recTypeEq n st r1 r2
      | .constype _ tys1 tyname1, .constype _ tys2 tyname2 =>
        if tyname1 = tyname2 ∧ tys1.length = tys2.length then
          (tys1.zip tys2).foldlM
            (fun (b, st) (ty1, ty2) => if b then typeEq n st ty1 ty2 else .ok (false, st))
            (true, st)
        else .ok (false, st)
      | _, _ => .ok (false, st)

def recTypeEq : Nat → Store → RecType → RecType → Except Stop (Bool × Store)
  | 0, _, _, _ => .error .fuel
  | n + 1, st, r1, r2 => do
    let (r1, st) ← findRecType n st r1
    let (r2, st) ← findRecType n st r2
    match r1, r2 with
    | .nil, .nil => .ok (true, st)
    | .var rv, .var rv' => .ok (decide (rv = rv'), st)
    | .row l1 ty1 r1', .row l2 ty2 r2' =>
      if l1 = l2 then do
        let (b, st) ← typeEq n st ty1 ty2
        if b then recTypeEq n st r1' r2' else .ok (false, st)
      else .ok (false, st)
    | _, _ => .ok (false, st)

end

mutual

/-- `occurs_tv_in_Type`. -/
def occursTvInType (tv : TyVar) : Nat → Store → Typ → Except Stop (Bool × Store)
  | 0, _, _ => .error .fuel
  | n + 1, st, ty => do
    let (ty, st) ← findType n st ty
    match ty with
    | .tyvar tv' => .ok (decide (tv = tv'), st)
    | .arrow _ ty1 ty2 => do
      let (b, st) ← occursTvInType tv n st ty1
      if b then .ok (true, st) else occursTvInType tv n st ty2
    | .constype _ tys _ =>
      tys.foldlM
        (fun (b, st) ty => if b then .ok (true, st) else occursTvInType tv n st ty) (false, st)
    | .rectype _ r => occursTvInRow tv n st r false

/-- The `RecType.fold` of `occurs_tv_in_Type`. -/
def occursTvInRow (tv : TyVar) : Nat → Store → RecType → Bool → Except Stop (Bool × Store)
  | 0, _, _, _ => .error .fuel
  | n + 1, st, r, b => do
    let (r, st) ← findRecType n st r
    match r with
    | .nil => .ok (b, st)
    | .var _ => .ok (b, st)
    | .row _ ty r' => do
      let (b, st) ← (if b then .ok (true, st) else occursTvInType tv n st ty)
      occursTvInRow tv n st r' b

end

mutual

def occursRvInRecType (rv : RowVar) : Nat → Store → RecType → Except Stop (Bool × Store)
  | 0, _, _ => .error .fuel
  | n + 1, st, r => do
    let (r, st) ← findRecType n st r
    match r with
    | .nil => .ok (false, st)
    | .var rv' => .ok (decide (rv = rv'), st)
    | .row _ ty r' => do
      let (b, st) ← occursRvInType rv n st ty
      if b then .ok (true, st) else occursRvInRecType rv n st r'

def occursRvInType (rv : RowVar) : Nat → Store → Typ → Except Stop (Bool × Store)
  | 0, _, _ => .error .fuel
  | n + 1, st, ty => do
    let (ty, st) ← findType n st ty
    match ty with
    | .tyvar _ => .ok (false, st)
    | .arrow _ ty1 ty2 => do
      let (b, st) ← occursRvInType rv n st ty1
      if b then .ok (true, st) else occursRvInType rv n st ty2
    | .rectype _ r => occursRvInRecType rv n st r
    | .constype _ tys _ =>
      tys.foldlM
        (fun (result, st) ty => do
          let (b, st) ← occursRvInType rv n st ty
          .ok (b || result, st))
        (false, st)

end

mutual

/-- `decr_level_Type`. -/
def decrLevelType (lev : Int) : Nat → Store → Typ → Except Stop Store
  | 0, _, _ => .error .fuel
  | n + 1, st, ty => do
    let (ty, st) ← findType n st ty
    match ty with
    | .tyvar tv => do
      if (← st.tyCell tv).level > lev then .ok (st.setTyLevel tv lev) else .ok st
    | .arrow _ ty1 ty2 => do
      let st ← decrLevelType lev n st ty1
      decrLevelType lev n st ty2
    | .constype _ tys _ => tys.foldlM (decrLevelType lev n) st
    | .rectype _ r => decrLevelRecType lev n st r

def decrLevelRecType (lev : Int) : Nat → Store → RecType → Except Stop Store
  | 0, _, _ => .error .fuel
  | n + 1, st, r => do
    let (r, st) ← findRecType n st r
    match r with
    | .nil => .ok st
    | .var rv => do
      if (← st.rowCell rv).level > lev then .ok (st.setRowLevel rv lev) else .ok st
    | .row _ ty r' => do
      let st ← decrLevelType lev n st ty
      decrLevelRecType lev n st r'

end

mutual

/-- `decr_rank_Type`; `tv0` is named in the error. -/
def decrRankType (tv0 : TyVar) (rnk : Nat) : Nat → Store → Typ → Except Stop Store
  | 0, _, _ => .error .fuel
  | n + 1, st, ty => do
    let (ty, st) ← findType n st ty
    match ty with
    | .tyvar tv => do
      let tvd ← st.tyVarDesc tv "decr_rank_Type"
      if rnk ≤ tvd.rank then .ok (st.setTyLink tv (.noTyLink { tvd with rank := rnk }))
      else .ok st
    | .arrow _ ty1 ty2 => do
      let st ← decrRankType tv0 rnk n st ty1
      decrRankType tv0 rnk n st ty2
    | .constype _ tys tn =>
      if tn.rank ≤ rnk then tys.foldlM (decrRankType tv0 rnk n) st
      else .error (.rank tv0 tn)
    | .rectype _ r => decrRankRecType tv0 rnk n st r

def decrRankRecType (tv0 : TyVar) (rnk : Nat) : Nat → Store → RecType → Except Stop Store
  | 0, _, _ => .error .fuel
  | n + 1, st, r => do
    let (r, st) ← findRecType n st r
    match r with
    | .nil => .ok st
    | .var _ => .ok st
    | .row _ ty r' => do
      let st ← decrRankType tv0 rnk n st ty
      decrRankRecType tv0 rnk n st r'

end

mutual

/-- `make_equality0`; `none` is the exception `NotEquality`. -/
def makeEquality0 : Nat → Store → Typ → Except Stop (Option Store)
  | 0, _, _ => .error .fuel
  | n + 1, st, ty => do
    let (ty, st) ← findType n st ty
    match ty with
    | .tyvar tv => do
      let tvd ← st.tyVarDesc tv "make_equality"
      match tvd.explicit with
      | some extv => if extv.isEquality then .ok (some st) else .ok none
      | none =>
        if tvd.equality then .ok (some st)
        else
          .ok (some
            { st.setTyLink tv (.noTyLink { tvd with equality := true }) with
              carriers := tv :: st.carriers })
    | .rectype _ r => makeEqualityRow n st r
    | .constype _ tys tyname =>
      if tyname = tyNameRef ∨ tyname = tyNameArray then .ok (some st)
      else if tyname.equality then
        tys.foldlM
          (fun found ty =>
            match found with
            | some st => makeEquality0 n st ty
            | none => .ok none)
          (some st)
      else .ok none
    | .arrow _ _ _ => .ok none

/-- The `RecType.apply` of `make_equality0`, which leaves the end of the row as it is. -/
def makeEqualityRow : Nat → Store → RecType → Except Stop (Option Store)
  | 0, _, _ => .error .fuel
  | n + 1, st, r => do
    let (r, st) ← findRecType n st r
    match r with
    | .nil => .ok (some st)
    | .var rv => .ok (some { st with openRows := rv :: st.openRows })
    | .row _ ty r' => do
      match (← makeEquality0 n st ty) with
      | some st => makeEqualityRow n st r'
      | none => .ok none

end

end MLKit.Elab
