import Mathlib.Data.Finset.Card

/-!
# Sets of words

`NatSet`: a digital tree. A node holds the first `bits_word` elements, 31, as bits; of the others,
the odd ones are on the left and the even ones on the right. Words are numbers here: on the way down
a number is only made smaller, and the folds put together numbers that were added.
-/

namespace MLKit.NatSet

/-- The bits of a word that are used. -/
abbrev Bits := BitVec 31

def isb (w : Bits) (n : Nat) : Bool := w.getLsbD n

def setb (w : Bits) (n : Nat) : Bits := w ||| .twoPow _ n

def unsetb (w : Bits) (n : Nat) : Bits := w &&& ~~~.twoPow _ n

inductive Natset where
  | empty
  | some (w : Bits) (t₁ t₂ : Natset)
  deriving DecidableEq

def member (n : Nat) : Natset → Bool
  | .empty => false
  | .some w t₁ t₂ =>
    if n < 31 then isb w n
    else if n % 2 ≠ 0 then member ((n - 31) / 2) t₁
    else member ((n - 32) / 2) t₂

def add0 : Natset → Nat → Natset
  | .empty, n =>
    if n < 31 then .some (setb 0 n) .empty .empty
    else if n % 2 ≠ 0 then .some 0 (add0 .empty ((n - 31) / 2)) .empty
    else .some 0 .empty (add0 .empty ((n - 32) / 2))
  | .some w t₁ t₂, n =>
    if n < 31 then .some (setb w n) t₁ t₂
    else if n % 2 ≠ 0 then .some w (add0 t₁ ((n - 31) / 2)) t₂
    else .some w t₁ (add0 t₂ ((n - 32) / 2))
  termination_by _ n => n
  decreasing_by all_goals omega

def singleton (i : Nat) : Natset := add0 .empty i

def add (is : Natset) (n : Nat) : Natset := if member n is then is else add0 is n

def mksome (w : Bits) (t₁ t₂ : Natset) : Natset :=
  if w = 0 ∧ t₁ = .empty ∧ t₂ = .empty then .empty else .some w t₁ t₂

def union : Natset → Natset → Natset
  | .empty, ns₂ => ns₂
  | ns₁, .empty => ns₁
  | .some w₁ t₁₁ t₁₂, .some w₂ t₂₁ t₂₂ => .some (w₁ ||| w₂) (union t₁₁ t₂₁) (union t₁₂ t₂₂)

def intersection : Natset → Natset → Natset
  | .empty, _ => .empty
  | _, .empty => .empty
  | .some w₁ t₁₁ t₁₂, .some w₂ t₂₁ t₂₂ =>
    mksome (w₁ &&& w₂) (intersection t₁₁ t₂₁) (intersection t₁₂ t₂₂)

def difference : Natset → Natset → Natset
  | .empty, _ => .empty
  | ns₁, .empty => ns₁
  | .some w₁ t₁₁ t₁₂, .some w₂ t₂₁ t₂₂ =>
    mksome (w₁ &&& ~~~w₂) (difference t₁₁ t₂₁) (difference t₁₂ t₂₂)

def delete0 : Natset → Nat → Natset
  | .empty, _ => .empty
  | .some w t₁ t₂, n =>
    if n < 31 then mksome (unsetb w n) t₁ t₂
    else if n % 2 ≠ 0 then mksome w (delete0 t₁ ((n - 31) / 2)) t₂
    else mksome w t₁ (delete0 t₂ ((n - 32) / 2))

def delete (is : Natset) (n : Nat) : Natset := if member n is then delete0 is n else is

def natsetof : List Nat → Natset
  | [] => .empty
  | x :: xs => add (natsetof xs) x

def addList : List Nat → Natset → Natset
  | [], set => set
  | x :: xs, set => add (addList xs set) x

/-- Element `b` is replaced by `a`. -/
def subst (a b : Nat) (s : Natset) : Natset := if member b s then add (delete s b) a else s

def eq (s s' : Natset) : Bool := s = s'

/-- The loop of `foldset` over the bits of a word, which ends when there are none left; with a bit
below `i` it would not. -/
def slb {β : Type} (f : β → Nat → β) (n d : Nat) (w : Bits) (i : Nat) (a : β) : Option β :=
  if w = 0 then a
  else if 31 ≤ i then none
  else if isb w i then slb f n d (unsetb w i) (i + 1) (f a (n + d * i))
  else slb f n d w (i + 1) a
  termination_by 31 - i

def sl {β : Type} (f : β → Nat → β) (n d : Nat) : Natset → β → Option β
  | .empty, a => a
  | .some w t₁ t₂, a => do
    let a ← slb f n d w 0 a
    let a ← sl f (n + d * 31 + d) (2 * d) t₂ a
    sl f (n + d * 31) (2 * d) t₁ a

def foldset {β : Type} (f : β → Nat → β) (e : β) (t : Natset) : Option β := sl f 0 1 t e

def mapset {β : Type} (f : Nat → β) (t : Natset) : Option (List β) :=
  foldset (fun a i => f i :: a) [] t

def map (f : Nat → Nat) (t : Natset) : Option Natset := (mapset f t).map natsetof

def list (t : Natset) : Option (List Nat) := foldset (fun a i => i :: a) [] t

def fold {β : Type} (f : Nat → β → β) (e : β) (s : Natset) : Option β :=
  foldset (fun a e => f e a) e s

/-- The loop of `cardinality` over the bits of a word. -/
def count (w : Bits) (n a : Nat) : Option Nat := slb (fun a _ => a + 1) 0 0 w n a

def cardinality (is : Natset) : Option Nat := go is 0
where
  go : Natset → Nat → Option Nat
    | .empty, a => a
    | .some w t₁ t₂, a => do
      let a ← count w 0 a
      let a ← go t₁ a
      go t₂ a

/-- `h''`: the bits from `i` on whose elements are wanted, added to `w'`. -/
def filterBits (p : Nat → Bool) (n : Nat) (w : Bits) (i : Nat) (w' : Bits) : Bits :=
  if i < 31 then
    if isb w i && p (n + 2 * i) then filterBits p n w (i + 1) (setb w' i)
    else filterBits p n w (i + 1) w'
  else w'
  termination_by 31 - i

def filterFrom (p : Nat → Bool) (n d : Nat) : Natset → Natset
  | .empty => .empty
  | .some w t₁ t₂ =>
    mksome (filterBits p n w 0 0) (filterFrom p (n + d * 31) (2 * d) t₁)
      (filterFrom p (n + d * 32) (2 * d) t₂)

def setfilter (p : Nat → Bool) (t : Natset) : Natset := filterFrom p 0 1 t

def partition (p : Nat → Bool) (t : Natset) : Natset × Natset :=
  (setfilter p t, setfilter (fun x => !p x) t)

end MLKit.NatSet
