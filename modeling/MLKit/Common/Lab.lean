import Mathlib.Data.String.Basic

/-!
# Record labels

`Lab.<` compares two numeric labels as numbers and all other pairs as texts.
-/

namespace MLKit

/-- A label is a numeral or an identifier, and the lexer begins no identifier with a digit. -/
inductive Lab where
  | integer (i : Nat)
  | ident (str : String) (noDigit : ∀ c, str.toList.head? = some c → c.isDigit = false)
  deriving DecidableEq

namespace Lab

/-- The text that `LAB` holds. -/
def text : Lab → String
  | integer i => toString i
  | ident str _ => str

/-- The source asks `Int.fromString` of both texts, which succeeds on the numerals. -/
def lt : Lab → Lab → Bool
  | integer i1, integer i2 => decide (i1 < i2)
  | l1, l2 => decide (l1.text < l2.text)

/-- The source's example of what the order is for: `2` comes before `10`. -/
example : lt (integer 2) (integer 10) = true := by decide

end Lab

end MLKit
