/-! Numbers as digits in a radix of at most thirty-six. -/

namespace Sketchwright.Text

/-- The value of a digit; letters of either case follow the decimal digits. -/
def digitValue? (c : Char) : Option Nat :=
  if c.isDigit then some (c.toNat - '0'.toNat)
  else if c.isLower then some (c.toNat - 'a'.toNat + 10)
  else if c.isUpper then some (c.toNat - 'A'.toNat + 10)
  else none

/-- Reads one more digit on the right of a number. -/
def pushDigit (radix : Nat) (value : Nat) (c : Char) : Option Nat :=
  match digitValue? c with
  | some d => if d < radix then some (value * radix + d) else none
  | none => none

/-- The number with these digits, of which there is at least one. -/
def ofDigits? (radix : Nat) : List Char → Option Nat
  | [] => none
  | cs => cs.foldlM (pushDigit radix) 0

end Sketchwright.Text
