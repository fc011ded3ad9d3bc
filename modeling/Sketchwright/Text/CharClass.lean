import Sketchwright.Text.Alphabetic
import Sketchwright.Text.Numeric

/-! Character classes of source text. Names are Unicode: a word starts with an alphabetic character
or an underscore and goes on with alphabetic and numeric ones. -/

namespace Sketchwright.Text

def covers (ranges : List (Nat × Nat)) (c : Char) : Bool :=
  ranges.any fun r => r.1 ≤ c.toNat && c.toNat ≤ r.2

def isAscii (c : Char) : Bool := c.toNat < 128

/-- Unicode Alphabetic. -/
def isAlphabetic (c : Char) : Bool :=
  if isAscii c then c.isAlpha else covers alphabeticRanges c

/-- General category Nd, Nl or No. -/
def isNumeric (c : Char) : Bool :=
  if isAscii c then c.isDigit else covers numericRanges c

def isWordStart (c : Char) : Bool := isAlphabetic c || c == '_'

def isWordChar (c : Char) : Bool := isAlphabetic c || isNumeric c || c == '_'

/-- Unicode White_Space. -/
def isBlank (c : Char) : Bool :=
  covers [(0x9, 0xd), (0x20, 0x20), (0x85, 0x85), (0xa0, 0xa0), (0x1680, 0x1680), (0x2000, 0x200a),
    (0x2028, 0x2029), (0x202f, 0x202f), (0x205f, 0x205f), (0x3000, 0x3000)] c

theorem isWordChar_of_isWordStart {c : Char} (h : isWordStart c = true) : isWordChar c = true := by
  simp only [isWordStart, isWordChar, Bool.or_eq_true] at h ⊢
  exact h.elim (fun h => .inl (.inl h)) .inr

theorem isWordChar_of_isDigit {c : Char} (h : c.isDigit = true) : isWordChar c = true := by
  have hn : isNumeric c = true := by
    unfold isNumeric
    split
    · exact h
    · next ha =>
      simp only [isAscii, decide_eq_true_eq, Nat.not_lt] at ha
      simp only [Char.isDigit, Bool.and_eq_true, decide_eq_true_eq] at h
      have : c.toNat ≤ 57 := h.2
      omega
  simp [isWordChar, hn]

/-- No word starts with a digit. -/
theorem isWordStart_of_isDigit {c : Char} (h : c.isDigit = true) : isWordStart c = false := by
  simp only [Char.isDigit, Bool.and_eq_true, decide_eq_true_eq] at h
  have hle : c.toNat ≤ 57 := h.2
  have hascii : isAscii c = true := decide_eq_true (by omega)
  have halpha : c.isAlpha = false := by
    refine Bool.eq_false_iff.mpr fun ha => ?_
    rcases Bool.or_eq_true_iff.mp (show (c.isUpper || c.isLower) = true from ha) with hu | hl
    · have : 65 ≤ c.toNat := (of_decide_eq_true hu : _ ∧ _).1
      omega
    · have : 97 ≤ c.toNat := of_decide_eq_true
        (Bool.and_eq_true_iff.mp
          (show (decide (c.val ≥ 97) && decide (c.val ≤ 122)) = true from hl)).1
      omega
  have hne : c ≠ '_' := by
    rintro rfl
    exact absurd hle (by decide)
  simp [isWordStart, isAlphabetic, hascii, halpha, hne]

end Sketchwright.Text
