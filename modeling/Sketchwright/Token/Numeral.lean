import Sketchwright.Text.CharClass
import Sketchwright.Text.Digits
import Sketchwright.Text.Split
import Sketchwright.Token

/-! Number literals. A literal is an integer in one of four radices or a decimal fraction; a word
character right after it spoils the whole word. Integers up to `largest` are exact. -/

namespace Sketchwright.Token.Numeral

open Text

def largest : Nat := Nat.pow 2 63 - 1

def isDigitOrGap (c : Char) : Bool := c.isDigit || c == '_'

/-- The radix that a literal announces by its first two characters. -/
def radix? : List Char → Option Nat
  | '0' :: c :: _ =>
    if c == 'x' || c == 'X' then some 16
    else if c == 'o' || c == 'O' then some 8
    else if c == 'b' || c == 'B' then some 2
    else none
  | _ => none

/-- A point and the digits after it; a point before a name is no part of the number. -/
def fraction : List Char → List Char
  | '.' :: cs =>
    match cs with
    | c :: _ => if isWordStart c then [] else '.' :: cs.takeWhile isDigitOrGap
    | [] => ['.']
  | _ => []

def isSign (c : Char) : Bool := c == '+' || c == '-'

/-- An exponent mark with at least one digit, perhaps signed. -/
def exponent : List Char → List Char
  | e :: cs =>
    if e == 'e' || e == 'E' then
      match cs with
      | c :: ds =>
        if c.isDigit then e :: cs.takeWhile Char.isDigit
        else if isSign c && (ds.head?.any Char.isDigit) then e :: c :: ds.takeWhile Char.isDigit
        else []
      | [] => []
    else []
  | [] => []

def whole (cs : List Char) : List Char := cs.takeWhile isDigitOrGap

/-- Point, fraction digits and exponent of a decimal literal, empty for an integer. -/
def decimals (cs : List Char) : List Char :=
  let after := cs.drop (whole cs).length
  fraction after ++ exponent (after.drop (fraction after).length)

/-- The literal without the word characters that spoil it. -/
def body (cs : List Char) : List Char :=
  match radix? cs with
  | some _ => cs.take 2 ++ (cs.drop 2).takeWhile fun c => c.isAlphanum || c == '_'
  | none => whole cs ++ decimals cs

def spoiler (cs : List Char) : List Char := (cs.drop (body cs).length).takeWhile isWordChar

def text (cs : List Char) : List Char := body cs ++ spoiler cs

def digitsOf (cs : List Char) : List Char := cs.filter (· != '_')

/-- An integer that is in range. -/
def integer? (radix : Nat) (digits : List Char) : Option TokenKind :=
  match ofDigits? radix (digitsOf digits) with
  | some value => if value ≤ largest then some (.integer value) else none
  | none => none

/-- The token of the literal that some characters begin with, unless it is malformed. -/
def kind? (cs : List Char) : Option TokenKind :=
  if (spoiler cs).isEmpty then
    match radix? cs with
    | some radix => integer? radix ((body cs).drop 2)
    | none =>
      if (decimals cs).isEmpty then integer? 10 (body cs)
      else some (.float (String.ofList (body cs)))
  else none

theorem fraction_isPrefix (cs : List Char) : fraction cs <+: cs := by
  unfold fraction
  split
  · split
    · split
      · exact List.nil_prefix
      · exact (List.prefix_cons_inj '.').mpr ( List.takeWhile_prefix _)
    · exact List.prefix_rfl
  · exact List.nil_prefix

theorem exponent_isPrefix (cs : List Char) : exponent cs <+: cs := by
  unfold exponent
  split
  · split
    · split
      · split
        · exact (List.prefix_cons_inj _).mpr ( List.takeWhile_prefix _)
        · split
          · exact (List.prefix_cons_inj _).mpr
              ((List.prefix_cons_inj _).mpr ( List.takeWhile_prefix _))
          · exact List.nil_prefix
      · exact List.nil_prefix
    · exact List.nil_prefix
  · exact List.nil_prefix

theorem decimals_isPrefix (cs : List Char) : decimals cs <+: cs.drop (whole cs).length :=
  append_isPrefix (fraction_isPrefix _) (exponent_isPrefix _)

theorem body_isPrefix (cs : List Char) : body cs <+: cs := by
  unfold body
  split
  · next h =>
    have hlen : (cs.take 2).length = 2 := by
      unfold radix? at h
      split at h
      · rfl
      · simp at h
    refine append_isPrefix ( List.take_prefix 2 cs) ?_
    rw [hlen]
    exact List.takeWhile_prefix _
  · exact append_isPrefix ( List.takeWhile_prefix _) (decimals_isPrefix cs)

theorem text_isPrefix (cs : List Char) : text cs <+: cs :=
  append_isPrefix (body_isPrefix cs) ( List.takeWhile_prefix _)

theorem text_cons_ne_nil {c : Char} (cs : List Char) (h : c.isDigit = true) :
    text (c :: cs) ≠ [] := by
  have hb : body (c :: cs) ≠ [] := by
    unfold body
    split
    · simp
    · simp [whole, isDigitOrGap, h]
  simp [text, hb]

/-- A point with a digit after it starts a number. -/
theorem text_dot_ne_nil {c : Char} (cs : List Char) (h : c.isDigit = true) :
    text ('.' :: c :: cs) ≠ [] := by
  have hb : body ('.' :: c :: cs) ≠ [] := by
    have hw := isWordStart_of_isDigit h
    have hf : fraction ('.' :: c :: cs) ≠ [] := by simp [fraction, hw]
    simp [body, radix?, whole, isDigitOrGap, decimals, hf]
  simp [text, hb]

end Sketchwright.Token.Numeral
