import Sketchwright.Text.Lines
import Sketchwright.Token.Numeral
import Sketchwright.Token.Quoted

/-! Lexemes: what the characters ahead begin with, whatever came before them. Every lexeme is a
nonempty prefix of these characters. -/

namespace Sketchwright.Token

open Text

/-- Why a lexeme is no token. -/
inductive Flaw where
  | unterminatedString
  | invalidNumber (literal : String)
  deriving DecidableEq, Repr

structure Lexeme where
  text : List Char
  kind : Except Flaw TokenKind

namespace Lexeme

/-- Operators and delimiters, a longer one before those that it begins with. -/
def operators : List (List Char × TokenKind) := [
  (['*', '*', '='], .compoundAssign "**="), (['/', '/', '='], .compoundAssign "//="),
  ([':', '='], .unknown ":="), (['<', '<'], .unknown "<<"), (['>', '>'], .unknown ">>"),
  (['=', '='], .symbol .equalEqual), (['!', '='], .symbol .notEqual),
  (['<', '='], .symbol .lessEqual), (['>', '='], .symbol .greaterEqual),
  (['-', '>'], .symbol .arrow), (['*', '*'], .symbol .doubleStar),
  (['/', '/'], .symbol .doubleSlash),
  (['+', '='], .compoundAssign "+="), (['-', '='], .compoundAssign "-="),
  (['*', '='], .compoundAssign "*="), (['/', '='], .compoundAssign "/="),
  (['%', '='], .compoundAssign "%="), (['&', '='], .compoundAssign "&="),
  (['|', '='], .compoundAssign "|="), (['^', '='], .compoundAssign "^="),
  (['@', '='], .compoundAssign "@="),
  (['('], .symbol .leftParen), ([')'], .symbol .rightParen), (['['], .symbol .leftBracket),
  ([']'], .symbol .rightBracket), (['\x7b'], .symbol .leftBrace), (['\x7d'], .symbol .rightBrace),
  ([':'], .symbol .colon), ([','], .symbol .comma), (['.'], .symbol .dot), (['='], .symbol .equal),
  (['<'], .symbol .less), (['>'], .symbol .greater), (['+'], .symbol .plus),
  (['-'], .symbol .minus), (['*'], .symbol .star), (['/'], .symbol .slash),
  (['%'], .symbol .percent)]

def operator? (cs : List Char) : Option (List Char × TokenKind) :=
  operators.find? fun entry => entry.1.isPrefixOf cs

/-- A number starts with a digit, or with a point before one. -/
def startsNumber : List Char → Bool
  | '.' :: c :: _ => c.isDigit
  | c :: _ => c.isDigit
  | [] => false

def word (cs : List Char) : TokenKind :=
  match Keyword.ofText? (String.ofList cs) with
  | some k => .keyword k
  | none => .identifier (String.ofList cs)

def restOfLine (cs : List Char) : List Char := cs.takeWhile (· != '\n')

/-- The token of a comment, mark included. -/
def comment (text : List Char) : TokenKind := .comment (String.ofList (trimEnd (text.drop 1)))

def ofComment (cs : List Char) : Lexeme := ⟨restOfLine cs, .ok (comment (restOfLine cs))⟩

def ofNumber (cs : List Char) : Lexeme :=
  let text := Numeral.text cs
  match Numeral.kind? cs with
  | some kind => ⟨text, .ok kind⟩
  | none => ⟨text, .error (.invalidNumber (String.ofList text))⟩

def ofString (quote : Char) (after : List Char) : Lexeme :=
  match Quoted.read quote after with
  | (text, some inner) => ⟨text, .ok (.string (String.ofList inner))⟩
  | (text, none) => ⟨text, .error .unterminatedString⟩

def ofWord (cs : List Char) : Lexeme :=
  let text := cs.takeWhile isWordChar
  ⟨text, .ok (word text)⟩

/-- The lexeme that starts with `c` when `cs` follows. -/
def read (c : Char) (cs : List Char) : Lexeme :=
  if c == '\n' then ⟨[c], .ok .newline⟩
  else if c == '#' then ofComment (c :: cs)
  else if startsNumber (c :: cs) then ofNumber (c :: cs)
  else if c == '"' || c == '\'' then ofString c cs
  else if isWordStart c then ofWord (c :: cs)
  else
    match operator? (c :: cs) with
    | some (text, kind) => ⟨text, .ok kind⟩
    | none => ⟨[c], .ok (.unknown (String.singleton c))⟩

theorem contents_isPrefix (quote : Char) (long : Bool) (cs : List Char) :
    (Quoted.contents quote long cs).1 <+: cs := by
  fun_induction Quoted.contents quote long cs with
  | case1 c cs rest ih => exact (List.prefix_cons_inj _).mpr ((List.prefix_cons_inj _).mpr ih)
  | case2 => exact List.nil_prefix
  | case3 => exact List.nil_prefix
  | case4 c cs _ _ _ rest ih => exact (List.prefix_cons_inj _).mpr ih
  | case5 => exact List.nil_prefix

/-- A closed literal is followed by its delimiter. -/
theorem delimiter_of_contents_closed {quote : Char} {long : Bool} {cs : List Char}
    (h : (Quoted.contents quote long cs).2 = true) :
    Quoted.delimiter quote long <+: cs.drop (Quoted.contents quote long cs).1.length := by
  fun_induction Quoted.contents quote long cs with
  | case1 c cs rest ih => exact ih h
  | case2 => simp at h
  | case3 c cs _ _ hq =>
    simp only [Bool.and_eq_true, beq_iff_eq, Quoted.endsAt, Bool.or_eq_true] at hq
    obtain ⟨rfl, hl⟩ := hq
    cases long with
    | false => exact (List.prefix_cons_inj _).mpr List.nil_prefix
    | true =>
      refine (List.prefix_cons_inj _).mpr (List.isPrefixOf_iff_prefix.mp ?_)
      simpa [Quoted.isLong] using hl
  | case4 c cs _ _ _ rest ih => exact ih h
  | case5 => simp at h

theorem read_quoted_isPrefix (quote : Char) (cs : List Char) :
    (Quoted.read quote cs).1 <+: quote :: cs := by
  have hopen : Quoted.delimiter quote (Quoted.isLong quote cs) <+: quote :: cs := by
    cases h : Quoted.isLong quote cs with
    | false => exact (List.prefix_cons_inj _).mpr List.nil_prefix
    | true => exact (List.prefix_cons_inj _).mpr (List.isPrefixOf_iff_prefix.mp h)
  have hbody := append_isPrefix hopen (contents_isPrefix quote (Quoted.isLong quote cs) _)
  simp only [Quoted.read]
  split
  · next h =>
    refine append_isPrefix hbody ?_
    have := delimiter_of_contents_closed h
    rwa [List.drop_drop, ← List.length_append] at this
  · exact hbody

theorem operators_ne_nil : ∀ entry ∈ operators, entry.1 ≠ [] := by
  decide

theorem operator?_isPrefix {cs : List Char} {entry : List Char × TokenKind}
    (h : operator? cs = some entry) : entry.1 <+: cs := by
  have hp := List.find?_some h
  exact List.isPrefixOf_iff_prefix.mp hp

theorem read_text_isPrefix (c : Char) (cs : List Char) : (read c cs).text <+: c :: cs := by
  have hone : [c] <+: c :: cs := (List.prefix_cons_inj c).mpr List.nil_prefix
  unfold read
  split
  · exact hone
  split
  · exact List.takeWhile_prefix _
  split
  · unfold ofNumber
    split <;> exact Numeral.text_isPrefix _
  split
  · have h := read_quoted_isPrefix c cs
    unfold ofString
    split
    · next heq => rwa [heq] at h
    · next heq => rwa [heq] at h
  split
  · exact List.takeWhile_prefix _
  · split
    · next h => exact operator?_isPrefix h
    · exact hone

theorem read_text_ne_nil (c : Char) (cs : List Char) : (read c cs).text ≠ [] := by
  unfold read
  split
  · simp
  split
  · next h =>
    have hc : c = '#' := by simpa using h
    simp [ofComment, restOfLine, hc]
  split
  · next h =>
    have hne : Numeral.text (c :: cs) ≠ [] := by
      unfold startsNumber at h
      split at h
      · next heq =>
        rw [heq]
        exact Numeral.text_dot_ne_nil _ h
      · next heq =>
        rw [heq]
        exact Numeral.text_cons_ne_nil _ h
      · simp at h
    unfold ofNumber
    split <;> exact hne
  split
  · have hd : ∀ long, Quoted.delimiter c long ≠ [] := by
      intro long
      cases long <;> simp [Quoted.delimiter]
    have hr : (Quoted.read c cs).1 ≠ [] := by
      simp only [Quoted.read]
      split <;> simp [hd]
    unfold ofString
    split
    · next heq => rwa [heq] at hr
    · next heq => rwa [heq] at hr
  split
  · next h => simp [ofWord, isWordChar_of_isWordStart h]
  · split
    · next h => exact operators_ne_nil _ (List.mem_of_find?_eq_some h)
    · simp

end Lexeme

end Sketchwright.Token
