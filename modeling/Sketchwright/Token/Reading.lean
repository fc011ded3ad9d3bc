import Sketchwright.Error

/-! Reading from a list of tokens. The list holds the tokens before the end of the text, so a reader
that stands at the end sees an empty list; `finalLine` is the line of the end. What a reader returns
says by how much the list got shorter. -/

namespace Sketchwright

/-- A cause of failure with its line; the text of that line is added when the whole source is at
hand. -/
inductive Fault where
  | malformed (line : Nat) (cause : Malformed)
  | unsupported (line : Nat) (construct : Construct)
  deriving DecidableEq, Repr

/-- A value read from a list of tokens, and the fewer than `bound` tokens that are left. -/
structure Parsed (α : Type) (bound : Nat) where
  value : α
  rest : List Token
  fits : rest.length < bound

abbrev Reading (α : Type) (bound : Nat) := Except Fault (Parsed α bound)

namespace Reading

theorem length_lt (ts : List Token) : ts.length < ts.length + 1 := Nat.lt_succ_self _

theorem cons_lt (t : Token) (ts : List Token) : (t :: ts).length < (t :: ts).length + 1 :=
  length_lt (t :: ts)

theorem tail_lt (t : Token) (ts : List Token) : ts.length < (t :: ts).length + 1 :=
  Nat.lt_succ_of_lt (length_lt ts)

theorem nil_lt : ([] : List Token).length < ([] : List Token).length + 1 := Nat.one_pos

/-- What is left of some tokens is also left of more. -/
theorem lt_cons (t : Token) {ts rest : List Token} (h : rest.length < ts.length) :
    rest.length < (t :: ts).length :=
  Nat.lt_succ_of_lt h

/-- What is left after two readers. -/
theorem lt_trans {ts rest rest' : List Token} (h : rest.length < ts.length)
    (h' : rest'.length < rest.length) : rest'.length < ts.length :=
  Nat.lt_trans h' h

/-- What is left after two readers, the second of which may read nothing. -/
theorem lt_of_rest {ts rest rest' : List Token} (h : rest.length < ts.length)
    (h' : rest'.length < rest.length + 1) : rest'.length < ts.length := by
  omega

/-- The same after a token. -/
theorem lt_cons_of_rest (t : Token) {ts rest rest' : List Token} (h : rest.length < ts.length)
    (h' : rest'.length < rest.length + 1) : rest'.length < (t :: ts).length + 1 :=
  Nat.lt_succ_of_lt (lt_cons t (lt_of_rest h h'))

/-- What is left after two readers and a token between them. -/
theorem lt_of_tail {ts rest rest' : List Token} (h : rest.length < ts.length)
    (h' : rest'.length < rest.tail.length) : rest'.length < ts.length := by
  have := List.length_tail (l := rest)
  omega

def kindOf : List Token → TokenKind
  | t :: _ => t.kind
  | [] => .eof

def lineOf (finalLine : Nat) : List Token → Nat
  | t :: _ => t.line
  | [] => finalLine

def unexpected (finalLine : Nat) (what : Expected) (ts : List Token) : Fault :=
  .malformed (lineOf finalLine ts) (.expected what (kindOf ts))

def expectSymbol (finalLine : Nat) (s : Symbol) : (ts : List Token) → Reading Unit ts.length
  | [] => throw (unexpected finalLine (.symbol s) [])
  | t :: ts =>
    if t.kind = .symbol s then return ⟨(), ts, length_lt ts⟩
    else throw (unexpected finalLine (.symbol s) (t :: ts))

def expectKeyword (finalLine : Nat) (k : Keyword) : (ts : List Token) → Reading Unit ts.length
  | [] => throw (unexpected finalLine (.keyword k) [])
  | t :: ts =>
    if t.kind = .keyword k then return ⟨(), ts, length_lt ts⟩
    else throw (unexpected finalLine (.keyword k) (t :: ts))

def expectIdentifier (finalLine : Nat) : (ts : List Token) → Reading String ts.length
  | [] => throw (unexpected finalLine .identifier [])
  | t :: ts =>
    match t.kind with
    | .identifier name => return ⟨name, ts, length_lt ts⟩
    | _ => throw (unexpected finalLine .identifier (t :: ts))

end Reading

/-- Words that the lexer leaves as names and that start no supported construct. -/
def unsupportedWords : List String :=
  ["class", "try", "except", "finally", "raise", "import", "from", "lambda", "with", "yield",
    "del", "assert", "async", "await", "nonlocal"]

end Sketchwright
