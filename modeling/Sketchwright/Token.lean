/-! Tokens. A token knows its place: the bytes that it covers, and the line and column at which it
starts. Indentation shows as tokens of its own, and so do comments and blank lines. -/

namespace Sketchwright

/-- A place between two characters: bytes before it, line from one, characters since the last line
feed. -/
structure Position where
  offset : Nat
  line : Nat
  column : Nat
  deriving DecidableEq, Repr, Inhabited

namespace Position

def start : Position := ⟨0, 1, 0⟩

def next (p : Position) (c : Char) : Position :=
  if c = '\n' then ⟨p.offset + c.utf8Size, p.line + 1, 0⟩
  else ⟨p.offset + c.utf8Size, p.line, p.column + 1⟩

/-- The place after some characters. -/
def advance (p : Position) (cs : List Char) : Position := cs.foldl next p

@[simp] theorem advance_nil (p : Position) : p.advance [] = p := rfl

@[simp] theorem advance_cons (p : Position) (c : Char) (cs : List Char) :
    p.advance (c :: cs) = (p.next c).advance cs := rfl

theorem advance_append (p : Position) (as bs : List Char) :
    p.advance (as ++ bs) = (p.advance as).advance bs :=
  List.foldl_append

end Position

structure Span where
  first : Nat
  stop : Nat
  line : Nat
  column : Nat
  deriving DecidableEq, Repr, Inhabited

/-- The span from one place to another. -/
def Position.until (p q : Position) : Span := ⟨p.offset, q.offset, p.line, p.column⟩

/-- The empty span at a place. -/
def Position.mark (p : Position) : Span := p.until p

inductive Keyword where
  | trueValue | falseValue | noneValue
  | define | ifBranch | elifBranch | elseBranch | forLoop | inRange | whileLoop
  | returnValue | pass | global | breakLoop | continueLoop
  | and | or | not | is
  deriving DecidableEq, Repr, Inhabited

namespace Keyword

def text : Keyword → String
  | .trueValue => "True"
  | .falseValue => "False"
  | .noneValue => "None"
  | .define => "def"
  | .ifBranch => "if"
  | .elifBranch => "elif"
  | .elseBranch => "else"
  | .forLoop => "for"
  | .inRange => "in"
  | .whileLoop => "while"
  | .returnValue => "return"
  | .pass => "pass"
  | .global => "global"
  | .breakLoop => "break"
  | .continueLoop => "continue"
  | .and => "and"
  | .or => "or"
  | .not => "not"
  | .is => "is"

def all : List Keyword :=
  [.trueValue, .falseValue, .noneValue, .define, .ifBranch, .elifBranch, .elseBranch, .forLoop,
    .inRange, .whileLoop, .returnValue, .pass, .global, .breakLoop, .continueLoop, .and, .or, .not,
    .is]

def ofText? (word : String) : Option Keyword := all.find? fun k => k.text == word

theorem text_of_ofText? {word : String} {k : Keyword} (h : ofText? word = some k) :
    k.text = word := by
  have := List.find?_some h
  simpa using this

theorem ofText?_text (k : Keyword) : ofText? k.text = some k := by
  cases k <;> decide

end Keyword

inductive Symbol where
  | equal | equalEqual | notEqual | less | lessEqual | greater | greaterEqual
  | plus | minus | star | doubleStar | slash | doubleSlash | percent
  | arrow | colon | comma | dot
  | leftParen | rightParen | leftBracket | rightBracket | leftBrace | rightBrace
  deriving DecidableEq, Repr, Inhabited

namespace Symbol

def text : Symbol → String
  | .equal => "="
  | .equalEqual => "=="
  | .notEqual => "!="
  | .less => "<"
  | .lessEqual => "<="
  | .greater => ">"
  | .greaterEqual => ">="
  | .plus => "+"
  | .minus => "-"
  | .star => "*"
  | .doubleStar => "**"
  | .slash => "/"
  | .doubleSlash => "//"
  | .percent => "%"
  | .arrow => "->"
  | .colon => ":"
  | .comma => ","
  | .dot => "."
  | .leftParen => "("
  | .rightParen => ")"
  | .leftBracket => "["
  | .rightBracket => "]"
  | .leftBrace => "\x7b"
  | .rightBrace => "\x7d"

def opens : Symbol → Bool
  | .leftParen | .leftBracket | .leftBrace => true
  | _ => false

def closes : Symbol → Bool
  | .rightParen | .rightBracket | .rightBrace => true
  | _ => false

end Symbol

inductive TokenKind where
  | identifier (name : String)
  | integer (value : Int)
  /-- A decimal literal as written. -/
  | float (text : String)
  /-- What stands between the quotes, escapes as written. -/
  | string (text : String)
  | keyword (k : Keyword)
  | symbol (s : Symbol)
  /-- An augmented assignment such as `+=`. -/
  | compoundAssign (text : String)
  /-- A character or pair with no meaning in the language. -/
  | unknown (text : String)
  /-- The text after `#`, without blanks at its end. -/
  | comment (text : String)
  | blankLine
  | newline
  | indent
  | dedent
  | eof
  deriving DecidableEq, Repr, Inhabited

namespace TokenKind

def isComment : TokenKind → Bool
  | .comment _ => true
  | _ => false

def isString : TokenKind → Bool
  | .string _ => true
  | _ => false

def isIdentifier : TokenKind → Bool
  | .identifier _ => true
  | _ => false

/-- Comments and blank lines. -/
def isTrivia : TokenKind → Bool
  | .comment _ | .blankLine => true
  | _ => false

/-- A logical line ends before such a token. -/
def endsLine : TokenKind → Bool
  | .newline | .comment _ | .eof => true
  | _ => false

/-- How a message names a token. -/
def description : TokenKind → String
  | .identifier name => "'" ++ name ++ "'"
  | .integer value => "'" ++ toString value ++ "'"
  | .float text | .unknown text | .compoundAssign text => "'" ++ text ++ "'"
  | .string _ => "string literal"
  | .keyword k => "'" ++ k.text ++ "'"
  | .symbol s => "'" ++ s.text ++ "'"
  | .comment _ => "comment"
  | .blankLine => "blank line"
  | .newline => "end of line"
  | .indent => "indented block"
  | .dedent => "end of block"
  | .eof => "end of input"

end TokenKind

structure Token where
  kind : TokenKind
  span : Span
  deriving DecidableEq, Repr, Inhabited

def Token.line (t : Token) : Nat := t.span.line

end Sketchwright
