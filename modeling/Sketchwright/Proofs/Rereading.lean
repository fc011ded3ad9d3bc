import Sketchwright.Proofs.Lexemes
import Sketchwright.Proofs.Outcome
import Sketchwright.Proofs.Phrases
import Sketchwright.Proofs.Sources
import Sketchwright.Sketch.Expr

/-! Expressions of a sketch read back. The text of an expression is lexed into a phrase of the
grammar, and that phrase is the expression again, but for the rewrites of each of its nodes: no
parenthesis that is left out groups the operators another way. -/

namespace Sketchwright

open Token Token.Lexeme

namespace Expr

/-- The names that conversions are written with. -/
def conversions (floatType : FloatType) : List (String × String) :=
  [("int", "int"), ("float", floatType.text), ("bool", "bool"), ("str", "String")]

/-- The number of items of a list, by the sizes of the list and of an item. -/
def lengthOf : List Expr → Expr
  | [.name base] => .binary (.call "sizeof" [.name base]) .div
      (.call "sizeof" [.index base (.literal (.int 0))])
  | args => .call "len" args

/-- The literal as an expression of the sketch: gaps between digits are dropped, control characters
and quotes are escaped, and truth values are names. -/
def writtenLiteral : Literal → Expr
  | .int value => .literal (.int value)
  | .float text => .literal (.float (Sketch.floatLiteral text))
  | .str text => .literal (.str (String.ofList (Sketch.escape text.toList)))
  | .bool true => .name "true"
  | .bool false => .name "false"

mutual

/-- The expression that stands in a sketch for an expression of the program, node by node. -/
def written (floatType : FloatType) : Expr → Expr
  | .literal value => writtenLiteral value
  | .name id => .name id
  | .unary sign operand => .unary sign (written floatType operand)
  | .binary left op right =>
    let first := written floatType left
    let second := written floatType right
    match op with
    | .pow => .call "pow" [first, second]
    | .floorDiv => .binary first .div second
    | op => .binary (if Sketch.wrapsLeft left op then .call "String" [first] else first) op second
  | .call callee args =>
    if callee = "len" then lengthOf args
    else .call (((conversions floatType).lookup callee).getD callee) (writtenAll floatType args)
  | .index base position => .index base (written floatType position)
  | .list items => .list (writtenAll floatType items)

def writtenAll (floatType : FloatType) : List Expr → List Expr
  | [] => []
  | e :: es => written floatType e :: writtenAll floatType es

end

end Expr

namespace Token.Lexeme

/-- Characters that may follow a sign without making another operator of it. -/
def opensText (c : Char) : Bool := isCode c && c != '=' && c != '>'

theorem opensText_of_holds {p : Char → Bool} {c : Char} (hc : p c = true)
    (hp : ['=', '>', ' ', '\t', '\r', '\x0c', '\n', '#', '\\'].any p = false) :
    opensText c = true := by
  rw [List.any_cons, List.any_cons, Bool.or_eq_false_iff, Bool.or_eq_false_iff] at hp
  obtain ⟨hequal, hgreater, hcode⟩ := hp
  simp [opensText, isCode_of_holds hc hcode, ne_of_holds hc hequal, ne_of_holds hc hgreater]

section Symbols

variable (rest : List Char)

theorem begins_leftParen : Begins ['('] rest (.symbol .leftParen) :=
  ⟨⟨'(', rest, rfl, by decide, rfl⟩, by simp⟩

theorem begins_rightParen : Begins [')'] rest (.symbol .rightParen) :=
  ⟨⟨')', rest, rfl, by decide, rfl⟩, by simp⟩

theorem begins_leftBracket : Begins ['['] rest (.symbol .leftBracket) :=
  ⟨⟨'[', rest, rfl, by decide, rfl⟩, by simp⟩

theorem begins_rightBracket : Begins [']'] rest (.symbol .rightBracket) :=
  ⟨⟨']', rest, rfl, by decide, rfl⟩, by simp⟩

theorem begins_comma : Begins [','] rest (.symbol .comma) :=
  ⟨⟨',', rest, rfl, by decide, rfl⟩, by simp⟩

/-- The token of an operator of a sketch. -/
def operatorSymbol : BinOp → Symbol
  | .add => .plus
  | .sub => .minus
  | .mul => .star
  | .div | .floorDiv => .slash
  | .mod => .percent
  | .pow => .doubleStar
  | .eq => .equalEqual
  | .ne => .notEqual
  | .lt => .less
  | .le => .lessEqual
  | .gt => .greater
  | .ge => .greaterEqual

/-- An operator with a blank after it. -/
theorem begins_operator (op : BinOp) :
    Begins (Sketch.symbol op).toList (' ' :: rest) (.symbol (operatorSymbol op)) := by
  refine ⟨?_, by simp⟩
  cases op <;> exact ⟨_, _, rfl, by decide, rfl⟩

variable {rest}

/-- A point before a word is no part of a number. -/
theorem begins_dot {cs : List Char} (hword : IsWord cs) :
    Begins ['.'] (cs ++ rest) (.symbol .dot) := by
  obtain ⟨⟨c, more, rfl, hstart⟩, -, -⟩ := hword
  refine ⟨⟨'.', c :: (more ++ rest), rfl, by decide, ?_⟩, by simp⟩
  have hdigit : c.isDigit = false := by
    refine Bool.eq_false_iff.mpr fun h => ?_
    rw [Text.isWordStart_of_isDigit h] at hstart
    cases hstart
  have hnumber : startsNumber ('.' :: c :: (more ++ rest)) = false := hdigit
  rw [read, if_neg (by decide), if_neg (by decide), hnumber, if_neg (by decide), if_neg (by decide),
    if_neg (by decide)]
  rfl

theorem begins_sign (sign : Sign) {c : Char} (hc : opensText c = true) :
    Begins sign.text.toList (c :: rest) (.symbol sign.symbol) := by
  simp only [opensText, Bool.and_eq_true, bne_iff_ne, ne_eq] at hc
  obtain ⟨⟨-, hequal⟩, hgreater⟩ := hc
  have hequal' : ('=' == c) = false := beq_false_of_ne (Ne.symm hequal)
  have hgreater' : ('>' == c) = false := beq_false_of_ne (Ne.symm hgreater)
  refine ⟨?_, by simp⟩
  cases sign with
  | minus =>
    refine ⟨'-', c :: rest, rfl, by decide, ?_⟩
    have hword : Text.isWordStart '-' = false := by decide
    simp [read, operator?, operators, startsNumber, hword, List.find?, List.isPrefixOf, hequal',
      hgreater']
    exact ⟨rfl, rfl⟩
  | plus =>
    refine ⟨'+', c :: rest, rfl, by decide, ?_⟩
    have hword : Text.isWordStart '+' = false := by decide
    simp [read, operator?, operators, startsNumber, hword, List.find?, List.isPrefixOf, hequal']
    exact ⟨rfl, rfl⟩

end Symbols

end Token.Lexeme

namespace Sketch

open Sketchwright.Expr

/-- A text that is lexed into tokens of these kinds wherever an expression may stand. -/
structure Lexes (text : List Char) (kinds : List TokenKind) : Prop where
  lexed : ∀ {rest restKinds}, Stops rest → Lexed rest restKinds →
    Lexed (text ++ rest) (kinds ++ restKinds)
  start : ∃ c cs, text = c :: cs ∧ opensText c = true
  inner : Inner kinds

theorem Lexes.of_begins {text : List Char} {kind : TokenKind}
    (hbegins : ∀ {rest}, Stops rest → Begins text rest kind)
    (hstart : ∃ c cs, text = c :: cs ∧ opensText c = true)
    (hkind : kind ∉ [.symbol .rightParen, .symbol .star, .symbol .doubleStar, .symbol .equal]) :
    Lexes text [kind] where
  lexed hrest hlexed := .lexeme (hbegins hrest) hlexed
  start := hstart
  inner := by
    simp only [List.mem_cons, List.not_mem_nil, or_false, not_or] at hkind
    refine ⟨⟨kind, [], rfl, by simp [hkind]⟩, ?_⟩
    rw [List.mem_singleton]
    exact Ne.symm hkind.2.2.2

/-- Words start with a letter. -/
theorem opensText_of_isWord {cs : List Char} (h : IsWord cs) :
    ∃ c more, cs = c :: more ∧ opensText c = true := by
  obtain ⟨c, more, rfl, hstart⟩ := h.start
  exact ⟨c, more, rfl, opensText_of_holds hstart (by decide)⟩

theorem lexes_word {id : String} (h : (TokenKind.identifier id).Spelled) :
    Lexes id.toList [.identifier id] := by
  have hword := isWord_of_spelled h
  refine .of_begins (fun hrest => ?_) (opensText_of_isWord hword) (by simp)
  have hbegins := begins_word hword hrest.endsWord
  rwa [String.ofList_toList] at hbegins

theorem lexes_integer {value : Int} (h : (TokenKind.integer value).Spelled) :
    Lexes (toString value).toList [.integer value] := by
  obtain ⟨n, rfl, hn⟩ := le_largest_of_spelled h
  rw [toList_toString]
  refine .of_begins (begins_integer hn) ?_ (by simp)
  obtain ⟨c, cs, heq⟩ := List.exists_cons_of_ne_nil (Nat.toDigits_ne_nil (n := n) (b := 10))
  have hdigit : c.isDigit = true :=
    isDigit_of_toDigits c (heq ▸ List.mem_cons_self)
  exact ⟨c, cs, heq, opensText_of_holds hdigit (by decide)⟩

theorem lexes_float {text : String} (h : (TokenKind.float text).Spelled) :
    Lexes (floatLiteral text).toList [.float (floatLiteral text)] := by
  obtain ⟨front, point, power, htext, hdecimal, hfloat⟩ := isDecimal_of_spelled h
  have heq : floatLiteral text = String.ofList (front ++ (point ++ power)) := by
    rw [← htext]
    rfl
  rw [heq, String.toList_ofList]
  refine .of_begins (fun hrest => begins_float hdecimal hrest hfloat) ?_ (by simp)
  have hstart : startsNumber (front ++ (point ++ (power ++ []))) = true :=
    startsNumber_append hdecimal
  rw [List.append_nil] at hstart
  cases hcs : front ++ (point ++ power) with
  | nil =>
    rw [hcs] at hstart
    cases hstart
  | cons c cs =>
    rw [hcs] at hstart
    exact ⟨c, cs, rfl, opensText_of_holds (p := fun c => c == '.' || c.isDigit) (head_number hstart)
      (by decide)⟩

theorem lexes_string {text : String} (h : (TokenKind.string text).Spelled) :
    Lexes (stringLiteral text).toList [.string (String.ofList (escape text.toList))] := by
  have htext : (stringLiteral text).toList = '"' :: (escape text.toList ++ ['"']) := by
    simp [stringLiteral]
  rw [htext]
  exact .of_begins (begins_string (paired_of_spelled h)) ⟨_, _, rfl, by decide⟩ (by simp)

/-- A plain or dotted name before a call. -/
theorem lexed_path {path : String} {kinds : List TokenKind} (h : Dotted kinds path)
    {rest : List Char} {restKinds : List TokenKind} (hrest : EndsWord rest)
    (hlexed : Lexed rest restKinds) :
    Lexed (path.toList ++ rest) (kinds ++ restKinds) := by
  induction h generalizing rest restKinds with
  | word hid _ =>
    have hbegins := begins_word (isWord_of_spelled hid) hrest
    rw [String.ofList_toList] at hbegins
    exact .lexeme hbegins hlexed
  | @dot kinds path id hpath hid ih =>
    have hword := isWord_of_spelled hid
    have hbegins := begins_word hword hrest
    rw [String.ofList_toList] at hbegins
    have hlast : Lexed ('.' :: (id.toList ++ rest)) (.symbol .dot :: .identifier id :: restKinds) :=
      .lexeme (begins_dot hword) (.lexeme hbegins hlexed)
    have hends : EndsWord ('.' :: (id.toList ++ rest)) := by
      rintro c ⟨⟩
      decide
    have hall := ih hends hlast
    simpa using hall

theorem opensText_of_path {path : String} {kinds : List TokenKind} (h : Dotted kinds path) :
    ∃ c cs, path.toList = c :: cs ∧ opensText c = true := by
  induction h with
  | word hid _ => exact opensText_of_isWord (isWord_of_spelled hid)
  | dot _ _ ih =>
    obtain ⟨c, cs, hcs, hc⟩ := ih
    exact ⟨c, cs ++ '.' :: _, by simp [hcs]; rfl, hc⟩

theorem strength_pos (e : Expr) : 0 < strength e := by
  unfold strength
  split
  · split
    · decide
    · next op _ _ => cases op <;> decide
  · decide
  · decide

/-- How the text of an expression of this strength reads back. -/
def Level (strength : Nat) (kinds : List TokenKind) (e : Expr) : Prop :=
  match strength with
  | 1 => Whole kinds e
  | 2 => Sum kinds e
  | 3 => Product kinds e
  | _ => Factor kinds e

/-- The text is lexed into a phrase of this strength. -/
def ReadsBack (strength : Nat) (text : List Char) (e : Expr) : Prop :=
  ∃ kinds, Lexes text kinds ∧ Level strength kinds e

variable {strength : Nat} {text : List Char} {e : Expr}

theorem ReadsBack.weaken {weaker : Nat} (h : ReadsBack strength text e) (hpos : 0 < weaker)
    (hle : weaker ≤ strength) : ReadsBack weaker text e := by
  obtain ⟨kinds, hlexes, hlevel⟩ := h
  refine ⟨kinds, hlexes, ?_⟩
  match weaker, strength with
  | 1, 1 | 2, 2 | 3, 3 | n + 4, m + 4 => exact hlevel
  | 1, 2 => exact Sum.whole hlevel
  | 1, 3 => exact (Product.sum hlevel).whole
  | 1, n + 4 => exact (Factor.product hlevel).sum.whole
  | 2, 3 => exact Product.sum hlevel
  | 2, n + 4 => exact (Factor.product hlevel).sum
  | 3, n + 4 => exact Factor.product hlevel
  | 0, _ => cases hpos
  | n + 2, 1 | n + 3, 2 | n + 4, 3 | n + 1, 0 => omega

theorem Lexes.paren {kinds : List TokenKind} (h : Lexes text kinds) :
    Lexes ('(' :: (text ++ [')'])) (.symbol .leftParen :: (kinds ++ [.symbol .rightParen])) where
  lexed {rest restKinds} hrest hlexed := by
    have hclose : Lexed (')' :: rest) (.symbol .rightParen :: restKinds) :=
      .lexeme (begins_rightParen rest) hlexed
    have hinside := h.lexed (.cons (by decide)) hclose
    have hall := Lexed.lexeme (begins_leftParen _) hinside
    simpa using hall
  start := ⟨_, _, rfl, by decide⟩
  inner := ⟨⟨_, _, rfl, by simp⟩, by simpa using h.inner.positional⟩

/-- Parentheses make an atom of any expression. -/
theorem ReadsBack.paren (h : ReadsBack strength text e) (hpos : 0 < strength) :
    ReadsBack atomStrength ('(' :: (text ++ [')'])) e := by
  obtain ⟨kinds, hlexes, hlevel⟩ := h.weaken Nat.one_pos hpos
  exact ⟨_, hlexes.paren, Whole.paren hlevel hlexes.inner⟩

/-- An operand that is set apart where needed. -/
theorem ReadsBack.parenthesized {needed : Bool} {weaker : Nat} {text : String}
    (h : ReadsBack strength text.toList e) (hpos : 0 < strength) (hweaker : 0 < weaker)
    (hle : weaker ≤ atomStrength) (hneeded : needed = false → weaker ≤ strength) :
    ReadsBack weaker (parenthesized needed text).toList e := by
  cases needed with
  | true =>
    have htext : (Sketch.parenthesized true text).toList = '(' :: (text.toList ++ [')']) := by
      simp [Sketch.parenthesized]
    rw [htext]
    exact (h.paren hpos).weaken hweaker hle
  | false => exact h.weaken hweaker (hneeded rfl)

theorem ReadsBack.sign {sign : Sign} (h : ReadsBack signStrength text e) :
    ReadsBack signStrength (sign.text.toList ++ text) (.unary sign e) := by
  obtain ⟨kinds, hlexes, hlevel⟩ := h
  obtain ⟨c, cs, rfl, hc⟩ := hlexes.start
  refine ⟨.symbol sign.symbol :: kinds, ⟨fun hrest hlexed => ?_, ?_, ?_⟩, Factor.sign sign hlevel⟩
  · have hall := Lexed.lexeme (begins_sign sign hc) (hlexes.lexed hrest hlexed)
    simpa using hall
  · cases sign <;> exact ⟨_, _, rfl, by decide⟩
  · refine ⟨⟨_, _, rfl, by cases sign <;> decide⟩, ?_⟩
    cases sign <;> simpa [Sign.symbol] using hlexes.inner.positional

/-- Operators without parentheses group as their strengths say. -/
theorem ReadsBack.operator {op : BinOp} {left right : List Char} {first second : Expr}
    (hop : op ≠ .pow) (hleft : ReadsBack (max 2 op.strength) left first)
    (hright : ReadsBack (op.strength + 1) right second) :
    ReadsBack op.strength (left ++ ' ' :: ((symbol op).toList ++ ' ' :: right))
      (.binary first (if op = .floorDiv then .div else op) second) := by
  obtain ⟨leftKinds, hleft, hfirst⟩ := hleft
  obtain ⟨rightKinds, hright, hsecond⟩ := hright
  refine ⟨leftKinds ++ .symbol (operatorSymbol op) :: rightKinds,
    ⟨fun hrest hlexed => ?_, ?_, ?_⟩, ?_⟩
  · have htail := Lexed.lexeme (begins_operator _ op) (.blank (hright.lexed hrest hlexed))
    have hall := hleft.lexed (.cons (by decide)) (.blank htail)
    simpa using hall
  · obtain ⟨c, cs, rfl, hc⟩ := hleft.start
    exact ⟨c, _, rfl, hc⟩
  · obtain ⟨⟨kind, more, rfl, hkind⟩, hpositional⟩ := hleft.inner
    refine ⟨⟨kind, _, rfl, hkind⟩, ?_⟩
    have hsymbol : operatorSymbol op ≠ .equal := by cases op <;> decide
    simp only [List.mem_append, List.mem_cons, not_or] at hpositional ⊢
    exact ⟨hpositional, by simpa using hsymbol.symm, hright.inner.positional⟩
  · cases op with
    | pow => exact absurd rfl hop
    | mul | div | floorDiv | mod => exact Product.binary hfirst rfl hsecond
    | add | sub => exact Sum.binary hfirst rfl hsecond
    | eq | ne | lt | le | gt | ge => exact Sum.comparison hfirst rfl hsecond

/-- The texts of the arguments of a call, with commas between them. -/
def ArgumentsReadBack (texts : List String) (args : List Expr) : Prop :=
  ∃ kinds, (∀ {rest restKinds}, Lexed rest restKinds → Lexed
      ((", ".intercalate texts).toList ++ ')' :: rest)
      (kinds ++ .symbol .rightParen :: restKinds)) ∧
    .symbol .equal ∉ kinds ∧ Arguments kinds args

theorem ArgumentsReadBack.nil : ArgumentsReadBack [] [] := by
  refine ⟨[], fun hlexed => ?_, by simp, .nil⟩
  have hall := Lexed.lexeme (begins_rightParen _) hlexed
  simpa using hall

theorem ArgumentsReadBack.cons {text : String} {texts : List String} {args : List Expr}
    (h : ReadsBack 1 text.toList e) (hargs : ArgumentsReadBack texts args)
    (hlength : texts.length = args.length) : ArgumentsReadBack (text :: texts) (e :: args) := by
  obtain ⟨kinds, hlexes, hwhole⟩ := h
  obtain ⟨more, hmore, hpositional, harguments⟩ := hargs
  cases texts with
  | nil =>
    obtain rfl := List.length_eq_zero_iff.mp hlength.symm
    refine ⟨kinds, fun {rest _} hlexed => ?_, hlexes.inner.positional,
      Whole.argument hwhole hlexes.inner⟩
    rw [String.intercalate_singleton]
    exact hlexes.lexed (.cons (by decide)) (.lexeme (begins_rightParen rest) hlexed)
  | cons text' texts =>
    refine ⟨kinds ++ .symbol .comma :: more, fun {rest _} hlexed => ?_, ?_,
      Whole.arguments hwhole hlexes.inner harguments⟩
    · have hafter := Lexed.lexeme (begins_comma _) (.blank (hmore hlexed))
      have hall := hlexes.lexed (.cons (by decide)) hafter
      rw [String.intercalate_cons_cons]
      simpa using hall
    · simpa using ⟨hlexes.inner.positional, hpositional⟩

theorem ReadsBack.call {callee : String} {texts : List String} {args : List Expr}
    (hpath : Path callee) (hargs : ArgumentsReadBack texts args) :
    ReadsBack atomStrength (callText callee texts).toList (.call callee args) := by
  obtain ⟨pathKinds, hpath⟩ := hpath.dotted
  obtain ⟨kinds, hlexed, hpositional, hargs⟩ := hargs
  have htext : (callText callee texts).toList =
      callee.toList ++ '(' :: ((", ".intercalate texts).toList ++ [')']) := by simp [callText]
  have hfactor := Factor.call hpath hargs
  rw [htext]
  refine ⟨_, ⟨fun {rest restKinds} hrest hrestLexed => ?_, ?_, ?_⟩, hfactor⟩
  · have hends : EndsWord ('(' :: ((", ".intercalate texts).toList ++ ')' :: rest)) := by
      rintro c ⟨⟩
      decide
    have hall := lexed_path hpath hends (.lexeme (begins_leftParen _) (hlexed hrestLexed))
    simpa using hall
  · obtain ⟨c, cs, hcs, hc⟩ := opensText_of_path hpath
    exact ⟨c, _, by rw [hcs]; rfl, hc⟩
  · have hwords := hpath.positional
    obtain ⟨word, more, rfl, -⟩ := hpath.reads
    refine ⟨⟨_, _, rfl, by simp⟩, ?_⟩
    rw [List.mem_append, not_or]
    exact ⟨hwords, by simpa using hpositional⟩

theorem isPlain_of_spelled {id : String} (h : (TokenKind.identifier id).Spelled) :
    id.toList.contains '.' = false := by
  refine Bool.eq_false_iff.mpr fun hdot => ?_
  have hword := (isWord_of_spelled h).chars '.' (by simpa using hdot)
  revert hword
  decide

theorem readsBack_name {id : String} (h : (TokenKind.identifier id).Spelled)
    (hsupported : id ∉ unsupportedWords) : ReadsBack atomStrength id.toList (.name id) := by
  have hfactor := Factor.name (isPlain_of_spelled h) hsupported
  exact ⟨_, lexes_word h, hfactor⟩

theorem readsBack_literal {value : Literal} (h : (Expr.literal value).Spelled) :
    ReadsBack atomStrength (literal value).toList (writtenLiteral value) := by
  cases h with
  | @int value h =>
    have hfactor : Factor [.integer value] (.literal (.int value)) := .literal rfl
    exact ⟨_, lexes_integer h, hfactor⟩
  | @float text h =>
    have hfactor : Factor [.float (floatLiteral text)] (.literal (.float (floatLiteral text))) :=
      .literal rfl
    exact ⟨_, lexes_float h, hfactor⟩
  | @str text h =>
    have hfactor : Factor [.string (String.ofList (escape text.toList))]
        (.literal (.str (String.ofList (escape text.toList)))) := .literal rfl
    exact ⟨_, lexes_string h, hfactor⟩
  | @bool value =>
    cases value with
    | true => exact readsBack_name ⟨'t', ['r', 'u', 'e'], rfl⟩ (by decide)
    | false => exact readsBack_name ⟨'f', ['a', 'l', 's', 'e'], rfl⟩ (by decide)

theorem ReadsBack.index {base : String} {position : Expr}
    (hid : (TokenKind.identifier base).Spelled) (hsupported : base ∉ unsupportedWords)
    (hposition : ReadsBack 1 text position) :
    ReadsBack atomStrength (base.toList ++ '[' :: (text ++ [']'])) (.index base position) := by
  obtain ⟨kinds, hlexes, hwhole⟩ := hposition
  have hfactor := Factor.index (isPlain_of_spelled hid) hsupported hwhole
  have hword := isWord_of_spelled hid
  refine ⟨_, ⟨fun {rest restKinds} hrest hlexed => ?_, ?_, ?_⟩, hfactor⟩
  · have hinside := hlexes.lexed (.cons (by decide)) (.lexeme (begins_rightBracket rest) hlexed)
    have hends : EndsWord ('[' :: (text ++ ']' :: rest)) := by
      rintro c ⟨⟩
      decide
    have hbegins := begins_word hword hends
    rw [String.ofList_toList] at hbegins
    have hall := Lexed.lexeme hbegins (.lexeme (begins_leftBracket _) hinside)
    simpa using hall
  · obtain ⟨c, cs, hcs, hc⟩ := opensText_of_isWord hword
    exact ⟨c, _, by rw [hcs]; rfl, hc⟩
  · exact ⟨⟨_, _, rfl, by simp⟩, by simpa using hlexes.inner.positional⟩

/-- The quotient of the sizes of a list and of its first item, in parentheses. -/
theorem readsBack_lengthText {base : String} (hid : (TokenKind.identifier base).Spelled)
    (hsupported : base ∉ unsupportedWords) :
    ReadsBack atomStrength (lengthText base).toList (lengthOf [.name base]) := by
  have hpath : Path "sizeof" := .word ⟨'s', ['i', 'z', 'e', 'o', 'f'], rfl⟩ (by decide)
  have hzero : ReadsBack atomStrength (literal (.int 0)).toList (.literal (.int 0)) :=
    readsBack_literal (.int ⟨'0', [], rfl⟩)
  have hitem : ReadsBack 1 (base ++ "[0]").toList (.index base (.literal (.int 0))) := by
    have hindex := ReadsBack.index hid hsupported (hzero.weaken Nat.one_pos (by decide))
    have htext : (base ++ "[0]").toList =
        base.toList ++ '[' :: ((literal (.int 0)).toList ++ [']']) := by
      rw [String.toList_append]
      rfl
    rw [htext]
    exact hindex.weaken Nat.one_pos (by decide)
  have hname : ReadsBack 1 base.toList (.name base) :=
    (readsBack_name hid hsupported).weaken Nat.one_pos (by decide)
  have hwhole := ReadsBack.call hpath (.cons hname .nil rfl)
  have hpart := ReadsBack.call hpath (.cons hitem .nil rfl)
  have hquotient := ReadsBack.operator (show BinOp.div ≠ .pow by decide)
    (hwhole.weaken (by decide) (by decide)) (hpart.weaken (by decide) (by decide))
  have hparen := hquotient.paren (by decide)
  have htext : (lengthText base).toList = '(' :: ((callText "sizeof" [base]).toList ++
      ' ' :: ((symbol .div).toList ++ ' ' ::
        (callText "sizeof" [base ++ "[0]"]).toList) ++ [')']) := by
    simp [lengthText, callText, symbol, BinOp.text]
  rw [htext]
  exact hparen

/-- What the built-in calls are written as. -/
theorem builtinCalls_written : ∀ rule ∈ CallTable.builtinCalls, match rule.form with
    | .same => rule.name ∉ ["len", "int", "float", "bool", "str"]
    | .listLength => rule.name = "len"
    | .cast => (rule.name, rule.returns) ∈ [("int", .fixed .int), ("float", .fixed .float),
        ("bool", .fixed .bool), ("str", .fixed .str)]
    | .rename _ => False
    | .print | .loopRange => True := by
  simp [CallTable.builtinCalls]

theorem lookup_conversions {floatType : FloatType} {callee : String}
    (h : callee ∉ ["len", "int", "float", "bool", "str"]) :
    (conversions floatType).lookup callee = none := by
  simp only [List.mem_cons, List.not_mem_nil, or_false, not_or] at h
  obtain ⟨-, hint, hfloat, hbool, hstr⟩ := h
  simp [conversions, List.lookup_cons, beq_false_of_ne hint, beq_false_of_ne hfloat,
    beq_false_of_ne hbool, beq_false_of_ne hstr]

theorem not_builtin_of_call?_eq_none {callee : String} (h : CallTable.builtin.call? callee = none) :
    callee ∉ ["len", "int", "float", "bool", "str"] := by
  have hall : ∀ name ∈ ["len", "int", "float", "bool", "str"],
      (CallTable.builtin.call? name).isSome = true := by decide
  intro hmem
  have := hall callee hmem
  rw [h] at this
  cases this

variable {style : Style} {line : Nat}

theorem path_conversion {kind : Kind} {name : String} {callee : String}
    (hcallee : (callee, Returns.fixed kind) ∈ [("int", .fixed .int), ("float", .fixed .float),
        ("bool", .fixed .bool), ("str", .fixed .str)])
    (hname : typeName style kind line = .ok name) :
    callee ≠ "len" ∧ (conversions style.floatType).lookup callee = some name ∧ Path name := by
  simp only [List.mem_cons, Prod.mk.injEq, Returns.fixed.injEq, List.not_mem_nil,
    or_false] at hcallee
  rcases hcallee with ⟨rfl, rfl⟩ | ⟨rfl, rfl⟩ | ⟨rfl, rfl⟩ | ⟨rfl, rfl⟩
  · cases hname
    exact ⟨by decide, rfl, .word ⟨'i', ['n', 't'], rfl⟩ (by decide)⟩
  · cases hname
    refine ⟨by decide, rfl, ?_⟩
    cases style.floatType with
    | float => exact .word ⟨'f', ['l', 'o', 'a', 't'], rfl⟩ (by decide)
    | double => exact .word ⟨'d', ['o', 'u', 'b', 'l', 'e'], rfl⟩ (by decide)
  · cases hname
    exact ⟨by decide, rfl, .word ⟨'b', ['o', 'o', 'l'], rfl⟩ (by decide)⟩
  · cases hname
    exact ⟨by decide, rfl, .word ⟨'S', ['t', 'r', 'i', 'n', 'g'], rfl⟩ (by decide)⟩

/-- A call reads back if its arguments do. -/
theorem call_readsBack (htable : style.table = .builtin) {callee : String} {args : List Expr}
    (hcallee : Path callee) (hspelled : ∀ arg ∈ args, arg.Spelled) {texts : Writing (List String)}
    (hargs : ∀ {all}, texts = .ok all → ArgumentsReadBack all (writtenAll style.floatType args))
    {text : String} (h : call style line callee args texts = .ok text) :
    ReadsBack atomStrength text.toList (written style.floatType (.call callee args)) := by
  have hplain : callee ∉ ["len", "int", "float", "bool", "str"] → ∀ {all}, texts = .ok all →
      ReadsBack atomStrength (callText callee all).toList
        (written style.floatType (.call callee args)) := by
    intro hnot all hall
    have hlength : callee ≠ "len" := fun h => hnot (by simp [h])
    rw [written, if_neg hlength, lookup_conversions hnot]
    exact ReadsBack.call hcallee (hargs hall)
  unfold call at h
  rw [htable] at h
  split at h
  · next hnone =>
    obtain ⟨all, hall, htext⟩ := Outcome.bind_eq_ok.mp h
    cases htext
    exact hplain (not_builtin_of_call?_eq_none hnone) hall
  · next rule hrule =>
    have hname : rule.name = callee := by simpa using List.find?_some hrule
    have hform := builtinCalls_written rule (List.mem_of_find?_eq_some hrule)
    subst hname
    split at h
    · next hsame =>
      rw [hsame] at hform
      obtain ⟨all, hall, htext⟩ := Outcome.bind_eq_ok.mp h
      cases htext
      exact hplain hform hall
    · next hrename =>
      rw [hrename] at hform
      exact hform.elim
    · next hlength =>
      rw [hlength] at hform
      split at h
      · next base =>
        cases h
        cases hspelled _ List.mem_cons_self with
        | name hid hsupported =>
          have hlen : written style.floatType (.call rule.name [.name base]) =
              lengthOf [.name base] := by
            rw [written, if_pos hform]
          rw [hlen]
          exact readsBack_lengthText hid hsupported
      · cases h
    · next hcast =>
      rw [hcast] at hform
      split at h
      · next kind hreturns =>
        simp only [hreturns] at hform
        obtain ⟨name, hname, h⟩ := Outcome.bind_eq_ok.mp h
        obtain ⟨all, hall, htext⟩ := Outcome.bind_eq_ok.mp h
        cases htext
        obtain ⟨hlength, hlookup, hpath⟩ := path_conversion hform hname
        rw [written, if_neg hlength, hlookup]
        exact ReadsBack.call hpath (hargs hall)
      · cases h
    · cases h
    · cases h

theorem length_writtenAll (floatType : FloatType) (es : List Expr) :
    (writtenAll floatType es).length = es.length := by
  induction es with
  | nil => rfl
  | cons e es ih => simp [writtenAll, ih]

theorem expressions_readBack {args : List Expr}
    (ih : ∀ arg ∈ args, arg.Spelled → ∀ {text}, expression style line arg = .ok text →
      ReadsBack (Sketch.strength arg) text.toList (written style.floatType arg))
    (hspelled : ∀ arg ∈ args, arg.Spelled) {texts : List String}
    (h : expressions style line args = .ok texts) :
    ArgumentsReadBack texts (writtenAll style.floatType args) ∧ texts.length = args.length := by
  induction args generalizing texts with
  | nil =>
    cases h
    exact ⟨.nil, rfl⟩
  | cons arg args ihArgs =>
    obtain ⟨text, htext, h⟩ := Outcome.bind_eq_ok.mp h
    obtain ⟨more, hmore, h⟩ := Outcome.bind_eq_ok.mp h
    cases h
    simp only [List.forall_mem_cons] at ih hspelled
    obtain ⟨hrest, hlength⟩ := ihArgs ih.2 hspelled.2 hmore
    have harg := (ih.1 hspelled.1 htext).weaken Nat.one_pos (strength_pos arg)
    refine ⟨.cons harg hrest ?_, by simp [hlength]⟩
    rw [hlength, length_writtenAll]

theorem written_binary {floatType : FloatType} {left right : Expr} {op : BinOp} (hop : op ≠ .pow) :
    written floatType (.binary left op right) =
      .binary (if wrapsLeft left op then .call "String" [written floatType left]
        else written floatType left) (if op = .floorDiv then .div
          else op) (written floatType right) := by
  cases op with
  | pow => exact absurd rfl hop
  | floorDiv => simp [written, wrapsLeft, BinOp.isComparison]
  | _ => rfl

theorem ReadsBack.leftText {left first : Expr} {op : BinOp} {text : String} (hop : op ≠ .pow)
    (h : ReadsBack (Sketch.strength left) text.toList first) :
    ReadsBack (max 2 op.strength) (leftText left op text).toList
      (if wrapsLeft left op then .call "String" [first] else first) := by
  have hbounds : 1 ≤ op.strength ∧ op.strength ≤ 3 := by
    cases op <;> first | decide | exact absurd rfl hop
  unfold Sketch.leftText
  split
  · have hpath : Path "String" := .word ⟨'S', ['t', 'r', 'i', 'n', 'g'], rfl⟩ (by decide)
    have hcall := ReadsBack.call hpath (.cons (h.weaken Nat.one_pos (strength_pos left)) .nil rfl)
    exact hcall.weaken (by omega) (by simp only [atomStrength]; omega)
  · refine h.parenthesized (strength_pos left) (by omega) (by simp only [atomStrength]; omega) ?_
    intro hneeded
    have hpos := strength_pos left
    simp only [needsParens, Bool.or_eq_false_iff, decide_eq_false_iff_not, Bool.and_eq_false_iff,
      beq_eq_false_iff_ne, Bool.false_or] at hneeded
    omega

theorem ReadsBack.rightText {right second : Expr} {op : BinOp} {text : String} (hop : op ≠ .pow)
    (h : ReadsBack (Sketch.strength right) text.toList second) :
    ReadsBack (op.strength + 1)
      (Sketch.parenthesized (needsParens right op true) text).toList second := by
  have hbounds : 1 ≤ op.strength ∧ op.strength ≤ 3 := by
    cases op <;> first | decide | exact absurd rfl hop
  refine h.parenthesized (strength_pos right) (by omega) (by simp only [atomStrength]; omega) ?_
  intro hneeded
  simp [needsParens] at hneeded
  omega

/-- The text of an expression reads back at the strength that the expression is written with. -/
theorem expression_readsBack (htable : style.table = .builtin) {e : Expr} (hspelled : e.Spelled)
    {text : String} (h : expression style line e = .ok text) :
    ReadsBack (Sketch.strength e) text.toList (written style.floatType e) := by
  induction e generalizing text with
  | literal value =>
    cases h
    exact readsBack_literal hspelled
  | name id =>
    cases h
    cases hspelled with
    | name hid hsupported => exact readsBack_name hid hsupported
  | unary sign operand ih =>
    obtain ⟨inner, hinner, h⟩ := Outcome.bind_eq_ok.mp h
    cases h
    cases hspelled with
    | unary hoperand =>
      have hread : ReadsBack signStrength
          (Sketch.parenthesized (Sketch.strength operand ≤ signStrength) inner).toList
          (written style.floatType operand) :=
        (ih hoperand hinner).parenthesized (strength_pos operand) (by decide) (by decide)
          (by simp; omega)
      rw [String.toList_append]
      exact hread.sign
  | binary left op right ihl ihr =>
    obtain ⟨first, hfirst, h⟩ := Outcome.bind_eq_ok.mp h
    obtain ⟨second, hsecond, h⟩ := Outcome.bind_eq_ok.mp h
    cases hspelled with
    | binary hleft hright =>
      have hfirst' := ihl hleft hfirst
      have hsecond' := ihr hright hsecond
      by_cases hop : op = .pow
      · subst hop
        cases h
        have hpath : Path "pow" := .word ⟨'p', ['o', 'w'], rfl⟩ (by decide)
        exact ReadsBack.call hpath (.cons (hfirst'.weaken Nat.one_pos (strength_pos left))
          (.cons (hsecond'.weaken Nat.one_pos (strength_pos right)) .nil rfl) rfl)
      · rw [if_neg hop] at h
        cases h
        have hoperator := ReadsBack.operator hop (hfirst'.leftText hop) (hsecond'.rightText hop)
        have hstrength : Sketch.strength (.binary left op right) = op.strength := if_neg hop
        rw [written_binary hop, hstrength]
        simpa using hoperator
  | call callee args ih =>
    cases hspelled with
    | call hcallee hargs =>
      exact call_readsBack htable hcallee hargs
        (fun hall =>
          (expressions_readBack (fun arg harg hspelled _ => ih arg harg hspelled) hargs hall).1) h
  | index base position ih =>
    obtain ⟨inner, hinner, h⟩ := Outcome.bind_eq_ok.mp h
    cases h
    cases hspelled with
    | index hid hsupported hposition =>
      have hindex := ReadsBack.index hid hsupported
        ((ih hposition hinner).weaken Nat.one_pos (strength_pos position))
      have htext : (base ++ "[" ++ inner ++ "]").toList =
          base.toList ++ '[' :: (inner.toList ++ [']']) := by
        simp
      rw [htext]
      exact hindex
  | list items ih => cases h

end Sketch

namespace Expr

/-- Expressions that the readers make of a text: those that they read where the tokens of the text
go on, and those of its program. -/
inductive OfText (source : String) : Expr → Prop
  | read {tokens ts : List Token} {finalLine : Nat} {r : Parsed Expr ts.length}
      (htokens : tokenize source = .ok tokens) (hts : ts <:+ tokens.takeWhile (!Program.isEnd ·))
      (hread : parse finalLine ts = .ok r) : OfText source r.value
  | program {p : Program} {e : Expr} (hprogram : Program.ofSource source = .ok p)
    (he : e ∈ p.exprs) :
      OfText source e

theorem OfText.spelled {source : String} {e : Expr} (h : OfText source e) : e.Spelled := by
  cases h with
  | read htokens hts hread =>
    have hspelled := (tokenize_steady htokens).1
    have hall : AllSpelled _ := fun t ht =>
      hspelled t ((List.takeWhile_prefix _).subset (hts.subset ht))
    exact (parse_yields hall _ hread).2
  | program hprogram he => exact (Program.ofSource_yields hprogram).2.1 _ he

end Expr

/-- The text of an expression is lexed and read back to its end, and what is read is the expression
again, rewritten node by node. -/
theorem expression_rereads {source : String} {e : Expr} (he : e.OfText source)
    {style : Sketch.Style} (htable : style.table = .builtin) {line : Nat} {text : String}
    (h : Sketch.expression style line e = .ok text) :
    ∃ tokens, tokenize text = .ok tokens ∧
      ∃ r, Expr.parse (Reading.lineOf 1 (tokens.dropWhile (!Program.isEnd ·)))
          (tokens.takeWhile (!Program.isEnd ·)) = .ok r ∧
        r.value = e.written style.floatType ∧ r.rest.map Token.kind = [.newline] := by
  obtain ⟨kinds, hlexes, hwhole⟩ :=
    (Sketch.expression_readsBack htable he.spelled h).weaken Nat.one_pos (Sketch.strength_pos e)
  obtain ⟨c, cs, htext, hc⟩ := hlexes.start
  have hlexed := hlexes.lexed .nil .nil
  rw [List.append_nil, List.append_nil, htext] at hlexed
  have hcode : isCode c = true := by
    simp only [opensText, Bool.and_eq_true] at hc
    exact hc.1.1
  obtain ⟨tokens, htokens, hkinds⟩ := tokenize_of_lexed htext hcode hlexed
  refine ⟨tokens, htokens, ?_⟩
  obtain ⟨front, last, rfl, hfront, hlast⟩ :=
    List.map_eq_append_iff.mp (hkinds.trans (List.append_cons kinds .newline [.eof]))
  obtain ⟨eof, after, rfl, heof, hnil⟩ := List.map_eq_cons_iff.mp hlast
  obtain rfl := List.map_eq_nil_iff.mp hnil
  have hbefore : (front ++ [eof]).takeWhile (!Program.isEnd ·) = front := by
    rw [List.takeWhile_append_of_pos]
    · simp [Program.isEnd, heof]
    · intro t ht
      have hkind : t.kind ∈ kinds ++ [.newline] := hfront ▸ List.mem_map_of_mem ht
      have hcode : t.kind ≠ .eof := by
        rintro heq
        rw [heq] at hkind
        simp [hlexed.eof_not_mem] at hkind
      simp [Program.isEnd, hcode]
  rw [hbefore]
  obtain ⟨rest, hstarts, hrest⟩ : ∃ rest, Reading.Starts front kinds rest ∧
      rest.map Token.kind = [.newline] := by
    obtain ⟨as, bs, rfl, has, hbs⟩ := List.map_eq_append_iff.mp hfront
    exact ⟨bs, ⟨as, rfl, has⟩, hbs⟩
  obtain ⟨newline, after, rfl, hnewline, hnil⟩ := List.map_eq_cons_iff.mp hrest
  obtain rfl := List.map_eq_nil_iff.mp hnil
  have hclose : Expr.closes 1 (Reading.kindOf [newline]) = true := by
    rw [Reading.kindOf, hnewline]
    rfl
  obtain ⟨hfits, hread⟩ := hwhole _ hstarts hclose
  exact ⟨_, hread, rfl, hrest⟩

/-- A quotient whose operands are a sign before parentheses and the length of a list. -/
def quotientText : String := "-(a - -b) // len(xs)"

def quotientTokens : List Token := [
  ⟨.symbol .minus, ⟨0, 1, 1, 0⟩⟩, ⟨.symbol .leftParen, ⟨1, 2, 1, 1⟩⟩,
  ⟨.identifier "a", ⟨2, 3, 1, 2⟩⟩, ⟨.symbol .minus, ⟨4, 5, 1, 4⟩⟩, ⟨.symbol .minus, ⟨6, 7, 1, 6⟩⟩,
  ⟨.identifier "b", ⟨7, 8, 1, 7⟩⟩, ⟨.symbol .rightParen, ⟨8, 9, 1, 8⟩⟩,
  ⟨.symbol .doubleSlash, ⟨10, 12, 1, 10⟩⟩, ⟨.identifier "len", ⟨13, 16, 1, 13⟩⟩,
  ⟨.symbol .leftParen, ⟨16, 17, 1, 16⟩⟩, ⟨.identifier "xs", ⟨17, 19, 1, 17⟩⟩,
  ⟨.symbol .rightParen, ⟨19, 20, 1, 19⟩⟩, ⟨.newline, ⟨20, 20, 1, 20⟩⟩, ⟨.eof, ⟨20, 20, 1, 20⟩⟩]

def quotient : Expr :=
  .binary (.unary .minus (.binary (.name "a") .sub (.unary .minus (.name "b")))) .floorDiv
    (.call "len" [.name "xs"])

open Sketchwright.Expr in
theorem ofText_quotient : quotient.OfText quotientText := by
  have htokens : tokenize quotientText = .ok quotientTokens := by decide +kernel
  have hname : ∀ id ∈ ["a", "b", "xs"], Factor [.identifier id] (.name id) := by
    intro id hid
    have hplain : ∀ id ∈ ["a", "b", "xs"], id.toList.contains '.' = false := by decide
    have hsupported : ∀ id ∈ ["a", "b", "xs"], id ∉ unsupportedWords := by decide
    exact .name (hplain id hid) (hsupported id hid)
  have hminus : sumOp? (.symbol .minus) = some .sub := rfl
  have hslash : productOp? (.symbol .doubleSlash) = some .floorDiv := rfl
  have hnegative : Factor [.symbol .minus, .identifier "b"] (.unary .minus (.name "b")) :=
    .sign .minus (hname "b" (by simp))
  have hsum := (hname "a" (by simp)).product.sum.binary hminus hnegative.product
  have hsign := Factor.sign .minus (hsum.whole.paren ⟨⟨_, _, rfl, by simp⟩, by decide⟩)
  have hlength := Factor.call (.word ⟨'l', ['e', 'n'], rfl⟩ (by decide))
    ((hname "xs" (by simp)).product.sum.whole.argument ⟨⟨_, _, rfl, by simp⟩, by simp⟩)
  have hstarts : Reading.Starts (quotientTokens.takeWhile (!Program.isEnd ·)) _
      [⟨.newline, ⟨20, 20, 1, 20⟩⟩] := ⟨quotientTokens.take 12, rfl, rfl⟩
  obtain ⟨hfits, hread⟩ := (hsign.product.binary hslash hlength).sum.whole 1 hstarts rfl
  exact .read htokens List.suffix_rfl hread

theorem expression_rereads_quotient : Sketch.expression ⟨.builtin, .float⟩ 1 quotient =
      .ok "-(a - -b) / (sizeof(xs) / sizeof(xs[0]))" ∧
    ∃ tokens, tokenize "-(a - -b) / (sizeof(xs) / sizeof(xs[0]))" = .ok tokens ∧
      ∃ r, Expr.parse (Reading.lineOf 1 (tokens.dropWhile (!Program.isEnd ·)))
          (tokens.takeWhile (!Program.isEnd ·)) = .ok r ∧
        r.value = quotient.written .float ∧ r.rest.map Token.kind = [.newline] := by
  have htext : Sketch.expression ⟨.builtin, .float⟩ 1 quotient =
      .ok "-(a - -b) / (sizeof(xs) / sizeof(xs[0]))" := by decide +kernel
  exact ⟨htext, expression_rereads ofText_quotient rfl htext⟩

end Sketchwright
