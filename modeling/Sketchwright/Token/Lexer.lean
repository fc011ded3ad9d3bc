import Sketchwright.Token.Lexeme

/-! The lexer: lexemes, and the layout tokens that lines and indentation stand for. Comments and
blank lines before a line of code come after the tokens of its indentation. Every call but those
at the end of the text lowers `Lexer.work`, so reading a text always ends. -/

namespace Sketchwright.Token

open Text

structure LexError where
  flaw : Flaw
  line : Nat
  column : Nat
  deriving DecidableEq, Repr

/-- What is left to read, and how the lines read so far are laid out. -/
structure Lexer where
  rest : List Char
  position : Position
  /-- Widths of the open blocks, innermost first; the module itself has width zero. -/
  widths : List Nat
  /-- Tokens that are due before any further character is read. -/
  pending : List Token
  atLineStart : Bool
  finished : Bool
  /-- Brackets open at this point. -/
  nesting : Nat
  /-- Lines indented with both tabs and spaces. -/
  mixed : List Nat
  deriving Repr

/-- Blanks between tokens. -/
def isSpace (c : Char) : Bool := c == ' ' || c == '\t' || c == '\r' || c == '\x0c'

/-- Blanks that count for the width of indentation. -/
def isWide (c : Char) : Bool := c == ' ' || c == '\t'

def indentation (cs : List Char) : List Char := cs.takeWhile isSpace

def widthOf (cs : List Char) : Nat := cs.countP isWide

def isMixed (cs : List Char) : Bool := cs.contains ' ' && cs.contains '\t'

/-- The skipped characters before a token. A backslash joins two lines. Inside brackets line ends
and comments are skipped too; `comment` says that the skipped text stands in one. -/
def gap (inBrackets : Bool) : Bool → List Char → List Char
  | true, c :: cs => c :: gap inBrackets (c != '\n') cs
  | false, '\\' :: '\n' :: cs => '\\' :: '\n' :: gap inBrackets false cs
  | false, c :: cs =>
    if isSpace c || (inBrackets && c == '\n') then c :: gap inBrackets false cs
    else if inBrackets && c == '#' then c :: gap inBrackets true cs
    else []
  | _, [] => []

/-- The comment and blank lines before a line of code, and where that line starts. -/
structure Lead where
  trivia : List Token
  position : Position
  rest : List Char

def Lead.push (lead : Lead) (t : Token) : Lead := { lead with trivia := t :: lead.trivia }

/-- What stands at the start of a line before the next line of code. -/
def leadOf (p : Position) (cs : List Char) : Lead :=
  match _h : cs.drop (indentation cs).length with
  | [] => ⟨[], p, cs⟩
  | c :: after =>
    let q := p.advance (indentation cs)
    if c == '\n' then (leadOf (q.next c) after).push ⟨.blankLine, p.mark⟩
    else if c == '#' then
      let text := c :: Lexeme.restOfLine after
      let stop := q.advance text
      let lineEnd := (after.drop (Lexeme.restOfLine after).length).take 1
      let lead := leadOf (stop.advance lineEnd) (after.drop ((Lexeme.restOfLine after).length + 1))
      lead.push ⟨Lexeme.comment text, q.until stop⟩
    else ⟨[], p, cs⟩
termination_by cs.length
decreasing_by
  all_goals
    have hlen := congrArg List.length _h
    simp only [List.length_drop, List.length_cons] at hlen ⊢
    omega

/-- Closes the blocks wider than `width`, and opens one when none of the rest is that wide: the open
blocks, and the layout tokens. -/
def layout (width : Nat) (widths : List Nat) : List Nat × List TokenKind :=
  let kept := widths.dropWhile (width < ·)
  let closed := (widths.takeWhile (width < ·)).map fun _ => TokenKind.dedent
  if kept.headD 0 < width then (width :: kept, closed ++ [.indent]) else (kept, closed)

namespace Lexer

def start (source : List Char) : Lexer :=
  ⟨source, .start, [], [], true, false, 0, []⟩

def consume (lx : Lexer) (text : List Char) : Lexer :=
  { lx with rest := lx.rest.drop text.length, position := lx.position.advance text }

/-- Ends the text: `first` is due, then the end of every open block, then `last`. -/
def finish (lx : Lexer) (first last : List Token) : Lexer :=
  let dedents := lx.widths.map fun _ => (⟨.dedent, lx.position.mark⟩ : Token)
  { lx with widths := [], pending := first ++ dedents ++ last, finished := true }

/-- Reads up to the code of the next line that has any. -/
def openLine (lx : Lexer) : Lexer :=
  let lead := leadOf lx.position lx.rest
  let blanks := indentation lead.rest
  let lx := { lx with rest := lead.rest, position := lead.position, atLineStart := false }
  let lx := lx.consume blanks
  match lx.rest with
  | [] => lx.finish [] lead.trivia
  | _ :: _ =>
    let laid := layout (widthOf blanks) lx.widths
    let tokens := laid.2.map fun kind => (⟨kind, lx.position.mark⟩ : Token)
    { lx with
      widths := laid.1
      pending := tokens ++ lead.trivia
      mixed := if isMixed blanks then lx.mixed ++ [lx.position.line] else lx.mixed }

/-- Brackets open after a token. -/
def nestingAfter (nesting : Nat) : TokenKind → Nat
  | .symbol s => if s.opens then nesting + 1 else if s.closes then nesting - 1 else nesting
  | _ => nesting

/-- Reads on in a line. A text that ends in a line ends that line first. -/
def scan (lx : Lexer) : Except LexError Token × Lexer :=
  let lx := lx.consume (gap (0 < lx.nesting) false lx.rest)
  match lx.rest with
  | [] => (.ok ⟨.newline, lx.position.mark⟩, lx.finish [] [])
  | c :: cs =>
    let lexeme := Lexeme.read c cs
    let after := lx.consume lexeme.text
    match lexeme.kind with
    | .ok kind =>
      (.ok ⟨kind, lx.position.until after.position⟩,
        { after with nesting := nestingAfter lx.nesting kind, atLineStart := kind == .newline })
    | .error flaw => (.error ⟨flaw, lx.position.line, lx.position.column⟩, after)

/-- The state in which the next token is either due or the first of what is left of the line. -/
def settle (lx : Lexer) : Lexer :=
  if lx.pending.isEmpty && !lx.finished && lx.atLineStart then lx.openLine else lx

/-- The next token, or the flaw in its place, and what follows. Once the text has ended every call
gives the end token. -/
def next (lx : Lexer) : Except LexError Token × Lexer :=
  let lx := lx.settle
  match lx.pending with
  | t :: ts => (.ok t, { lx with pending := ts })
  | [] => if lx.finished then (.ok ⟨.eof, lx.position.mark⟩, lx) else lx.scan

theorem next_of_due {lx : Lexer} {t : Token} {ts : List Token} (h : lx.settle.pending = t :: ts) :
    lx.next = (.ok t, { lx.settle with pending := ts }) := by
  simp only [next, h]

theorem next_of_finished {lx : Lexer} (hpending : lx.settle.pending = [])
    (hfinished : lx.settle.finished = true) :
    lx.next = (.ok ⟨.eof, lx.settle.position.mark⟩, lx.settle) := by
  simp only [next, hpending, if_pos hfinished]

theorem next_of_open {lx : Lexer} (hpending : lx.settle.pending = [])
    (hopen : lx.settle.finished = false) :
    lx.next = lx.settle.scan := by
  simp only [next, hpending, hopen, Bool.false_eq_true, if_false]

/-- A call gives a token that is due, or the end token, or else what stands next in the line. -/
theorem next_cases (lx : Lexer) :
    (∃ t ts, lx.settle.pending = t :: ts ∧ lx.next = (.ok t, { lx.settle with pending := ts })) ∨
    (lx.settle.pending = [] ∧ lx.settle.finished = true ∧
      lx.next = (.ok ⟨.eof, lx.settle.position.mark⟩, lx.settle)) ∨
    (lx.settle.pending = [] ∧ lx.settle.finished = false ∧ lx.next = lx.settle.scan) := by
  cases hpending : lx.settle.pending with
  | cons t ts => exact .inl ⟨t, ts, rfl, next_of_due hpending⟩
  | nil =>
    cases hfinished : lx.settle.finished with
    | true => exact .inr (.inl ⟨rfl, rfl, next_of_finished hpending hfinished⟩)
    | false => exact .inr (.inr ⟨rfl, rfl, next_of_open hpending hfinished⟩)

/-- Bounds the calls that are left before the end. -/
def work (lx : Lexer) : Nat :=
  2 * lx.rest.length + lx.pending.length + lx.widths.length + if lx.finished then 0 else 1

theorem leadOf_length (p : Position) (cs : List Char) :
    (leadOf p cs).trivia.length + (leadOf p cs).rest.length ≤ cs.length := by
  fun_induction leadOf p cs with
  | case1 => simp
  | case2 p cs c after h _ _ ih =>
    have hlen := congrArg List.length h
    simp only [List.length_drop, List.length_cons, Lead.push] at hlen ⊢
    omega
  | case3 p cs c after h _ _ _ _ _ _ lead ih =>
    have hlen := congrArg List.length h
    simp only [List.length_drop, List.length_cons, Lead.push, lead] at hlen ih ⊢
    omega
  | case4 => simp

theorem layout_length (width : Nat) (widths : List Nat) :
    (layout width widths).1.length + (layout width widths).2.length ≤
      widths.length + if width = 0 then 0 else 2 := by
  have hsplit :=
    congrArg List.length (List.takeWhile_append_dropWhile (p := (width < ·)) (l := widths))
  rw [List.length_append] at hsplit
  simp only [layout]
  split
  · next h =>
    have : width ≠ 0 := by omega
    simp only [List.length_cons, List.length_append, List.length_map, List.length_nil, this,
      if_false]
    omega
  · simp only [List.length_map]
    omega

theorem work_openLine (lx : Lexer) (hp : lx.pending = []) (hf : lx.finished = false) :
    lx.openLine.work ≤ lx.work := by
  have ht := leadOf_length lx.position lx.rest
  have hb : (indentation (leadOf lx.position lx.rest).rest).length ≤
      (leadOf lx.position lx.rest).rest.length := ( List.takeWhile_prefix _).length_le
  have hw : widthOf (indentation (leadOf lx.position lx.rest).rest) ≤
      (indentation (leadOf lx.position lx.rest).rest).length := List.countP_le_length
  have hl := layout_length (widthOf (indentation (leadOf lx.position lx.rest).rest)) lx.widths
  simp only [openLine, consume]
  split
  · simp only [finish, work, hp, hf, List.length_append, List.length_map, List.length_nil,
      List.length_drop, if_true, Bool.false_eq_true, if_false]
    omega
  · simp only [work, hp, hf, List.length_append, List.length_map, List.length_nil,
      List.length_drop, Bool.false_eq_true, if_false]
    split at hl <;> omega

theorem work_settle (lx : Lexer) : lx.settle.work ≤ lx.work := by
  unfold settle
  split
  · next h =>
    simp only [Bool.and_eq_true, List.isEmpty_iff, Bool.not_eq_eq_eq_not, Bool.not_true] at h
    exact work_openLine lx h.1.1 h.1.2
  · exact Nat.le_refl _

theorem work_scan (lx : Lexer) (hp : lx.pending = []) (hf : lx.finished = false) :
    lx.scan.2.work < lx.work := by
  have hdrop : ∀ n, (lx.rest.drop n).length ≤ lx.rest.length := fun n => by
    rw [List.length_drop]
    omega
  simp only [scan, consume]
  split
  · next h =>
    simp only [finish, work, hp, hf, List.length_append, List.length_map, List.length_nil, h,
      if_true, Bool.false_eq_true, if_false]
    omega
  · next c cs h =>
    have hlt := length_drop_lt (Lexeme.read_text_isPrefix c cs) (Lexeme.read_text_ne_nil c cs)
    have hle := hdrop (gap (decide (0 < lx.nesting)) false lx.rest).length
    rw [h] at hle
    split <;> (simp only [work, hp, hf, h, List.length_nil]; omega)

theorem work_next (lx : Lexer) :
    lx.next.2.work < lx.work ∨ ∃ t, lx.next.1 = .ok t ∧ t.kind = .eof := by
  have hs := work_settle lx
  simp only [next]
  split
  · next h =>
    left
    simp only [work, h, List.length_cons] at hs ⊢
    omega
  · next h =>
    split
    · exact .inr ⟨_, rfl, rfl⟩
    · next hf =>
      left
      have := work_scan lx.settle h (by simpa using hf)
      omega

/-- All tokens up to the end token, or the first flaw, and the state at that point. -/
def run (lx : Lexer) : Except LexError (List Token) × Lexer :=
  match _h : lx.next with
  | (.error e, after) => (.error e, after)
  | (.ok t, after) =>
    if t.kind = .eof then (.ok [t], after)
    else
      let more := after.run
      (more.1.map (t :: ·), more.2)
termination_by lx.work
decreasing_by
  have hw := work_next lx
  rw [_h] at hw
  rcases hw with hw | ⟨u, hu, hk⟩
  · exact hw
  · simp only [Except.ok.injEq] at hu
    subst hu
    contradiction

/-- The results of the first `count` calls, flaws included. -/
def steps : Nat → Lexer → List (Except LexError Token)
  | 0, _ => []
  | count + 1, lx => lx.next.1 :: steps count lx.next.2

end Lexer

def tokenize (source : String) : Except LexError (List Token) :=
  (Lexer.start source.toList).run.1

end Sketchwright.Token
