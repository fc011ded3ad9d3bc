import Sketchwright.Token.Lexer

/-! Texts of one line and the tokens that the lexer makes of them. Between brackets and outside them
such a text reads alike, and no layout tokens come in but those at its end. -/

namespace Sketchwright.Token

/-- A character that starts a token in any place: no blank, no line end, no comment mark, and no
backslash. -/
def isCode (c : Char) : Bool := !isSpace c && c != '\n' && c != '#' && c != '\\'

/-- The characters that follow start with `text`, which is a token of this kind. -/
structure Lexeme.Begins (text rest : List Char) (kind : TokenKind) : Prop where
  read : ∃ c cs, text ++ rest = c :: cs ∧ isCode c = true ∧ Lexeme.read c cs = ⟨text, .ok kind⟩
  code : kind ≠ .newline ∧ kind ≠ .eof

/-- The lexemes of a text with single blanks between some of them, by their kinds. -/
inductive Lexed : List Char → List TokenKind → Prop
  | nil : Lexed [] []
  | blank {cs kinds} (h : Lexed cs kinds) : Lexed (' ' :: cs) kinds
  | lexeme {text rest kind kinds} (hbegins : Lexeme.Begins text rest kind) (h : Lexed rest kinds) :
      Lexed (text ++ rest) (kind :: kinds)

theorem Lexed.eof_not_mem {cs : List Char} {kinds : List TokenKind} (h : Lexed cs kinds) :
    .eof ∉ kinds := by
  induction h with
  | nil => simp
  | blank _ ih => exact ih
  | lexeme hbegins _ ih => simp [hbegins.code.2.symm, ih]

namespace Lexer

/-- A lexer inside the only line of a text. -/
structure Inside (lx : Lexer) : Prop where
  pending : lx.pending = []
  finished : lx.finished = false
  atLineStart : lx.atLineStart = false
  widths : lx.widths = []

variable {lx : Lexer}

theorem Inside.settle (h : lx.Inside) : lx.settle = lx := by
  simp [Lexer.settle, h.atLineStart]

theorem Inside.next (h : lx.Inside) : lx.next = lx.scan := by
  unfold Lexer.next
  simp only [h.settle, h.pending, h.finished]
  rfl

theorem run_eq (lx : Lexer) : lx.run = match lx.next with
    | (.error e, after) => (.error e, after)
    | (.ok t, after) =>
      if t.kind = .eof then (.ok [t], after) else (after.run.1.map (t :: ·), after.run.2) := by
  rw [run]
  split
  · next h => rw [h]
  · next h => rw [h]

/-- The tokens that a lexer has yet to read, by their kinds. -/
def Delivers (lx : Lexer) (kinds : List TokenKind) : Prop :=
  ∃ ts, lx.run.1 = .ok ts ∧ ts.map Token.kind = kinds

theorem Delivers.of_next_eq {other : Lexer} {kinds : List TokenKind} (h : other.Delivers kinds)
    (hnext : lx.next = other.next) : lx.Delivers kinds := by
  unfold Delivers at h ⊢
  rw [run_eq lx, hnext, ← run_eq other]
  exact h

theorem Delivers.cons {t : Token} {after : Lexer} {kinds : List TokenKind}
    (h : after.Delivers kinds) (hnext : lx.next = (.ok t, after)) (hcode : t.kind ≠ .eof) :
    lx.Delivers (t.kind :: kinds) := by
  obtain ⟨ts, hts, hkinds⟩ := h
  refine ⟨t :: ts, ?_, by rw [List.map_cons, hkinds]⟩
  rw [run_eq, hnext]
  simp only [hcode, if_false, hts]
  rfl

theorem Delivers.last {t : Token} {after : Lexer} (hnext : lx.next = (.ok t, after))
    (hend : t.kind = .eof) : lx.Delivers [.eof] := by
  refine ⟨[t], ?_, by rw [List.map_singleton, hend]⟩
  rw [run_eq, hnext]
  simp only [hend, if_true]

theorem consume_nil (lx : Lexer) : lx.consume [] = lx := rfl

/-- Blanks between tokens are skipped. -/
theorem scan_blank {cs : List Char} (h : lx.rest = ' ' :: cs) :
    lx.scan = (lx.consume [' ']).scan := by
  have hgap : gap (0 < lx.nesting) false lx.rest = ' ' :: gap (0 < lx.nesting) false cs := by
    rw [h]
    simp [gap, isSpace]
  have hrest : (lx.consume [' ']).rest = cs := by simp [consume, h]
  have hconsume : lx.consume (gap (0 < lx.nesting) false lx.rest) = (lx.consume [' ']).consume
      (gap (0 < (lx.consume [' ']).nesting) false (lx.consume [' ']).rest) := by
    rw [hgap, hrest]
    simp [consume, h]
  unfold scan
  rw [hconsume]

/-- A lexeme is read where it stands. -/
theorem scan_begins {text rest : List Char} {kind : TokenKind}
    (hbegins : Lexeme.Begins text rest kind) (h : lx.rest = text ++ rest) :
    lx.scan = (.ok ⟨kind, lx.position.until (lx.consume text).position⟩,
      { lx.consume text with nesting := nestingAfter lx.nesting kind, atLineStart := false }) := by
  obtain ⟨⟨c, cs, hcs, hcode, hread⟩, hline, -⟩ := hbegins
  have hrest := h.trans hcs
  have hgap : gap (0 < lx.nesting) false lx.rest = [] := by
    simp only [isCode, Bool.and_eq_true, Bool.not_eq_true', bne_iff_ne, ne_eq] at hcode
    obtain ⟨⟨⟨hspace, hnewline⟩, hcomment⟩, hbackslash⟩ := hcode
    rw [hrest]
    unfold gap
    split <;> simp_all
  have hline' : (kind == .newline) = false := beq_eq_false_iff_ne.mpr hline
  unfold scan
  rw [hgap, consume_nil]
  simp only [hrest, hread, hline']

/-- The tokens of the rest of a line, with the end of the line and of the text after them. -/
theorem delivers_of_lexed {cs : List Char} {kinds : List TokenKind} (h : Lexed cs kinds)
    (hinside : lx.Inside) (hrest : lx.rest = cs) : lx.Delivers (kinds ++ [.newline, .eof]) := by
  induction h generalizing lx with
  | nil =>
    have hnext : lx.next = (.ok ⟨.newline, lx.position.mark⟩, lx.finish [] []) := by
      have hgap : gap (0 < lx.nesting) false lx.rest = [] := by simp [hrest, gap]
      rw [hinside.next, scan, hgap, consume_nil]
      simp only [hrest]
    have hend : (lx.finish [] []).next = (.ok ⟨.eof, lx.position.mark⟩, lx.finish [] []) := by
      simp [Lexer.next, Lexer.settle, finish, hinside.widths, hinside.atLineStart]
    exact (Delivers.last hend rfl).cons hnext (by simp)
  | blank _ ih =>
    have hblank : (lx.consume [' ']).Inside :=
      ⟨hinside.pending, hinside.finished, hinside.atLineStart, hinside.widths⟩
    refine (ih hblank (by simp [consume, hrest])).of_next_eq ?_
    rw [hinside.next, hblank.next, scan_blank hrest]
  | @lexeme text rest kind kinds hbegins _ ih =>
    have hafter : Inside { lx.consume text with
        nesting := nestingAfter lx.nesting kind, atLineStart := false } :=
      ⟨hinside.pending, hinside.finished, rfl, hinside.widths⟩
    have hnext := hinside.next.trans (scan_begins hbegins hrest)
    exact (ih hafter (by simp [consume, hrest])).cons hnext hbegins.code.2

/-- A text that starts with code has no layout before its first token. -/
theorem settle_start {c : Char} {cs : List Char} (hc : isCode c = true) :
    (start (c :: cs)).settle = { start (c :: cs) with atLineStart := false } := by
  simp only [isCode, Bool.and_eq_true, Bool.not_eq_true', bne_iff_ne, ne_eq] at hc
  obtain ⟨⟨⟨hspace, hnewline⟩, hcomment⟩, -⟩ := hc
  have hblanks : indentation (c :: cs) = [] := by simp [indentation, hspace]
  have hlead : leadOf .start (c :: cs) = ⟨[], .start, c :: cs⟩ := by
    unfold leadOf
    split
    · rfl
    · next h =>
      rw [hblanks] at h
      cases h
      simp [hnewline, hcomment]
  have hopen : (start (c :: cs)).openLine = { start (c :: cs) with atLineStart := false } := by
    simp only [openLine, start, hlead, hblanks]
    rfl
  rw [Lexer.settle, if_pos (by rfl), hopen]

end Lexer

/-- A text of one line without blanks before it is lexed into its lexemes. -/
theorem tokenize_of_lexed {text : String} {c : Char} {cs : List Char}
    (htext : text.toList = c :: cs) (hc : isCode c = true) {kinds : List TokenKind}
    (h : Lexed (c :: cs) kinds) :
    ∃ ts, tokenize text = .ok ts ∧ ts.map Token.kind = kinds ++ [.newline, .eof] := by
  have hinside : Lexer.Inside { Lexer.start (c :: cs) with atLineStart := false } :=
    ⟨rfl, rfl, rfl, rfl⟩
  have hnext : (Lexer.start (c :: cs)).next =
      { Lexer.start (c :: cs) with atLineStart := false }.next := by
    unfold Lexer.next
    rw [Lexer.settle_start hc, hinside.settle]
  rw [tokenize, htext]
  exact (Lexer.delivers_of_lexed h hinside rfl).of_next_eq hnext

end Sketchwright.Token
