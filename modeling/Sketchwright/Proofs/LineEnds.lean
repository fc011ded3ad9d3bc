import Sketchwright.Proofs.Indentation
import Sketchwright.Proofs.Lexing
import Sketchwright.Proofs.WithinLine

/-! Line ends. A text whose lines end with a carriage return and a line feed has the same tokens on
the same lines as the text whose lines end with a line feed alone, unless a backslash joins two of
its lines: the lexer joins lines only where the line feed follows the backslash directly. -/

namespace Sketchwright

open Text

theorem Position.line_advance (p : Position) (cs : List Char) :
    (p.advance cs).line = p.line + cs.count '\n' := by
  induction cs generalizing p with
  | nil => rfl
  | cons c cs ih =>
    rw [Position.advance_cons, ih, Position.next]
    by_cases hc : c = '\n'
    · simp [hc, Nat.add_assoc, Nat.add_comm 1]
    · simp [hc]

theorem Position.line_advance_eq {p p' : Position} {cs cs' : List Char} (hline : p'.line = p.line)
    (hcount : cs'.count '\n' = cs.count '\n') : (p'.advance cs').line = (p.advance cs).line := by
  rw [line_advance, line_advance, hline, hcount]

namespace Token

/-- A text without carriage returns, and the same text with carriage returns before
some of its line ends. -/
inductive SameLines : List Char → List Char → Prop
  | nil : SameLines [] []
  | newline {cs cs'} (h : SameLines cs cs') : SameLines ('\n' :: cs) ('\n' :: cs')
  | crlf {cs cs'} (h : SameLines cs cs') : SameLines ('\n' :: cs) ('\r' :: '\n' :: cs')
  | char {c cs cs'} (hnewline : c ≠ '\n') (hreturn : c ≠ '\r') (h : SameLines cs cs') :
      SameLines (c :: cs) (c :: cs')

/-- Both texts are at their end, or go on with the same character. -/
inductive Aligned : List Char → List Char → Prop
  | nil : Aligned [] []
  | cons {c cs cs'} (hreturn : c ≠ '\r') (h : SameLines cs cs') : Aligned (c :: cs) (c :: cs')

/-- The text with a carriage return before every line end. -/
def withReturns (cs : List Char) : List Char :=
  cs.flatMap fun c => if c = '\n' then ['\r', '\n'] else [c]

theorem sameLines_withReturns {cs : List Char} (h : '\r' ∉ cs) : SameLines cs (withReturns cs) := by
  induction cs with
  | nil => exact .nil
  | cons c cs ih =>
    obtain ⟨hc, hcs⟩ := List.ne_and_not_mem_of_not_mem_cons h
    rw [withReturns, List.flatMap_cons]
    split
    · next hnewline =>
      subst hnewline
      exact .crlf (ih hcs)
    · next hnewline => exact .char hnewline (Ne.symm hc) (ih hcs)

namespace SameLines

variable {c : Char} {cs cs' : List Char}

theorem cons (hreturn : c ≠ '\r') (h : SameLines cs cs') : SameLines (c :: cs) (c :: cs') := by
  by_cases hnewline : c = '\n'
  · subst hnewline
    exact .newline h
  · exact .char hnewline hreturn h

theorem of_aligned (h : Aligned cs cs') : SameLines cs cs' := by
  cases h with
  | nil => exact .nil
  | cons hreturn h => exact h.cons hreturn

theorem sameLine (h : SameLines cs cs') : SameLine cs cs' := by
  induction h with
  | nil => exact .lineEnd .nil .nil
  | newline => exact .lineEnd (.newline _) (.newline _)
  | crlf => exact .lineEnd (.newline _) (.carriage _)
  | char _ _ _ ih => exact .char _ ih

/-- The texts stay the same behind what both begin with. -/
theorem drop_common {text : List Char} (h : SameLines cs cs') (htext : text <+: cs)
    (htext' : text <+: cs') :
    SameLines (cs.drop text.length) (cs'.drop text.length) := by
  induction text generalizing cs cs' with
  | nil => exact h
  | cons d text ih =>
    cases h with
    | nil => exact absurd (List.prefix_nil.mp htext) (List.cons_ne_nil d text)
    | newline h =>
      exact ih h (List.cons_prefix_cons.mp htext).2 (List.cons_prefix_cons.mp htext').2
    | crlf =>
      obtain ⟨rfl, -⟩ := List.cons_prefix_cons.mp htext
      exact absurd (List.cons_prefix_cons.mp htext').1 (by decide)
    | char _ _ h =>
      exact ih h (List.cons_prefix_cons.mp htext).2 (List.cons_prefix_cons.mp htext').2

/-- A run of characters that goes over carriage returns up to the line end. -/
theorem takeWhile_aligned {p : Char → Bool} (h : SameLines cs cs') (hnewline : p '\n' = false)
    (hreturn : p '\r' = true) :
    (cs'.takeWhile p = cs.takeWhile p ∨ cs'.takeWhile p = cs.takeWhile p ++ ['\r']) ∧
      Aligned (cs.drop (cs.takeWhile p).length) (cs'.drop (cs'.takeWhile p).length) := by
  induction h with
  | nil => exact ⟨.inl rfl, .nil⟩
  | newline h =>
    simp only [List.takeWhile_cons, hnewline]
    exact ⟨.inl rfl, .cons (by decide) h⟩
  | crlf h =>
    simp only [List.takeWhile_cons, hnewline, hreturn]
    exact ⟨.inr rfl, .cons (by decide) h⟩
  | @char c cs cs' _ hc h ih =>
    cases hp : p c with
    | true =>
      simp only [List.takeWhile_cons, hp, if_true]
      exact ⟨ih.1.imp (congrArg _) (congrArg _), ih.2⟩
    | false =>
      simp only [List.takeWhile_cons, hp]
      exact ⟨.inl rfl, .cons hc h⟩

section Strings

open Quoted

variable {quote : Char} {long : Bool}

theorem nil_of_nil (h : SameLines cs cs') (hcs : cs = []) : cs' = [] := by
  subst hcs
  cases h
  rfl

/-- A literal without line ends in it is read alike. -/
theorem contents_eq (h : SameLines cs cs') (hquote : quote ∈ ['"', '\'']) {inner : List Char}
    (hread : contents quote long cs = (inner, true)) (hinner : '\n' ∉ inner) :
    contents quote long cs' = (inner, true) := by
  fun_induction contents quote long cs generalizing cs' inner with
  | case1 c cs rest =>
    rename_i ih
    obtain ⟨rfl, hclosed⟩ := Prod.mk.inj hread
    obtain ⟨-, hinner⟩ := List.ne_and_not_mem_of_not_mem_cons hinner
    obtain ⟨hc, hinner⟩ := List.ne_and_not_mem_of_not_mem_cons hinner
    cases h with
    | char _ _ h =>
      cases h with
      | newline | crlf => exact absurd rfl hc
      | char _ _ h =>
        have hrest := ih h (Prod.ext rfl hclosed) hinner
        rw [contents, hrest]
  | case2 => cases hread
  | case3 c cs hjoin hline hends =>
    obtain ⟨hc, hlast⟩ := Bool.and_eq_true_iff.mp hends
    obtain rfl : c = quote := beq_iff_eq.mp hc
    cases h with
    | newline | crlf => exact absurd hquote (by decide)
    | char _ _ h =>
      rw [contents_cons fun heq => h.nil_of_nil (nil_of_alone hjoin heq), if_neg hline,
        endsAt_inLine h.sameLine hquote, if_pos hends]
      exact hread
  | case4 c cs hjoin hline hends rest =>
    rename_i ih
    obtain ⟨rfl, hclosed⟩ := Prod.mk.inj hread
    obtain ⟨hc, hinner⟩ := List.ne_and_not_mem_of_not_mem_cons hinner
    cases h with
    | newline | crlf => exact absurd rfl hc
    | char _ _ h =>
      have hrest := ih h (Prod.ext rfl hclosed) hinner
      rw [contents_cons fun heq => h.nil_of_nil (nil_of_alone hjoin heq), if_neg hline,
        endsAt_inLine h.sameLine hquote, if_neg hends, hrest]
  | case5 => cases hread

theorem ofString_eq (h : SameLines cs cs') (hquote : quote ∈ ['"', '\'']) {kind : TokenKind}
    (hkind : (Lexeme.ofString quote cs).kind = .ok kind)
    (hstring : ∀ text, kind = .string text → '\n' ∉ text.toList) :
    Lexeme.ofString quote cs' = Lexeme.ofString quote cs := by
  have hlong := isLong_inLine h.sameLine hquote
  have hreturn : quote ≠ '\r' := by
    rintro rfl
    exact absurd hquote (by decide)
  have hafter := (h.cons hreturn).drop_common (delimiter_isPrefix quote cs)
      (hlong ▸ delimiter_isPrefix quote cs')
  have hinside : inside quote cs' = inside quote cs := by
    cases hread : inside quote cs with
    | mk inner closed =>
      cases closed with
      | false =>
        simp [Lexeme.ofString, Quoted.read, hread] at hkind
      | true =>
        have hinner : '\n' ∉ inner := by
          simp only [Lexeme.ofString, Quoted.read, hread, if_true, Except.ok.injEq] at hkind
          have htext := hstring _ hkind.symm
          rwa [String.toList_ofList] at htext
        rw [inside, hlong]
        exact hafter.contents_eq hquote hread hinner
  simp only [Lexeme.ofString, Quoted.read, hlong, hinside]

end Strings

/-- A lexeme within a line is read alike, unless it is a string over a line end. -/
theorem read_eq (h : SameLines cs cs') (hcomment : c ≠ '#') {kind : TokenKind}
    (hkind : (Lexeme.read c cs).kind = .ok kind)
    (hstring : ∀ text, kind = .string text → '\n' ∉ text.toList) :
    Lexeme.read c cs' = Lexeme.read c cs := by
  by_cases hquote : c ∈ ['"', '\'']
  · rw [read_quote hquote] at hkind
    rw [read_quote hquote, read_quote hquote]
    exact h.ofString_eq hquote hkind hstring
  · exact read_inLine h.sameLine hcomment hquote

end SameLines

section Comments

theorem trimEnd_return (cs : List Char) : trimEnd (cs ++ ['\r']) = trimEnd cs := by
  have hblank : isBlank '\r' = true := by decide
  simp [trimEnd, hblank]

theorem count_restOfLine (cs : List Char) : (Lexeme.restOfLine cs).count '\n' = 0 :=
  List.count_eq_zero_of_not_mem (not_mem_restOfLine cs)

theorem count_indentation (cs : List Char) : (indentation cs).count '\n' = 0 :=
  List.count_eq_zero_of_not_mem (not_mem_indentation cs)

theorem SameLines.restOfLine_aligned {cs cs' : List Char} (h : SameLines cs cs') :
    Aligned (cs.drop (Lexeme.restOfLine cs).length) (cs'.drop (Lexeme.restOfLine cs').length) :=
  (h.takeWhile_aligned (p := (· != '\n')) (by decide) (by decide)).2

/-- The carriage return after a comment is trimmed off. -/
theorem SameLines.comment_eq {cs cs' : List Char} (h : SameLines cs cs') :
    Lexeme.comment ('#' :: Lexeme.restOfLine cs') =
      Lexeme.comment ('#' :: Lexeme.restOfLine cs) := by
  obtain ⟨heq | heq, -⟩ := h.takeWhile_aligned (p := (· != '\n')) (by decide) (by decide)
  · rw [Lexeme.restOfLine, heq, Lexeme.restOfLine]
  · rw [Lexeme.restOfLine, heq, Lexeme.restOfLine]
    simp only [Lexeme.comment, List.drop_succ_cons, List.drop_zero, trimEnd_return]

end Comments

/-- The lexeme, the line ends in it and what is left after it. -/
theorem SameLines.read_same {c : Char} {cs cs' : List Char} (h : SameLines cs cs')
    (hreturn : c ≠ '\r') {kind : TokenKind} (hkind : (Lexeme.read c cs).kind = .ok kind)
    (hstring : ∀ text, kind = .string text → '\n' ∉ text.toList) :
    (Lexeme.read c cs').kind = .ok kind ∧
      (Lexeme.read c cs').text.count '\n' = (Lexeme.read c cs).text.count '\n' ∧
      SameLines ((c :: cs).drop (Lexeme.read c cs).text.length)
        ((c :: cs').drop (Lexeme.read c cs').text.length) := by
  by_cases hnewline : c = '\n'
  · subst hnewline
    exact ⟨hkind, rfl, h⟩
  by_cases hcomment : c = '#'
  · subst hcomment
    have hread : ∀ cs, Lexeme.read '#' cs = Lexeme.ofComment ('#' :: cs) := fun _ => rfl
    have hrest : ∀ cs, Lexeme.restOfLine ('#' :: cs) = '#' :: Lexeme.restOfLine cs := fun _ => rfl
    rw [hread] at hkind
    simp only [hread, Lexeme.ofComment, hrest] at hkind ⊢
    refine ⟨by rw [h.comment_eq, hkind], by simp [count_restOfLine], ?_⟩
    exact .of_aligned h.restOfLine_aligned
  · have hall := h.cons hreturn
    have heq := h.read_eq hcomment hkind hstring
    have hleads := Lexeme.read_text_isPrefix c cs'
    rw [heq] at hleads ⊢
    exact ⟨hkind, rfl, hall.drop_common (Lexeme.read_text_isPrefix c cs) hleads⟩

/-- The skipped text before a token joins two lines by a backslash. -/
def joins (inBrackets : Bool) : Bool → List Char → Bool
  | true, c :: cs => joins inBrackets (c != '\n') cs
  | false, '\\' :: '\n' :: _ => true
  | false, c :: cs =>
    if isSpace c || (inBrackets && c == '\n') then joins inBrackets false cs
    else if inBrackets && c == '#' then joins inBrackets true cs
    else false
  | _, [] => false

section Gaps

variable {inBrackets : Bool} {cs cs' : List Char}

theorem gap_comment (c : Char) (cs : List Char) :
    gap inBrackets true (c :: cs) = c :: gap inBrackets (c != '\n') cs := by
  rw [gap]

theorem gap_cons {c : Char} (h : ∀ ds, c = '\\' → cs = '\n' :: ds → False) :
    gap inBrackets false (c :: cs) =
    if isSpace c || (inBrackets && c == '\n') then c :: gap inBrackets false cs
    else if inBrackets && c == '#' then c :: gap inBrackets true cs
    else [] := by
  rw [gap]
  exact h

/-- Carriage returns are skipped as blanks. -/
theorem gap_return (cs : List Char) :
    gap inBrackets false ('\r' :: cs) = '\r' :: gap inBrackets false cs := by
  rw [gap_cons (by simp)]
  rfl

theorem joins_cons {c : Char} (h : ∀ ds, c = '\\' → cs = '\n' :: ds → False) :
    joins inBrackets false (c :: cs) =
    if isSpace c || (inBrackets && c == '\n') then joins inBrackets false cs
    else if inBrackets && c == '#' then joins inBrackets true cs
    else false := by
  rw [joins]
  exact h

theorem SameLines.not_joined {c : Char} (h : SameLines cs cs')
    (hjoin : ∀ ds, c = '\\' → cs = '\n' :: ds → False) :
    ∀ ds, c = '\\' → cs' = '\n' :: ds → False := by
  rintro ds hc rfl
  cases h with
  | newline => exact hjoin _ hc rfl
  | char hnewline => exact hnewline rfl

/-- What is skipped before a token, where no backslash joins lines. -/
theorem SameLines.gap_aligned {inComment : Bool} (h : SameLines cs cs')
    (hjoins : joins inBrackets inComment cs = false) :
    (gap inBrackets inComment cs').count '\n' = (gap inBrackets inComment cs).count '\n' ∧
      Aligned (cs.drop (gap inBrackets inComment cs).length)
        (cs'.drop (gap inBrackets inComment cs').length) := by
  -- where the gap stops before a line end, the one of the second text may go
  -- on over a carriage return
  fun_induction gap inBrackets inComment cs generalizing cs' with
  | case1 c cs ih =>
    rw [joins] at hjoins
    cases h with
    | newline h | char _ _ h =>
      obtain ⟨hcount, hrest⟩ := ih h hjoins
      rw [gap_comment, List.count_cons, List.count_cons, hcount]
      exact ⟨rfl, hrest⟩
    | crlf h =>
      obtain ⟨hcount, hrest⟩ := ih h hjoins
      have hopen : ('\r' != '\n') = true := by decide
      rw [gap_comment, hopen, gap_comment, List.count_cons, List.count_cons, List.count_cons]
      exact ⟨congrArg (· + 1) hcount, hrest⟩
  | case2 cs => simp [joins] at hjoins
  | case3 c cs hjoin hc ih =>
    rw [joins_cons hjoin, if_pos hc] at hjoins
    cases h with
    | newline h | char _ _ h =>
      obtain ⟨hcount, hrest⟩ := ih h hjoins
      rw [gap_cons (h.not_joined hjoin), if_pos hc, List.count_cons, List.count_cons, hcount]
      exact ⟨rfl, hrest⟩
    | crlf h =>
      obtain ⟨hcount, hrest⟩ := ih h hjoins
      rw [gap_return, gap_cons (by simp), if_pos hc, List.count_cons, List.count_cons,
        List.count_cons]
      exact ⟨congrArg (· + 1) hcount, hrest⟩
  | case4 c cs hjoin hc hcomment ih =>
    rw [joins_cons hjoin, if_neg hc, if_pos hcomment] at hjoins
    obtain ⟨_, hmark⟩ := Bool.and_eq_true_iff.mp hcomment
    obtain rfl : c = '#' := beq_iff_eq.mp hmark
    cases h with
    | char _ _ h =>
      obtain ⟨hcount, hrest⟩ := ih h hjoins
      rw [gap_cons (by simp), if_neg hc, if_pos hcomment, List.count_cons, List.count_cons, hcount]
      exact ⟨rfl, hrest⟩
  | case5 c cs hjoin hc hcomment =>
    cases h with
    | newline h =>
      rw [gap_cons (h.not_joined hjoin), if_neg hc, if_neg hcomment]
      exact ⟨rfl, .cons (by decide) h⟩
    | char _ hreturn h =>
      rw [gap_cons (h.not_joined hjoin), if_neg hc, if_neg hcomment]
      exact ⟨rfl, .cons hreturn h⟩
    | crlf h =>
      rw [gap_return, gap_cons (by simp), if_neg hc, if_neg hcomment]
      exact ⟨rfl, .cons (by decide) h⟩
  | case6 mode =>
    cases h
    cases mode <;> exact ⟨rfl, .nil⟩

end Gaps

/-- A token without its place in the line. -/
def kindAndLine (t : Token) : TokenKind × Nat := (t.kind, t.line)

section Leads

variable {p p' : Position} {cs cs' after : List Char}

theorem leadOf_of_nil (h : cs.drop (indentation cs).length = []) : leadOf p cs = ⟨[], p, cs⟩ := by
  rw [leadOf]
  split
  · rfl
  · next hcons =>
    rw [h] at hcons
    cases hcons

theorem leadOf_of_cons {c : Char} (h : cs.drop (indentation cs).length = c :: after) : leadOf p cs =
    let q := p.advance (indentation cs)
    let text := c :: Lexeme.restOfLine after
    let lineEnd := (after.drop (Lexeme.restOfLine after).length).take 1
    if c == '\n' then (leadOf (q.next c) after).push ⟨.blankLine, p.mark⟩
    else if c == '#' then
      (leadOf ((q.advance text).advance lineEnd)
        (after.drop ((Lexeme.restOfLine after).length + 1))).push
        ⟨Lexeme.comment text, q.until (q.advance text)⟩
    else ⟨[], p, cs⟩ := by
  rw [leadOf]
  split
  · next hnil =>
    rw [h] at hnil
    cases hnil
  · next hcons =>
    rw [h] at hcons
    cases hcons
    rfl

/-- Both lines are indented alike. -/
theorem SameLines.indentation_aligned (h : SameLines cs cs') :
    widthOf (indentation cs') = widthOf (indentation cs) ∧
      Aligned (cs.drop (indentation cs).length) (cs'.drop (indentation cs').length) := by
  obtain ⟨heq, hrest⟩ := h.takeWhile_aligned (p := isSpace) (by decide) (by decide)
  refine ⟨?_, hrest⟩
  have hreturn : widthOf ['\r'] = 0 := by decide
  rcases heq with heq | heq
  · rw [indentation, heq, indentation]
  · rw [indentation, heq, indentation, widthOf, List.countP_append]
    exact congrArg (List.countP isWide (cs.takeWhile isSpace) + ·) hreturn

theorem line_indentation (p : Position) (cs : List Char) :
    (p.advance (indentation cs)).line = p.line := by
  rw [Position.line_advance, count_indentation, Nat.add_zero]

theorem line_restOfLine (p : Position) (cs : List Char) :
    (p.advance ('#' :: Lexeme.restOfLine cs)).line = p.line := by
  rw [Position.line_advance, List.count_cons, count_restOfLine]
  rfl

theorem Aligned.first (h : Aligned cs cs') :
    cs'.take 1 = cs.take 1 ∧ SameLines (cs.drop 1) (cs'.drop 1) := by
  cases h with
  | nil => exact ⟨rfl, .nil⟩
  | cons _ h => exact ⟨rfl, h⟩

/-- The comment and blank lines before a line of code are the same. -/
theorem SameLines.leadOf_same (h : SameLines cs cs') (hline : p'.line = p.line) :
    (leadOf p' cs').trivia.map kindAndLine = (leadOf p cs).trivia.map kindAndLine ∧
      (leadOf p' cs').position.line = (leadOf p cs).position.line ∧
      SameLines (leadOf p cs).rest (leadOf p' cs').rest := by
  have hrest := h.indentation_aligned.2
  generalize hdrop' : cs'.drop (indentation cs').length = rest at hrest
  fun_induction leadOf p cs generalizing p' cs' rest with
  | case1 p cs hdrop =>
    rw [hdrop] at hrest
    cases hrest
    rw [leadOf_of_nil hdrop']
    exact ⟨rfl, hline, h⟩
  | case2 p cs c after hdrop q hnewline =>
    rename_i ih
    obtain rfl : c = '\n' := beq_iff_eq.mp hnewline
    rw [hdrop] at hrest
    cases hrest with
    | cons _ hafter =>
      have hnext : ((p'.advance (indentation cs')).next '\n').line = (q.next '\n').line := by
        simp [Position.next, line_indentation, q, hline]
      obtain ⟨htrivia, hposition, hlast⟩ := ih hafter hnext _ rfl hafter.indentation_aligned.2
      rw [leadOf_of_cons hdrop', if_pos hnewline]
      refine ⟨?_, hposition, hlast⟩
      rw [Lead.push, Lead.push, List.map_cons, List.map_cons, htrivia]
      exact congrArg (fun line => (TokenKind.blankLine, line) :: _) hline
  | case3 p cs c after hdrop q hnewline hcomment text stop lineEnd =>
    rename_i lead ih
    obtain rfl : c = '#' := beq_iff_eq.mp hcomment
    rw [hdrop] at hrest
    cases hrest with
    | @cons _ _ after' _ hafter =>
      obtain ⟨hend, hmore⟩ := hafter.restOfLine_aligned.first
      rw [List.drop_drop, List.drop_drop] at hmore
      have hstop : ((p'.advance (indentation cs')).advance ('#' :: Lexeme.restOfLine after')).line =
          p.line := by
        rw [line_restOfLine, line_indentation, hline]
      have hlast : stop.line = p.line := by
        simp only [stop, text, q, line_restOfLine, line_indentation]
      have hnext :
          (((p'.advance (indentation cs')).advance ('#' :: Lexeme.restOfLine after')).advance
          ((after'.drop (Lexeme.restOfLine after').length).take 1)).line =
          (stop.advance lineEnd).line :=
        Position.line_advance_eq (hstop.trans hlast.symm) (congrArg _ hend)
      obtain ⟨htrivia, hposition, hlast⟩ := ih hmore hnext _ rfl hmore.indentation_aligned.2
      rw [leadOf_of_cons hdrop', if_neg hnewline, if_pos hcomment]
      refine ⟨?_, hposition, hlast⟩
      rw [Lead.push, Lead.push, List.map_cons, List.map_cons, htrivia, hafter.comment_eq]
      have hplace : (p'.advance (indentation cs')).line = q.line := by
        rw [line_indentation, line_indentation, hline]
      exact congrArg (fun line => (Lexeme.comment text, line) :: _) hplace
  | case4 p cs c after hdrop hnewline hcomment =>
    rw [hdrop] at hrest
    cases hrest with
    | cons _ hafter =>
      rw [leadOf_of_cons hdrop', if_neg hnewline, if_neg hcomment]
      exact ⟨rfl, hline, h⟩

end Leads

namespace Lexer

/-- Two lexers before texts with the same lines, in the same place but for the columns. -/
structure InStep (lx lx' : Lexer) : Prop where
  rest : SameLines lx.rest lx'.rest
  line : lx'.position.line = lx.position.line
  widths : lx'.widths = lx.widths
  pending : lx'.pending.map kindAndLine = lx.pending.map kindAndLine
  atLineStart : lx'.atLineStart = lx.atLineStart
  finished : lx'.finished = lx.finished
  nesting : lx'.nesting = lx.nesting

section Steps

variable {lx lx' : Lexer}

theorem kindAndLine_marks {α : Type} (kind : α → TokenKind) (as : List α) {p p' : Position}
    (h : p'.line = p.line) :
    (as.map fun a => (⟨kind a, p'.mark⟩ : Token)).map kindAndLine =
      (as.map fun a => (⟨kind a, p.mark⟩ : Token)).map kindAndLine := by
  simp [kindAndLine, Token.line, Position.mark, Position.until, h]

theorem InStep.finish (h : InStep lx lx') {trivia trivia' : List Token}
    (htrivia : trivia'.map kindAndLine = trivia.map kindAndLine) :
    InStep (lx.finish [] trivia) (lx'.finish [] trivia') := by
  refine ⟨h.rest, h.line, rfl, ?_, h.atLineStart, rfl, h.nesting⟩
  simp only [Lexer.finish, List.nil_append, List.map_append, htrivia, h.widths]
  rw [kindAndLine_marks (fun _ => .dedent) lx.widths h.line]

/-- The text that is consumed has as many line ends, and what follows is the same. -/
theorem InStep.consume (h : InStep lx lx') {text text' : List Char}
    (hcount : text'.count '\n' = text.count '\n')
    (hrest : SameLines (lx.rest.drop text.length) (lx'.rest.drop text'.length)) :
    InStep (lx.consume text) (lx'.consume text') :=
  ⟨hrest, Position.line_advance_eq h.line hcount, h.widths, h.pending, h.atLineStart,
    h.finished, h.nesting⟩

theorem InStep.consume_aligned (h : InStep lx lx') {text text' : List Char}
    (hcount : text'.count '\n' = text.count '\n')
    (hrest : Aligned (lx.rest.drop text.length) (lx'.rest.drop text'.length)) :
    InStep (lx.consume text) (lx'.consume text') ∧
      Aligned (lx.consume text).rest (lx'.consume text').rest :=
  ⟨h.consume hcount (.of_aligned hrest), hrest⟩

theorem InStep.openLine (h : InStep lx lx') : InStep lx.openLine lx'.openLine := by
  obtain ⟨htrivia, hline, hrest⟩ := h.rest.leadOf_same h.line
  obtain ⟨hwidth, hcode⟩ := hrest.indentation_aligned
  have hlead : InStep
      { lx with rest := (leadOf lx.position lx.rest).rest,
                position := (leadOf lx.position lx.rest).position, atLineStart := false }
      { lx' with rest := (leadOf lx'.position lx'.rest).rest,
                 position := (leadOf lx'.position lx'.rest).position, atLineStart := false } :=
    ⟨hrest, hline, h.widths, h.pending, rfl, h.finished, h.nesting⟩
  obtain ⟨hblanks, haligned⟩ :=
    hlead.consume_aligned ((count_indentation _).trans (count_indentation _).symm) hcode
  unfold Lexer.openLine
  dsimp only
  generalize Lexer.consume _ (indentation (leadOf lx.position lx.rest).rest) =
    opened at hblanks haligned ⊢
  generalize Lexer.consume _ (indentation (leadOf lx'.position lx'.rest).rest) =
    opened' at hblanks haligned ⊢
  generalize hopened : opened.rest = rest at haligned
  generalize hopened' : opened'.rest = rest' at haligned
  cases haligned with
  | nil => exact hblanks.finish htrivia
  | cons hreturn hmore =>
    rw [hwidth, hblanks.widths]
    refine ⟨hmore.cons hreturn, hblanks.line, rfl, ?_, hblanks.atLineStart, hblanks.finished,
      hblanks.nesting⟩
    dsimp only
    rw [List.map_append, List.map_append, htrivia,
      kindAndLine_marks (fun kind => kind) _ hblanks.line]

theorem InStep.settle (h : InStep lx lx') : InStep lx.settle lx'.settle :=
  settle_simulated h.pending h.finished h.atLineStart h.openLine h

/-- The next token is read after a gap in which a backslash joins two lines. -/
def joinsLine (lx : Lexer) : Bool :=
  let lx := lx.settle
  lx.pending.isEmpty && !lx.finished && joins (0 < lx.nesting) false lx.rest

theorem InStep.scan (h : InStep lx lx') (hjoins : joins (0 < lx.nesting) false lx.rest = false)
    {t : Token} {after : Lexer} (hscan : lx.scan = (.ok t, after))
    (hstring : ∀ text, t.kind = .string text → '\n' ∉ text.toList) :
    ∃ t' after',
      lx'.scan = (.ok t', after') ∧ kindAndLine t' = kindAndLine t ∧ InStep after after' := by
  obtain ⟨hcount, hrest⟩ := h.rest.gap_aligned hjoins
  obtain ⟨hskipped, haligned⟩ := h.consume_aligned hcount hrest
  unfold Lexer.scan at hscan ⊢
  rw [h.nesting]
  dsimp only at hscan ⊢
  generalize Lexer.consume lx _ = skipped at hscan hskipped haligned
  generalize Lexer.consume lx' _ = skipped' at hskipped haligned ⊢
  generalize hrest : skipped.rest = rest at hscan haligned
  generalize hrest' : skipped'.rest = rest' at haligned ⊢
  cases haligned with
  | nil =>
    cases hscan
    exact ⟨_, _, rfl, Prod.ext rfl hskipped.line, hskipped.finish rfl⟩
  | @cons c cs cs' hreturn hmore =>
    dsimp only at hscan ⊢
    split at hscan
    · next kind hkind =>
      cases hscan
      obtain ⟨hkind', hlines, hafter⟩ := hmore.read_same hreturn hkind hstring
      have hread := hskipped.consume hlines (hrest ▸ hrest' ▸ hafter)
      rw [hkind']
      refine ⟨_, _, rfl, Prod.ext rfl hskipped.line, ?_⟩
      exact ⟨hread.rest, hread.line, hread.widths, hread.pending, rfl, hread.finished,
        congrArg (nestingAfter · kind) hskipped.nesting⟩
    · cases hscan

theorem InStep.next (h : InStep lx lx') (hjoins : lx.joinsLine = false) {t : Token} {after : Lexer}
    (hnext : lx.next = (.ok t, after))
    (hstring : ∀ text, t.kind = .string text → '\n' ∉ text.toList) :
    ∃ t' after', lx'.next = (.ok t', after') ∧ kindAndLine t' = kindAndLine t ∧
      InStep after after' := by
  have hsettled := h.settle
  have hend : kindAndLine ⟨.eof, lx'.settle.position.mark⟩ =
      kindAndLine ⟨.eof, lx.settle.position.mark⟩ :=
    Prod.ext rfl hsettled.line
  refine next_simulated hsettled.pending hsettled.finished hend (fun hts => ?_)
    (fun hdue hopen hscan => ?_) hnext
  · exact ⟨hsettled.rest, hsettled.line, hsettled.widths, hts, hsettled.atLineStart,
      hsettled.finished, hsettled.nesting⟩
  · refine hsettled.scan ?_ hscan hstring
    simpa [joinsLine, hdue, hopen] using hjoins

end Steps

theorem work_lt_of_next {lx after : Lexer} {t : Token} (hnext : lx.next = (.ok t, after))
    (hend : t.kind ≠ .eof) :
    after.work < lx.work := by
  have hwork := work_next lx
  rw [hnext] at hwork
  rcases hwork with hlt | ⟨u, hu, heof⟩
  · exact hlt
  · cases hu
    exact absurd heof hend

/-- A run joins two lines by a backslash. -/
def joinsLines (lx : Lexer) : Bool :=
  lx.joinsLine || match _h : lx.next with
    | (.error _, _) => false
    | (.ok t, after) => if _hend : t.kind = .eof then false else after.joinsLines
termination_by lx.work
decreasing_by exact work_lt_of_next _h _hend

theorem joinsLines_of_next {lx after : Lexer} {t : Token} (hnext : lx.next = (.ok t, after))
    (hend : t.kind ≠ .eof) (h : lx.joinsLines = false) : after.joinsLines = false := by
  rw [joinsLines, Bool.or_eq_false_iff] at h
  have hlast := h.2
  split at hlast
  · next heq =>
    rw [hnext] at heq
    cases heq
  · next heq =>
    rw [hnext] at heq
    cases heq
    rwa [dif_neg hend] at hlast

theorem joinsLine_of_joinsLines {lx : Lexer} (h : lx.joinsLines = false) :
    lx.joinsLine = false := by
  rw [joinsLines, Bool.or_eq_false_iff] at h
  exact h.1

theorem InStep.run {lx lx' : Lexer} (h : InStep lx lx') (hjoins : lx.joinsLines = false)
    {ts : List Token} (hrun : lx.run.1 = .ok ts)
    (hstrings : ∀ t ∈ ts, ∀ text, t.kind = .string text → '\n' ∉ text.toList) :
    ∃ ts', lx'.run.1 = .ok ts' ∧ ts'.map kindAndLine = ts.map kindAndLine := by
  refine run_simulated (R := fun lx lx' => InStep lx lx' ∧ lx.joinsLines = false)
    (fun heq => congrArg Prod.fst heq) (fun hsteps hstring hnext => ?_) ⟨h, hjoins⟩ hrun hstrings
  obtain ⟨h, hjoins⟩ := hsteps
  obtain ⟨t', after', hnext', heq, hafter⟩ := h.next (joinsLine_of_joinsLines hjoins) hnext hstring
  exact ⟨t', after', hnext', heq, fun hgoes => ⟨hafter, joinsLines_of_next hnext hgoes hjoins⟩⟩

end Lexer

/-- The lexer joins two lines of the source by a backslash. -/
def joinsLines (source : String) : Bool := (Lexer.start source.toList).joinsLines

/-- The source with a carriage return before every line end. -/
def withCarriageReturns (source : String) : String := String.ofList (withReturns source.toList)

/-- The tokens of a source and the lines that they are on do not depend on its line ends, if it has
no strings over line ends and no lines that are joined by a backslash. -/
theorem tokenize_lineEnds {source : String} {tokens : List Token} (hreturn : '\r' ∉ source.toList)
    (htokens : tokenize source = .ok tokens)
    (hstrings : ∀ t ∈ tokens, ∀ text, t.kind = .string text → '\n' ∉ text.toList)
    (hjoins : joinsLines source = false) :
    ∃ tokens', tokenize (withCarriageReturns source) = .ok tokens' ∧
      tokens'.map (fun t => (t.kind, t.line)) = tokens.map fun t => (t.kind, t.line) := by
  have hstart : Lexer.InStep (.start source.toList) (.start (withReturns source.toList)) :=
    ⟨sameLines_withReturns hreturn, rfl, rfl, rfl, rfl, rfl, rfl⟩
  rw [tokenize, withCarriageReturns, String.toList_ofList]
  exact hstart.run hjoins htokens hstrings

/-- A comment before a block, a blank line in it, and a call over two lines with a backslash in the
comment between them. -/
def returnText : String := "if x: # a\n\n y(1, # b \\\n 'c')\n"

def returnTokens : List Token := [
  ⟨.keyword .ifBranch, ⟨0, 2, 1, 0⟩⟩, ⟨.identifier "x", ⟨3, 4, 1, 3⟩⟩,
  ⟨.symbol .colon, ⟨4, 5, 1, 4⟩⟩, ⟨.comment " a", ⟨6, 9, 1, 6⟩⟩, ⟨.newline, ⟨9, 10, 1, 9⟩⟩,
  ⟨.indent, ⟨12, 12, 3, 1⟩⟩, ⟨.blankLine, ⟨10, 10, 2, 0⟩⟩, ⟨.identifier "y", ⟨12, 13, 3, 1⟩⟩,
  ⟨.symbol .leftParen, ⟨13, 14, 3, 2⟩⟩, ⟨.integer 1, ⟨14, 15, 3, 3⟩⟩,
  ⟨.symbol .comma, ⟨15, 16, 3, 4⟩⟩, ⟨.string "c", ⟨24, 27, 4, 1⟩⟩,
  ⟨.symbol .rightParen, ⟨27, 28, 4, 4⟩⟩, ⟨.newline, ⟨28, 29, 4, 5⟩⟩, ⟨.dedent, ⟨29, 29, 5, 0⟩⟩,
  ⟨.eof, ⟨29, 29, 5, 0⟩⟩]

theorem tokenize_lineEnds_return :
    '\r' ∉ returnText.toList ∧ tokenize returnText = .ok returnTokens ∧
    joinsLines returnText = false ∧
      ∃ tokens', tokenize (withCarriageReturns returnText) = .ok tokens' ∧
      tokens'.map (fun t => (t.kind, t.line)) = returnTokens.map fun t => (t.kind, t.line) := by
  have hreturn : '\r' ∉ returnText.toList := by decide +kernel
  have htokens : tokenize returnText = .ok returnTokens := by decide +kernel
  have hjoins : joinsLines returnText = false := by decide +kernel
  have hstrings : ∀ t ∈ returnTokens, ∀ text, t.kind = .string text → '\n' ∉ text.toList := by
    simp [returnTokens]
  exact ⟨hreturn, htokens, hjoins, tokenize_lineEnds hreturn htokens hstrings hjoins⟩

/-- A sum over two lines. -/
def joinedText : String := "x = 1 + \\\n2\n"

def joinedTokens : List Token := [
  ⟨.identifier "x", ⟨0, 1, 1, 0⟩⟩, ⟨.symbol .equal, ⟨2, 3, 1, 2⟩⟩, ⟨.integer 1, ⟨4, 5, 1, 4⟩⟩,
  ⟨.symbol .plus, ⟨6, 7, 1, 6⟩⟩, ⟨.integer 2, ⟨10, 11, 2, 0⟩⟩, ⟨.newline, ⟨11, 12, 2, 1⟩⟩,
  ⟨.eof, ⟨12, 12, 3, 0⟩⟩]

/-- With carriage returns the backslash is a token of its own, and the line ends after it. -/
theorem tokenize_joined :
    '\r' ∉ joinedText.toList ∧ tokenize joinedText = .ok joinedTokens ∧
    (∀ t ∈ joinedTokens, ∀ text, t.kind = .string text → '\n' ∉ text.toList) ∧
    ∃ tokens', tokenize (withCarriageReturns joinedText) = .ok tokens' ∧
      tokens'.map Token.kind =
        [.identifier "x", .symbol .equal, .integer 1, .symbol .plus, .unknown "\\",
        .newline, .integer 2, .newline, .eof] ∧
      tokens'.map Token.kind ≠ joinedTokens.map Token.kind := by
  have htokens : tokenize (withCarriageReturns joinedText) = .ok [
      ⟨.identifier "x", ⟨0, 1, 1, 0⟩⟩, ⟨.symbol .equal, ⟨2, 3, 1, 2⟩⟩, ⟨.integer 1, ⟨4, 5, 1, 4⟩⟩,
      ⟨.symbol .plus, ⟨6, 7, 1, 6⟩⟩, ⟨.unknown "\\", ⟨8, 9, 1, 8⟩⟩, ⟨.newline, ⟨10, 11, 1, 10⟩⟩,
      ⟨.integer 2, ⟨11, 12, 2, 0⟩⟩, ⟨.newline, ⟨13, 14, 2, 2⟩⟩,
      ⟨.eof, ⟨14, 14, 3, 0⟩⟩] := by decide +kernel
  refine ⟨by decide +kernel, by decide +kernel, by simp [joinedTokens], _, htokens, rfl, ?_⟩
  decide +kernel

end Token

end Sketchwright
