import Mathlib.Data.List.TakeWhile
import Sketchwright.Proofs.Tiling

/-! Indentation against the physical lines of a text. The marks of blocks before a logical
line are those that its indentation asks for, and the widths that they stand for are read off
the lines themselves. -/

namespace Sketchwright.Token

open Text

/-- A physical line with more than blanks and a comment. -/
def hasCode (line : List Char) : Bool :=
  match line.drop (indentation line).length with
  | [] => false
  | c :: _ => c != '#'

/-- The indentation of the first line with code after the first `n` lines. -/
def widthBelow (source : List Char) (n : Nat) : Option Nat :=
  (((source.splitOn '\n').drop n).find? hasCode).map fun line => widthOf (indentation line)

/-- The indentation before a token in its line. -/
def widthBefore (source : List Char) (t : Token) : Nat :=
  widthOf (((source.splitOn '\n').drop (t.line - 1)).headD [] |>.take t.span.column)

/-- The widths of the open blocks, innermost first, after one more token. -/
def blockStep (source : List Char) (widths : List Nat) (t : Token) : Option (List Nat) :=
  match t.kind with
  | .indent => some (widthBefore source t :: widths)
  | .dedent =>
    match widths with
    | [] => none
    | _ :: outer => some outer
  | _ => some widths

/-- The widths of the blocks that are open after some tokens, when `outer` are open before them.
There are none when the tokens close a block that is not open. -/
def openBlocks (source : List Char) (outer : List Nat) (ts : List Token) : Option (List Nat) :=
  ts.foldlM (blockStep source) outer

/-- The number of the line that ends with these tokens: zero when there is no token, and nothing
when the last token does not end a logical line. -/
def lineEnd? (ts : List Token) : Option Nat :=
  match ts.getLast? with
  | none => some 0
  | some t => if t.kind = .newline then some t.line else none

/-- The indentation of the logical line that starts after these tokens, when one starts there. -/
def nextWidth (source : List Char) (ts : List Token) : Option Nat :=
  (lineEnd? ts).bind (widthBelow source)

/-- At the head of `back` stand the marks that lead from the blocks that are open after `front` to
those of a line with this width. -/
def LineOpens (source : List Char) (front back : List Token) (width : Nat) : Prop :=
  ∃ outer, openBlocks source [] front = some outer ∧ outer.Pairwise (· > ·) ∧
    (back.takeWhile marksBlock).map Token.kind = (layout width outer).2 ∧
    openBlocks source outer (back.takeWhile marksBlock) = some (layout width outer).1

section PhysicalLines

variable {before rest blanks line : List Char} {c : Char}

theorem splitOn_line (more : List Char) (h : '\n' ∉ line) :
    (line ++ '\n' :: more).splitOn '\n' = line :: more.splitOn '\n' := by
  refine List.splitOnP_append_cons_of_forall_mem (fun c hc => ?_) '\n' (by simp) more
  simpa using ne_of_mem_of_not_mem hc h

theorem splitOn_last (h : '\n' ∉ line) : line.splitOn '\n' = [line] := by
  induction line with
  | nil => exact List.splitOn_nil _
  | cons c line ih =>
    obtain ⟨hc, hline⟩ := not_or.mp (List.mem_cons.not.mp h)
    have hlast := ih hline
    unfold List.splitOn at hlast ⊢
    rw [List.splitOnP_cons_eq_if_modifyHead, hlast, if_neg (by simpa using Ne.symm hc)]
    rfl

theorem length_splitOn (cs : List Char) : (cs.splitOn '\n').length = cs.count '\n' + 1 := by
  induction cs with
  | nil => rfl
  | cons c cs ih =>
    unfold List.splitOn at ih ⊢
    rw [List.splitOnP_cons_eq_if_modifyHead, List.count_cons]
    split
    · rw [List.length_cons, ih]
    · rw [List.length_modifyHead, ih]

/-- At the start of a line the lines that are left are those of the text that is left. -/
theorem drop_splitOn (hstart : lastLine before = []) :
    ((before ++ rest).splitOn '\n').drop (before.count '\n') = rest.splitOn '\n' := by
  induction before using List.reverseRecOn with
  | nil => rfl
  | append_singleton before c _ =>
    have hc : c = '\n' := by
      by_contra hne
      simp [lastLine, hne] at hstart
    subst hc
    have hlines : (before ++ '\n' :: rest).splitOn '\n' =
        before.splitOn '\n' ++ rest.splitOn '\n' :=
      List.splitOnP_append_cons before rest (by simp)
    have hlength : (before ++ ['\n']).count '\n' = (before.splitOn '\n').length := by
      rw [length_splitOn, List.count_append]
      rfl
    rw [List.append_assoc, List.singleton_append, hlines, hlength, List.drop_left]

theorem isSpace_of_mem_indentation {cs : List Char} (h : c ∈ indentation cs) : isSpace c = true :=
  List.all_eq_true.mp (List.all_takeWhile ..) c h

theorem not_mem_indentation (cs : List Char) : '\n' ∉ indentation cs := fun h => by
  have hspace := isSpace_of_mem_indentation h
  simp [isSpace] at hspace

/-- Indentation ends at the first character that is no blank. -/
theorem indentation_of_blanks (hblanks : ∀ c ∈ blanks, isSpace c = true) (hc : isSpace c = false) :
    indentation (blanks ++ c :: rest) = blanks := by
  rw [indentation, List.takeWhile_append_of_pos hblanks, List.takeWhile_cons_of_neg (by simp [hc]),
    List.append_nil]

theorem hasCode_of_blanks (hblanks : ∀ c ∈ blanks, isSpace c = true) (hc : isSpace c = false) :
    hasCode (blanks ++ c :: rest) = (c != '#') := by
  rw [hasCode, indentation_of_blanks hblanks hc, List.drop_left]

theorem hasCode_blanks (hblanks : ∀ c ∈ blanks, isSpace c = true) : hasCode blanks = false := by
  have hall : indentation blanks = blanks := List.takeWhile_eq_self_iff.mpr hblanks
  rw [hasCode, hall, List.drop_length]

theorem drop_takeWhile (p : Char → Bool) (cs : List Char) :
    cs.drop (cs.takeWhile p).length = cs.dropWhile p :=
  List.append_cancel_left
    ((prefix_append_drop (List.takeWhile_prefix p)).trans List.takeWhile_append_dropWhile.symm)

theorem isSpace_of_drop {cs : List Char} (h : cs.drop (indentation cs).length = c :: rest) :
    isSpace c = false := by
  have hnot := List.head?_dropWhile_not isSpace cs
  rw [← drop_takeWhile, ← indentation, h] at hnot
  simpa using hnot

/-- The first line of a text that starts with no line feed, and the code in the lines after it. -/
theorem splitOn_code (after : List Char) (h : '\n' ∉ line) :
    ∃ others, (line ++ after).splitOn '\n' = (line ++ Lexeme.restOfLine after) :: others ∧
      others.find? hasCode =
        ((after.drop ((Lexeme.restOfLine after).length + 1)).splitOn '\n').find? hasCode := by
  have hline : '\n' ∉ line ++ Lexeme.restOfLine after := by simp [h, not_mem_restOfLine]
  have hafter : Lexeme.restOfLine after ++ after.dropWhile (· != '\n') = after :=
    List.takeWhile_append_dropWhile
  have hnot := List.head?_dropWhile_not (· != '\n') after
  rw [← List.drop_drop, Lexeme.restOfLine, drop_takeWhile, ← Lexeme.restOfLine]
  generalize after.dropWhile (· != '\n') = tail at hafter hnot
  cases tail with
  | nil =>
    rw [List.append_nil] at hafter
    refine ⟨[], ?_, rfl⟩
    rw [hafter] at hline ⊢
    exact splitOn_last hline
  | cons c tail =>
    obtain rfl : c = '\n' := by simpa using hnot
    refine ⟨tail.splitOn '\n', ?_, rfl⟩
    have hlines := splitOn_line tail hline
    rwa [List.append_assoc, hafter] at hlines

/-- The first line with code is the one that a lexer looks for. -/
theorem leadOf_code (p : Position) (cs : List Char) :
    ((cs.splitOn '\n').find? hasCode).map indentation =
      if (leadOf p cs).rest.drop (indentation (leadOf p cs).rest).length = [] then none
      else some (indentation (leadOf p cs).rest) := by
  induction h : cs.length using Nat.strongRecOn generalizing p cs with
  | ind n ih =>
    subst h
    have hblanks : ∀ c ∈ indentation cs, isSpace c = true :=
      fun c hc => isSpace_of_mem_indentation hc
    have hcs := indentation_append cs
    unfold leadOf
    split
    · next hdrop =>
      have hall : indentation cs = cs := by rwa [hdrop, List.append_nil] at hcs
      have hline := not_mem_indentation cs
      rw [hall] at hline hblanks
      rw [splitOn_last hline,
        List.find?_cons_of_neg (Bool.eq_false_iff.mp (hasCode_blanks hblanks)), hdrop, if_pos rfl]
      rfl
    next c after hdrop =>
    have hc := isSpace_of_drop hdrop
    rw [hdrop] at hcs
    have hlength := congrArg List.length hcs
    simp only [List.length_append, List.length_cons] at hlength
    dsimp only
    split
    · next hnewline =>
      obtain rfl : c = '\n' := by simpa using hnewline
      have hlines := splitOn_line after (not_mem_indentation cs)
      rw [hcs] at hlines
      rw [hlines, List.find?_cons_of_neg (Bool.eq_false_iff.mp (hasCode_blanks hblanks))]
      exact ih after.length (by omega) _ after rfl
    next hnewline =>
    have hline : '\n' ∉ indentation cs ++ [c] := by
      have hne : '\n' ≠ c := fun hc => hnewline (by simp [← hc])
      simp [not_mem_indentation, hne]
    obtain ⟨others, hlines, hothers⟩ := splitOn_code after hline
    rw [List.append_assoc, List.append_assoc, List.singleton_append, List.singleton_append,
      hcs] at hlines
    rw [hlines]
    split
    · next hcomment =>
      have hcode : hasCode (indentation cs ++ c :: Lexeme.restOfLine after) = false := by
        rw [hasCode_of_blanks hblanks hc]
        simpa using hcomment
      rw [List.find?_cons_of_neg (by simp [hcode]), hothers]
      have hless : (after.drop ((Lexeme.restOfLine after).length + 1)).length < cs.length := by
        rw [List.length_drop]
        omega
      exact ih _ hless _ _ rfl
    · next hcomment =>
      have hcode : hasCode (indentation cs ++ c :: Lexeme.restOfLine after) = true := by
        rw [hasCode_of_blanks hblanks hc]
        simpa using hcomment
      rw [List.find?_cons_of_pos hcode, hdrop, if_neg (by simp), Option.map_some,
        indentation_of_blanks hblanks hc]

/-- The next line of code starts a physical line. -/
theorem leadOf_column (p : Position) (cs : List Char) (h : p.column = 0) :
    (leadOf p cs).rest = [] ∨ (leadOf p cs).position.column = 0 := by
  fun_induction leadOf p cs with
  | case1 => exact .inr h
  | case2 p cs c after _ q hc ih =>
    obtain rfl : c = '\n' := by simpa using hc
    exact ih rfl
  | case3 p cs c after _ q _ _ text stop lineEnd lead ih =>
    have htail : after.drop (Lexeme.restOfLine after).length = after.dropWhile (· != '\n') :=
      drop_takeWhile _ after
    have hnot := List.head?_dropWhile_not (· != '\n') after
    simp only [lead, lineEnd, ← List.drop_drop, htail] at ih ⊢
    generalize after.dropWhile (· != '\n') = tail at hnot ih ⊢
    cases tail with
    | nil =>
      have hlength := Lexer.leadOf_length (stop.advance (([] : List Char).take 1)) []
      exact .inl (List.eq_nil_of_length_eq_zero
        (Nat.le_zero.mp (Nat.le_trans (Nat.le_add_left _ _) hlength)))
    | cons d tail =>
      obtain rfl : d = '\n' := by simpa using hnot
      exact ih rfl
  | case4 => exact .inr h

end PhysicalLines

section Blocks

variable {source : List Char} {outer inner : List Nat} {ts us : List Token}

def isIndent (t : Token) : Bool := t.kind == .indent

def isDedent (t : Token) : Bool := t.kind == .dedent

theorem openBlocks_append : openBlocks source outer (ts ++ us) =
    (openBlocks source outer ts).bind fun inner => openBlocks source inner us :=
  List.foldlM_append

theorem openBlocks_cons {t : Token} : openBlocks source outer (t :: ts) =
    (blockStep source outer t).bind fun inner => openBlocks source inner ts :=
  rfl

theorem not_marksBlock_of_isTrivia {t : Token} (h : t.kind.isTrivia = true) :
    marksBlock t = false := by
  unfold marksBlock
  cases hkind : t.kind <;> simp_all [TokenKind.isTrivia]

/-- Tokens that mark no block keep the open blocks. -/
theorem openBlocks_of_plain (h : ∀ t ∈ ts, marksBlock t = false) :
    openBlocks source outer ts = some outer := by
  induction ts with
  | nil => rfl
  | cons t ts ih =>
    obtain ⟨ht, hts⟩ := List.forall_mem_cons.mp h
    have hstep : blockStep source outer t = some outer := by
      unfold blockStep
      split <;> simp_all [marksBlock]
    rw [openBlocks_cons, hstep]
    exact ih hts

theorem openBlocks_dedents (p : Position) (closed outer : List Nat) :
    openBlocks source (closed ++ outer) (closed.map fun _ => ⟨.dedent, p.mark⟩) = some outer := by
  induction closed with
  | nil => rfl
  | cons width closed ih => exact ih

/-- As many dedents as there are open blocks close them all. -/
theorem openBlocks_close (p : Position) (widths : List Nat) :
    openBlocks source widths (widths.map fun _ => ⟨.dedent, p.mark⟩) = some [] := by
  have hall : openBlocks source (widths ++ []) _ = _ := openBlocks_dedents p widths []
  rwa [List.append_nil] at hall

/-- Every indent opens a block and every dedent closes one. -/
theorem openBlocks_count (h : openBlocks source outer ts = some inner) :
    ts.countP isIndent + outer.length = ts.countP isDedent + inner.length := by
  induction ts generalizing outer with
  | nil =>
    cases h
    rfl
  | cons t ts ih =>
    rw [openBlocks_cons] at h
    obtain ⟨middle, hstep, hts⟩ := Option.bind_eq_some_iff.mp h
    have hcount := ih hts
    simp only [List.countP_cons, isIndent, isDedent]
    unfold blockStep at hstep
    split at hstep
    · next hkind =>
      cases hstep
      simp [hkind] at hcount ⊢
      omega
    · next hkind =>
      cases outer with
      | nil => cases hstep
      | cons width outer =>
        cases hstep
        simp [hkind] at hcount ⊢
        omega
    · next hindent hdedent =>
      cases hstep
      have hindent : t.kind ≠ .indent := hindent
      have hdedent : t.kind ≠ .dedent := hdedent
      simp [hindent, hdedent] at hcount ⊢
      omega

/-- A list of tokens that closes no block but those that it opens has no part that does. -/
theorem openBlocks_of_prefix (h : openBlocks source outer us = some inner) (hts : ts <+: us) :
    ∃ middle, openBlocks source outer ts = some middle := by
  obtain ⟨rest, rfl⟩ := hts
  rw [openBlocks_append] at h
  obtain ⟨middle, hmiddle, -⟩ := Option.bind_eq_some_iff.mp h
  exact ⟨middle, hmiddle⟩

/-- The marks before a line of code lead from the blocks that were open to those
that its width asks for. -/
theorem openBlocks_layout {p : Position} {width : Nat}
    (hwidth : widthBefore source ⟨.indent, p.mark⟩ = width) (outer : List Nat) :
    openBlocks source outer ((layout width outer).2.map fun kind => ⟨kind, p.mark⟩) =
      some (layout width outer).1 := by
  have hsplit : outer.takeWhile (width < ·) ++ outer.dropWhile (width < ·) = outer :=
    List.takeWhile_append_dropWhile
  have hclosed : openBlocks source outer
      (((outer.takeWhile (width < ·)).map fun _ => TokenKind.dedent).map
      fun kind => ⟨kind, p.mark⟩) = some (outer.dropWhile (width < ·)) := by
    have hdedents : openBlocks source
        (outer.takeWhile (width < ·) ++ outer.dropWhile (width < ·)) _ = _ :=
      openBlocks_dedents p (outer.takeWhile (width < ·)) (outer.dropWhile (width < ·))
    rw [hsplit] at hdedents
    rwa [List.map_map]
  unfold layout
  dsimp only
  split
  · rw [List.map_append, openBlocks_append, hclosed]
    have hindent : openBlocks source (outer.dropWhile (width < ·)) [⟨.indent, p.mark⟩] =
        some (width :: outer.dropWhile (width < ·)) := by
      rw [← hwidth]
      rfl
    exact hindent
  · exact hclosed

end Blocks

theorem lastLine_append {before line : List Char} (h : '\n' ∉ line) :
    lastLine (before ++ line) = lastLine before ++ line := by
  have hline : ∀ c ∈ line.reverse, (c != '\n') = true := fun c hc => by
    simpa using ne_of_mem_of_not_mem (List.mem_reverse.mp hc) h
  rw [lastLine, List.reverse_append, List.takeWhile_append_of_pos hline, List.reverse_append,
    List.reverse_reverse, lastLine]

/-- The width before a token is that of the blanks with which its line starts. -/
theorem widthBefore_of_blanks {front blanks : List Char} (rest : List Char) (kind : TokenKind)
    (hfront : lastLine front = []) (hblanks : '\n' ∉ blanks) :
    widthBefore (front ++ (blanks ++ rest))
      ⟨kind, (Position.start.advance (front ++ blanks)).mark⟩ = widthOf blanks := by
  obtain ⟨others, hlines, -⟩ := splitOn_code rest hblanks
  have hline : (Position.start.advance (front ++ blanks)).line - 1 = front.count '\n' := by
    rw [Position.advance_start, List.count_append, List.count_eq_zero.mpr hblanks]
    dsimp only
    omega
  have hcolumn : (Position.start.advance (front ++ blanks)).column = blanks.length := by
    rw [Position.advance_start, lastLine_append hblanks, hfront, List.nil_append]
  unfold widthBefore
  dsimp only [Token.line, Position.mark, Position.until]
  rw [hline, hcolumn, drop_splitOn hfront, hlines, List.headD_cons, List.take_left]

namespace Lexer

variable {lx after : Lexer} {source before : List Char} {p : Point} {done : List Token}

/-- How a lexer before line `n + 1` is left in front of the next line of code. -/
inductive Opened (source : List Char) (n : Nat) (lx after : Lexer) : Prop
  /-- No code is left: the blocks that are open end. -/
  | last {place : Position} {trivia : List Token} (hnone : widthBelow source n = none)
      (hpending : after.pending = (lx.widths.map fun _ => ⟨.dedent, place.mark⟩) ++ trivia)
      (htrivia : ∀ t ∈ trivia, t.kind.isTrivia = true) (hwidths : after.widths = [])
      (hfinished : after.finished = true)
  | line {width : Nat} {place : Position} {trivia : List Token}
    (hsome : widthBelow source n = some width)
      (hplace : widthBefore source ⟨.indent, place.mark⟩ = width)
      (hpending : after.pending =
        ((layout width lx.widths).2.map fun kind => ⟨kind, place.mark⟩) ++ trivia)
      (htrivia : ∀ t ∈ trivia, t.kind.isTrivia = true)
        (hwidths : after.widths = (layout width lx.widths).1)
      (hfinished : after.finished = false) (hstart : after.atLineStart = false)

theorem openLine_opened (h : Stands source before p lx) (hfinished : lx.finished = false)
    (hcolumn : lx.position.column = 0) : Opened source (lx.position.line - 1) lx lx.openLine := by
  have hcode := leadOf_code lx.position lx.rest
  have hrest := leadOf_column lx.position lx.rest hcolumn
  have htrivia := leadOf_trivia lx.position lx.rest
  obtain ⟨front, hreaches, hfront⟩ := leadOf_reaches before lx.rest lx.nesting
  have htext := hreaches.text
  rw [← h.position] at htext hfront
  dsimp only at htext
  rw [← h.text] at htext
  have hposition := h.position
  rw [Position.advance_start] at hposition
  have hbefore : lastLine before = [] := by
    rw [hposition] at hcolumn
    exact List.eq_nil_of_length_eq_zero hcolumn
  have hnumber : lx.position.line - 1 = before.count '\n' := by
    rw [hposition]
    exact Nat.add_sub_cancel_left 1 _
  have hlines : (source.splitOn '\n').drop (before.count '\n') = lx.rest.splitOn '\n' := by
    rw [h.text, drop_splitOn hbefore]
  have hblanks := indentation_append (leadOf lx.position lx.rest).rest
  rw [hnumber]
  unfold openLine
  dsimp only [consume]
  split
  · next hnil =>
    rw [if_pos hnil] at hcode
    have hnone : widthBelow source (before.count '\n') = none := by
      rw [widthBelow, hlines]
      simpa using hcode
    exact .last hnone rfl htrivia rfl rfl
  · next c rest hcons =>
    rw [if_neg (by simp [hcons])] at hcode
    have hsome : widthBelow source (before.count '\n') =
        some (widthOf (indentation (leadOf lx.position lx.rest).rest)) := by
      have hmap := congrArg (Option.map widthOf) hcode
      rw [Option.map_map] at hmap
      rw [widthBelow, hlines]
      exact hmap
    have hfront' : lastLine front = [] := by
      rcases hrest with hnil | hcolumn
      · simp [hnil] at hcons
      · rw [hfront, Position.advance_start] at hcolumn
        exact List.eq_nil_of_length_eq_zero hcolumn
    have hplace : widthBefore source ⟨.indent, ((leadOf lx.position lx.rest).position.advance
        (indentation (leadOf lx.position lx.rest).rest)).mark⟩ =
          widthOf (indentation (leadOf lx.position lx.rest).rest) := by
      have hwidth := widthBefore_of_blanks (c :: rest) .indent hfront'
        (not_mem_indentation (leadOf lx.position lx.rest).rest)
      rwa [← hcons, hblanks, ← htext, Position.advance_append, ← hfront] at hwidth
    exact .line hsome hplace rfl htrivia rfl hfinished rfl

/-- What a lexer that has delivered `done` knows about blocks. -/
structure Laid (source : List Char) (done : List Token) (lx : Lexer) : Prop where
  widths : openBlocks source [] (done ++ lx.pending) = some lx.widths
  sorted : lx.widths.Pairwise (· > ·)
  closed : lx.finished = true → lx.widths = []
  pending : ∀ t ∈ lx.pending, marksBlock t = true ∨ t.kind.isTrivia = true
  column : lx.atLineStart = true → lx.finished = false → lx.position.column = 0

/-- Where a logical line ends with `done` the lexer is in front of the next physical line, unless
there is no further code. -/
def AtLine (source : List Char) (done : List Token) (lx : Lexer) : Prop :=
  ∀ n, lineEnd? done = some n → widthBelow source n = none ∨
    lx.pending = [] ∧ lx.atLineStart = true ∧ lx.finished = false ∧ lx.position.line = n + 1

theorem layout_sorted {width : Nat} {widths : List Nat} (h : widths.Pairwise (· > ·)) :
    (layout width widths).1.Pairwise (· > ·) := by
  have hkept := h.sublist (List.dropWhile_suffix (width < ·)).sublist
  unfold layout
  dsimp only
  generalize widths.dropWhile (width < ·) = kept at hkept
  split
  · next hopen =>
    refine List.pairwise_cons.mpr ⟨fun v hv => ?_, hkept⟩
    cases kept with
    | nil => cases hv
    | cons top kept =>
      have htop : top < width := hopen
      rcases List.mem_cons.mp hv with rfl | hv
      · exact htop
      · exact Nat.lt_trans ((List.pairwise_cons.mp hkept).1 v hv) htop
  · exact hkept

theorem Opened.laid {n : Nat} (h : Laid source done lx) (hpending : lx.pending = [])
    (hopened : Opened source n lx after) : Laid source done after := by
  have hwidths := h.widths
  rw [hpending, List.append_nil] at hwidths
  cases hopened with
  | @last place trivia _ hpending' htrivia hwidths' hfinished =>
    refine ⟨?_, by rw [hwidths']; exact .nil, fun _ => hwidths', ?_, fun _ h => ?_⟩
    · rw [hpending', openBlocks_append, hwidths, Option.bind_some, openBlocks_append,
        openBlocks_close, Option.bind_some, openBlocks_of_plain fun t ht =>
        not_marksBlock_of_isTrivia (htrivia t ht), hwidths']
    · rw [hpending']
      intro t ht
      rcases List.mem_append.mp ht with ht | ht
      · obtain ⟨_, -, rfl⟩ := List.mem_map.mp ht
        exact .inl rfl
      · exact .inr (htrivia t ht)
    · rw [hfinished] at h
      cases h
  | @line width place trivia _ hplace hpending' htrivia hwidths' hfinished hstart =>
    refine ⟨?_, by rw [hwidths']; exact layout_sorted h.sorted, fun h => ?_, ?_, fun h => ?_⟩
    · rw [hpending', openBlocks_append, hwidths, Option.bind_some, openBlocks_append,
        openBlocks_layout hplace, Option.bind_some, openBlocks_of_plain fun t ht =>
        not_marksBlock_of_isTrivia (htrivia t ht), hwidths']
    · rw [hfinished] at h
      cases h
    · rw [hpending']
      intro t ht
      rcases List.mem_append.mp ht with ht | ht
      · obtain ⟨kind, hkind, rfl⟩ := List.mem_map.mp ht
        left
        rcases layout_marksBlock _ _ kind hkind with rfl | rfl <;> rfl
      · exact .inr (htrivia t ht)
    · rw [hstart] at h
      cases h

theorem settle_laid (hs : Stands source before p lx) (h : Laid source done lx) :
    Laid source done lx.settle := by
  unfold settle
  split
  · next hline =>
    simp only [Bool.and_eq_true, List.isEmpty_iff, Bool.not_eq_true'] at hline
    obtain ⟨⟨hpending, hfinished⟩, hstart⟩ := hline
    exact (openLine_opened hs hfinished (h.column hstart hfinished)).laid h hpending
  · exact h

theorem lineEnd?_concat (t : Token) :
    lineEnd? (done ++ [t]) = if t.kind = .newline then some t.line else none := by
  simp [lineEnd?]

/-- After the last line feed of a text there is no further line. -/
theorem widthBelow_last (source : List Char) :
    widthBelow source (source.count '\n' + 1) = none := by
  have hnone : (source.splitOn '\n').drop (source.count '\n' + 1) = [] :=
    List.drop_eq_nil_of_le (Nat.le_of_eq (length_splitOn source))
  rw [widthBelow, hnone]
  rfl

theorem text_of_newline {c : Char} {cs : List Char} (h : (Lexeme.read c cs).kind = .ok .newline) :
    (Lexeme.read c cs).text = ['\n'] := by
  have hdenotes : Denotes (Lexeme.read c cs).text [] .newline := read_denotes h
  rcases hdenotes with htext | ⟨hnil, -⟩
  · exact htext
  · exact absurd hnil (Lexeme.read_text_ne_nil c cs)

theorem scan_laid (hs : Stands source before p lx) (h : Laid source done lx)
    (hpending : lx.pending = []) (hfinished : lx.finished = false) {t : Token}
    (hscan : lx.scan = (.ok t, after)) :
    Laid source (done ++ [t]) after ∧ AtLine source (done ++ [t]) after := by
  obtain ⟨line, text, rest, hgap, hrest, -, -, hline, -⟩ :=
    gap_skips (0 < lx.nesting) false lx.rest (by simp)
  obtain rfl := hline rfl
  rw [List.nil_append] at hgap hrest
  have hwidths := h.widths
  rw [hpending, List.append_nil] at hwidths
  have hplain : ∀ {t : Token}, marksBlock t = false →
      openBlocks source [] (done ++ [t]) = some lx.widths := by
    intro t ht
    rw [openBlocks_append, hwidths, Option.bind_some,
      openBlocks_of_plain (List.forall_mem_singleton.mpr ht)]
  have hposition : (lx.consume text).position = Position.start.advance (before ++ text) := by
    simp only [consume, hs.position, Position.advance_append]
  unfold scan at hscan
  rw [hgap] at hscan
  dsimp only at hscan
  split at hscan
  · next hnil =>
    cases hscan
    have hsource : before ++ text = source := by
      have hdrop : rest = [] := by simpa [consume, hrest] using hnil
      rw [hs.text, hrest, hdrop, List.append_nil]
    refine ⟨⟨?_, .nil, fun _ => rfl, ?_, fun _ h => by cases h⟩, fun n hn => .inl ?_⟩
    · have hall : openBlocks source [] (done ++ [⟨.newline, (lx.consume text).position.mark⟩] ++
          lx.widths.map fun _ => ⟨.dedent, (lx.consume text).position.mark⟩) = some [] := by
        rw [openBlocks_append, hplain rfl, Option.bind_some, openBlocks_close]
      simpa [finish, consume] using hall
    · intro t ht
      simp only [finish, List.nil_append, List.append_nil] at ht
      obtain ⟨_, -, rfl⟩ := List.mem_map.mp ht
      exact .inl rfl
    · rw [lineEnd?_concat, if_pos rfl] at hn
      have hnumber : n = source.count '\n' + 1 := by
        rw [← Option.some.inj hn]
        dsimp only [Token.line, Position.mark, Position.until]
        rw [hposition, hsource, Position.advance_start]
        exact Nat.add_comm 1 _
      rw [hnumber]
      exact widthBelow_last source
  · next c cs hcs =>
    split at hscan
    · next kind hkind =>
      cases hscan
      have hnone : (lx.consume text).pending = [] := hpending
      -- the place after a line feed
      have hnext : kind = .newline → ((lx.consume text).consume (Lexeme.read c cs).text).position =
          (lx.consume text).position.next '\n' := by
        rintro rfl
        rw [text_of_newline hkind]
        rfl
      refine ⟨⟨?_, h.sorted, h.closed, ?_, fun hstart _ => ?_⟩, fun n hn => .inr ?_⟩
      · dsimp only [consume] at hnone ⊢
        rw [hnone, List.append_nil]
        exact hplain (marksBlock_of_read hkind)
      · dsimp only [consume] at hnone ⊢
        rw [hnone]
        exact List.forall_mem_nil _
      · dsimp only at hstart ⊢
        rw [hnext (by simpa using hstart)]
        simp [Position.next]
      · rw [lineEnd?_concat] at hn
        dsimp only [Token.line, Position.until] at hn
        split at hn
        · next hnewline =>
          refine ⟨hnone, by simp [hnewline], hfinished, ?_⟩
          dsimp only
          rw [hnext hnewline, ← Option.some.inj hn]
          simp [Position.next]
        · cases hn
    · cases hscan

/-- Scanning never ends the text. -/
theorem kind_of_scan {t : Token} (hscan : lx.scan = (.ok t, after)) : t.kind ≠ .eof := by
  unfold scan at hscan
  dsimp only at hscan
  split at hscan
  · cases hscan
    simp
  · next c cs _ =>
    split at hscan
    · next hkind =>
      cases hscan
      rintro rfl
      have hdenotes : Denotes (Lexeme.read c cs).text [] .eof := read_denotes hkind
      exact Lexeme.read_text_ne_nil c cs hdenotes.1
    · cases hscan

/-- Delivering a token keeps what is known about blocks, and after the end of a logical line
the next one is found. -/
theorem next_laid (hs : Stands source before p lx) (h : Laid source done lx) {t : Token}
    (hnext : lx.next = (.ok t, after)) :
    Laid source (done ++ [t]) after ∧ AtLine source (done ++ [t]) after ∧
      (t.kind = .eof → after.pending = [] ∧ after.finished = true) := by
  have hline : t.kind ≠ .newline → AtLine source (done ++ [t]) after := by
    intro hkind n hn
    rw [lineEnd?_concat, if_neg hkind] at hn
    cases hn
  replace h := settle_laid hs h
  obtain ⟨before', hs⟩ := settle_stands hs
  unfold next at hnext
  generalize lx.settle = lx at h hs hnext
  dsimp only at hnext
  split at hnext
  · next u us hpending =>
    cases hnext
    have hwidths := h.widths
    have hkinds := h.pending
    rw [hpending] at hwidths hkinds
    obtain ⟨ht, hus⟩ := List.forall_mem_cons.mp hkinds
    refine ⟨⟨by simpa using hwidths, h.sorted, h.closed, hus, h.column⟩, hline fun hkind => ?_,
      fun hkind => ?_⟩
    · simp [marksBlock, hkind, TokenKind.isTrivia] at ht
    · simp [marksBlock, hkind, TokenKind.isTrivia] at ht
  · next hpending =>
    split at hnext
    · next hfinished =>
      cases hnext
      have hwidths := h.widths
      rw [hpending, List.append_nil] at hwidths
      refine ⟨⟨?_, h.sorted, h.closed, h.pending, h.column⟩, hline (by simp),
        fun _ => ⟨hpending, hfinished⟩⟩
      rw [hpending, List.append_nil, openBlocks_append, hwidths]
      rfl
    · next hfinished =>
      obtain ⟨h', hline'⟩ := scan_laid hs h hpending (by simpa using hfinished) hnext
      exact ⟨h', hline', fun heof => absurd heof (kind_of_scan hnext)⟩

theorem next_settle (lx : Lexer) : lx.settle.next = lx.next := by
  have hsettle : lx.settle.settle = lx.settle := by
    unfold settle
    split
    · have hstart : lx.openLine.atLineStart = false := by
        unfold openLine
        dsimp only
        split <;> rfl
      rw [if_neg (by simp [hstart])]
    · rfl
  unfold next
  rw [hsettle]

/-- A run without a flaw ends with the end token or goes on after its first token. -/
theorem run_cases {ts : List Token} (hrun : lx.run.1 = .ok ts) :
    ∃ t after, lx.next = (.ok t, after) ∧
    (t.kind = .eof ∧ ts = [t] ∨ t.kind ≠ .eof ∧ ∃ us, ts = t :: us ∧ after.run.1 = .ok us) := by
  revert hrun
  fun_cases run lx with
  | case1 => exact fun h => (nomatch h)
  | case2 t after hnext heof =>
    rintro ⟨⟩
    exact ⟨t, after, hnext, .inl ⟨heof, rfl⟩⟩
  | case3 t after hnext heof more =>
    intro hrun
    cases hmore : more.1 with
    | error e =>
      rw [hmore] at hrun
      cases hrun
    | ok us =>
      rw [hmore] at hrun
      cases hrun
      exact ⟨t, after, hnext, .inr ⟨heof, us, rfl, hmore⟩⟩

/-- Tokens that are due are the first of a run. -/
theorem run_pending {ts us : List Token} (hpending : lx.pending = ts)
    (heof : ∀ t ∈ ts, t.kind ≠ .eof) (hrun : lx.run.1 = .ok us) :
    ∃ more, us = ts ++ more ∧ { lx with pending := [] }.run.1 = .ok more := by
  induction ts generalizing lx us with
  | nil =>
    rw [← hpending]
    exact ⟨us, by rw [hpending]; rfl, hrun⟩
  | cons t ts ih =>
    obtain ⟨ht, hts⟩ := List.forall_mem_cons.mp heof
    have hnext : lx.next = (.ok t, { lx with pending := ts }) := by
      simp [next, settle, hpending]
    obtain ⟨_, _, hnext', ⟨heof, -⟩ | ⟨-, vs, rfl, hvs⟩⟩ := run_cases hrun
    · cases hnext.symm.trans hnext'
      exact absurd heof ht
    cases hnext.symm.trans hnext'
    obtain ⟨more, rfl, hmore⟩ := ih rfl hts hvs
    exact ⟨more, rfl, hmore⟩

theorem marksBlock_of_scan {t : Token} (hscan : lx.scan = (.ok t, after)) :
    marksBlock t = false := by
  unfold scan at hscan
  dsimp only at hscan
  split at hscan
  · cases hscan
    rfl
  · split at hscan
    · next hkind =>
      cases hscan
      exact marksBlock_of_read hkind
    · cases hscan

/-- In a line of code the first token that is scanned marks no block. -/
theorem run_plain {ts : List Token} (hpending : lx.pending = []) (hfinished : lx.finished = false)
    (hstart : lx.atLineStart = false) (hrun : lx.run.1 = .ok ts) :
    ∀ t ∈ ts.head?, marksBlock t = false := by
  have hnext : lx.next = lx.scan := by
    simp [next, settle, hpending, hfinished, hstart]
  obtain ⟨t, after, hnext', hrest⟩ := run_cases hrun
  rw [hnext] at hnext'
  have ht := marksBlock_of_scan hnext'
  rcases hrest with ⟨-, rfl⟩ | ⟨-, us, rfl, -⟩ <;> simpa using ht

theorem run_of_next {t : Token} (hnext : lx.next = (.ok t, after)) :
    lx.run = if t.kind = .eof then (.ok [t], after)
      else (after.run.1.map (t :: ·), after.run.2) := by
  rw [run.eq_def]
  split
  · next hnext' => cases hnext.symm.trans hnext'
  · next hnext' =>
    cases hnext.symm.trans hnext'
    rfl

theorem run_cons {t : Token} (hnext : lx.next = (.ok t, after)) (ht : t.kind ≠ .eof)
    {us : List Token} (hrun : after.run.1 = .ok us) : lx.run.1 = .ok (t :: us) := by
  rw [run_of_next hnext, if_neg ht, hrun]
  rfl

/-- Two lexers of which the one has tokens due where the other has open a line
together or not at all. -/
theorem settle_simulated {α : Type} {view : Token → α} {R : Lexer → Lexer → Prop} {lx lx' : Lexer}
    (hpending : lx'.pending.map view = lx.pending.map view) (hfinished : lx'.finished = lx.finished)
    (hstart : lx'.atLineStart = lx.atLineStart) (hopened : R lx.openLine lx'.openLine)
    (h : R lx lx') :
    R lx.settle lx'.settle := by
  have hdue : lx'.pending.isEmpty = lx.pending.isEmpty := by
    have hempty := congrArg List.isEmpty hpending
    simpa using hempty
  unfold settle
  rw [hdue, hfinished, hstart]
  split
  · exact hopened
  · exact h

/-- A call is answered by a call of another lexer that has the same due, if it is
wherever it reads on. -/
theorem next_simulated {α : Type} {view : Token → α} {R : Lexer → Lexer → Prop}
    {lx lx' last : Lexer} {t : Token}
    (hpending : lx'.settle.pending.map view = lx.settle.pending.map view)
    (hfinished : lx'.settle.finished = lx.settle.finished)
    (hend : view ⟨.eof, lx'.settle.position.mark⟩ = view ⟨.eof, lx.settle.position.mark⟩)
    (hsettled : ∀ {ts ts'}, ts'.map view = ts.map view →
      R { lx.settle with pending := ts } { lx'.settle with pending := ts' })
    (hscan : lx.settle.pending = [] → lx.settle.finished = false → lx.settle.scan = (.ok t, last) →
      ∃ t' last', lx'.settle.scan = (.ok t', last') ∧ view t' = view t ∧ R last last')
    (hnext : lx.next = (.ok t, last)) :
    ∃ t' last', lx'.next = (.ok t', last') ∧ view t' = view t ∧ R last last' := by
  have hempty : lx.settle.pending = [] → lx'.settle.pending = [] := fun hdue =>
    List.map_eq_nil_iff.mp (hpending.trans (congrArg _ hdue))
  obtain ⟨u, us, hdue, heq⟩ | ⟨hdue, hclosed, heq⟩ | ⟨hdue, hopen, heq⟩ := lx.next_cases
  · cases heq.symm.trans hnext
    rw [hdue, List.map_cons] at hpending
    obtain ⟨u', us', hdue', hu, hus⟩ := List.map_eq_cons_iff.mp hpending
    exact ⟨u', _, next_of_due hdue', hu, hsettled hus⟩
  · cases heq.symm.trans hnext
    exact ⟨_, _, next_of_finished (hempty hdue) (hfinished.trans hclosed), hend, hsettled hpending⟩
  · rw [next_of_open (hempty hdue) (hfinished.trans hopen)]
    exact hscan hdue hopen (heq.symm.trans hnext)

/-- Two runs go on alike if every call of the one is answered by a call of the other. -/
theorem run_simulated {α : Type} {view : Token → α} {P : Token → Prop} {R : Lexer → Lexer → Prop}
    (hview : ∀ {t t'}, view t' = view t → t'.kind = t.kind)
    (hstep : ∀ {lx lx' t after}, R lx lx' → P t → lx.next = (.ok t, after) → ∃ t' after',
      lx'.next = (.ok t', after') ∧ view t' = view t ∧ (t.kind ≠ .eof → R after after'))
    {lx lx' : Lexer} (h : R lx lx') {ts : List Token} (hrun : lx.run.1 = .ok ts)
    (hts : ∀ t ∈ ts, P t) :
    ∃ ts', lx'.run.1 = .ok ts' ∧ ts'.map view = ts.map view := by
  induction ts generalizing lx lx' with
  | nil => obtain ⟨_, _, _, ⟨-, h⟩ | ⟨-, _, h, -⟩⟩ := run_cases hrun <;> cases h
  | cons t ts ih =>
    obtain ⟨ht, hts⟩ := List.forall_mem_cons.mp hts
    obtain ⟨_, after, hnext, hrest⟩ := run_cases hrun
    rcases hrest with ⟨heof, heq⟩ | ⟨hgoes, us, heq, hus⟩
    · cases heq
      obtain ⟨t', after', hnext', hsame, -⟩ := hstep h ht hnext
      refine ⟨[t'], ?_, congrArg ([·]) hsame⟩
      rw [run_of_next hnext', if_pos ((hview hsame).trans heof)]
    · cases heq
      obtain ⟨t', after', hnext', hsame, hafter⟩ := hstep h ht hnext
      obtain ⟨ts', hts', hmap⟩ := ih (hafter hgoes) hus hts
      refine ⟨t' :: ts', run_cons hnext'
        (fun heof => hgoes ((hview hsame).symm.trans heof)) hts', ?_⟩
      rw [List.map_cons, List.map_cons, hsame, hmap]

theorem run_settle {ts : List Token} (hrun : lx.run.1 = .ok ts) : lx.settle.run.1 = .ok ts := by
  obtain ⟨t, after, hnext, -⟩ := run_cases hrun
  rwa [run_of_next ((next_settle lx).trans hnext), ← run_of_next hnext]

/-- Before a line of code a run delivers the marks that its width asks for. -/
theorem run_opens (hs : Stands source before p lx) (h : Laid source done lx)
    (hline : AtLine source done lx) {width : Nat} (hwidth : nextWidth source done = some width)
    {ts : List Token} (hrun : lx.run.1 = .ok ts) : LineOpens source done ts width := by
  obtain ⟨n, hn, hn'⟩ := Option.bind_eq_some_iff.mp hwidth
  rcases hline n hn with hnone | ⟨hpending, hstart, hfinished, hnumber⟩
  · rw [hnone] at hn'
    cases hn'
  have hwidths := h.widths
  rw [hpending, List.append_nil] at hwidths
  have hopened := openLine_opened hs hfinished (h.column hstart hfinished)
  rw [hnumber, Nat.add_sub_cancel] at hopened
  cases hopened with
  | last hnone =>
    rw [hnone] at hn'
    cases hn'
  | @line width' place trivia hsome hplace hpending' htrivia _ hfinished' hstart' =>
    obtain rfl : width' = width := Option.some.inj (hsome.symm.trans hn')
    have hmarks : ∀ t ∈ (layout width' lx.widths).2.map fun kind => (⟨kind, place.mark⟩ : Token),
        marksBlock t = true := by
      intro t ht
      obtain ⟨kind, hkind, rfl⟩ := List.mem_map.mp ht
      rcases layout_marksBlock _ _ kind hkind with rfl | rfl <;> rfl
    have hsettle : lx.settle = lx.openLine := by simp [settle, hpending, hfinished, hstart]
    replace hrun := run_settle hrun
    rw [hsettle] at hrun
    have heof : ∀ t ∈ ((layout width' lx.widths).2.map fun kind => ⟨kind, place.mark⟩) ++ trivia,
        t.kind ≠ .eof := by
      intro t ht heof
      rcases List.mem_append.mp ht with ht | ht
      · simpa [marksBlock, heof] using hmarks t ht
      · simpa [TokenKind.isTrivia, heof] using htrivia t ht
    obtain ⟨more, rfl, hmore⟩ := run_pending hpending' heof hrun
    · have hplain : ∀ t ∈ (trivia ++ more).head?, marksBlock t = false := by
        cases trivia with
        | nil =>
          exact @run_plain { lx.openLine with pending := [] } more rfl hfinished' hstart' hmore
        | cons t trivia =>
          intro u hu
          obtain rfl := Option.some.inj hu
          exact not_marksBlock_of_isTrivia (htrivia _ List.mem_cons_self)
      have htake :
          ((layout width' lx.widths).2.map (fun kind => (⟨kind, place.mark⟩ : Token)) ++ trivia ++
          more).takeWhile marksBlock = (layout width' lx.widths).2.map fun kind => ⟨kind,
          place.mark⟩ := by
        rw [List.append_assoc, List.takeWhile_append_of_pos hmarks]
        cases hrest : trivia ++ more with
        | nil => simp
        | cons t rest =>
          rw [hrest] at hplain
          rw [List.takeWhile_cons_of_neg (by simp [hplain t rfl]), List.append_nil]
      refine ⟨lx.widths, hwidths, h.sorted, ?_, ?_⟩
      · rw [htake, List.map_map]
        exact List.map_id _
      · rw [htake]
        exact openBlocks_layout hplace _

/-- In a whole run all blocks are closed again, and each line of code has the
marks that it asks for. -/
theorem run_laid (lx : Lexer) (hs : Stands source before p lx) (h : Laid source done lx)
    (hline : AtLine source done lx) {ts : List Token} (hrun : lx.run.1 = .ok ts) :
    openBlocks source [] (done ++ ts) = some [] ∧ ∀ front back width, ts = front ++ back →
      nextWidth source (done ++ front) = some width →
        LineOpens source (done ++ front) back width := by
  induction ts generalizing lx before p done with
  | nil =>
    obtain ⟨_, _, _, ⟨-, hnil⟩ | ⟨-, _, hnil, -⟩⟩ := run_cases hrun
    · cases hnil
    · cases hnil
  | cons t ts ih =>
    obtain ⟨u, after, hnext, hrest⟩ := run_cases hrun
    obtain ⟨-, _, _, -, hs'⟩ := next_stands hs hnext
    obtain ⟨h', hline', hend⟩ := next_laid hs h hnext
    have hhead : ∀ back width, t :: ts = back → nextWidth source (done ++ []) = some width →
        LineOpens source (done ++ []) back width := by
      rintro back width rfl hwidth
      rw [List.append_nil] at hwidth ⊢
      exact run_opens hs h hline hwidth hrun
    rcases hrest with ⟨heof, heq⟩ | ⟨-, us, heq, hus⟩
    · cases heq
      obtain ⟨hpending, hfinished⟩ := hend heof
      have hwidths := h'.widths
      rw [hpending, List.append_nil, h'.closed hfinished] at hwidths
      refine ⟨hwidths, fun front back width hsplit hwidth => ?_⟩
      cases front with
      | nil => exact hhead back width hsplit hwidth
      | cons v front =>
        obtain ⟨rfl, hsplit'⟩ := List.cons.inj hsplit
        obtain ⟨rfl, rfl⟩ := List.append_eq_nil_iff.mp hsplit'.symm
        rw [nextWidth, lineEnd?_concat, heof] at hwidth
        cases hwidth
    · cases heq
      obtain ⟨hall, hlines⟩ := ih after hs' h' hline' hus
      rw [List.append_assoc] at hall
      refine ⟨hall, fun front back width hsplit hwidth => ?_⟩
      cases front with
      | nil => exact hhead back width hsplit hwidth
      | cons v front =>
        obtain ⟨rfl, hsplit'⟩ := List.cons.inj hsplit
        have hlines' := hlines front back width hsplit'
        rw [List.append_assoc] at hlines'
        exact hlines' hwidth

end Lexer

/-- The tokens of a text close the blocks that they open and no other ones, and each line of code
comes after the marks that its width asks for. -/
theorem tokenize_laid {source : String} {tokens : List Token} (h : tokenize source = .ok tokens) :
    openBlocks source.toList [] tokens = some [] ∧ ∀ front back width, tokens = front ++ back →
      nextWidth source.toList front = some width → LineOpens source.toList front back width := by
  have hstands : Lexer.Stands source.toList [] ⟨[], source.toList, 0⟩ (Lexer.start source.toList) :=
    ⟨rfl, rfl, .refl, fun _ h => (nomatch h), fun h => (nomatch h)⟩
  have hlaid : Lexer.Laid source.toList [] (Lexer.start source.toList) :=
    ⟨rfl, .nil, fun _ => rfl, fun _ h => (nomatch h), fun _ _ => rfl⟩
  have hline : Lexer.AtLine source.toList [] (Lexer.start source.toList) := by
    intro n hn
    cases hn
    exact .inr ⟨rfl, rfl, rfl, rfl⟩
  exact Lexer.run_laid _ hstands hlaid hline h

end Sketchwright.Token
