import Sketchwright.Proofs.LineAdded

/-! Lines without code. A blank line or a comment line that is put in front of any
physical line adds one token to the tokens of a text, whatever its indentation, and leaves
the others as they are. -/

namespace Sketchwright.Token

open Text

/-- A physical line without code, and the kind of token that it is read as. -/
inductive TriviaLine : List Char → TokenKind → Prop
  | blank {blanks : List Char} (hblanks : ∀ c ∈ blanks, isSpace c = true) :
      TriviaLine (blanks ++ ['\n']) .blankLine
  | comment {blanks text : List Char} (hblanks : ∀ c ∈ blanks, isSpace c = true)
    (htext : '\n' ∉ text) :
      TriviaLine (blanks ++ '#' :: (text ++ ['\n'])) (.comment (String.ofList (trimEnd text)))

theorem TriviaLine.isTrivia {line : List Char} {kind : TokenKind} (h : TriviaLine line kind) :
    kind.isTrivia = true := by
  cases h <;> rfl

theorem TriviaLine.endsLine {line : List Char} {kind : TokenKind} (h : TriviaLine line kind) :
    ∃ text, line = text ++ ['\n'] := by
  cases h with
  | blank => exact ⟨_, rfl⟩
  | @comment blanks text => exact ⟨blanks ++ '#' :: text, by simp⟩

section Leads

variable {line : List Char} {kind : TokenKind}

/-- The trivia before a line of code are of the same kinds wherever they stand. -/
theorem leadOf_kinds (p q : Position) (cs : List Char) : (leadOf q cs).rest = (leadOf p cs).rest ∧
    (leadOf q cs).trivia.map Token.kind = (leadOf p cs).trivia.map Token.kind := by
  fun_induction leadOf p cs generalizing q with
  | case1 p cs hdrop =>
    rw [leadOf_of_nil hdrop]
    exact ⟨rfl, rfl⟩
  | case2 p cs c rest hdrop _ hnewline =>
    rename_i ih
    rw [leadOf_of_cons hdrop, if_pos hnewline]
    obtain ⟨hrest, htrivia⟩ := ih ((q.advance (indentation cs)).next c)
    exact ⟨hrest, congrArg (TokenKind.blankLine :: ·) htrivia⟩
  | case3 p cs c rest hdrop _ hnewline hcomment text stop lineEnd =>
    rename_i lead ih
    rw [leadOf_of_cons hdrop, if_neg hnewline, if_pos hcomment]
    obtain ⟨hrest, htrivia⟩ := ih (((q.advance (indentation cs)).advance text).advance lineEnd)
    exact ⟨hrest, congrArg (Lexeme.comment text :: ·) htrivia⟩
  | case4 p cs c rest hdrop hnewline hcomment =>
    rw [leadOf_of_cons hdrop, if_neg hnewline, if_neg hcomment]
    exact ⟨rfl, rfl⟩

theorem drop_indentation {blanks : List Char} {c : Char} (hblanks : ∀ c ∈ blanks, isSpace c = true)
    (hc : isSpace c = false) (rest : List Char) :
    (blanks ++ c :: rest).drop (indentation (blanks ++ c :: rest)).length = c :: rest := by
  rw [indentation_of_blanks hblanks hc, List.drop_left]

/-- A line without code adds its token to the trivia before the next line of code. -/
theorem TriviaLine.leadOf_append (h : TriviaLine line kind) (p : Position) (rest : List Char) :
    ∃ t q, t.kind = kind ∧ leadOf p (line ++ rest) = (leadOf q rest).push t := by
  cases h with
  | @blank blanks hblanks =>
    have hdrop := drop_indentation hblanks (by decide : isSpace '\n' = false) rest
    refine ⟨⟨.blankLine, p.mark⟩,
      (p.advance (indentation (blanks ++ '\n' :: rest))).next '\n', rfl, ?_⟩
    rw [List.append_assoc, List.singleton_append, leadOf_of_cons hdrop, if_pos (by decide)]
  | @comment blanks text hblanks htext =>
    have hdrop := drop_indentation hblanks (by decide : isSpace '#' = false) (text ++ '\n' :: rest)
    have hline : Lexeme.restOfLine (text ++ '\n' :: rest) = text := by
      rw [Lexeme.restOfLine, List.takeWhile_append_of_pos]
      · simp
      · intro c hc
        simpa using fun heq : c = '\n' => htext (heq ▸ hc)
    have hnext : (text ++ '\n' :: rest).drop (text.length + 1) = rest := by
      rw [← List.drop_drop, List.drop_left]
      rfl
    let start := p.advance (indentation (blanks ++ '#' :: (text ++ '\n' :: rest)))
    let stop := start.advance ('#' :: text)
    refine ⟨⟨Lexeme.comment ('#' :: text), start.until stop⟩,
      stop.advance (((text ++ '\n' :: rest).drop text.length).take 1), rfl, ?_⟩
    have hall : blanks ++ '#' :: (text ++ ['\n']) ++ rest =
        blanks ++ '#' :: (text ++ '\n' :: rest) := by
      simp
    rw [hall, leadOf_of_cons hdrop, if_neg (by decide), if_pos (by decide)]
    simp only [hline, hnext, start, stop]

/-- Lines without code add their tokens to the trivia before the next line of code. -/
theorem leadOf_triviaLines {lines : List (List Char)}
    (h : ∀ line ∈ lines, ∃ kind, TriviaLine line kind) (p : Position) :
    ∃ kinds : List TokenKind, ∀ rest, (leadOf p (lines.flatten ++ rest)).rest =
      (leadOf p rest).rest ∧
      (leadOf p (lines.flatten ++ rest)).trivia.map Token.kind =
        kinds ++ (leadOf p rest).trivia.map Token.kind := by
  induction lines with
  | nil => exact ⟨[], fun rest => ⟨rfl, rfl⟩⟩
  | cons line lines ih =>
    obtain ⟨⟨kind, hline⟩, hlines⟩ := List.forall_mem_cons.mp h
    obtain ⟨kinds, hkinds⟩ := ih hlines
    refine ⟨kind :: kinds, fun rest => ?_⟩
    obtain ⟨t, q, ht, hlead⟩ := hline.leadOf_append p (lines.flatten ++ rest)
    obtain ⟨hrest, htrivia⟩ := leadOf_kinds p q (lines.flatten ++ rest)
    rw [List.flatten_cons, List.append_assoc, hlead]
    refine ⟨hrest.trans (hkinds rest).1, ?_⟩
    rw [Lead.push, List.map_cons, ht, htrivia, (hkinds rest).2, List.cons_append]

end Leads

namespace Lexer

variable {lx lx' last : Lexer} {t : Token} {kinds : List TokenKind}

/-- The marks of blocks before what is left of a text. -/
def blockMarks (widths : List Nat) (rest : List Char) : List TokenKind :=
  match rest.drop (indentation rest).length with
  | [] => widths.map fun _ => .dedent
  | _ :: _ => (layout (widthOf (indentation rest)) widths).2

/-- Lexers before the same text, with tokens of the same kinds due. -/
structure Alike (lx lx' : Lexer) : Prop where
  rest : lx'.rest = lx.rest
  widths : lx'.widths = lx.widths
  pending : lx'.pending.map Token.kind = lx.pending.map Token.kind
  atLineStart : lx'.atLineStart = lx.atLineStart
  finished : lx'.finished = lx.finished
  nesting : lx'.nesting = lx.nesting

theorem openLine_pending (lx : Lexer) :
    lx.openLine.pending.map Token.kind =
    blockMarks lx.widths (leadOf lx.position lx.rest).rest ++
      (leadOf lx.position lx.rest).trivia.map Token.kind := by
  cases hcode : (leadOf lx.position lx.rest).rest.drop
      (indentation (leadOf lx.position lx.rest).rest).length with
  | nil => simp [openLine, blockMarks, consume, finish, hcode]
  | cons c cs => simp [openLine, blockMarks, consume, hcode, Function.comp_def]

/-- Where two lexers have the same before them up to the next line of code, they open it alike. -/
theorem openLine_alike
    (hrest : (leadOf lx'.position lx'.rest).rest = (leadOf lx.position lx.rest).rest)
    (hwidths : lx'.widths = lx.widths) (hfinished : lx'.finished = lx.finished)
    (hnesting : lx'.nesting = lx.nesting) :
    Alike { lx.openLine with pending := [] } { lx'.openLine with pending := [] } := by
  unfold openLine
  dsimp only [consume]
  rw [hrest, hwidths]
  split
  · exact ⟨rfl, rfl, rfl, rfl, rfl, hnesting⟩
  · exact ⟨rfl, rfl, rfl, rfl, hfinished, hnesting⟩

theorem Alike.openLine (h : Alike lx lx') : Alike lx.openLine lx'.openLine := by
  obtain ⟨hrest, htrivia⟩ := leadOf_kinds lx.position lx'.position lx.rest
  have hlead : leadOf lx'.position lx'.rest = leadOf lx'.position lx.rest := by rw [h.rest]
  rw [← hlead] at hrest htrivia
  have hopened := openLine_alike hrest h.widths h.finished h.nesting
  refine ⟨hopened.rest, hopened.widths, ?_, hopened.atLineStart, hopened.finished, hopened.nesting⟩
  rw [openLine_pending, openLine_pending, h.widths, hrest, htrivia]

theorem Alike.settle (h : Alike lx lx') : Alike lx.settle lx'.settle :=
  settle_simulated h.pending h.finished h.atLineStart h.openLine h

theorem Alike.scan (h : Alike lx lx') (hscan : lx.scan = (.ok t, last)) : ∃ t' last',
    lx'.scan = (.ok t', last') ∧ t'.kind = t.kind ∧ Alike last last' := by
  unfold Lexer.scan at hscan ⊢
  dsimp only [consume] at hscan ⊢
  rw [h.rest, h.nesting]
  split at hscan
  · next hnil =>
    cases hscan
    simp only [hnil]
    refine ⟨_, _, rfl, rfl, rfl, rfl, ?_, h.atLineStart, rfl, rfl⟩
    simp [finish, h.widths]
  · next c cs hcons =>
    split at hscan
    · next kind hkind =>
      cases hscan
      simp only [hcons]
      exact ⟨_, _, rfl, rfl, rfl, h.widths, h.pending, rfl, h.finished, rfl⟩
    · cases hscan

theorem Alike.next (h : Alike lx lx') (hnext : lx.next = (.ok t, last)) : ∃ t' last',
    lx'.next = (.ok t', last') ∧ t'.kind = t.kind ∧ Alike last last' := by
  have hsettled := h.settle
  refine next_simulated hsettled.pending hsettled.finished rfl (fun hts => ?_)
    (fun _ _ => hsettled.scan) hnext
  exact ⟨hsettled.rest, hsettled.widths, hts, hsettled.atLineStart, hsettled.finished,
    hsettled.nesting⟩

theorem Alike.delivers (h : Alike lx lx') (hlx : lx.Delivers kinds) : lx'.Delivers kinds := by
  obtain ⟨ts, hts, rfl⟩ := hlx
  refine run_simulated (P := fun _ => True) id (fun h _ hnext => ?_) h hts fun _ _ => trivial
  obtain ⟨t', last', hnext', hkind, hlast⟩ := h.next hnext
  exact ⟨t', last', hnext', hkind, fun _ => hlast⟩

/-- The tokens that are due come first. -/
theorem delivers_pending (hdue : ∀ t ∈ lx.pending, t.kind ≠ .eof)
    (h : { lx with pending := [] }.Delivers kinds) :
    lx.Delivers (lx.pending.map Token.kind ++ kinds) := by
  generalize hpending : lx.pending = ts at hdue ⊢
  induction ts generalizing lx with
  | nil =>
    rw [← hpending] at h
    exact h
  | cons t ts ih =>
    obtain ⟨ht, hts⟩ := List.forall_mem_cons.mp hdue
    have hnext : lx.next = (.ok t, { lx with pending := ts }) := by
      simp [Lexer.next, Lexer.settle, hpending]
    have hmore : Delivers { lx with pending := ts } (ts.map Token.kind ++ kinds) := ih h rfl hts
    exact hmore.cons hnext ht

theorem delivers_settle (h : lx.settle.Delivers kinds) : lx.Delivers kinds :=
  h.of_next_eq (next_settle lx).symm

/-- At the start of a line, behind further lines without code, a line
without code adds its token. -/
theorem delivers_triviaLine {lines : List (List Char)} {line after : List Char} {kind : TokenKind}
    (hfresh : lx.Fresh) (hstart : lx.atLineStart = true)
    (hlines : ∀ line ∈ lines, ∃ kind, TriviaLine line kind)
    (hrest : lx.rest = lines.flatten ++ after) (hline : TriviaLine line kind)
    (hadded : lx' = { lx with rest := lines.flatten ++ (line ++ after) }) (h : lx.Delivers kinds) :
    ∃ earlier later, kinds = earlier ++ later ∧ lx'.Delivers (earlier ++ kind :: later) := by
  obtain ⟨hpending, hopen⟩ := hfresh hstart
  have hsettle : lx.settle = lx.openLine := by simp [Lexer.settle, hpending, hopen, hstart]
  have hsettle' : lx'.settle = lx'.openLine := by
    simp [hadded, Lexer.settle, hpending, hopen, hstart]
  have hopen' : lx'.finished = false := by rw [hadded, hopen]
  -- both come to the same line of code, the second with one more token due
  obtain ⟨before, hbefore⟩ := leadOf_triviaLines hlines lx.position
  obtain ⟨t, q, ht, hlead⟩ := hline.leadOf_append lx.position after
  obtain ⟨hsame, hkinds⟩ := leadOf_kinds lx.position q after
  have hplace : leadOf lx'.position lx'.rest =
      leadOf lx.position (lines.flatten ++ (line ++ after)) := by
    rw [hadded]
  have hcode : (leadOf lx'.position lx'.rest).rest = (leadOf lx.position lx.rest).rest := by
    rw [hplace, hrest, (hbefore after).1, (hbefore (line ++ after)).1, hlead]
    exact hsame
  have hwidths : lx'.widths = lx.widths := by rw [hadded]
  have hopened := openLine_alike hcode hwidths (hopen'.trans hopen.symm) (by rw [hadded])
  have hdue := openLine_pending lx
  have hdue' := openLine_pending lx'
  rw [hrest, (hbefore after).2, ← List.append_assoc] at hdue
  rw [hwidths, hcode, hplace, (hbefore (line ++ after)).2, hlead, Lead.push, List.map_cons, ht,
    hkinds, hrest, ← List.append_assoc] at hdue'
  -- from there on they run alike
  obtain ⟨ts, hts, rfl⟩ := h
  obtain ⟨more, rfl, hmore⟩ :=
    run_pending rfl (orderly_openLine hopen).pending (hsettle ▸ run_settle hts)
  have hlast :=
    delivers_pending (orderly_openLine hopen').pending (hopened.delivers ⟨more, hmore, rfl⟩)
  rw [hdue'] at hlast
  rw [List.map_append, hdue]
  refine ⟨_, _, List.append_assoc _ _ _, delivers_settle (hsettle' ▸ ?_)⟩
  simpa using hlast

theorem flatten_endsLine {lines : List (List Char)}
    (h : ∀ line ∈ lines, ∃ kind, TriviaLine line kind) :
    ∃ text, '\n' :: lines.flatten = text ++ ['\n'] := by
  induction lines with
  | nil => exact ⟨[], rfl⟩
  | cons line lines ih =>
    obtain ⟨⟨_, hline⟩, hlines⟩ := List.forall_mem_cons.mp h
    obtain ⟨text, rfl⟩ := hline.endsLine
    obtain ⟨more, hmore⟩ := ih hlines
    refine ⟨'\n' :: text ++ more, ?_⟩
    rw [List.flatten_cons, List.append_assoc, List.singleton_append, hmore]
    simp

theorem more_eq {rest line after text more : List Char} (hrest : rest = text ++ after)
    (h : LineAdded line after rest more ∨ rest = after ∧ more = line ++ after) :
    more = text ++ (line ++ after) := by
  subst hrest
  rcases h with h | ⟨htext, rfl⟩
  · exact h.eq_append
  · rw [List.append_left_eq_self.mp htext, List.nil_append]

/-- A line without code that is put in where some calls come to the start of a line. -/
theorem delivers_lineAdded {line after cs' : List Char} {kind : TokenKind} {count : Nat}
    {lines : List (List Char)} (hfresh : lx.Fresh) (horderly : lx.Orderly)
    (hadded : LineAdded line after lx.rest cs') (h : lx.Delivers kinds)
    (hstart : (lx.afterCalls (count + 1)).atLineStart = true)
    (hlines : ∀ line ∈ lines, ∃ kind, TriviaLine line kind)
    (hrest : (lx.afterCalls (count + 1)).rest = lines.flatten ++ after)
    (hline : TriviaLine line kind) :
    ∃ earlier later, kinds = earlier ++ later ∧
      { lx with rest := cs' }.Delivers (earlier ++ kind :: later) := by
  obtain ⟨ts, hts, rfl⟩ := h
  have hroom : after.length ≤ (lx.afterCalls (count + 1)).rest.length := by
    rw [hrest, List.length_append]
    omega
  obtain ⟨early, late, more, rfl, hlate, hmore, hruns⟩ :=
    run_lineAdded hfresh horderly hadded hstart hroom hts
  obtain rfl := more_eq hrest hmore
  obtain ⟨earlier, later, hkinds, us, hus, hmap⟩ :=
    delivers_triviaLine (hfresh.afterCalls (count + 1)) hstart hlines hrest hline rfl
    ⟨late, hlate, rfl⟩
  refine ⟨early.map Token.kind ++ earlier, later, ?_, early ++ us, hruns us hus, ?_⟩
  · rw [List.map_append, hkinds, List.append_assoc]
  · rw [List.map_append, hmap, List.append_assoc]

/-- A text ends a line where the lexer comes to the start of the next one. -/
theorem endsLine_of_afterCalls {before after : List Char} {count : Nat} {lines : List (List Char)}
    (hstart : ((start (before ++ after)).afterCalls (count + 1)).atLineStart = true)
    (hlines : ∀ line ∈ lines, ∃ kind, TriviaLine line kind)
    (hrest : ((start (before ++ after)).afterCalls (count + 1)).rest = lines.flatten ++ after) :
    ∃ text, before = text ++ ['\n'] := by
  obtain ⟨text, htext⟩ := (fresh_start (before ++ after)).lineEnd hstart
  obtain ⟨more, hmore⟩ := flatten_endsLine hlines
  rw [hrest, ← List.cons_append, hmore, ← List.append_assoc, ← List.append_assoc] at htext
  exact ⟨text ++ more, List.append_cancel_right htext⟩

/-- A line without code that is put in where a physical line of a text starts. -/
theorem delivers_start {before line after : List Char} {kind : TokenKind} {count : Nat}
    {lines : List (List Char)} (h : (start (before ++ after)).Delivers kinds)
    (hstart : ((start (before ++ after)).afterCalls count).atLineStart = true)
    (hlines : ∀ line ∈ lines, ∃ kind, TriviaLine line kind)
    (hrest : ((start (before ++ after)).afterCalls count).rest = lines.flatten ++ after)
    (hline : TriviaLine line kind) :
    ∃ earlier later, kinds = earlier ++ later ∧
      (start (before ++ (line ++ after))).Delivers (earlier ++ kind :: later) := by
  have hfresh := fresh_start (before ++ after)
  cases count with
  | zero =>
    obtain rfl : before = lines.flatten := List.append_cancel_right hrest
    exact delivers_triviaLine hfresh rfl hlines hrest hline rfl h
  | succ count =>
    obtain ⟨text, rfl⟩ := endsLine_of_afterCalls hstart hlines hrest
    exact delivers_lineAdded hfresh (orderly_start _)
      (.of_append line after text) h hstart hlines hrest hline

end Lexer

/-- Between the two parts of a text a physical line starts: calls of the lexer come to the start of
a line, and only whole lines without code lie between there and the second part. -/
def LineStarts (before after : String) : Prop :=
  ∃ (count : Nat) (lines : List (List Char)),
    ((Lexer.start (before ++ after).toList).afterCalls count).atLineStart = true ∧
    (∀ line ∈ lines, ∃ kind, TriviaLine line kind) ∧
    ((Lexer.start (before ++ after).toList).afterCalls count).rest = lines.flatten ++ after.toList

/-- A line without code that is put in front of any physical line adds one token,
and leaves the others. -/
theorem tokenize_triviaLine {before line after : String} {kind : TokenKind} {tokens : List Token}
    (htokens : tokenize (before ++ after) = .ok tokens) (hstarts : LineStarts before after)
    (hline : TriviaLine line.toList kind) :
    ∃ tokens', tokenize (before ++ line ++ after) = .ok tokens' ∧
      (tokens'.map Token.kind).filter (!·.isTrivia) = (tokens.map Token.kind).filter (!·.isTrivia) ∧
      ∃ earlier later, tokens.map Token.kind = earlier ++ later ∧
        tokens'.map Token.kind = earlier ++ kind :: later := by
  obtain ⟨count, lines, hstart, hlines, hrest⟩ := hstarts
  unfold tokenize at htokens ⊢
  rw [String.toList_append] at htokens hstart hrest
  rw [String.toList_append, String.toList_append, List.append_assoc]
  obtain ⟨earlier, later, hkinds, tokens', htokens', hadded⟩ :=
    Lexer.delivers_start ⟨tokens, htokens, rfl⟩ hstart hlines hrest hline
  refine ⟨tokens', htokens', ?_, earlier, later, hkinds, hadded⟩
  rw [hadded, hkinds, List.filter_append, List.filter_append, List.filter_cons, hline.isTrivia]
  rfl

/-- A block with a call over two lines, and a blank line after it. -/
def blockText : String := "if x: # a\n  y(1,\n2)\n\n"

/-- A string over two lines. -/
def stringText : String := "z = '''\n'''\n"

def interlineTokens : List Token := [
  ⟨.keyword .ifBranch, ⟨0, 2, 1, 0⟩⟩, ⟨.identifier "x", ⟨3, 4, 1, 3⟩⟩,
  ⟨.symbol .colon, ⟨4, 5, 1, 4⟩⟩, ⟨.comment " a", ⟨6, 9, 1, 6⟩⟩, ⟨.newline, ⟨9, 10, 1, 9⟩⟩,
  ⟨.indent, ⟨12, 12, 2, 2⟩⟩, ⟨.identifier "y", ⟨12, 13, 2, 2⟩⟩,
  ⟨.symbol .leftParen, ⟨13, 14, 2, 3⟩⟩, ⟨.integer 1, ⟨14, 15, 2, 4⟩⟩, ⟨.symbol .comma,
    ⟨15, 16, 2, 5⟩⟩, ⟨.integer 2, ⟨17, 18, 3, 0⟩⟩, ⟨.symbol .rightParen, ⟨18, 19, 3, 1⟩⟩,
    ⟨.newline, ⟨19, 20, 3, 2⟩⟩, ⟨.dedent, ⟨21, 21, 5, 0⟩⟩, ⟨.blankLine, ⟨20, 20, 4, 0⟩⟩,
  ⟨.identifier "z", ⟨21, 22, 5, 0⟩⟩, ⟨.symbol .equal, ⟨23, 24, 5, 2⟩⟩,
    ⟨.string "\n", ⟨25, 32, 5, 4⟩⟩,
  ⟨.newline, ⟨32, 33, 6, 3⟩⟩, ⟨.eof, ⟨33, 33, 7, 0⟩⟩]

/-- A comment line behind the blank line, more indented than the block. -/
theorem tokenize_triviaLine_block :
    tokenize (blockText ++ stringText) = .ok interlineTokens ∧
    LineStarts blockText stringText ∧ TriviaLine "\t  # note \n".toList (.comment " note") ∧
    ∃ tokens', tokenize (blockText ++ "\t  # note \n" ++ stringText) = .ok tokens' ∧
      (tokens'.map Token.kind).filter (!·.isTrivia) =
        (interlineTokens.map Token.kind).filter (!·.isTrivia) ∧
      ∃ earlier later, interlineTokens.map Token.kind = earlier ++ later ∧
        tokens'.map Token.kind = earlier ++ .comment " note" :: later := by
  have htokens : tokenize (blockText ++ stringText) = .ok interlineTokens := by decide +kernel
  have hstarts : LineStarts blockText stringText := by
    refine ⟨13, [['\n']], by decide +kernel, ?_, by decide +kernel⟩
    have hblank : TriviaLine ['\n'] .blankLine := .blank (List.forall_mem_nil _)
    simpa using ⟨_, hblank⟩
  have hline : TriviaLine "\t  # note \n".toList (.comment " note") := by
    have hblanks : ['\t', ' ', ' '].all isSpace = true := by decide
    have htext : '\n' ∉ " note ".toList := by decide
    exact .comment (List.all_eq_true.mp hblanks) htext
  exact ⟨htokens, hstarts, hline, tokenize_triviaLine htokens hstarts hline⟩

end Sketchwright.Token
