import Sketchwright.Proofs.Exhaustion
import Sketchwright.Proofs.LineEnds

/-! A further line in a text. Up to the place where it is put in, at the start of a line, the lexer
reads what it would read without it: nothing that ends there depends on what comes next. -/

namespace Sketchwright.Token

open Text

/-- A text, and the same text with a further line before `after`, where one of its lines starts.
Both go on with the line end before that. -/
inductive LineAdded (line after : List Char) : List Char → List Char → Prop
  | here : LineAdded line after ('\n' :: after) ('\n' :: (line ++ after))
  | char {cs cs'} (c : Char) (h : LineAdded line after cs cs') :
    LineAdded line after (c :: cs) (c :: cs')

namespace LineAdded

variable {line after cs cs' : List Char} {c : Char}

theorem of_append (line after text : List Char) :
    LineAdded line after (text ++ ['\n'] ++ after) (text ++ ['\n'] ++ (line ++ after)) := by
  induction text with
  | nil => exact .here
  | cons c text ih => exact .char c ih

theorem length_lt (h : LineAdded line after cs cs') : after.length < cs.length := by
  induction h with
  | here => simp
  | char c _ ih =>
    rw [List.length_cons]
    omega

theorem sameLine (h : LineAdded line after cs cs') : SameLine cs cs' := by
  induction h with
  | here => exact .lineEnd (.newline after) (.newline _)
  | char c _ ih => exact .char c ih

theorem take_one (h : LineAdded line after cs cs') : cs'.take 1 = cs.take 1 := by
  cases h <;> rfl

/-- Up to the new line the texts are the same. -/
theorem eq_append {text : List Char} (h : LineAdded line after (text ++ after) cs') :
    cs' = text ++ (line ++ after) := by
  generalize hcs : text ++ after = cs at h
  induction h generalizing text with
  | here =>
    obtain rfl : text = ['\n'] := List.append_cancel_right hcs
    rfl
  | char c h ih =>
    cases text with
    | nil =>
      have hlength := h.length_lt
      rw [List.nil_append] at hcs
      rw [hcs, List.length_cons] at hlength
      omega
    | cons d text =>
      obtain ⟨rfl, htail⟩ := List.cons.inj hcs
      rw [ih htail]
      rfl

/-- What is left behind some of the text before the new line. -/
theorem drop (h : LineAdded line after cs cs') {n : Nat} (hn : n + after.length < cs.length) :
    LineAdded line after (cs.drop n) (cs'.drop n) := by
  induction h generalizing n with
  | here =>
    obtain rfl : n = 0 := by
      rw [List.length_cons] at hn
      omega
    exact .here
  | char c h ih =>
    cases n with
    | zero => exact .char c h
    | succ n =>
      rw [List.length_cons] at hn
      exact ih (by omega)

theorem drop_end (h : LineAdded line after cs cs') {n : Nat} (hn : n + after.length = cs.length) :
    cs.drop n = after ∧ cs'.drop n = line ++ after := by
  induction h generalizing n with
  | here =>
    obtain rfl : n = 1 := by
      rw [List.length_cons] at hn
      omega
    exact ⟨rfl, rfl⟩
  | char c h ih =>
    have hlength := h.length_lt
    rw [List.length_cons] at hn
    cases n with
    | zero => omega
    | succ n => exact ih (by omega)

theorem drop_of_le (h : LineAdded line after cs cs') {n : Nat} (hn : n + after.length ≤ cs.length) :
    LineAdded line after (cs.drop n) (cs'.drop n) ∨
      cs.drop n = after ∧ cs'.drop n = line ++ after := by
  rcases Nat.lt_or_eq_of_le hn with hlt | heq
  · exact .inl (h.drop hlt)
  · exact .inr (h.drop_end heq)

theorem exists_cons (h : LineAdded line after (c :: cs) cs') : ∃ ds, cs' = c :: ds := by
  cases h <;> exact ⟨_, rfl⟩

theorem takeWhile_eq (h : LineAdded line after cs cs') {p : Char → Bool}
    (hnewline : p '\n' = false) :
    cs'.takeWhile p = cs.takeWhile p := by
  induction h with
  | here => simp [hnewline]
  | char c _ ih => rw [List.takeWhile_cons, List.takeWhile_cons, ih]

/-- A run of characters up to a line end ends before the new line. -/
theorem takeWhile_length_lt (h : LineAdded line after cs cs') {p : Char → Bool}
    (hnewline : p '\n' = false) :
    (cs.takeWhile p).length + after.length < cs.length := by
  induction h with
  | here => simp [hnewline]
  | char c h ih =>
    rw [List.takeWhile_cons]
    split
    · simp only [List.length_cons]
      omega
    · have := h.length_lt
      simp only [List.length_nil, List.length_cons]
      omega

theorem not_joined (h : LineAdded line after cs cs')
    (hjoin : ∀ ds, c = '\\' → cs = '\n' :: ds → False) :
    ∀ ds, c = '\\' → cs' = '\n' :: ds → False := by
  rintro ds hc rfl
  cases h with
  | here | char => exact hjoin _ hc rfl

/-- What is skipped before a token that starts ahead of the new line. -/
theorem gap_eq {inBrackets inComment : Bool} (h : LineAdded line after cs cs')
    (hroom : (gap inBrackets inComment cs).length + after.length < cs.length) :
    gap inBrackets inComment cs' = gap inBrackets inComment cs := by
  fun_induction gap inBrackets inComment cs generalizing cs' with
  | case1 c cs ih =>
    simp only [List.length_cons] at hroom
    cases h with
    | here => omega
    | char _ h => rw [gap_comment, ih h (by omega)]
  | case2 cs ih =>
    simp only [List.length_cons] at hroom
    cases h with
    | char _ h =>
      cases h with
      | here => omega
      | char _ h => rw [gap, ih h (by omega)]
  | case3 c cs hjoin hc ih =>
    simp only [List.length_cons] at hroom
    cases h with
    | here => omega
    | char _ h => rw [gap_cons (h.not_joined hjoin), if_pos hc, ih h (by omega)]
  | case4 c cs hjoin hc hcomment ih =>
    simp only [List.length_cons] at hroom
    cases h with
    | here => omega
    | char _ h => rw [gap_cons (h.not_joined hjoin), if_neg hc, if_pos hcomment, ih h (by omega)]
  | case5 c cs hjoin hc hcomment =>
    cases h with
    | here => rw [gap_cons (by simp), if_neg hc, if_neg hcomment]
    | char _ h => rw [gap_cons (h.not_joined hjoin), if_neg hc, if_neg hcomment]
  | case6 => cases h

section Strings

open Quoted

variable {quote : Char} {long : Bool}

theorem nil_of_nil (h : LineAdded line after cs cs') (hcs : cs = []) : cs' = [] := by
  subst hcs
  cases h

theorem one_le_delimiter (quote : Char) (long : Bool) : 1 ≤ (delimiter quote long).length := by
  cases long <;> simp [delimiter]

/-- The contents of a literal that is closed ahead of the new line. -/
theorem contents_eq (h : LineAdded line after cs cs') (hquote : quote ∈ ['"', '\''])
    {inner : List Char} (hread : contents quote long cs = (inner, true))
    (hroom : inner.length + (delimiter quote long).length + after.length ≤ cs.length) :
    contents quote long cs' = (inner, true) := by
  have hone := one_le_delimiter quote long
  fun_induction contents quote long cs generalizing cs' inner with
  | case1 c cs rest =>
    rename_i ih
    obtain ⟨rfl, hclosed⟩ := Prod.mk.inj hread
    have hclosed : contents quote long cs = (rest.1, true) := Prod.ext rfl hclosed
    simp only [List.length_cons] at hroom
    cases h with
    | char _ h =>
      cases h with
      | here => omega
      | char _ h => rw [contents, ih h hclosed (by omega)]
  | case2 => cases hread
  | case3 c cs hjoin hline hends =>
    obtain ⟨hc, hlast⟩ := Bool.and_eq_true_iff.mp hends
    obtain rfl : c = quote := beq_iff_eq.mp hc
    cases h with
    | here => exact absurd hquote (by decide)
    | char _ h =>
      rw [contents_cons fun heq => h.nil_of_nil (nil_of_alone hjoin heq), if_neg hline,
        endsAt_inLine h.sameLine hquote, if_pos hends]
      exact hread
  | case4 c cs hjoin hline hends rest =>
    rename_i ih
    obtain ⟨rfl, hclosed⟩ := Prod.mk.inj hread
    have hclosed : contents quote long cs = (rest.1, true) := Prod.ext rfl hclosed
    simp only [List.length_cons] at hroom
    cases h with
    | here => omega
    | char _ h =>
      rw [contents_cons fun heq => h.nil_of_nil (nil_of_alone hjoin heq), if_neg hline,
        endsAt_inLine h.sameLine hquote, if_neg hends, ih h hclosed (by omega)]
  | case5 => cases hread

theorem ofString_eq (h : LineAdded line after cs cs') (hquote : quote ∈ ['"', '\''])
    {kind : TokenKind} (hkind : (Lexeme.ofString quote cs).kind = .ok kind)
    (hroom : (Lexeme.ofString quote cs).text.length + after.length ≤ cs.length + 1) :
    Lexeme.ofString quote cs' = Lexeme.ofString quote cs := by
  have hlong := isLong_inLine h.sameLine hquote
  have hone := one_le_delimiter quote (isLong quote cs)
  have hinside : inside quote cs' = inside quote cs := by
    cases hread : inside quote cs with
    | mk inner closed =>
      cases closed with
      | false => simp [Lexeme.ofString, Quoted.read, hread] at hkind
      | true =>
        simp only [Lexeme.ofString, Quoted.read, hread, if_true, List.length_append] at hroom
        have hopened := (h.char quote).drop (n := (delimiter quote (isLong quote cs)).length) (by
          rw [List.length_cons]
          omega)
        rw [inside, hlong]
        refine hopened.contents_eq hquote hread ?_
        rw [List.length_drop, List.length_cons]
        omega
  simp only [Lexeme.ofString, Quoted.read, hlong, hinside]

end Strings

/-- A lexeme that ends ahead of the new line. -/
theorem read_eq (h : LineAdded line after (c :: cs) (c :: cs')) {kind : TokenKind}
    (hkind : (Lexeme.read c cs).kind = .ok kind)
    (hroom : (Lexeme.read c cs).text.length + after.length ≤ cs.length + 1) :
    Lexeme.read c cs' = Lexeme.read c cs := by
  by_cases hcomment : c = '#'
  · subst hcomment
    have hline := h.takeWhile_eq (p := (· != '\n')) (by decide)
    change Lexeme.ofComment ('#' :: cs') = Lexeme.ofComment ('#' :: cs)
    rw [Lexeme.ofComment, Lexeme.restOfLine, hline, Lexeme.ofComment, Lexeme.restOfLine]
  cases h with
  | here => rfl
  | char _ h =>
    by_cases hquote : c ∈ ['"', '\'']
    · rw [read_quote hquote] at hkind hroom
      rw [read_quote hquote, read_quote hquote]
      exact h.ofString_eq hquote hkind hroom
    · exact read_inLine h.sameLine hcomment hquote

/-- The new line comes after the blanks of this one. -/
theorem code (h : LineAdded line after cs cs') :
    LineAdded line after (cs.drop (indentation cs).length) (cs'.drop (indentation cs').length) := by
  have hblanks : indentation cs' = indentation cs := h.takeWhile_eq (by decide)
  rw [hblanks]
  exact h.drop (h.takeWhile_length_lt (by decide))

/-- The trivia before a line of code that starts ahead of the new line. -/
theorem leadOf_eq {p : Position} (h : LineAdded line after cs cs')
    (hroom : after.length < (leadOf p cs).rest.length) :
    (leadOf p cs').trivia = (leadOf p cs).trivia ∧
      (leadOf p cs').position = (leadOf p cs).position ∧
      LineAdded line after (leadOf p cs).rest (leadOf p cs').rest := by
  have hblanks : indentation cs' = indentation cs := h.takeWhile_eq (by decide)
  have hcode := h.code
  generalize hdrop' : cs'.drop (indentation cs').length = code' at hcode
  fun_induction leadOf p cs generalizing cs' code' with
  | case1 p cs hdrop =>
    rw [hdrop] at hcode
    cases hcode
  | case2 p cs c rest hdrop q hnewline =>
    rename_i ih
    have hlength := Lexer.leadOf_length (q.next c) rest
    simp only [Lead.push] at hroom
    rw [hdrop] at hcode
    cases hcode with
    | here => omega
    | char _ hrest =>
      obtain ⟨htrivia, hposition, hlast⟩ :=
        ih hrest hroom (hrest.takeWhile_eq (by decide)) _ rfl hrest.code
      rw [leadOf_of_cons hdrop', if_pos hnewline, hblanks]
      exact ⟨congrArg (List.cons _) htrivia, hposition, hlast⟩
  | case3 p cs c rest hdrop q hnewline hcomment text stop lineEnd =>
    rename_i lead ih
    have hlength :=
      Lexer.leadOf_length (stop.advance lineEnd) (rest.drop ((Lexeme.restOfLine rest).length + 1))
    simp only [Lead.push, lead] at hroom
    rw [hdrop] at hcode
    cases hcode with
    | here => exact absurd hcomment (by decide)
    | @char _ rest' _ hrest =>
      have htext : Lexeme.restOfLine rest' = Lexeme.restOfLine rest :=
        hrest.takeWhile_eq (by decide)
      have hmore : LineAdded line after (rest.drop ((Lexeme.restOfLine rest).length + 1))
          (rest'.drop ((Lexeme.restOfLine rest).length + 1)) := by
        refine hrest.drop ?_
        rw [List.length_drop] at hlength
        omega
      have hfirst : (rest'.drop (Lexeme.restOfLine rest).length).take 1 = lineEnd :=
        (hrest.drop (hrest.takeWhile_length_lt (by decide))).take_one
      obtain ⟨htrivia, hposition, hlast⟩ :=
        ih hmore hroom (hmore.takeWhile_eq (by decide)) _ rfl hmore.code
      rw [leadOf_of_cons hdrop', if_neg hnewline, if_pos hcomment, htext, hfirst, hblanks]
      exact ⟨congrArg (List.cons _) htrivia, hposition, hlast⟩
  | case4 p cs c rest hdrop hnewline hcomment =>
    rw [hdrop] at hcode
    cases hcode with
    | here => exact absurd rfl hnewline
    | char _ hrest =>
      rw [leadOf_of_cons hdrop', if_neg hnewline, if_neg hcomment]
      exact ⟨rfl, rfl, h⟩

end LineAdded

namespace Lexer

variable {lx last : Lexer} {line after cs' : List Char} {t : Token}

theorem openLine_atLineStart (lx : Lexer) : lx.openLine.atLineStart = false := by
  unfold openLine
  dsimp only
  split <;> rfl

/-- Where the next line of code starts ahead of the new line, the lexer comes to it all the same. -/
theorem openLine_lineAdded (h : LineAdded line after lx.rest cs')
    (hroom : after.length < lx.openLine.rest.length) :
    ∃ more, { lx with rest := cs' }.openLine = { lx.openLine with rest := more } ∧
      LineAdded line after lx.openLine.rest more := by
  have hrest : lx.openLine.rest = (leadOf lx.position lx.rest).rest.drop
      (indentation (leadOf lx.position lx.rest).rest).length := by
    unfold openLine
    dsimp only
    split <;> rfl
  rw [hrest] at hroom
  obtain ⟨htrivia, hposition, hlast⟩ := h.leadOf_eq (p := lx.position) (by
    rw [List.length_drop] at hroom
    omega)
  have hblanks : indentation (leadOf lx.position cs').rest =
      indentation (leadOf lx.position lx.rest).rest :=
    hlast.takeWhile_eq (by decide)
  have hcode := hlast.code
  rw [hblanks] at hcode
  unfold openLine
  dsimp only [consume]
  rw [htrivia, hposition, hblanks]
  generalize (leadOf lx.position lx.rest).rest.drop _ = code at hcode
  generalize (leadOf lx.position cs').rest.drop _ = code' at hcode
  cases hcode with
  | here => exact ⟨_, rfl, .here⟩
  | char c h => exact ⟨_, rfl, .char c h⟩

/-- A lexeme that ends ahead of the new line, or right before it where a line starts there. -/
theorem scan_lineAdded (h : LineAdded line after lx.rest cs') (hstart : lx.atLineStart = false)
    (hscan : lx.scan = (.ok t, last))
    (hroom : after.length < last.rest.length ∨ last.atLineStart = true ∧
      after.length ≤ last.rest.length) :
    ∃ more, { lx with rest := cs' }.scan = (.ok t, { last with rest := more }) ∧
      (LineAdded line after last.rest more ∨ last.rest = after ∧ more = line ++ after) := by
  unfold scan at hscan ⊢
  dsimp only [consume] at hscan ⊢
  generalize hn : (gap (0 < lx.nesting) false lx.rest).length = n at hscan
  split at hscan
  · next hnil =>
    cases hscan
    simp [finish, hnil, hstart] at hroom
  · next c cs hcons =>
    split at hscan
    · next kind hkind =>
      cases hscan
      have htext := (Lexeme.read_text_isPrefix c cs).length_le
      have hne := List.length_pos_iff.mpr (Lexeme.read_text_ne_nil c cs)
      have hlength := congrArg List.length hcons
      rw [hcons] at hroom
      simp only [List.length_drop, List.length_cons] at htext hlength hroom
      have hskip : gap (0 < lx.nesting) false cs' = gap (0 < lx.nesting) false lx.rest :=
        h.gap_eq (by omega)
      have hcode := h.drop (n := n) (by omega)
      rw [hcons] at hcode
      obtain ⟨ds, hds⟩ := hcode.exists_cons
      rw [hds] at hcode
      have hread := hcode.read_eq hkind (by omega)
      rw [hskip, hn, hds, hcons]
      simp only [hread, hkind]
      refine ⟨_, rfl, hcode.drop_of_le ?_⟩
      rw [List.length_cons]
      omega
    · cases hscan

theorem settle_lineAdded (h : LineAdded line after lx.rest cs')
    (hroom : lx.settle.atLineStart = true ∨ after.length < lx.settle.rest.length) :
    ∃ more, { lx with rest := cs' }.settle = { lx.settle with rest := more } ∧
      LineAdded line after lx.settle.rest more := by
  unfold settle at hroom ⊢
  dsimp only
  split
  · next hline =>
    rw [if_pos hline, openLine_atLineStart] at hroom
    exact openLine_lineAdded h (hroom.resolve_left (by decide))
  · exact ⟨cs', rfl, h⟩

/-- Where a call reads on in a line, the lexer is in that line. -/
theorem settle_inLine (hpending : lx.settle.pending = []) (hopen : lx.settle.finished = false) :
    lx.settle.atLineStart = false := by
  unfold settle at hpending hopen ⊢
  split at hpending
  · next hline => rw [if_pos hline, openLine_atLineStart]
  · next hline =>
    rw [if_neg hline] at hopen ⊢
    simpa [hpending, hopen] using hline

theorem room_of_next (hnext : lx.next = (.ok t, last))
    (hroom : after.length < last.rest.length ∨ last.atLineStart = true ∧
      after.length ≤ last.rest.length) :
    lx.settle.atLineStart = true ∨ after.length < lx.settle.rest.length := by
  cases hstart : lx.settle.atLineStart with
  | true => exact .inl rfl
  | false =>
    right
    obtain ⟨u, us, -, heq⟩ | ⟨-, -, heq⟩ | ⟨hpending, hopen, heq⟩ := lx.next_cases
    · cases heq.symm.trans hnext
      simpa [hstart] using hroom
    · cases heq.symm.trans hnext
      simpa [hstart] using hroom
    · have hscan := heq.symm.trans hnext
      by_cases hrest : lx.settle.skip.rest = []
      · rw [scan_of_endsInLine ⟨hpending, hopen, hrest⟩] at hscan
        cases hscan
        have hlast : lx.settle.skip.atLineStart = false := hstart
        simp [finish, hrest, hlast] at hroom
      · obtain ⟨text, hpasses, hne⟩ := scan_passes lx.settle
        have hlength := congrArg List.length hpasses.rest
        have htext := List.length_pos_iff.mpr (hne hrest)
        simp only [hscan, List.length_append] at hlength
        omega

/-- A call that ends ahead of the new line, or right before it where a line starts there. -/
theorem next_lineAdded (h : LineAdded line after lx.rest cs') (hnext : lx.next = (.ok t, last))
    (hroom : after.length < last.rest.length ∨ last.atLineStart = true ∧
      after.length ≤ last.rest.length) :
    ∃ more, { lx with rest := cs' }.next = (.ok t, { last with rest := more }) ∧
      (LineAdded line after last.rest more ∨ last.rest = after ∧ more = line ++ after) := by
  obtain ⟨more, hsettle, hmore⟩ := settle_lineAdded h (room_of_next hnext hroom)
  have hsame : { lx with rest := cs' }.settle.pending = lx.settle.pending := by rw [hsettle]
  have hopened : { lx with rest := cs' }.settle.finished = lx.settle.finished := by rw [hsettle]
  obtain ⟨u, us, hpending, heq⟩ | ⟨hpending, hfinished, heq⟩ | ⟨hpending, hopen, heq⟩ :=
    lx.next_cases
  · cases heq.symm.trans hnext
    refine ⟨more, ?_, .inl hmore⟩
    rw [next_of_due (hsame.trans hpending), hsettle]
  · cases heq.symm.trans hnext
    refine ⟨more, ?_, .inl hmore⟩
    rw [next_of_finished (hsame.trans hpending) (hopened.trans hfinished), hsettle]
  · rw [next_of_open (hsame.trans hpending) (hopened.trans hopen), hsettle]
    exact scan_lineAdded hmore (settle_inLine hpending hopen) (heq.symm.trans hnext) hroom

/-- Where a line starts nothing is due, and the text goes on. -/
def Fresh (lx : Lexer) : Prop := lx.atLineStart = true → lx.pending = [] ∧ lx.finished = false

theorem fresh_start (source : List Char) : (start source).Fresh := fun _ => ⟨rfl, rfl⟩

theorem Fresh.settle (h : lx.Fresh) : lx.settle.atLineStart = false := by
  unfold Lexer.settle
  split
  · exact openLine_atLineStart lx
  · next hline =>
    cases hstart : lx.atLineStart with
    | false => rfl
    | true =>
      obtain ⟨hpending, hopen⟩ := h hstart
      simp [hpending, hopen, hstart] at hline

/-- What holds where a line starts asks nothing of a lexer within a line. -/
theorem within_fresh {before : List Char} (h : last.atLineStart = false) :
    last.Fresh ∧ (last.atLineStart = true → ∃ text, before = text ++ '\n' :: last.rest) := by
  simp [Fresh, h]

theorem scan_fresh {r : Except LexError Token} (hpending : lx.pending = [])
    (hopen : lx.finished = false) (hstart : lx.atLineStart = false) (hscan : lx.scan = (r, last)) :
    last.Fresh ∧ (last.atLineStart = true → ∃ text, lx.rest = text ++ '\n' :: last.rest) := by
  have hgap := prefix_append_drop (gap_isPrefix (0 < lx.nesting) false lx.rest)
  unfold scan at hscan
  dsimp only [consume] at hscan
  split at hscan
  · cases hscan
    exact within_fresh hstart
  · next c cs hcons =>
    split at hscan
    · next kind hkind =>
      cases hscan
      refine ⟨fun _ => ⟨hpending, hopen⟩, fun hline => ⟨gap (0 < lx.nesting) false lx.rest, ?_⟩⟩
      obtain rfl : kind = .newline := beq_iff_eq.mp hline
      have htext := text_of_newline hkind
      have hleads := Lexeme.read_text_isPrefix c cs
      rw [htext] at hleads
      obtain ⟨rfl, -⟩ := List.cons_prefix_cons.mp hleads
      rw [hcons] at hgap
      dsimp only
      rw [hcons, htext]
      exact hgap.symm
    · cases hscan
      exact within_fresh hstart

/-- A line starts after a line end. -/
theorem Fresh.next (h : lx.Fresh) : lx.next.2.Fresh ∧
    (lx.next.2.atLineStart = true → ∃ text, lx.rest = text ++ '\n' :: lx.next.2.rest) := by
  have hstart := h.settle
  obtain ⟨u, us, -, hnext⟩ | ⟨-, -, hnext⟩ | ⟨hpending, hopen, hnext⟩ := lx.next_cases
  · rw [hnext]
    exact within_fresh hstart
  · rw [hnext]
    exact within_fresh hstart
  · rw [hnext]
    obtain ⟨blanks, hsettled⟩ := settle_passes lx
    have hscan : lx.settle.scan = (lx.settle.scan.1, lx.settle.scan.2) := rfl
    obtain ⟨hfresh, hline⟩ := scan_fresh hpending hopen hstart hscan
    refine ⟨hfresh, fun h => ?_⟩
    obtain ⟨text, htext⟩ := hline h
    refine ⟨blanks ++ text, ?_⟩
    rw [hsettled.rest, htext, List.append_assoc]

theorem afterCalls_passes (lx : Lexer) (count : Nat) :
    ∃ text, lx.Passes text (lx.afterCalls count) := by
  induction count generalizing lx with
  | zero => exact ⟨[], .refl lx⟩
  | succ count ih =>
    obtain ⟨text, hfirst, -⟩ := next_passes lx
    obtain ⟨more, hmore⟩ := ih lx.next.2
    exact ⟨text ++ more, hfirst.trans hmore⟩

theorem Fresh.afterCalls (h : lx.Fresh) (count : Nat) : (lx.afterCalls count).Fresh := by
  induction count generalizing lx with
  | zero => exact h
  | succ count ih => exact ih h.next.1

/-- Calls that come to the start of a line go over a line end. -/
theorem Fresh.lineEnd (h : lx.Fresh) {count : Nat}
    (hstart : (lx.afterCalls (count + 1)).atLineStart = true) :
    ∃ text, lx.rest = text ++ '\n' :: (lx.afterCalls (count + 1)).rest := by
  rw [afterCalls_succ] at hstart ⊢
  obtain ⟨text, htext⟩ := afterCalls_passes lx count
  obtain ⟨more, hmore⟩ := (h.afterCalls count).next.2 hstart
  refine ⟨text ++ more, ?_⟩
  rw [htext.rest, hmore, List.append_assoc]

/-- An exhausted lexer comes to no further line. -/
theorem Exhausted.afterCalls (h : lx.Exhausted) (count : Nat) : lx.afterCalls count = lx := by
  induction count with
  | zero => rfl
  | succ count ih => rw [afterCalls_succ, ih, h.next]

theorem Exhausted.not_atLineStart (h : lx.Exhausted) (hfresh : lx.Fresh) :
    lx.atLineStart = false := by
  by_contra hstart
  have hagain : lx.next.2 = lx := by rw [h.next]
  obtain ⟨text, htext⟩ := hfresh.next.2 (by simpa [hagain] using hstart)
  rw [h.rest] at htext
  simp at htext

/-- A run that comes to a further line does not end before it. -/
theorem ne_eof_of_next (hfresh : lx.Fresh) (horderly : lx.Orderly) (hnext : lx.next = (.ok t, last))
    (count : Nat) (hstart : (last.afterCalls count).atLineStart = true) : t.kind ≠ .eof := by
  intro heof
  have hexhausted := (horderly.next.2 t (by rw [hnext]) heof).1
  have hlast := hfresh.next.1
  rw [hnext] at hexhausted hlast
  rw [hexhausted.afterCalls, hexhausted.not_atLineStart hlast] at hstart
  cases hstart

/-- Up to the new line two runs give the same tokens. -/
theorem run_lineAdded {count : Nat} (hfresh : lx.Fresh) (horderly : lx.Orderly)
    (h : LineAdded line after lx.rest cs') (hstart : (lx.afterCalls (count + 1)).atLineStart = true)
    (hroom : after.length ≤ (lx.afterCalls (count + 1)).rest.length) {ts : List Token}
    (hrun : lx.run.1 = .ok ts) :
    ∃ early late more, ts = early ++ late ∧ (lx.afterCalls (count + 1)).run.1 = .ok late ∧
      (LineAdded line after (lx.afterCalls (count + 1)).rest more ∨
        (lx.afterCalls (count + 1)).rest = after ∧ more = line ++ after) ∧
      ∀ us, { lx.afterCalls (count + 1) with rest := more }.run.1 = .ok us →
        { lx with rest := cs' }.run.1 = .ok (early ++ us) := by
  induction count generalizing lx cs' ts with
  | zero =>
    obtain ⟨t, last, hnext, hcases⟩ := run_cases hrun
    have hlast : lx.afterCalls 1 = last := congrArg Prod.snd hnext
    rw [Nat.zero_add, hlast] at hstart hroom ⊢
    have ht := ne_eof_of_next hfresh horderly hnext 0 hstart
    obtain ⟨-, us, rfl, hus⟩ := hcases.resolve_left fun h => ht h.1
    obtain ⟨more, hnext', hmore⟩ := next_lineAdded h hnext (.inr ⟨hstart, hroom⟩)
    exact ⟨[t], us, more, rfl, hus, hmore, fun us hus => run_cons hnext' ht hus⟩
  | succ count ih =>
    obtain ⟨t, last, hnext, hcases⟩ := run_cases hrun
    have hlast : lx.afterCalls (count + 1 + 1) = last.afterCalls (count + 1) :=
      congrArg (afterCalls · (count + 1)) (congrArg Prod.snd hnext)
    rw [hlast] at hstart hroom ⊢
    have ht := ne_eof_of_next hfresh horderly hnext (count + 1) hstart
    obtain ⟨-, us, rfl, hus⟩ := hcases.resolve_left fun h => ht h.1
    have hnext₂ : lx.next.2 = last := congrArg Prod.snd hnext
    have hfresh' : last.Fresh := hnext₂ ▸ hfresh.next.1
    have horderly' : last.Orderly := hnext₂ ▸ horderly.next.1
    obtain ⟨text, htext⟩ := hfresh'.lineEnd hstart
    have hlength := congrArg List.length htext
    rw [List.length_append, List.length_cons] at hlength
    obtain ⟨more, hnext', hmore | ⟨hend, -⟩⟩ := next_lineAdded h hnext (.inl (by omega))
    · obtain ⟨early, late, more', rfl, hlate, hmore', hruns⟩ :=
        ih hfresh' horderly' hmore hstart hroom hus
      refine ⟨t :: early, late, more', rfl, hlate, hmore', fun us hus => ?_⟩
      exact run_cons hnext' ht (hruns us hus)
    · rw [hend] at hlength
      omega

end Lexer

end Sketchwright.Token
