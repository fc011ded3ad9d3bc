import Sketchwright.Proofs.CodeText
import Sketchwright.Proofs.Tiling

/-! Comments of a sketch as C++ reads them. Lines that end in a backslash are joined first, and then
literals and comments are told from code, from the left to the right. A comment in block form may
run over several lines; what is joined in it must not be a mark that ends it. -/

namespace Sketchwright

namespace Sketch

/-- The characters of a text and what they belong to, from a place in a region on. -/
def scan : Region → List Char → Marks
  | .code, '/' :: '/' :: cs => (.line, '/') :: (.line, '/') :: scan .line cs
  | .code, '/' :: '*' :: cs => (.block, '/') :: (.block, '*') :: scan .block cs
  | .code, '"' :: cs => (.literal, '"') :: scan .literal cs
  | .code, c :: cs => (.code, c) :: scan .code cs
  | .literal, '\\' :: c :: cs => (.literal, '\\') :: (.literal, c) :: scan .literal cs
  | .literal, '"' :: cs => (.literal, '"') :: scan .code cs
  | .literal, c :: cs => (.literal, c) :: scan .literal cs
  | .line, '\n' :: cs => (.code, '\n') :: scan .code cs
  | .line, c :: cs => (.line, c) :: scan .line cs
  | .block, '*' :: '/' :: cs => (.block, '*') :: (.block, '/') :: scan .code cs
  | .block, c :: cs => (.block, c) :: scan .block cs
  | _, [] => []

/-- What is left of a text without its comments. -/
def outside (marks : Marks) : List Char :=
  (marks.filter fun mark => mark.1 == .code || mark.1 == .literal).map Prod.snd

theorem scan_text (region : Region) (cs : List Char) : (scan region cs).map Prod.snd = cs := by
  fun_induction scan region cs <;> simp_all

/-- A text is read as `marks`, whatever follows it. -/
def Reads (text : List Char) (marks : Marks) : Prop :=
  ∀ rest, scan .code (splice (text ++ rest)) = marks ++ scan .code (splice rest)

variable {text more rest : List Char} {c : Char}

theorem Reads.append {marks marks' : Marks} (h : Reads text marks) (hmore : Reads more marks') :
    Reads (text ++ more) (marks ++ marks') := by
  intro rest
  rw [List.append_assoc, h, hmore, List.append_assoc]

theorem Reads.nil : Reads [] [] := fun _ => rfl

/-- A text on its own. -/
theorem Reads.scan_eq {marks : Marks} (h : Reads text marks) :
    scan .code (splice text) = marks := by
  have hend : scan .code (splice []) = [] := rfl
  have hall := h []
  rwa [List.append_nil, hend, List.append_nil] at hall

section Splices

/-- A backslash takes only a line end with it that follows it. -/
theorem splice_cons (h : c = '\\' → '\n' ∉ rest.head?) : splice (c :: rest) = c :: splice rest := by
  rw [splice]
  rintro cs hc rfl
  exact h hc rfl

theorem splice_other (hc : c ≠ '\\') (cs : List Char) : splice (c :: cs) = c :: splice cs :=
  splice_cons fun h => absurd h hc

theorem splice_pair {d : Char} (hd : d ≠ '\n') (h : '\n' ∉ rest.head?) :
    splice ('\\' :: d :: rest) = '\\' :: d :: splice rest := by
  rw [splice_cons fun _ => by simpa using hd, splice_cons fun _ => h]

theorem splice_append (h : '\n' ∉ more.head?) :
    splice (text ++ more) = splice text ++ splice more := by
  fun_induction splice text with
  | case1 cs ih => exact ih
  | case2 c cs hjoin ih =>
    have hhead : c = '\\' → '\n' ∉ (cs ++ more).head? := by
      intro hc
      cases cs with
      | nil => exact h
      | cons d cs =>
        rintro ⟨⟩
        exact hjoin cs hc rfl
    rw [List.cons_append, splice_cons hhead, ih, List.cons_append]
  | case3 => rfl

theorem splice_of_not_mem (h : '\n' ∉ text) : splice text = text := by
  induction text with
  | nil => rfl
  | cons c cs ih =>
    obtain ⟨-, hcs⟩ := List.ne_and_not_mem_of_not_mem_cons h
    rw [splice_cons fun _ hmem => hcs (List.mem_of_mem_head? hmem), ih hcs]

/-- A line that ends in no backslash ends where it ended before. -/
theorem splice_line (h : '\n' ∉ text) (hlast : text.getLast? ≠ some '\\') (rest : List Char) :
    splice (text ++ '\n' :: rest) = text ++ '\n' :: splice rest := by
  induction text with
  | nil => exact splice_other (by decide) rest
  | cons c cs ih =>
    obtain ⟨-, hcs⟩ := List.ne_and_not_mem_of_not_mem_cons h
    have hhead : c = '\\' → '\n' ∉ (cs ++ '\n' :: rest).head? := by
      rintro rfl
      cases cs with
      | nil => exact absurd rfl hlast
      | cons d cs =>
        rintro ⟨⟩
        exact hcs List.mem_cons_self
    have hlast' : cs.getLast? ≠ some '\\' := by
      cases cs with
      | nil => exact nofun
      | cons d cs => rwa [List.getLast?_cons_cons] at hlast
    rw [List.cons_append, splice_cons hhead, ih hcs hlast', List.cons_append]

end Splices

section Code

theorem reads_char (hc : isPlain c = true) : Reads [c] [(.code, c)] := by
  simp only [isPlain, Bool.and_eq_true, bne_iff_ne, ne_eq] at hc
  obtain ⟨⟨⟨hquote, hslash⟩, hbackslash⟩, -⟩ := hc
  intro rest
  rw [List.singleton_append, splice_other hbackslash, scan]
  · rfl
  · exact fun _ h => absurd h hslash
  · exact fun _ h => absurd h hslash
  · exact hquote

theorem reads_plain (h : ∀ c ∈ text, isPlain c = true) : Reads text (Region.code.mark text) := by
  induction text with
  | nil => exact .nil
  | cons c cs ih =>
    obtain ⟨hc, hcs⟩ := List.forall_mem_cons.mp h
    exact (reads_char hc).append (ih hcs)

theorem reads_newline : Reads ['\n'] [(.code, '\n')] := by
  intro rest
  rw [List.singleton_append, splice_other (by decide)]
  rfl

theorem reads_quotient : Reads [' ', '/', ' '] (Region.code.mark [' ', '/', ' ']) := by
  intro rest
  have hsplice : splice (' ' :: '/' :: ' ' :: rest) = ' ' :: '/' :: ' ' :: splice rest := by
    rw [splice_other (by decide), splice_other (by decide), splice_other (by decide)]
  exact congrArg (scan .code) hsplice

/-- No line ends at the start of an escaped text. -/
theorem head_escape (inner : List Char) : '\n' ∉ (escape inner ++ '"' :: rest).head? := by
  unfold escape
  split <;> simp_all

/-- An escaped text belongs to its literal up to the quote mark after it. -/
theorem scan_escape {inner : List Char} (h : Token.Lexeme.Paired inner) (rest : List Char) :
    scan .literal (splice (escape inner ++ '"' :: rest)) =
      Region.literal.mark (splice (escape inner ++ ['"'])) ++ scan .code (splice rest) := by
  have hpair : ∀ {d : Char} (cs : List Char), d ≠ '\n' →
      scan .literal (splice (escape cs ++ '"' :: rest)) =
        Region.literal.mark (splice (escape cs ++ ['"'])) ++ scan .code (splice rest) →
      scan .literal (splice ('\\' :: d :: (escape cs ++ '"' :: rest))) =
        Region.literal.mark (splice ('\\' :: d :: (escape cs ++ ['"']))) ++
        scan .code (splice rest) := by
    intro d cs hd ih
    rw [splice_pair hd (head_escape cs), splice_pair hd (head_escape cs), scan, ih]
    rfl
  induction h with
  | nil =>
    have hquote : splice ('"' :: rest) = '"' :: splice rest := splice_other (by decide) rest
    rw [escape, List.nil_append, hquote]
    rfl
  | @escape c cs _ ih =>
    rw [escape, List.cons_append, List.cons_append, List.cons_append, List.cons_append]
    by_cases hc : c = '\n'
    · subst hc
      exact ih
    · exact hpair cs hc ih
  | @plain c cs hc _ ih =>
    unfold escape
    split
    · exact absurd (List.cons.inj ‹_›).1 hc
    · next heq => cases heq; exact hpair cs (by decide) ih
    · next heq => cases heq; exact hpair cs (by decide) ih
    · next heq => cases heq; exact hpair cs (by decide) ih
    · next heq => cases heq; exact hpair cs (by decide) ih
    · next hquote _ _ _ heq =>
      cases heq
      rw [List.cons_append, List.cons_append, splice_other hc, splice_other hc, scan, ih]
      · rfl
      · exact fun _ _ h => absurd h hc
      · exact hquote
    · next heq => cases heq

theorem reads_literal {text : String} (h : Token.Lexeme.Paired text.toList) :
    Reads (stringLiteral text).toList
      (Region.literal.mark (splice (stringLiteral text).toList)) := by
  have htext : (stringLiteral text).toList = '"' :: (escape text.toList ++ ['"']) := by
    simp [stringLiteral]
  intro rest
  rw [htext, List.cons_append, List.append_assoc, List.singleton_append, splice_other (by decide),
    splice_other (by decide), scan, scan_escape h]
  rfl

/-- Text of code is read as it is marked. -/
theorem Marked.reads {text : String} {marks : Marks} (h : Marked (fun _ => False) text marks) :
    Reads text.toList marks := by
  induction h with
  | plain _ htext => exact reads_plain (plain_iff.mp htext)
  | literal h => exact reads_literal (Token.Lexeme.paired_of_spelled h)
  | target h => exact h.elim
  | more _ hrest ih =>
    rw [String.toList_append]
    exact ih.append (reads_plain (plain_iff.mp hrest))
  | append _ _ ih ihmore =>
    rw [String.toList_append]
    exact ih.append ihmore
  | quotient _ _ ih ihmore =>
    rw [String.toList_append, String.toList_append]
    exact (ih.append reads_quotient).append ihmore

end Code

section Comments

/-- A comment up to the end of the line takes all of it. -/
theorem scan_line (h : '\n' ∉ text) (rest : List Char) :
    scan .line (text ++ '\n' :: rest) =
      Region.line.mark text ++ (.code, '\n') :: scan .code rest := by
  induction text with
  | nil => rfl
  | cons c cs ih =>
    obtain ⟨hc, hcs⟩ := List.ne_and_not_mem_of_not_mem_cons h
    rw [List.cons_append, scan, ih hcs]
    · rfl
    · exact fun h => hc h.symm

/-- No comment in block form ends before a text without the mark for that is over. -/
theorem scan_block (h : ¬['*', '/'] <:+: text) (rest : List Char) :
    scan .block (text ++ '*' :: '/' :: rest) =
      Region.block.mark (text ++ ['*', '/']) ++ scan .code rest := by
  induction text with
  | nil => rfl
  | cons c cs ih =>
    rw [List.infix_cons_iff, not_or] at h
    rw [List.cons_append, scan, ih h.2]
    · rfl
    · rintro ds rfl hds
      cases cs with
      | nil => cases hds
      | cons d cs =>
        cases hds
        exact h.1 ⟨cs, rfl⟩

/-- The mark that ends a comment in block form is nowhere in the text of the comment, even
with its lines joined. -/
def Closed (text : String) : Prop := ¬['*', '/'] <:+: splice (spaceMarks text.toList)

/-- A comment in block form ends where it is written to end. -/
theorem reads_block {text : String} (h : Closed text) :
    Reads (blockComment text).toList (Region.block.mark (splice (blockComment text).toList)) := by
  have htext : (blockComment text).toList =
      '/' :: '*' :: (spaceMarks text.toList ++ ['*', '/']) := by
    simp [blockComment]
  have hend : ∀ rest, splice ('*' :: '/' :: rest) = '*' :: '/' :: splice rest := by
    intro rest
    rw [splice_other (by decide), splice_other (by decide)]
  intro rest
  rw [htext]
  simp only [List.cons_append, List.append_assoc, List.nil_append]
  rw [splice_other (by decide), splice_other (by decide), splice_other (by decide),
    splice_other (by decide), splice_append (by simp), splice_append (by simp), hend, hend,
    scan, scan_block h]
  rfl

theorem head_spaceMarks {cs : List Char} (h : '/' ∈ (spaceMarks cs).head?) : '/' ∈ cs.head? := by
  unfold spaceMarks at h
  split at h
  · cases h
  · exact h
  · exact h

theorem spaceMarks_infix (cs : List Char) : ¬['*', '/'] <:+: spaceMarks cs := by
  fun_induction spaceMarks cs with
  | case1 cs ih => simp [List.infix_cons_iff, ih]
  | case2 c cs hmark ih =>
    rw [List.infix_cons_iff, not_or]
    refine ⟨?_, ih⟩
    rintro ⟨ds, hds⟩
    obtain ⟨rfl, hds'⟩ : '*' = c ∧ '/' :: ds = spaceMarks cs := List.cons.inj hds
    have hslash : '/' ∈ cs.head? := head_spaceMarks (by rw [← hds']; rfl)
    cases cs with
    | nil => cases hslash
    | cons d cs =>
      cases hslash
      exact hmark cs rfl rfl
  | case3 => simp

theorem mem_spaceMarks {cs : List Char} (h : c ∈ spaceMarks cs) : c ∈ cs ∨ c = ' ' := by
  fun_induction spaceMarks cs with
  | case1 cs ih => simp_all; tauto
  | case2 d cs _ ih => simp_all; tauto
  | case3 => cases h

theorem closed_of_not_mem {text : String} (h : '\n' ∉ text.toList) : Closed text := by
  have hspaced : '\n' ∉ spaceMarks text.toList :=
    fun hmem => (mem_spaceMarks hmem).elim h (by decide)
  rw [Closed, splice_of_not_mem hspaced]
  exact spaceMarks_infix _

/-- What the characters of a comment belong to that is not in block form, unless its
text ends in a backslash. -/
def commentMarks (text : String) : Marks :=
  if endsInBackslash text then Region.block.mark (splice (blockComment text).toList)
  else Region.line.mark ("//" ++ text).toList

/-- A comment up to the end of its line ends there. -/
theorem reads_comment {text : String} (h : '\n' ∉ text.toList) :
    Reads ((lineComment text).toList ++ ['\n']) (commentMarks text ++ [(.code, '\n')]) := by
  unfold lineComment commentMarks
  split
  · exact (reads_block (closed_of_not_mem h)).append reads_newline
  · next hlast =>
    have hlast' : text.toList.getLast? ≠ some '\\' := by simpa [endsInBackslash] using hlast
    intro rest
    have htext : ("//" ++ text).toList ++ ['\n'] ++ rest =
        '/' :: '/' :: (text.toList ++ '\n' :: rest) := by
      simp
    rw [htext, splice_other (by decide), splice_other (by decide), splice_line h hlast',
      scan, scan_line h]
    simp [Region.mark]

end Comments

section Lines

/-- What the characters of a comment or of code belong to on its own. -/
inductive Content.Marked : Content → Marks → Prop
  | code {source : String} {marks : Marks} (h : Sketch.Marked (fun _ => False) source marks) :
      Content.Marked (.code source) marks
  | comment (comment : String) : Content.Marked (.comment comment) (commentMarks comment)
  | block (comment : String) :
      Content.Marked (.block comment) (Region.block.mark (splice (blockComment comment).toList))
  | empty : Content.Marked .empty []

def notesMarks (notes : List String) : Marks :=
  notes.flatMap fun text => Region.code.mark [' ', ' '] ++ commentMarks text

/-- What the characters of a part of a line belong to when it is read on its own. -/
def Content.marks : Content → Marks
  | .code text => scan .code (splice text.toList)
  | .comment text => commentMarks text
  | .block text => Region.block.mark (splice (blockComment text).toList)
  | .empty => []

def Line.marks (width : Nat) (line : Line) : Marks :=
  Region.code.mark (line.margin width).toList ++ line.content.marks ++ notesMarks line.notes ++
    [(.code, '\n')]

/-- What the characters of a line belong to: each part of it ends where it is written to end. -/
def Line.Marked (width : Nat) (line : Line) (marks : Marks) : Prop :=
  ∃ content, line.content.Marked content ∧
    marks = Region.code.mark (line.margin width).toList ++ content ++ notesMarks line.notes ++
    [(.code, '\n')]

/-- The text of a line that is not in a comment, with its lines joined. -/
def Line.codeText (width : Nat) (line : Line) : List Char :=
  (line.margin width).toList ++
  (match line.content with | .code text => splice text.toList | _ => []) ++
    line.notes.flatMap (fun _ => [' ', ' ']) ++ ['\n']

variable {line : Line} {width : Nat}

theorem outside_append (marks more : Marks) :
    outside (marks ++ more) = outside marks ++ outside more := by
  simp [outside]

theorem outside_code (text : List Char) : outside (Region.code.mark text) = text := by
  induction text with
  | nil => rfl
  | cons c cs ih => exact congrArg (c :: ·) ih

theorem outside_comment {region : Region} (h : region = .line ∨ region = .block)
    (text : List Char) :
    outside (region.mark text) = [] := by
  induction text with
  | nil => rfl
  | cons c cs ih => rcases h with rfl | rfl <;> exact ih

theorem outside_commentMarks (text : String) : outside (commentMarks text) = [] := by
  unfold commentMarks
  split
  · exact outside_comment (.inr rfl) _
  · exact outside_comment (.inl rfl) _

theorem Region.of_mem_mark {region : Region} {text : List Char} :
    ∀ mark ∈ region.mark text, mark.1 = region := by
  intro mark hmark
  obtain ⟨c, -, rfl⟩ := List.mem_map.mp hmark
  rfl

/-- Nothing in the text of code is marked as a comment. -/
theorem Marked.region {isTarget : String → Prop} {text : String} {marks : Marks}
    (h : Marked isTarget text marks) :
    ∀ mark ∈ marks, mark.1 = .code ∨ mark.1 = .literal := by
  have hcode : ∀ {text}, ∀ mark ∈ Region.code.mark text, mark.1 = .code ∨ mark.1 = .literal :=
    fun mark hmark => .inl (Region.of_mem_mark mark hmark)
  induction h with
  | plain | target => exact hcode
  | literal => exact fun mark hmark => .inr (Region.of_mem_mark mark hmark)
  | more _ _ ih => exact List.forall_mem_append.mpr ⟨ih, hcode⟩
  | append _ _ ih ihmore => exact List.forall_mem_append.mpr ⟨ih, ihmore⟩
  | quotient _ _ ih ihmore =>
    exact List.forall_mem_append.mpr ⟨List.forall_mem_append.mpr ⟨ih, hcode⟩, ihmore⟩

theorem Marked.outside {text : String} {marks : Marks} (h : Marked (fun _ => False) text marks) :
    outside marks = splice text.toList := by
  have hall : ∀ mark ∈ marks, (mark.1 == .code || mark.1 == .literal) = true := by
    intro mark hmark
    rcases h.region mark hmark with hregion | hregion <;> simp [hregion]
  rw [Sketch.outside, List.filter_eq_self.mpr hall, ← h.reads.scan_eq, scan_text]

/-- Outside comments a line has its code. -/
theorem Line.Marked.outside {marks : Marks} (h : line.Marked width marks) :
    outside marks = line.codeText width := by
  have hnotes : Sketch.outside (notesMarks line.notes) = line.notes.flatMap fun _ =>
      [' ', ' '] := by
    induction line.notes with
    | nil => rfl
    | cons text notes ih =>
      rw [notesMarks, List.flatMap_cons, outside_append, outside_append, outside_code,
        outside_commentMarks, ← notesMarks, ih]
      rfl
  have hnewline : Sketch.outside [(.code, '\n')] = ['\n'] := rfl
  obtain ⟨content, hcontent, rfl⟩ := h
  rw [outside_append, outside_append, outside_append, outside_code, hnotes, hnewline, Line.codeText]
  cases hline : line.content <;> rw [hline] at hcontent <;> cases hcontent
  · next htext => rw [htext.outside]
  · rw [outside_commentMarks]
  · rw [outside_comment (.inr rfl)]
  · rfl

/-- Comments without line ends, as they stand in a text. -/
abbrev OneLine (text : String) : Prop := '\n' ∉ text.toList

theorem reads_margin (width : Nat) (line : Line) :
    Reads (line.margin width).toList (Region.code.mark (line.margin width).toList) := by
  refine reads_plain fun c hc => ?_
  unfold Line.margin at hc
  split at hc
  · cases hc
  · rw [String.toList_ofList] at hc
    rw [(List.mem_replicate.mp hc).2]
    rfl

/-- A line ends behind its comment. -/
theorem reads_notes (h : Notes OneLine line.notes) :
    Reads (line.notesText ++ "\n").toList (notesMarks line.notes ++ [(.code, '\n')]) := by
  obtain ⟨hsingle, heach⟩ := h
  unfold Line.notesText notesMarks
  cases hnotes : line.notes with
  | nil => exact reads_newline
  | cons text notes =>
    rw [hnotes] at hsingle heach
    obtain rfl : notes = [] :=
      List.length_eq_zero_iff.mp (Nat.le_zero.mp (Nat.le_of_succ_le_succ hsingle))
    have hblanks : Reads [' ', ' '] (Region.code.mark [' ', ' ']) := reads_plain (by simp [isPlain])
    have htext := hblanks.append (reads_comment (heach text List.mem_cons_self))
    simpa [String.join] using htext

/-- A line is read part by part if its code is read as code whatever follows it. -/
theorem Tidy.reads {isCode : String → Prop}
    (hcode : ∀ text, isCode text → Reads text.toList (scan .code (splice text.toList)))
    (h : Tidy isCode OneLine Closed line) (width : Nat) :
    Reads (line.render width).toList (line.marks width) := by
  have hend : Reads line.content.text.toList line.content.marks →
      Reads (line.render width).toList (line.marks width) := by
    intro hreads
    have hline := ((reads_margin width line).append hreads).append (reads_notes h.notes)
    rw [← List.append_assoc] at hline
    rwa [← String.toList_append, ← String.toList_append, ← String.append_assoc] at hline
  cases hcontent : line.content with
  | code text =>
    rw [hcontent] at hend
    exact hend (hcode text (h.code text hcontent))
  | comment text =>
    obtain ⟨htext, hnotes⟩ := h.comment text hcontent
    have hline := (reads_margin width line).append (reads_comment htext)
    simpa [Line.render, Line.marks, hcontent, Content.text, Content.marks, Line.notesText, hnotes,
      notesMarks] using hline
  | block text =>
    rw [hcontent] at hend
    exact hend (reads_block (h.block text hcontent))
  | empty =>
    rw [hcontent] at hend
    exact hend .nil

theorem reads_lines {isCode : String → Prop} {lines : List Line}
    (hcode : ∀ text, isCode text → Reads text.toList (scan .code (splice text.toList)))
    (h : ∀ line ∈ lines, Tidy isCode OneLine Closed line) (width : Nat) :
    Reads (String.join (lines.map (Line.render width))).toList
      (lines.flatMap (Line.marks width)) := by
  induction lines with
  | nil => exact .nil
  | cons line lines ih =>
    obtain ⟨hline, hlines⟩ := List.forall_mem_cons.mp h
    simpa using (hline.reads hcode width).append (ih hlines)

theorem Written.reads {text : String} (h : Written (fun _ => False) text) :
    Reads text.toList (scan .code (splice text.toList)) := by
  obtain ⟨marks, hmarks⟩ := h
  rw [hmarks.reads.scan_eq]
  exact hmarks.reads

theorem Tidy.marked (h : Tidy (Written fun _ => False) OneLine Closed line) (width : Nat) :
    line.Marked width (line.marks width) := by
  refine ⟨line.content.marks, ?_, rfl⟩
  cases hcontent : line.content with
  | code text =>
    obtain ⟨marks, hmarks⟩ := h.code text hcontent
    rw [Content.marks, hmarks.reads.scan_eq]
    exact .code hmarks
  | comment text => exact .comment text
  | block text => exact .block text
  | empty => exact .empty

theorem outside_flatten {lines : List Line} {marks : List Marks}
    (h : List.Forall₂ (Line.Marked width) lines marks) :
    outside marks.flatten = lines.flatMap (Line.codeText width) := by
  induction h with
  | nil => rfl
  | cons hline _ ih => rw [List.flatten_cons, outside_append, hline.outside, ih, List.flatMap_cons]

end Lines

end Sketch

/-- A comment of a text is in one line. -/
theorem Token.oneLine_of_comment {source : String} {tokens : List Token}
    (h : tokenize source = .ok tokens) {t : Token} (ht : t ∈ tokens) {text : String}
    (hkind : t.kind = .comment text) : Sketch.OneLine text := by
  have hstands : Lexer.Stands source.toList [] ⟨[], source.toList, 0⟩ (Lexer.start source.toList) :=
    ⟨rfl, rfl, .refl, fun _ h => (nomatch h), fun h => (nomatch h)⟩
  obtain ⟨_, _, _, _, hat⟩ := (Lexer.run_tiles _ hstands h).1 t ht
  have hdenotes := hat.denotes
  rw [hkind] at hdenotes
  obtain ⟨line, -, hline, htext⟩ := hdenotes
  rw [Sketch.OneLine, htext]
  exact fun hmem => hline ((Text.trimEnd_isPrefix line).subset hmem)

theorem Program.commented_notices (standing : Standing) (ts : List Token) :
    ∀ stmt ∈ Program.notices standing ts,
    Sketch.Commented (fun text => ∃ t ∈ ts, t.kind = .comment text) (fun _ => True) stmt := by
  induction ts generalizing standing with
  | nil => exact List.forall_mem_nil _
  | cons t ts ih =>
    have hrest : ∀ standing, ∀ stmt ∈ Program.notices standing ts,
        Sketch.Commented (fun text => ∃ u ∈ t :: ts, u.kind = .comment text) (fun _ => True) stmt :=
      fun standing stmt hstmt => (ih standing stmt hstmt).imp
        (fun _ ⟨u, hu, hkind⟩ => ⟨u, List.mem_cons_of_mem _ hu, hkind⟩) fun _ _ _ => trivial
    unfold Program.notices
    split
    · next text hkind =>
      refine List.forall_mem_cons.mpr ⟨?_, hrest _⟩
      split <;> exact ⟨t, List.mem_cons_self, hkind⟩
    · exact List.forall_mem_cons.mpr ⟨trivial, hrest _⟩
    · split
      · exact List.forall_mem_cons.mpr ⟨trivial, hrest _⟩
      · exact hrest _
    · exact hrest _
    · exact hrest _
    · exact hrest _
    · exact hrest _
    · exact hrest _

/-- The comments of a resolved program are those of its text: each is in one line but for those in
block form. -/
theorem Inference.infer_commented {table : CallTable} {source : String} {p p' : Program}
    (htable : table.Sound) (hsource : Program.ofSource source = .ok p)
    (hinfer : (infer table p).1 = .ok p') (hclosed : ∀ line text,
      .comment line .block text ∈ triviaIn (p.header ++ p.statements) → Sketch.Closed text) :
    ∀ comment ∈ triviaIn (p'.header ++ p'.statements),
      Sketch.Commented Sketch.OneLine Sketch.Closed comment := by
  obtain ⟨tokens, blanks, htokens, hnotices, -⟩ := Program.ofSource_notices hsource
  intro comment hcomment
  rw [triviaIn_bare (infer_bare htable (Program.wellFormed_of_source hsource) hinfer)] at hcomment
  have hnotice := Program.commented_notices .first tokens comment
    (hnotices ▸ List.mem_append_left blanks hcomment)
  refine hnotice.imp
    (fun text ⟨token, htoken, hkind⟩ => Token.oneLine_of_comment htokens htoken hkind) ?_
  rintro line text rfl
  exact hclosed line text hcomment

namespace Translator

open Program Sketch Inference

variable {config : Config} {t : Translator} {source output : String}

/-- Comments and literals of a sketch with the built-in calls end where they are written to
end, if no comment in block form has in it, once its lines are joined, the mark that ends it:
each part of each line is read as what it is written as, and outside comments there is the
code and nothing else. -/
theorem translate_hygiene (h : ofConfig config = .ok t) (htable : t.table = .builtin)
    (houtput : t.translate source = .ok output) :
    ∃ p p' pieces, Program.ofSource source = .ok p ∧
      (infer t.table p).1 = .ok p' ∧ outlineOf t.style p' = .ok pieces ∧
      output = String.join ((linesIn 0 pieces).map (Line.render t.config.indentWidth)) ∧
      ((∀ line text, .comment line .block text ∈ triviaIn (p.header ++ p.statements) →
        Closed text) →
        (∃ marks, List.Forall₂ (Line.Marked t.config.indentWidth) (linesIn 0 pieces) marks ∧
          scan .code (splice output.toList) = marks.flatten) ∧
        outside (scan .code (splice output.toList)) =
          (linesIn 0 pieces).flatMap (Line.codeText t.config.indentWidth)) := by
  have hsound := (built_of_ofConfig h).sound
  obtain ⟨p, p', hsource, hinfer, hgenerate⟩ := translate_eq_ok.mp houtput
  obtain ⟨pieces, hpieces, hlines⟩ := infer_outline hsound hsource hinfer t.config.floatType
  obtain ⟨hheader, hstmts⟩ := infer_noted hsound hsource hinfer
  have houtput' := Except.ok.inj (hgenerate.symm.trans (hlines t.config.indentWidth))
  refine ⟨p, p', pieces, hsource, hinfer, hpieces, houtput', fun hclosed => ?_⟩
  have hcomments := infer_commented hsound hsource hinfer hclosed
  have htargets : Renames t.style.table (fun _ => False) := by
    change Renames t.table _
    exact htable ▸ renames_builtin
  have hcode : ∀ stmt ∈ p'.header ++ p'.statements, ∀ text, CodeOf t.style stmt text →
      Written (fun _ => False) text :=
    fun stmt hstmt _ hcode =>
      hcode.written htargets (infer_lexical hsound hsource hinfer stmt hstmt)
  have htidy := outlineOf_tidy hheader hstmts
      (.plain ⟨'\x7d', _, rfl, by decide⟩ (by decide)) hcode hcomments hpieces
  have hmarks : List.Forall₂ (Line.Marked t.config.indentWidth) (linesIn 0 pieces)
      ((linesIn 0 pieces).map (Line.marks t.config.indentWidth)) := by
    rw [List.forall₂_map_right_iff, List.forall₂_same]
    exact fun line hline => (htidy line hline).marked _
  have hreads := reads_lines (fun _ => Written.reads) htidy t.config.indentWidth
  have hscan : scan .code (splice output.toList) =
      ((linesIn 0 pieces).map (Line.marks t.config.indentWidth)).flatten := by
    rw [houtput', hreads.scan_eq, List.flatMap_def]
  exact ⟨⟨_, hmarks, hscan⟩, by rw [hscan, outside_flatten hmarks]⟩

/-- A literal with a mark of comments in it, a comment that ends in a backslash, and a mark inside a
comment in block form. -/
def markedText : String := "x = \"//\" # a\\\n\"\"\"*/\"\"\"\n"

theorem translate_hygiene_marked : ofConfig default = .ok standard ∧ standard.table = .builtin ∧
    ∃ lines marks, standard.translate markedText = .ok (String.join (lines.map (Line.render 4))) ∧
      List.Forall₂ (Line.Marked 4) lines marks ∧
      scan .code (splice (String.join (lines.map (Line.render 4))).toList) = marks.flatten := by
  have hconfig : ofConfig default = .ok standard := by decide
  have htokens : Token.tokenize markedText = .ok [
      ⟨.identifier "x", ⟨0, 1, 1, 0⟩⟩, ⟨.symbol .equal, ⟨2, 3, 1, 2⟩⟩, ⟨.string "//", ⟨4, 8, 1, 4⟩⟩,
      ⟨.comment " a\\", ⟨9, 13, 1, 9⟩⟩, ⟨.newline, ⟨13, 14, 1, 13⟩⟩, ⟨.string "*/", ⟨14, 22, 2, 0⟩⟩,
      ⟨.newline, ⟨22, 23, 2, 8⟩⟩, ⟨.eof, ⟨23, 23, 3, 0⟩⟩] := by decide +kernel
  let p : Program := ⟨[],
    [.assign 1 (.name "x") (.literal (.str "//")) none .unresolved, .comment 1 .trailing " a\\",
      .comment 2 .block "*/"]⟩
  have hsource : Program.ofSource markedText = .ok p := by
    rw [Program.ofSource, htokens]
    cbv
  have hok : ((infer standard.table p).1.bind standard.generate).isOk = true := by decide +kernel
  obtain ⟨output, hgenerate⟩ := Outcome.exists_of_isOk hok
  have houtput : standard.translate markedText = .ok output := by
    rw [translate_eq, hsource]
    exact hgenerate
  obtain ⟨p₁, _, pieces, hsource₁, -, -, hlines, hread⟩ := translate_hygiene hconfig rfl houtput
  obtain rfl := Except.ok.inj (hsource.symm.trans hsource₁)
  have hclosed : ∀ line text, .comment line .block text ∈ triviaIn (p.header ++ p.statements) →
      Closed text := by
    have htrivia : triviaIn (p.header ++ p.statements) =
        [.comment 1 .trailing " a\\", .comment 2 .block "*/"] := rfl
    intro line text hmem
    rw [htrivia] at hmem
    obtain ⟨-, rfl⟩ : line = 2 ∧ text = "*/" := by simpa using hmem
    exact closed_of_not_mem (by decide)
  obtain ⟨⟨marks, hmarks, hscan⟩, -⟩ := hread hclosed
  rw [hlines] at houtput hscan
  exact ⟨hconfig, rfl, linesIn 0 pieces, marks, houtput, hmarks, hscan⟩

/-- A comment in block form in which the lines joined by a backslash bring together
the mark that ends it. -/
def splitText : String := "\"\"\"a *\\\n/ b\"\"\"\n"

/-- The comment ends before the rest of its text, which C++ reads as code. -/
theorem translate_split : standard.translate splitText = .ok "/*a *\\\n/ b*/\n" ∧
    "/*a *\\\n/ b*/\n" = Line.render 4 ⟨0, .block "a *\\\n/ b", []⟩ ∧
    outside (scan .code (splice "/*a *\\\n/ b*/\n".toList)) = " b*/\n".toList ∧
    Line.codeText 4 ⟨0, .block "a *\\\n/ b", []⟩ = ['\n'] := by
  have htokens : Token.tokenize splitText = .ok [
      ⟨.string "a *\\\n/ b", ⟨0, 14, 1, 0⟩⟩, ⟨.newline, ⟨14, 15, 2, 6⟩⟩,
      ⟨.eof, ⟨15, 15, 3, 0⟩⟩] := by decide +kernel
  let p : Program := ⟨[.comment 1 .block "a *\\\n/ b"], []⟩
  have hsource : Program.ofSource splitText = .ok p := by
    rw [Program.ofSource, htokens]
    cbv
  have hgenerate : ((infer standard.table p).1.bind standard.generate).toOption =
      some "/*a *\\\n/ b*/\n" := by
    decide +kernel
  refine ⟨?_, by decide +kernel, by decide +kernel, by decide⟩
  rw [translate_eq, hsource]
  exact Outcome.eq_ok_of_toOption hgenerate

end Translator

end Sketchwright
