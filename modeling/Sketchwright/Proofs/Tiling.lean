import Mathlib.Data.List.Induction
import Sketchwright.Proofs.Layout

/-! Tokens as parts of their text. Each token lies where its span says and stands for the characters
there; apart from indents and dedents the tokens come in the order of the text, and between two of
them there is only what the lexer skips. -/

namespace Sketchwright

open Text

/-- The characters of the last of some lines. -/
def lastLine (cs : List Char) : List Char := (cs.reverse.takeWhile (· != '\n')).reverse

/-- A place knows what stands before it. -/
theorem Position.advance_start (cs : List Char) : Position.start.advance cs =
    ⟨(String.ofList cs).utf8ByteSize, 1 + cs.count '\n', (lastLine cs).length⟩ := by
  induction cs using List.reverseRecOn with
  | nil => rfl
  | append_singleton cs c ih =>
    have hbytes : (String.ofList (cs ++ [c])).utf8ByteSize =
        (String.ofList cs).utf8ByteSize + c.utf8Size := by
      rw [String.ofList_append, String.utf8ByteSize_append, ← String.singleton_eq_ofList,
        String.utf8ByteSize_singleton]
    rw [Position.advance_append, ih, Position.advance_cons, Position.advance_nil, hbytes]
    unfold Position.next
    split
    · next h => simp [h, lastLine, Nat.add_assoc]
    · next h => simp [h, lastLine]

namespace Token

/-- What a token stands for in the text, when `rest` follows it there. -/
def Denotes (slice rest : List Char) : TokenKind → Prop
  | .identifier text | .float text | .compoundAssign text | .unknown text => text.toList = slice
  | .integer value => ∃ mark digits radix n,
      (mark, radix) ∈ [([], 10), (['0', 'x'], 16), (['0', 'X'], 16), (['0', 'o'], 8),
        (['0', 'O'], 8), (['0', 'b'], 2), (['0', 'B'], 2)] ∧
      slice = mark ++ digits ∧ ofDigits? radix (digits.filter (· != '_')) = some n ∧ value = n
  | .string text => ∃ quote ∈ ['"', '\''], ∃ delimiter ∈ [[quote], [quote, quote, quote]],
      slice = delimiter ++ text.toList ++ delimiter
  | .keyword k => k.text.toList = slice
  | .symbol s => s.text.toList = slice
  | .comment text => ∃ line, slice = '#' :: line ∧ '\n' ∉ line ∧ text.toList = trimEnd line
  | .newline => slice = ['\n'] ∨ slice = [] ∧ rest = []
  | .blankLine | .indent | .dedent => slice = []
  | .eof => slice = [] ∧ rest = []

/-- The token lies after `before`, covers `slice`, and stands for it. -/
structure At (before slice rest : List Char) (t : Token) : Prop where
  first : t.span.first = (String.ofList before).utf8ByteSize
  stop : t.span.stop = (String.ofList (before ++ slice)).utf8ByteSize
  line : t.span.line = 1 + before.count '\n'
  column : t.span.column = (lastLine before).length
  denotes : Denotes slice rest t.kind

/-- Text that is skipped before `after`: blanks, line ends, a backslash with the line end after it,
and comments inside brackets, each up to the end of its line. -/
inductive Skips (inBrackets : Bool) : List Char → List Char → Prop
  | nil {after} : Skips inBrackets [] after
  | blank {c text after} (hc : c ∈ [' ', '\t', '\r', '\x0c', '\n'])
    (h : Skips inBrackets text after) :
      Skips inBrackets (c :: text) after
  | join {text after} (h : Skips inBrackets text after) :
      Skips inBrackets ('\\' :: '\n' :: text) after
  | comment {line text after} (hopen : inBrackets = true) (hline : '\n' ∉ line)
      (hend : ∀ c ∈ (text ++ after).head?, c = '\n') (h : Skips inBrackets text after) :
      Skips inBrackets ('#' :: (line ++ text)) after

/-- A point of the text, and the brackets open there. -/
structure Point where
  before : List Char
  rest : List Char
  depth : Nat

/-- From one point to another the text consists of these tokens and of skipped text before each. -/
inductive Tiles : Point → List Token → Point → Prop
  | nil {p} : Tiles p [] p
  | cons {before gap slice rest : List Char} {depth : Nat} {t : Token} {ts : List Token} {q : Point}
      (hgap : Skips (0 < depth) gap (slice ++ rest)) (hat : t.At (before ++ gap) slice rest)
      (h : Tiles ⟨before ++ gap ++ slice, rest, Lexer.nestingAfter depth t.kind⟩ ts q) :
      Tiles ⟨before, gap ++ (slice ++ rest), depth⟩ (t :: ts) q

section Slices

variable {c : Char} {cs rest : List Char} {kind : TokenKind}

theorem denotes_operator {entry : List Char × TokenKind} (h : Lexeme.operator? cs = some entry) :
    Denotes entry.1 rest entry.2 := by
  have hall : ∀ entry ∈ Lexeme.operators, Denotes entry.1 rest entry.2 := by
    simp [Lexeme.operators, Denotes, Symbol.text]
  exact hall entry (List.mem_of_find?_eq_some h)

theorem denotes_word : Denotes cs rest (Lexeme.word cs) := by
  unfold Lexeme.word
  split
  · next k hk =>
    have htext := Keyword.text_of_ofText? hk
    simp [Denotes, htext]
  · simp [Denotes]

theorem denotes_comment {line : List Char} (hline : '\n' ∉ line) :
    Denotes ('#' :: line) rest (Lexeme.comment ('#' :: line)) :=
  ⟨line, rfl, hline, by simp⟩

theorem not_mem_restOfLine (cs : List Char) : '\n' ∉ Lexeme.restOfLine cs := by
  intro h
  have hall := List.all_eq_true.mp (List.all_takeWhile ..) _ h
  simp at hall

/-- A radix is announced by its mark. -/
theorem mark_of_radix? {radix : Nat} (h : Numeral.radix? cs = some radix) :
    (cs.take 2, radix) ∈ [(['0', 'x'], 16), (['0', 'X'], 16), (['0', 'o'], 8), (['0', 'O'], 8),
      (['0', 'b'], 2), (['0', 'B'], 2)] := by
  unfold Numeral.radix? at h
  split at h
  · grind
  · cases h

theorem denotes_integer {mark digits : List Char} {radix : Nat}
    (hmark : (mark, radix) ∈ [([], 10), (['0', 'x'], 16), (['0', 'X'], 16), (['0', 'o'], 8),
      (['0', 'O'], 8), (['0', 'b'], 2), (['0', 'B'], 2)])
    (h : Numeral.integer? radix digits = some kind) : Denotes (mark ++ digits) rest kind := by
  unfold Numeral.integer? at h
  split at h
  · next n hn =>
    split at h
    · cases h
      exact ⟨mark, digits, radix, n, hmark, rfl, hn, rfl⟩
    · cases h
  · cases h

theorem denotes_number (h : Numeral.kind? cs = some kind) :
    Denotes (Numeral.text cs) rest kind := by
  unfold Numeral.kind? at h
  split at h
  · next hspoiler =>
    have htext : Numeral.text cs = Numeral.body cs := by
      rw [Numeral.text, List.isEmpty_iff.mp hspoiler, List.append_nil]
    rw [htext]
    split at h
    · next radix hradix =>
      have hmark := mark_of_radix? hradix
      have hlength : (cs.take 2).length = 2 := by
        have hall : ∀ entry ∈ [(['0', 'x'], 16), (['0', 'X'], 16), (['0', 'o'], 8), (['0', 'O'], 8),
            (['0', 'b'], 2), (['0', 'B'], 2)], entry.1.length = 2 := by decide
        exact hall _ hmark
      have hbody : Numeral.body cs = cs.take 2 ++ (Numeral.body cs).drop 2 := by
        simp only [Numeral.body, hradix, List.drop_left' hlength]
      rw [hbody]
      exact denotes_integer (List.mem_cons_of_mem _ hmark) h
    · split at h
      · show Denotes ([] ++ Numeral.body cs) rest kind
        exact denotes_integer List.mem_cons_self h
      · cases h
        exact String.toList_ofList
  · cases h

theorem denotes_string {quote : Char} (hquote : quote ∈ ['"', '\'']) {text inner : List Char}
    (h : Quoted.read quote cs = (text, some inner)) :
    Denotes text rest (.string (String.ofList inner)) := by
  unfold Quoted.read at h
  dsimp only at h
  split at h
  · cases h
    refine ⟨quote, hquote, Quoted.delimiter quote (Quoted.isLong quote cs), ?_, by simp⟩
    cases Quoted.isLong quote cs <;> simp [Quoted.delimiter]
  · cases h

/-- A lexeme stands for its text. -/
theorem read_denotes (h : (Lexeme.read c cs).kind = .ok kind) :
    Denotes (Lexeme.read c cs).text rest kind := by
  unfold Lexeme.read at h ⊢
  split at h
  · next hc =>
    rw [if_pos hc]
    cases h
    exact .inl (by simpa using hc)
  next hnewline =>
  rw [if_neg hnewline]
  split at h
  · next hc =>
    rw [if_pos hc]
    have hc' : c = '#' := by simpa using hc
    have htext : Lexeme.restOfLine (c :: cs) = '#' :: Lexeme.restOfLine cs := by
      simp [Lexeme.restOfLine, hc']
    cases h
    rw [Lexeme.ofComment, htext]
    exact denotes_comment (not_mem_restOfLine cs)
  next hcomment =>
  rw [if_neg hcomment]
  split at h
  · next hnumber =>
    rw [if_pos hnumber]
    unfold Lexeme.ofNumber at h ⊢
    dsimp only at h ⊢
    split at h
    · next hkind =>
      cases h
      exact denotes_number hkind
    · cases h
  next hnumber =>
  rw [if_neg hnumber]
  split at h
  · next hquote =>
    rw [if_pos hquote]
    unfold Lexeme.ofString at h ⊢
    split at h
    · next hread =>
      cases h
      exact denotes_string (by simpa using hquote) hread
    · cases h
  next hquote =>
  rw [if_neg hquote]
  split at h
  · next hword =>
    rw [if_pos hword]
    cases h
    exact denotes_word
  next hword =>
  rw [if_neg hword]
  split at h
  · next hoperator =>
    cases h
    exact denotes_operator hoperator
  · cases h
    exact String.toList_singleton ..

end Slices

section Skipping

variable {inBrackets : Bool} {text more after : List Char}

theorem Skips.append (h : Skips inBrackets text (more ++ after))
    (hmore : Skips inBrackets more after) :
    Skips inBrackets (text ++ more) after := by
  generalize heq : more ++ after = all at h
  induction h with
  | nil => exact hmore
  | blank hc _ ih => exact .blank hc (ih heq)
  | join _ ih => exact .join (ih heq)
  | @comment line text _ hopen hline hend _ ih =>
    rw [List.cons_append, List.append_assoc]
    refine .comment hopen hline ?_ (ih heq)
    rwa [List.append_assoc, heq]

theorem skips_blanks (h : ∀ c ∈ text, isSpace c = true) : Skips inBrackets text after := by
  induction text with
  | nil => exact .nil
  | cons c text ih =>
    have hc := h c List.mem_cons_self
    refine .blank ?_ (ih fun d hd => h d (List.mem_cons_of_mem _ hd))
    simp only [isSpace, Bool.or_eq_true, beq_iff_eq] at hc
    simp only [List.mem_cons, List.not_mem_nil, or_false]
    tauto

theorem skips_indentation {cs : List Char} : Skips inBrackets (indentation cs) after :=
  skips_blanks fun c hc => List.all_eq_true.mp (List.all_takeWhile ..) c hc

/-- What the lexer skips is skipped text, after the rest of the comment in which it
starts, if it starts in one. -/
theorem gap_skips (inBrackets inComment : Bool) (cs : List Char)
    (hopen : inComment = true → inBrackets = true) :
    ∃ line text rest, gap inBrackets inComment cs = line ++ text ∧ cs = line ++ (text ++ rest) ∧
      Skips inBrackets text rest ∧ '\n' ∉ line ∧ (inComment = false → line = []) ∧
      (inComment = true → ∀ c ∈ (text ++ rest).head?, c = '\n') := by
  fun_induction gap inBrackets inComment cs with
  | case1 c cs ih =>
    by_cases hc : c = '\n'
    · subst hc
      obtain ⟨line, text, rest, hgap, rfl, hskips, -, hline, -⟩ := ih (fun _ => hopen rfl)
      obtain rfl := hline rfl
      refine ⟨[], '\n' :: text, rest, ?_, rfl, .blank (by simp) hskips, by simp, fun _ => rfl, ?_⟩
      · simpa using hgap
      · simp
    · obtain ⟨line, text, rest, hgap, rfl, hskips, hline, -, hend⟩ := ih (fun _ => hopen rfl)
      refine ⟨c :: line, text, rest, by rw [hgap]; rfl, rfl, hskips, ?_, fun h => (nomatch h), ?_⟩
      · simp [hline, Ne.symm hc]
      · exact fun _ => hend (by simp [hc])
  | case2 cs ih =>
    obtain ⟨line, text, rest, hgap, rfl, hskips, -, hline, -⟩ := ih hopen
    obtain rfl := hline rfl
    exact ⟨[], _, rest, by rw [hgap]; rfl, rfl, .join hskips, by simp, fun _ => rfl,
      fun h => (nomatch h)⟩
  | case3 c cs _ hc ih =>
    obtain ⟨line, text, rest, hgap, rfl, hskips, -, hline, -⟩ := ih hopen
    obtain rfl := hline rfl
    refine ⟨[], c :: text, rest, by rw [hgap]; rfl, rfl, .blank ?_ hskips, by simp, fun _ => rfl,
      fun h => (nomatch h)⟩
    simp only [isSpace, Bool.or_eq_true, Bool.and_eq_true, beq_iff_eq] at hc
    simp only [List.mem_cons, List.not_mem_nil, or_false]
    tauto
  | case4 c cs _ _ hc ih =>
    simp only [Bool.and_eq_true, beq_iff_eq] at hc
    obtain ⟨hbrackets, rfl⟩ := hc
    obtain ⟨line, text, rest, hgap, rfl, hskips, hline, -, hend⟩ := ih (fun _ => hbrackets)
    exact ⟨[], _, rest, by rw [hgap]; rfl, by simp,
      .comment hbrackets hline (hend rfl) hskips, by simp,
      fun _ => rfl, fun h => (nomatch h)⟩
  | case5 c cs => exact ⟨[], [], _, rfl, rfl, .nil, by simp, fun _ => rfl, fun h => (nomatch h)⟩
  | case6 mode => exact ⟨[], [], [], rfl, rfl, .nil, by simp, fun _ => rfl, by simp⟩

end Skipping

/-- A token from one place to another lies there. -/
theorem at_until (before : List Char) {slice rest : List Char} {kind : TokenKind}
    (h : Denotes slice rest kind) :
    At before slice rest ⟨kind, (Position.start.advance before).until
      (Position.start.advance (before ++ slice))⟩ := by
  rw [Position.advance_start, Position.advance_start]
  exact ⟨rfl, rfl, rfl, rfl, h⟩

/-- A token without text. -/
theorem at_mark {before rest : List Char} {kind : TokenKind} (h : Denotes [] rest kind) :
    At before [] rest ⟨kind, (Position.start.advance before).mark⟩ := by
  have hat := at_until before h
  rwa [List.append_nil] at hat

/-- The token lies somewhere in the text. -/
def PlacedIn (source : List Char) (t : Token) : Prop :=
  ∃ before slice rest, source = before ++ (slice ++ rest) ∧ t.At before slice rest

theorem PlacedIn.within {source : String} {t : Token} (h : t.PlacedIn source.toList) :
    t.span.first ≤ t.span.stop ∧ t.span.stop ≤ source.utf8ByteSize := by
  obtain ⟨before, slice, rest, hsource, hat⟩ := h
  have hbytes : source.utf8ByteSize = (String.ofList (before ++ (slice ++ rest))).utf8ByteSize := by
    rw [← hsource, String.ofList_toList]
  rw [hat.first, hat.stop, hbytes]
  simp only [String.ofList_append, String.utf8ByteSize_append]
  omega

section Tiles

variable {p q r : Point} {ts us : List Token} {t : Token}

theorem Tiles.append (h : Tiles p ts q) (hmore : Tiles q us r) : Tiles p (ts ++ us) r := by
  induction h with
  | nil => exact hmore
  | cons hgap hat _ ih => exact .cons hgap hat (ih hmore)

theorem Tiles.uncons (h : Tiles p (t :: ts) q) : ∃ p', Tiles p [t] p' ∧ Tiles p' ts q := by
  cases h with
  | cons hgap hat h => exact ⟨_, .cons hgap hat .nil, h⟩

/-- Tokens do not change the text that they are part of. -/
theorem Tiles.text (h : Tiles p ts q) : p.before ++ p.rest = q.before ++ q.rest := by
  induction h with
  | nil => rfl
  | cons _ _ _ ih => rw [← ih]; simp

theorem Tiles.placed (h : Tiles p ts q) : ∀ t ∈ ts, t.PlacedIn (p.before ++ p.rest) := by
  induction h with
  | nil => simp
  | @cons before gap slice rest depth t ts q hgap hat _ ih =>
    intro u hu
    rcases List.mem_cons.mp hu with rfl | hu
    · exact ⟨before ++ gap, slice, rest, by simp, hat⟩
    · have hplaced := ih u hu
      simpa using hplaced

/-- Later tokens start where earlier ones have stopped. -/
theorem Tiles.first_le (h : Tiles p ts q) :
    ∀ t ∈ ts, (String.ofList p.before).utf8ByteSize ≤ t.span.first ∧
      t.span.first ≤ t.span.stop := by
  induction h with
  | nil => simp
  | @cons before gap slice rest depth t ts q hgap hat _ ih =>
    simp only [String.ofList_append, String.utf8ByteSize_append] at ih
    intro u hu
    rcases List.mem_cons.mp hu with rfl | hu
    · rw [hat.first, hat.stop]
      simp only [String.ofList_append, String.utf8ByteSize_append]
      omega
    · have hfirst := ih u hu
      dsimp only
      omega

theorem Tiles.pairwise (h : Tiles p ts q) : ts.Pairwise fun t u => t.span.stop ≤ u.span.first := by
  induction h with
  | nil => exact .nil
  | @cons before gap slice rest depth t ts q hgap hat h ih =>
    refine List.pairwise_cons.mpr ⟨fun u hu => ?_, ih⟩
    rw [hat.stop]
    exact (h.first_le u hu).1

/-- From one point to another the text consists of these tokens and of skipped text, also after the
last of them. -/
def Reaches (p : Point) (ts : List Token) (q : Point) : Prop :=
  ∃ before gap, Tiles p ts ⟨before, gap ++ q.rest, q.depth⟩ ∧ Skips (0 < q.depth) gap q.rest ∧
    q.before = before ++ gap

variable {before gap slice rest : List Char} {depth : Nat}

theorem Reaches.refl : Reaches p [] p := ⟨p.before, [], .nil, .nil, by simp⟩

theorem Reaches.skip (h : Reaches p ts ⟨before, gap ++ rest, depth⟩)
    (hgap : Skips (0 < depth) gap rest) :
    Reaches p ts ⟨before ++ gap, rest, depth⟩ := by
  obtain ⟨front, skipped, htiles, hskips, rfl⟩ := h
  exact ⟨front, skipped ++ gap, by simpa using htiles, hskips.append hgap, by simp⟩

theorem Reaches.token (h : Reaches p ts ⟨before, slice ++ rest, depth⟩)
    (hat : t.At before slice rest) :
    Tiles p (ts ++ [t]) ⟨before ++ slice, rest, Lexer.nestingAfter depth t.kind⟩ := by
  obtain ⟨front, skipped, htiles, hskips, rfl⟩ := h
  exact htiles.append (.cons hskips hat .nil)

/-- Text that is skipped first is skipped before the first token. -/
theorem Reaches.after_gap (h : Reaches ⟨before ++ gap, rest, depth⟩ ts q)
    (hgap : Skips (0 < depth) gap rest) : Reaches ⟨before, gap ++ rest, depth⟩ ts q := by
  obtain ⟨front, skipped, htiles, hskips, hfront⟩ := h
  cases htiles with
  | nil => exact ⟨before, gap ++ skipped, by simpa using .nil, hgap.append hskips, by simp [hfront]⟩
  | @cons _ gap' slice rest _ t ts _ hgap' hat h =>
    refine ⟨front, skipped, ?_, hskips, hfront⟩
    rw [List.append_assoc] at hat h
    have htiles := Tiles.cons (hgap.append hgap') hat (by simpa using h)
    simpa using htiles

theorem Reaches.trans (h : Reaches p ts q) (hmore : Reaches q us r) : Reaches p (ts ++ us) r := by
  obtain ⟨front, skipped, htiles, hskips, hfront⟩ := h
  obtain ⟨front', skipped', htiles', hskips', hfront'⟩ :=
    Reaches.after_gap (show Reaches
      ⟨front ++ skipped, q.rest, q.depth⟩ us r by rwa [← hfront]) hskips
  exact ⟨front', skipped', htiles.append htiles', hskips', hfront'⟩

theorem Reaches.placed (h : Reaches p ts q) : ∀ t ∈ ts, t.PlacedIn (p.before ++ p.rest) := by
  obtain ⟨front, skipped, htiles, -, -⟩ := h
  exact htiles.placed

theorem Reaches.text (h : Reaches p ts q) : p.before ++ p.rest = q.before ++ q.rest := by
  obtain ⟨front, skipped, htiles, -, hfront⟩ := h
  rw [htiles.text, hfront]
  simp

theorem Reaches.cons (ht : Tiles p [t] q) (h : Reaches q ts r) : Reaches p (t :: ts) r := by
  obtain ⟨front, skipped, htiles, hskips, hfront⟩ := h
  exact ⟨front, skipped, ht.append htiles, hskips, hfront⟩

end Tiles

theorem indentation_append (cs : List Char) :
    indentation cs ++ cs.drop (indentation cs).length = cs :=
  prefix_append_drop (List.takeWhile_prefix _)

/-- A token without text takes up no place. -/
theorem tiles_mark {before rest : List Char} {depth : Nat} {kind : TokenKind}
    (h : Denotes [] rest kind) (hdepth : Lexer.nestingAfter depth kind = depth) :
    Tiles ⟨before, rest, depth⟩ [⟨kind, (Position.start.advance before).mark⟩]
      ⟨before, rest, depth⟩ := by
  have hrefl : Reaches ⟨before, rest, depth⟩ [] ⟨before, [] ++ rest, depth⟩ := .refl
  have htiles := hrefl.token (at_mark h)
  rwa [List.append_nil, hdepth] at htiles

theorem skips_lineEnd {inBrackets : Bool} {rest after : List Char}
    (h : ∀ c ∈ rest.head?, c = '\n') :
    Skips inBrackets (rest.take 1) after := by
  cases rest with
  | nil => exact .nil
  | cons c rest => exact .blank (by simp [h c rfl]) .nil

/-- The comment and blank lines before a line of code, and where that line starts. -/
theorem leadOf_reaches (before cs : List Char) (depth : Nat) : ∃ front,
    Reaches ⟨before, cs, depth⟩ (leadOf (Position.start.advance before) cs).trivia
      ⟨front, (leadOf (Position.start.advance before) cs).rest, depth⟩ ∧
    (leadOf (Position.start.advance before) cs).position = Position.start.advance front := by
  induction h : cs.length using Nat.strongRecOn generalizing before cs with
  | ind n ih =>
    subst h
    have hindent := indentation_append cs
    unfold leadOf
    split
    · exact ⟨before, .refl, rfl⟩
    next c after hdrop =>
    rw [hdrop] at hindent
    have hlength := congrArg List.length hindent
    simp only [List.length_append, List.length_cons] at hlength
    dsimp only
    rw [← Position.advance_append]
    split
    · next hc =>
      obtain rfl : c = '\n' := by simpa using hc
      obtain ⟨front, hreaches, hposition⟩ :=
        ih after.length (by omega) (before ++ (indentation cs ++ ['\n'])) after rfl
      have hadvance : (Position.start.advance (before ++ indentation cs)).next '\n' =
          Position.start.advance (before ++ (indentation cs ++ ['\n'])) := by
        rw [← List.append_assoc, Position.advance_append _ _ ['\n'], Position.advance_cons,
          Position.advance_nil]
      rw [hadvance]
      have hafter := hreaches.after_gap (skips_indentation.append (.blank (by simp) .nil))
      have hcs : indentation cs ++ ['\n'] ++ after = cs := by simpa using hindent
      rw [hcs] at hafter
      exact ⟨front, .cons (tiles_mark rfl rfl) hafter, hposition⟩
    split
    · next hc =>
      obtain rfl : c = '#' := by simpa using hc
      have hline : Lexeme.restOfLine after ++ after.drop (Lexeme.restOfLine after).length = after :=
        prefix_append_drop (List.takeWhile_prefix _)
      have hend : ∀ c ∈ (after.drop (Lexeme.restOfLine after).length).head?, c = '\n' := by
        have hdrop : after.drop (Lexeme.restOfLine after).length = after.dropWhile (· != '\n') :=
          List.append_cancel_left (hline.trans List.takeWhile_append_dropWhile.symm)
        intro c hc
        have hnot := List.head?_dropWhile_not (· != '\n') after
        rw [← hdrop, hc] at hnot
        simpa using hnot
      have hshort := not_mem_restOfLine after
      generalize Lexeme.restOfLine after = line at hline hend hshort
      rw [← List.drop_drop]
      generalize after.drop line.length = rest at hline hend
      obtain ⟨front, hreaches, hposition⟩ := ih (rest.drop 1).length
        (by have := congrArg List.length hline; simp at this ⊢; omega)
        (before ++ indentation cs ++ '#' :: line ++ rest.take 1) (rest.drop 1) rfl
      rw [Position.advance_append, Position.advance_append _ _ ('#' :: line)] at hreaches hposition
      refine ⟨front, .cons ?_ (hreaches.after_gap (skips_lineEnd hend)), hposition⟩
      have hcs : indentation cs ++ ('#' :: line ++ rest) = cs := by
        rw [← hline] at hindent
        simpa using hindent
      have hstart : Reaches ⟨before, cs, depth⟩ []
          ⟨before ++ indentation cs, '#' :: line ++ rest, depth⟩ := by
        have hrefl : Reaches ⟨before, cs, depth⟩ []
            ⟨before, indentation cs ++ ('#' :: line ++ rest), depth⟩ := by
          rw [hcs]
          exact .refl
        exact hrefl.skip skips_indentation
      have hcomment := hstart.token (at_until _ (denotes_comment hshort))
      rw [Position.advance_append _ _ ('#' :: line)] at hcomment
      rwa [List.take_append_drop]
    · exact ⟨before, .refl, rfl⟩

/-- Tokens for the blocks that start and end at a line of code. They come before the comment and
blank lines that stand before that line. -/
def marksBlock (t : Token) : Bool := t.kind == .indent || t.kind == .dedent

namespace Lexer

/-- A lexer that has read `before`. The tokens that are due lie between the point up to which tokens
were delivered and the place of the lexer. -/
structure Stands (source before : List Char) (p : Point) (lx : Lexer) : Prop where
  text : source = before ++ lx.rest
  position : lx.position = Position.start.advance before
  reaches : Reaches p (lx.pending.filter (!marksBlock ·)) ⟨before, lx.rest, lx.nesting⟩
  placed : ∀ t ∈ lx.pending, t.PlacedIn source
  finished : lx.finished = true → lx.rest = []

variable {lx : Lexer} {source before : List Char} {p : Point}

/-- Tokens of the blocks at the place of the lexer, with the comments and blank lines before it. -/
theorem stands_of_lead {front gap rest : List Char} {trivia : List Token} (kinds : List TokenKind)
    (htext : source = front ++ gap ++ rest)
    (hposition : lx.position = Position.start.advance (front ++ gap))
    (hreaches : Reaches p trivia ⟨front, gap ++ rest, lx.nesting⟩)
    (hgap : Skips (0 < lx.nesting) gap rest) (hrest : lx.rest = rest)
    (htrivia : ∀ t ∈ trivia, t.PlacedIn source ∧ marksBlock t = false)
    (hkinds : ∀ kind ∈ kinds, kind = .indent ∨ kind = .dedent)
    (hpending : lx.pending = (kinds.map fun kind => ⟨kind, lx.position.mark⟩) ++ trivia)
    (hfinished : lx.finished = true → lx.rest = []) : Stands source (front ++ gap) p lx where
  text := by rw [hrest, htext]
  position := hposition
  finished := hfinished
  reaches := by
    have hblocks : (kinds.map fun kind => (⟨kind, lx.position.mark⟩ : Token)).filter
        (!marksBlock ·) = [] := by
      simp only [List.filter_eq_nil_iff, List.mem_map]
      rintro _ ⟨kind, hkind, rfl⟩
      rcases hkinds kind hkind with rfl | rfl <;> simp [marksBlock]
    have hlines : trivia.filter (!marksBlock ·) = trivia :=
      List.filter_eq_self.mpr fun t ht => by simp [(htrivia t ht).2]
    rw [hpending, List.filter_append, hblocks, hlines, List.nil_append, hrest]
    exact hreaches.skip hgap
  placed := by
    rw [hpending]
    intro t ht
    rcases List.mem_append.mp ht with ht | ht
    · obtain ⟨kind, hkind, rfl⟩ := List.mem_map.mp ht
      have hdenotes : Denotes [] rest kind := by
        rcases hkinds kind hkind with rfl | rfl <;> rfl
      rw [hposition]
      exact ⟨front ++ gap, [], rest, by simpa using htext, at_mark hdenotes⟩
    · exact (htrivia t ht).1

theorem layout_marksBlock (width : Nat) (widths : List Nat) :
    ∀ kind ∈ (layout width widths).2, kind = .indent ∨ kind = .dedent := by
  have hclosed : ∀ kind ∈ (widths.takeWhile (width < ·)).map fun _ => TokenKind.dedent,
      kind = .indent ∨ kind = .dedent := by
    intro kind hkind
    obtain ⟨_, -, rfl⟩ := List.mem_map.mp hkind
    exact .inr rfl
  unfold layout
  dsimp only
  split
  · intro kind hkind
    rcases List.mem_append.mp hkind with hkind | hkind
    · exact hclosed kind hkind
    · exact .inl (List.mem_singleton.mp hkind)
  · exact hclosed

theorem openLine_stands (h : Stands source before p lx) (hpending : lx.pending = [])
    (hfinished : lx.finished = false) : ∃ before', Stands source before' p lx.openLine := by
  obtain ⟨front, hlead, hposition⟩ := leadOf_reaches before lx.rest lx.nesting
  have hplaced := hlead.placed
  have htext := hlead.text
  have hreaches := h.reaches
  rw [hpending] at hreaches
  have hall := hreaches.trans hlead
  rw [← h.position] at hall hposition hplaced htext
  have htrivia : ∀ t ∈ (leadOf lx.position lx.rest).trivia, t.PlacedIn source ∧
      marksBlock t = false := by
    intro t ht
    have hkind := leadOf_trivia lx.position lx.rest t ht
    refine ⟨?_, ?_⟩
    · rw [h.text]
      exact hplaced t ht
    · unfold marksBlock
      cases hk : t.kind <;> simp_all [TokenKind.isTrivia]
  have hblanks := indentation_append (leadOf lx.position lx.rest).rest
  dsimp only at htext
  rw [← h.text] at htext
  unfold openLine
  dsimp only [consume]
  refine ⟨front ++ indentation (leadOf lx.position lx.rest).rest, ?_⟩
  have hstart : (leadOf lx.position lx.rest).position.advance
      (indentation (leadOf lx.position lx.rest).rest) =
        Position.start.advance (front ++ indentation (leadOf lx.position lx.rest).rest) := by
    rw [hposition, Position.advance_append]
  rw [← hblanks] at hall htext
  rw [← List.append_assoc] at htext
  split
  · next hrest =>
    exact stands_of_lead (lx.widths.map fun _ => .dedent) htext hstart hall skips_indentation
      rfl htrivia (by simp) (by simp [finish]) (fun _ => hrest)
  · next hrest =>
    exact stands_of_lead _ htext hstart hall skips_indentation rfl htrivia
      (layout_marksBlock _ _) rfl
      (fun h => by simp [hfinished] at h)

theorem settle_stands (h : Stands source before p lx) :
    ∃ before', Stands source before' p lx.settle := by
  unfold settle
  split
  · next hline =>
    simp only [Bool.and_eq_true, List.isEmpty_iff, Bool.not_eq_true'] at hline
    exact openLine_stands h hline.1.1 hline.1.2
  · exact ⟨before, h⟩

/-- No lexeme marks a block, for it has some text. -/
theorem marksBlock_of_read {c : Char} {cs : List Char} {kind : TokenKind} {span : Span}
    (h : (Lexeme.read c cs).kind = .ok kind) : marksBlock ⟨kind, span⟩ = false := by
  have hdenotes : Denotes (Lexeme.read c cs).text [] kind := read_denotes h
  have hne := Lexeme.read_text_ne_nil c cs
  cases kind with
  | indent => exact absurd hdenotes hne
  | dedent => exact absurd hdenotes hne
  | _ => rfl

/-- A lexer that delivers a token stands after it. -/
theorem scan_stands (h : Stands source before p lx) (hpending : lx.pending = [])
    (hfinished : lx.finished = false) {t : Token}
    {after : Lexer} (hscan : lx.scan = (.ok t, after)) : t.PlacedIn source ∧ marksBlock t = false ∧
      ∃ before' p', Tiles p [t] p' ∧ Stands source before' p' after := by
  obtain ⟨line, text, rest, hgap, hrest, hskips, -, hline, -⟩ :=
    gap_skips (0 < lx.nesting) false lx.rest (by simp)
  obtain rfl := hline rfl
  rw [List.nil_append] at hgap hrest
  have hreaches := h.reaches
  rw [hpending, hrest] at hreaches
  replace hreaches := hreaches.skip hskips
  have hconsume : (lx.consume text).rest = rest := by simp [consume, hrest]
  have hposition : (lx.consume text).position = Position.start.advance (before ++ text) := by
    simp only [consume, h.position, Position.advance_append]
  have hsource : source = before ++ text ++ rest := by rw [h.text, hrest, List.append_assoc]
  unfold scan at hscan
  rw [hgap] at hscan
  dsimp only at hscan
  split at hscan
  · next hnil =>
    obtain rfl := hconsume.symm.trans hnil
    cases hscan
    have hdenotes : Denotes [] [] .newline := .inr ⟨rfl, rfl⟩
    rw [hposition]
    have hnewline : Tiles p [⟨.newline, (Position.start.advance (before ++ text)).mark⟩]
        ⟨before ++ text, [], lx.nesting⟩ := by
      have htiles := hreaches.token (at_mark hdenotes)
      rwa [List.append_nil (before ++ text)] at htiles
    refine ⟨⟨before ++ text, [], [], by simpa using hsource, at_mark hdenotes⟩, rfl,
      before ++ text ++ [], _, hnewline, ?_⟩
    have hfinish : ((lx.consume text).finish [] []).position =
        Position.start.advance (before ++ text ++ []) := by
      rw [List.append_nil]
      exact hposition
    refine stands_of_lead (lx.widths.map fun _ => .dedent) (by simpa using hsource) hfinish
      .refl .nil hnil (List.forall_mem_nil _) (fun kind hkind => ?_) ?_ (fun _ => hnil)
    · obtain ⟨_, -, rfl⟩ := List.mem_map.mp hkind
      exact .inr rfl
    · rw [finish, List.map_map, List.append_nil, List.append_nil, List.nil_append]
      rfl
  · next c cs hcs =>
    obtain rfl := hconsume.symm.trans hcs
    split at hscan
    · next kind hkind =>
      cases hscan
      obtain ⟨more, hmore⟩ := Lexeme.read_text_isPrefix c cs
      rw [← hmore] at hreaches hsource
      have hafter : ((lx.consume text).consume (Lexeme.read c cs).text).rest = more := by
        simp only [consume] at hcs ⊢
        rw [hcs, ← hmore, List.drop_left]
      have hstop : ((lx.consume text).consume (Lexeme.read c cs).text).position =
          Position.start.advance (before ++ text ++ (Lexeme.read c cs).text) := by
        rw [Position.advance_append, ← hposition]
        rfl
      have hat : At (before ++ text) (Lexeme.read c cs).text more
          ⟨kind, (lx.consume text).position.until
            ((lx.consume text).consume (Lexeme.read c cs).text).position⟩ := by
        rw [hposition, hstop]
        exact at_until _ (read_denotes hkind)
      refine ⟨⟨_, _, more, by simpa using hsource, hat⟩, marksBlock_of_read hkind,
        before ++ text ++ (Lexeme.read c cs).text, _, hreaches.token hat, ?_⟩
      exact {
        text := by
          rw [hafter]
          simpa using hsource
        position := hstop
        reaches := by
          have hnone : (lx.consume text).pending = [] := hpending
          simp only [consume] at hafter hnone ⊢
          rw [hafter, hnone]
          exact .refl
        placed := by
          have hnone : (lx.consume text).pending = [] := hpending
          simp only [consume] at hnone ⊢
          rw [hnone]
          exact List.forall_mem_nil _
        finished := fun h => by
          have hnot : (lx.consume text).finished = false := hfinished
          simp only [consume] at hnot h
          rw [hnot] at h
          cases h }
    · cases hscan

/-- One call delivers a token in its place, and the rest of the text is still to be read. -/
theorem next_stands (h : Stands source before p lx) {t : Token} {after : Lexer}
    (hnext : lx.next = (.ok t, after)) : t.PlacedIn source ∧
      ∃ before' p', Tiles p ([t].filter (!marksBlock ·)) p' ∧ Stands source before' p' after := by
  obtain ⟨before', h⟩ := settle_stands h
  unfold next at hnext
  generalize lx.settle = lx at h hnext
  dsimp only at hnext
  split at hnext
  · next t ts hpending =>
    cases hnext
    obtain ⟨htext, hposition, hreaches, hplaced, hfinished⟩ := h
    rw [hpending] at hreaches hplaced
    obtain ⟨ht, hts⟩ := List.forall_mem_cons.mp hplaced
    refine ⟨ht, before', ?_⟩
    by_cases hblock : marksBlock t = true
    · rw [List.filter_cons_of_neg (by simp [hblock])] at hreaches ⊢
      exact ⟨p, .nil, htext, hposition, hreaches, hts, hfinished⟩
    · rw [List.filter_cons_of_pos (by simp [hblock])] at hreaches ⊢
      obtain ⟨front, gap, htiles, hskips, hfront⟩ := hreaches
      obtain ⟨p', hfirst, hrest⟩ := htiles.uncons
      exact ⟨p', hfirst, htext, hposition, ⟨front, gap, hrest, hskips, hfront⟩, hts, hfinished⟩
  · next hpending =>
    split at hnext
    · next hfinished =>
      cases hnext
      have hrest := h.finished hfinished
      have hreaches := h.reaches
      rw [hpending, hrest] at hreaches
      have hdenotes : Denotes [] [] .eof := ⟨rfl, rfl⟩
      have hsource := h.text
      rw [hrest] at hsource
      rw [h.position]
      have htiles := hreaches.token (at_mark hdenotes)
      rw [List.append_nil before'] at htiles
      refine ⟨⟨before', [], [], by simpa using hsource, at_mark hdenotes⟩, before', _,
        htiles, h.text, h.position, ?_, h.placed, h.finished⟩
      rw [hpending, hrest]
      exact .refl
    · next hfinished =>
      obtain ⟨hplaced, hblock, before'', p', htiles, hstands⟩ :=
        scan_stands h hpending (by simpa using hfinished) hnext
      rw [List.filter_cons_of_pos (by simp [hblock])]
      exact ⟨hplaced, before'', p', htiles, hstands⟩

theorem run_tiles (lx : Lexer) {before : List Char} {p : Point} (h : Stands source before p lx)
    {ts : List Token} (hrun : lx.run.1 = .ok ts) : (∀ t ∈ ts, t.PlacedIn source) ∧
      ∃ q, Tiles p (ts.filter (!marksBlock ·)) q ∧ q.rest = [] := by
  fun_induction run lx generalizing before p ts with
  | case1 lx e after hnext => cases hrun
  | case2 lx t after hnext heof =>
    obtain ⟨hplaced, _, q, htiles, -⟩ := next_stands h hnext
    cases hrun
    refine ⟨List.forall_mem_singleton.mpr hplaced, q, htiles, ?_⟩
    have hblock : marksBlock t = false := by simp [marksBlock, heof]
    rw [List.filter_cons_of_pos (by simp [hblock])] at htiles
    cases htiles with
    | cons _ hat hnil =>
      cases hnil
      have hdenotes := hat.denotes
      rw [heof] at hdenotes
      exact hdenotes.2
  | case3 lx t after hnext heof more =>
    rename_i ih
    obtain ⟨hplaced, _, p', hfirst, hstands⟩ := next_stands h hnext
    dsimp only [more] at hrun
    cases hmore : after.run.1 with
    | error e =>
      rw [hmore] at hrun
      cases hrun
    | ok us =>
      rw [hmore] at hrun
      cases hrun
      obtain ⟨hplaced', q, htiles, hrest⟩ := ih hstands hmore
      refine ⟨List.forall_mem_cons.mpr ⟨hplaced, hplaced'⟩, q, ?_, hrest⟩
      have hall := hfirst.append htiles
      rwa [← List.filter_append] at hall

end Lexer

/-- The tokens of a text lie where their spans say and stand for what they cover. Apart from the
marks of blocks they come one after the other, and what is not covered is skipped text. -/
theorem tokenize_tiles {source : String} {tokens : List Token} (h : tokenize source = .ok tokens) :
    (∀ t ∈ tokens, t.PlacedIn source.toList ∧ t.span.first ≤ t.span.stop ∧
        t.span.stop ≤ source.utf8ByteSize) ∧
      (tokens.filter (!marksBlock ·)).Pairwise (fun t u => t.span.stop ≤ u.span.first) ∧
      ∃ depth, Tiles ⟨[], source.toList, 0⟩ (tokens.filter (!marksBlock ·))
        ⟨source.toList, [], depth⟩ := by
  have hstands : Lexer.Stands source.toList [] ⟨[], source.toList, 0⟩ (Lexer.start source.toList) :=
    ⟨rfl, rfl, .refl, fun _ h => (nomatch h), fun h => (nomatch h)⟩
  obtain ⟨hplaced, ⟨before, rest, depth⟩, htiles, hrest⟩ := Lexer.run_tiles _ hstands h
  obtain rfl : rest = [] := hrest
  have htext := htiles.text
  rw [List.nil_append, List.append_nil] at htext
  dsimp only at htext
  rw [← htext] at htiles
  exact ⟨fun t ht => ⟨hplaced t ht, (hplaced t ht).within⟩, htiles.pairwise, depth, htiles⟩

/-- A block after a blank line, with a comment inside brackets, joined lines and a long string. -/
def layoutText : String := "if é: # ü \n\n x = [1, # no\n  0x_F] + \\\n'''a\nb'''\n"

def layoutTokens : List Token := [
  ⟨.keyword .ifBranch, ⟨0, 2, 1, 0⟩⟩, ⟨.identifier "é", ⟨3, 5, 1, 3⟩⟩,
  ⟨.symbol .colon, ⟨5, 6, 1, 4⟩⟩, ⟨.comment " ü", ⟨7, 12, 1, 6⟩⟩, ⟨.newline, ⟨12, 13, 1, 10⟩⟩,
  ⟨.indent, ⟨15, 15, 3, 1⟩⟩, ⟨.blankLine, ⟨13, 13, 2, 0⟩⟩, ⟨.identifier "x", ⟨15, 16, 3, 1⟩⟩,
  ⟨.symbol .equal, ⟨17, 18, 3, 3⟩⟩, ⟨.symbol .leftBracket, ⟨19, 20, 3, 5⟩⟩,
  ⟨.integer 1, ⟨20, 21, 3, 6⟩⟩, ⟨.symbol .comma, ⟨21, 22, 3, 7⟩⟩, ⟨.integer 15, ⟨30, 34, 4, 2⟩⟩,
  ⟨.symbol .rightBracket, ⟨34, 35, 4, 6⟩⟩, ⟨.symbol .plus, ⟨36, 37, 4, 8⟩⟩,
  ⟨.string "a\nb", ⟨40, 49, 5, 0⟩⟩, ⟨.newline, ⟨49, 50, 6, 4⟩⟩, ⟨.dedent, ⟨50, 50, 7, 0⟩⟩,
  ⟨.eof, ⟨50, 50, 7, 0⟩⟩]

theorem tokenize_tiles_layout : tokenize layoutText = .ok layoutTokens ∧
    (∀ t ∈ layoutTokens, t.PlacedIn layoutText.toList ∧ t.span.first ≤ t.span.stop ∧
      t.span.stop ≤ layoutText.utf8ByteSize) ∧
    (layoutTokens.filter (!marksBlock ·)).Pairwise (fun t u => t.span.stop ≤ u.span.first) ∧
    ∃ depth, Tiles ⟨[], layoutText.toList, 0⟩ (layoutTokens.filter (!marksBlock ·))
      ⟨layoutText.toList, [], depth⟩ := by
  have htokens : tokenize layoutText = .ok layoutTokens := by decide +kernel
  exact ⟨htokens, tokenize_tiles htokens⟩

end Token

end Sketchwright
