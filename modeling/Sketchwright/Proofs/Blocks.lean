import Mathlib
import Sketchwright.Proofs.Indentation
import Sketchwright.Proofs.Nesting
import Sketchwright.Translator

/-! Lexer and grammar agree on the layout of a text. In a program each indent follows the line of a
block header, and each line of code is as wide as the innermost block that is open there. -/

namespace Sketchwright

namespace Program

open Token

variable {ts us rest : List Token}

/-- Tokens after which a line starts: apart from comment and blank lines there are none, or the last
one ends a line or marks a block. -/
def StartsLine (front : List Token) : Prop :=
  ∀ t ∈ (front.reverse.dropWhile (·.kind.isTrivia)).head?, t.kind = .newline ∨ marksBlock t = true

/-- The last of these tokens make up a line that starts with the keyword of a block header. -/
def FollowsHeader (ts : List Token) : Prop :=
  ∃ front header code newline, ts = front ++ header :: (code ++ [newline]) ∧ StartsLine front ∧
    opensBlock header.kind = true ∧ (∀ t ∈ code, t.kind.inLine = true) ∧ newline.kind = .newline

/-- Every indent of `ts` comes right after the line of a header, when `front` comes before `ts`. -/
def Headed : List Token → List Token → Prop
  | _, [] => True
  | front, t :: ts => (t.kind = .indent → FollowsHeader front) ∧ Headed (front ++ [t]) ts

section Headers

variable {front : List Token} {t : Token}

theorem headed_append : Headed front (ts ++ us) ↔ Headed front ts ∧ Headed (front ++ ts) us := by
  induction ts generalizing front with
  | nil => simp [Headed]
  | cons t ts ih => simp [Headed, ih, and_assoc]

theorem headed_of_plain (h : ∀ t ∈ ts, t.kind ≠ .indent) : Headed front ts := by
  induction ts generalizing front with
  | nil => trivial
  | cons t ts ih =>
    obtain ⟨ht, hts⟩ := List.forall_mem_cons.mp h
    exact ⟨fun hindent => absurd hindent ht, ih hts⟩

theorem startsLine_concat (ht : t.kind = .newline ∨ marksBlock t = true) :
    StartsLine (front ++ [t]) := by
  have hcode : t.kind.isTrivia = false := by
    rcases ht with ht | ht
    · rw [ht]
      rfl
    · exact Bool.eq_false_iff.mpr fun htrivia => by simp [not_marksBlock_of_isTrivia htrivia] at ht
  intro u hu
  rw [List.reverse_append, List.reverse_singleton, List.singleton_append,
    List.dropWhile_cons_of_neg (by simp [hcode])] at hu
  obtain rfl := Option.some.inj hu
  exact ht

theorem StartsLine.trivia (h : StartsLine front) (ht : t.kind.isTrivia = true) :
    StartsLine (front ++ [t]) := by
  intro u hu
  rw [List.reverse_append, List.reverse_singleton, List.singleton_append,
    List.dropWhile_cons_of_pos (by simp [ht])] at hu
  exact h u hu

end Headers

/-- Whole lines and blocks before `rest`: they close the blocks that they open, and every indent
follows the line of a header. -/
structure Whole (rest front : List Token) : Prop where
  balanced : rest = [] ∨ front.countP isIndent = front.countP isDedent
  headed : ∀ outer, StartsLine outer → Headed outer front

def IsPlain (ts : List Token) : Prop := ∀ t ∈ ts, marksBlock t = false

theorem isPlain_of_inLine {code : List Token}
    (h : ∀ t ∈ code, t.kind.inLine = true) : IsPlain code := by
  intro t ht
  have hkind := h t ht
  unfold marksBlock
  cases hk : t.kind <;> simp_all [TokenKind.inLine]

theorem IsPlain.concat {code : List Token} {newline : Token} (h : ∀ t ∈ code, t.kind.inLine = true)
    (hnewline : newline.kind = .newline) : IsPlain (code ++ [newline]) :=
  List.forall_mem_append.mpr
    ⟨isPlain_of_inLine h, List.forall_mem_singleton.mpr (by simp [marksBlock, hnewline])⟩

theorem IsPlain.headed {front : List Token} (h : IsPlain ts) : Headed front ts :=
  headed_of_plain fun t ht hindent => by simpa [marksBlock, hindent] using h t ht

theorem IsPlain.countP (h : IsPlain ts) : ts.countP isIndent = 0 ∧ ts.countP isDedent = 0 := by
  simp only [List.countP_eq_zero, isIndent, isDedent]
  constructor
  · intro t ht hindent
    have hplain := h t ht
    simp_all [marksBlock]
  · intro t ht hdedent
    have hplain := h t ht
    simp_all [marksBlock]

section Header

variable {header newline indent : Token} {code inner outer : List Token}

theorem isPlain_header (hheader : opensBlock header.kind = true)
    (hcode : ∀ t ∈ code, t.kind.inLine = true) (hnewline : newline.kind = .newline) :
    IsPlain (header :: (code ++ [newline])) :=
  IsPlain.concat (List.forall_mem_cons.mpr ⟨inLine_of_opensBlock hheader, hcode⟩) hnewline

/-- The indent after the line of a header, and a block after it. -/
theorem headed_of_header (hheader : opensBlock header.kind = true)
    (hcode : ∀ t ∈ code, t.kind.inLine = true) (hnewline : newline.kind = .newline)
    (hindent : indent.kind = .indent) (houter : StartsLine outer)
    (hinner : ∀ front, StartsLine front → Headed front inner) :
    Headed outer (header :: (code ++ [newline]) ++ indent :: inner) := by
  have hline : Headed outer (header :: (code ++ [newline])) :=
    (isPlain_header hheader hcode hnewline).headed
  have hmark : marksBlock indent = true := by simp [marksBlock, hindent]
  exact headed_append.mpr
    ⟨hline, fun _ => ⟨outer, header, code, newline, rfl, houter, hheader, hcode, hnewline⟩,
      hinner _ (startsLine_concat (.inr hmark))⟩

end Header

/-- Plain tokens after which a line starts may come first. -/
theorem Whole.prepend {line front : List Token} (hline : IsPlain line)
    (hstart : ∀ outer, StartsLine outer → StartsLine (outer ++ line)) (h : Whole rest front) :
    Whole rest (line ++ front) where
  balanced := by
    rw [List.countP_append, List.countP_append, hline.countP.1, hline.countP.2,
      Nat.zero_add, Nat.zero_add]
    exact h.balanced
  headed outer houter := headed_append.mpr ⟨hline.headed, h.headed _ (hstart outer houter)⟩

theorem Rows.whole (h : Rows ts rest) : ∃ front, ts = front ++ rest ∧ Whole rest front := by
  induction h with
  | nil => exact ⟨[], rfl, .inr rfl, fun _ _ => trivial⟩
  | @trivia t ts rest ht _ ih =>
    obtain ⟨front, rfl, hfront⟩ := ih
    have hplain : IsPlain [t] := List.forall_mem_singleton.mpr (not_marksBlock_of_isTrivia ht)
    exact ⟨t :: front, rfl, hfront.prepend hplain fun _ houter => houter.trivia ht⟩
  | @line ts newline us rest hline hnewline _ ih =>
    obtain ⟨code, rfl, hcode⟩ := hline
    obtain ⟨front, rfl, hfront⟩ := ih
    refine ⟨code ++ [newline] ++ front, by simp,
      hfront.prepend (.concat hcode hnewline) fun outer _ => ?_⟩
    rw [← List.append_assoc]
    exact startsLine_concat (.inl hnewline)
  | @last ts hline =>
    obtain ⟨code, rfl, hcode⟩ := hline
    exact ⟨code, rfl, .inl rfl, fun _ _ => (isPlain_of_inLine hcode).headed⟩
  | @block header ts newline indent body dedent us rest hheader hline hnewline hindent _ hdedent
    _ ihbody ihmore =>
    obtain ⟨code, rfl, hcode⟩ := hline
    obtain ⟨inner, rfl, hinner⟩ := ihbody
    obtain ⟨front, rfl, hfront⟩ := ihmore
    refine ⟨header :: (code ++ [newline]) ++ indent :: (inner ++ dedent :: front), by simp, ?_,
      fun outer houter => ?_⟩
    · have hcount := (isPlain_header hheader hcode hnewline).countP
      have hcount' := hinner.balanced.resolve_left (List.cons_ne_nil _ _)
      refine hfront.balanced.imp_right fun hfront' => ?_
      have hopen : isIndent indent = true ∧ isDedent indent = false := by
        simp [isIndent, isDedent, hindent]
      have hclose : isIndent dedent = false ∧ isDedent dedent = true := by
        simp [isIndent, isDedent, hdedent]
      simp only [List.countP_append, List.countP_cons, hopen, hclose, if_true, Bool.false_eq_true,
        if_false] at *
      omega
    · refine headed_of_header hheader hcode hnewline hindent houter fun outer houter => ?_
      refine headed_append.mpr ⟨hinner.headed _ houter, fun h => ?_,
        hfront.headed _ (startsLine_concat (.inr ?_))⟩
      · rw [hdedent] at h
        cases h
      · simp [marksBlock, hdedent]
  | @cut header ts newline indent body hheader hline hnewline hindent _ ih =>
    obtain ⟨code, rfl, hcode⟩ := hline
    obtain ⟨inner, rfl, hinner⟩ := ih
    refine ⟨header :: (code ++ [newline]) ++ indent :: inner, by simp, .inl rfl,
      fun outer houter => ?_⟩
    exact headed_of_header hheader hcode hnewline hindent houter fun outer houter =>
      hinner.headed _ houter

section Widths

variable {width : Nat} {outer : List Nat}

/-- After the marks of a line its width is that of the innermost block. -/
theorem layout_width (width : Nat) (outer : List Nat) : (layout width outer).1.headD 0 = width := by
  unfold layout
  dsimp only
  split
  · rfl
  · next hle =>
    have hnot := List.head?_dropWhile_not (width < ·) outer
    generalize outer.dropWhile (width < ·) = kept at hle hnot
    cases kept with
    | nil => exact Nat.le_zero.mp (Nat.not_lt.mp hle) |>.symm
    | cons top kept =>
      have hge : ¬width < top := by simpa using hnot
      exact Nat.le_antisymm (Nat.not_lt.mp hge) (Nat.not_lt.mp hle)

/-- A line between the widths of two open blocks closes one and opens another. -/
theorem width_of_layout (hsorted : outer.Pairwise (· > ·))
    (h : ∀ closed, (layout width outer).2 = closed ++ [.indent] → closed = []) :
    width ∈ 0 :: outer ∨ ∀ block ∈ outer, block < width := by
  have hwidth := layout_width width outer
  have hsplit : outer.takeWhile (width < ·) ++ outer.dropWhile (width < ·) = outer :=
    List.takeWhile_append_dropWhile
  have hkept : outer.dropWhile (width < ·) <:+ outer := List.dropWhile_suffix _
  unfold layout at h hwidth
  dsimp only at h hwidth
  split at h
  · next hopen =>
    have hclosed := h _ rfl
    rw [List.map_eq_nil_iff] at hclosed
    rw [hclosed, List.nil_append] at hsplit
    rw [hsplit] at hopen
    right
    intro block hblock
    cases outer with
    | nil => cases hblock
    | cons top outer =>
      have htop : top < width := hopen
      rcases List.mem_cons.mp hblock with rfl | hblock
      · exact htop
      · exact Nat.lt_trans ((List.pairwise_cons.mp hsorted).1 block hblock) htop
  · next hopen =>
    rw [if_neg hopen] at hwidth
    left
    generalize outer.dropWhile (width < ·) = kept at hkept hwidth
    cases kept with
    | nil =>
      rw [← hwidth]
      exact List.mem_cons_self
    | cons top kept =>
      rw [← hwidth]
      exact List.mem_cons_of_mem _ (hkept.subset List.mem_cons_self)

end Widths

/-- The last token before a block ends the line of its header. -/
theorem FollowsHeader.last {t : Token} (h : FollowsHeader (ts ++ [t])) : t.kind = .newline := by
  obtain ⟨front, header, code, newline, heq, -, -, -, hnewline⟩ := h
  have hlast := congrArg List.getLast? heq
  simp only [← List.cons_append, ← List.append_assoc, List.getLast?_concat,
    Option.some.injEq] at hlast
  rw [hlast, hnewline]

theorem FollowsHeader.of_headed {front : List Token} {t : Token} (h : Headed [] (front ++ t :: us))
    (ht : t.kind = .indent) : FollowsHeader front := by
  have hhead := (headed_append.mp h).2.1 ht
  rwa [List.nil_append] at hhead

/-- The layout of the tokens of a program. -/
structure Indented (source : List Char) (tokens : List Token) : Prop where
  /-- Every indent comes right after the line of a block header. -/
  headed : ∀ front t back, tokens = front ++ t :: back → t.kind = .indent → FollowsHeader front
  /-- A line of code is as wide as the innermost block after its marks, and it does not stand
  between the widths of two blocks that are open before it. -/
  aligned : ∀ front back width, tokens = front ++ back → nextWidth source front = some width →
    ∃ outer inner, openBlocks source [] front = some outer ∧
      openBlocks source outer (back.takeWhile marksBlock) = some inner ∧ inner.headD 0 = width ∧
      (width ∈ 0 :: outer ∨ ∀ block ∈ outer, block < width)

theorem indented_of_headed {source : List Char} {tokens : List Token} (hheaded : Headed [] tokens)
    (hlines : ∀ front back width, tokens = front ++ back → nextWidth source front = some width →
      LineOpens source front back width) : Indented source tokens where
  headed front t back heq ht := by
    rw [heq] at hheaded
    exact .of_headed hheaded ht
  aligned front back width heq hwidth := by
    obtain ⟨outer, houter, hsorted, hkinds, hinner⟩ := hlines front back width heq hwidth
    refine ⟨outer, _, houter, hinner, layout_width width outer,
      width_of_layout hsorted fun closed hclosed => ?_⟩
    -- no mark stands between the end of a header and its indent
    rw [hclosed] at hkinds
    obtain ⟨marks, last, hmarks, rfl, hlast⟩ := List.map_eq_append_iff.mp hkinds
    obtain ⟨indent, rest, rfl, hindent, -⟩ := List.map_eq_cons_iff.mp hlast
    have hback : back = marks ++ indent :: (rest ++ back.dropWhile marksBlock) := by
      rw [← List.cons_append, ← List.append_assoc, ← hmarks, List.takeWhile_append_dropWhile]
    rw [heq, hback, ← List.append_assoc] at hheaded
    have hfollows : FollowsHeader (front ++ marks) := .of_headed hheaded hindent
    cases hreverse : marks.reverse with
    | nil =>
      rw [List.reverse_eq_nil_iff.mp hreverse]
      rfl
    | cons t before =>
      obtain rfl : marks = before.reverse ++ [t] := by
        rw [← List.reverse_reverse marks, hreverse, List.reverse_cons]
      have hmark : marksBlock t = true := by
        refine List.all_eq_true.mp (List.all_takeWhile (p := marksBlock) (l := back)) t ?_
        rw [hmarks]
        simp
      rw [← List.append_assoc] at hfollows
      simp [marksBlock, hfollows.last] at hmark

/-- The end token comes last. -/
theorem run_eof (lx : Lexer) {tokens : List Token} (h : lx.run.1 = .ok tokens) :
    ∃ code t, tokens = code ++ [t] ∧ t.kind = .eof ∧ ∀ u ∈ code, u.kind ≠ .eof := by
  induction tokens generalizing lx with
  | nil =>
    obtain ⟨_, _, _, ⟨-, hnil⟩ | ⟨-, _, hnil, -⟩⟩ := Lexer.run_cases h <;> cases hnil
  | cons t tokens ih =>
    obtain ⟨_, after, -, ⟨heof, hone⟩ | ⟨hcode, more, hmore, hrun⟩⟩ := Lexer.run_cases h
    · cases hone
      exact ⟨[], t, rfl, heof, fun _ h => (nomatch h)⟩
    · cases hmore
      obtain ⟨code, e, rfl, heof, hall⟩ := ih after hrun
      exact ⟨t :: code, e, rfl, heof, List.forall_mem_cons.mpr ⟨hcode, hall⟩⟩

/-- What the grammar makes of the tokens of a text. -/
theorem ofSource_cases (source : String) : (∃ e, Program.ofSource source = .error (.lex e)) ∨
    ∃ code t, tokenize source = .ok (code ++ [t]) ∧ t.kind = .eof ∧
      Program.ofSource source = (read t.line code).mapError (errorOf (Text.lines source)) := by
  unfold Program.ofSource
  cases htokens : tokenize source with
  | error e => exact .inl ⟨e, rfl⟩
  | ok tokens =>
    obtain ⟨code, t, rfl, heof, hcode⟩ := run_eof _ htokens
    refine .inr ⟨code, t, rfl, heof, ?_⟩
    have hnot : ∀ u ∈ code, (!isEnd u) = true := fun u hu => by simpa [isEnd] using hcode u hu
    have htake : (code ++ [t]).takeWhile (!isEnd ·) = code := by
      rw [List.takeWhile_append_of_pos hnot]
      simp [isEnd, heof]
    have hdrop : (code ++ [t]).dropWhile (!isEnd ·) = [t] := by
      rw [List.dropWhile_append_of_pos hnot]
      simp [isEnd, heof]
    unfold ofTokens
    dsimp only
    rw [htake, hdrop, Reading.lineOf]
    cases read t.line code <;> rfl

theorem read_rows {finalLine : Nat} {program : Program} (h : read finalLine ts = .ok program) :
    Rows ts [] := by
  obtain ⟨stmts, hstmts, -⟩ := Outcome.bind_eq_ok.mp h
  exact topLevel_rows.1 stmts hstmts

/-- Where the grammar meets the end of a block that is not open, the tokens close more
blocks than they open. -/
theorem countP_of_stray {finalLine : Nat} {fault : Fault} (h : read finalLine ts = .error fault)
    (hstray : fault.isStrayEnd = true) :
    ∃ front, front <+: ts ∧ front.countP isIndent < front.countP isDedent := by
  rcases Outcome.bind_eq_error.mp h with hstmts | ⟨stmts, -, hlevel⟩
  · obtain ⟨dedent, us, hdedent, hrows⟩ := topLevel_rows.2 fault hstmts hstray
    obtain ⟨front, rfl, hbalanced, -⟩ := hrows.whole
    refine ⟨front ++ [dedent], ⟨us, by simp⟩, ?_⟩
    have hcount := hbalanced.resolve_left (List.cons_ne_nil _ _)
    simp [isIndent, isDedent, hdedent] at hcount ⊢
    omega
  · rcases Outcome.bind_eq_error.mp hlevel with hlevel | ⟨_, -, hpure⟩
    · unfold checkModuleLevel at hlevel
      split at hlevel
      · cases hlevel
        cases hstray
      · cases hlevel
    · cases hpure

/-- Lexer and grammar agree on layout. The tokens of a text close each block that they open and no
other one; in a program indents follow headers and lines are as wide as their blocks; and the
grammar never meets the end of a block that is not open. -/
theorem layout_agrees (source : String) :
    (∀ tokens, tokenize source = .ok tokens →
      (∀ front, front <+: tokens → front.countP isDedent ≤ front.countP isIndent) ∧
        tokens.countP isDedent = tokens.countP isIndent) ∧
      (∀ program, Program.ofSource source = .ok program →
        ∃ tokens, tokenize source = .ok tokens ∧ Indented source.toList tokens) ∧
      ∀ line text, Program.ofSource source ≠ .error (.malformed line text .strayBlockEnd) := by
  have hcounts : ∀ tokens, tokenize source = .ok tokens → ∀ front, front <+: tokens →
      front.countP isDedent ≤ front.countP isIndent := by
    intro tokens htokens front hfront
    obtain ⟨open', hopen⟩ := openBlocks_of_prefix (tokenize_laid htokens).1 hfront
    have hcount := openBlocks_count hopen
    rw [List.length_nil] at hcount
    omega
  refine ⟨fun tokens htokens => ⟨hcounts tokens htokens, ?_⟩, fun program hprogram => ?_,
    fun line text hstray => ?_⟩
  · exact (openBlocks_count (tokenize_laid htokens).1).symm
  · rcases ofSource_cases source with ⟨e, he⟩ | ⟨code, t, htokens, heof, hread⟩
    · rw [he] at hprogram
      cases hprogram
    rw [hread] at hprogram
    refine ⟨code ++ [t], htokens, indented_of_headed ?_ (tokenize_laid htokens).2⟩
    have hrows : Rows code [] := by
      cases hresult : read t.line code with
      | error fault =>
        rw [hresult] at hprogram
        cases hprogram
      | ok program => exact read_rows hresult
    obtain ⟨front, heq, -, hheaded⟩ := hrows.whole
    rw [List.append_nil] at heq
    subst heq
    refine headed_append.mpr ⟨hheaded [] (fun _ h => (nomatch h)), fun h => ?_, trivial⟩
    rw [heof] at h
    cases h
  · rcases ofSource_cases source with ⟨e, he⟩ | ⟨code, t, htokens, heof, hread⟩
    · rw [he] at hstray
      cases hstray
    rw [hread] at hstray
    cases hresult : read t.line code with
    | ok program =>
      rw [hresult] at hstray
      cases hstray
    | error fault =>
      rw [hresult] at hstray
      have hfault : fault.isStrayEnd = true := by
        cases fault with
        | malformed line cause =>
          cases hstray
          rfl
        | unsupported => cases hstray
      obtain ⟨front, hfront, hcount⟩ := countP_of_stray hresult hfault
      have hle := hcounts _ htokens front (hfront.trans (List.prefix_append _ _))
      omega

/-- A comment stands out less than the block that comes after it. -/
def blockText : String := "def f():\n # wait\n  pass\n"

theorem layout_agrees_block : ∃ tokens program, tokenize blockText = .ok tokens ∧
    Program.ofSource blockText = .ok program ∧ tokens.countP isDedent = tokens.countP isIndent ∧
    Indented blockText.toList tokens := by
  have htokens : tokenize blockText = .ok [
      ⟨.keyword .define, ⟨0, 3, 1, 0⟩⟩, ⟨.identifier "f", ⟨4, 5, 1, 4⟩⟩,
      ⟨.symbol .leftParen, ⟨5, 6, 1, 5⟩⟩, ⟨.symbol .rightParen, ⟨6, 7, 1, 6⟩⟩,
      ⟨.symbol .colon, ⟨7, 8, 1, 7⟩⟩, ⟨.newline, ⟨8, 9, 1, 8⟩⟩, ⟨.indent, ⟨19, 19, 3, 2⟩⟩,
      ⟨.comment " wait", ⟨10, 16, 2, 1⟩⟩, ⟨.keyword .pass, ⟨19, 23, 3, 2⟩⟩, ⟨.newline,
        ⟨23, 24, 3, 6⟩⟩, ⟨.dedent, ⟨24, 24, 4, 0⟩⟩, ⟨.eof, ⟨24, 24, 4, 0⟩⟩] := by decide +kernel
  have hprogram : ∃ program, Program.ofSource blockText = .ok program := by
    refine ⟨⟨[], [.function 1 ⟨"f", [], none, false⟩ none [] [.comment 2 .line " wait", .pass 3]]⟩,
      ?_⟩
    unfold Program.ofSource
    rw [htokens]
    cbv
  obtain ⟨program, hprogram⟩ := hprogram
  obtain ⟨hcounts, hindented, -⟩ := layout_agrees blockText
  obtain ⟨tokens, htokens', hlayout⟩ := hindented program hprogram
  exact ⟨tokens, program, htokens', hprogram, (hcounts tokens htokens').2, hlayout⟩

end Program

end Sketchwright
