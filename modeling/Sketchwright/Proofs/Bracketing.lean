import Sketchwright.Proofs.Braces

/-! A sketch has the blocks of its program: each of its lines of code keeps its place, and opens and
closes the blocks that it should. What can stand in the way is a configured name of a call, or a
comment in block form that ends early. -/

namespace Sketchwright

namespace Sketch

section Places

variable {text : String} {marks more : Marks}

/-- Text that is read as `marks` whatever follows it, in one line; its last character is a character
of code unless it ends a literal. -/
structure Placed (text : String) (marks : Marks) : Prop where
  reads : Reads text.toList marks
  oneLine : (.code, '\n') ∉ kept marks
  last : ∀ c ∈ text.toList.getLast?, c ≠ '"' → (kept marks).getLast? = some (.code, c)

/-- No blank stands before what is read first. -/
def Starts (marks : Marks) : Prop := ∃ mark, (kept marks).head? = some mark ∧ mark ≠ blank

theorem Starts.append (h : Starts marks) (more : Marks) : Starts (marks ++ more) := by
  obtain ⟨mark, hmark, hblank⟩ := h
  exact ⟨mark, by rw [kept_append, List.head?_append, hmark]; rfl, hblank⟩

theorem placed_plain (h : Plain text) : Placed text (Region.code.mark text.toList) where
  reads := reads_plain (plain_iff.mp h)
  oneLine hmem := by
    rw [kept_code] at hmem
    obtain ⟨c, hc, heq⟩ := List.mem_map.mp hmem
    obtain rfl : c = '\n' := (Prod.mk.inj heq).2
    exact absurd (plain_iff.mp h _ hc) (by decide)
  last c hc _ := by rw [kept_code, Region.mark, List.getLast?_map, hc]; rfl

theorem Placed.append {rest : String} (h : Placed text marks) (hrest : Placed rest more) :
    Placed (text ++ rest) (marks ++ more) where
  reads := by
    rw [String.toList_append]
    exact h.reads.append hrest.reads
  oneLine := by
    rw [kept_append, List.mem_append, not_or]
    exact ⟨h.oneLine, hrest.oneLine⟩
  last c hc hquote := by
    rw [String.toList_append, List.getLast?_append] at hc
    rw [kept_append, List.getLast?_append]
    cases hlast : rest.toList.getLast? with
    | none =>
      have hempty : rest.toList = [] := List.getLast?_eq_none_iff.mp hlast
      obtain rfl : more = [] := by rw [← hrest.reads.scan_eq, hempty]; rfl
      rw [hlast] at hc
      rw [h.last c hc hquote]
      rfl
    | some d =>
      rw [hlast] at hc
      obtain rfl : d = c := Option.some.inj hc
      rw [hrest.last d hlast hquote]
      rfl

theorem placed_quotient : Placed " / " (Region.code.mark [' ', '/', ' ']) where
  reads := reads_quotient
  oneLine := by decide
  last c hc _ := by
    obtain rfl : ' ' = c := Option.some.inj hc
    rfl

theorem kept_literal (text : List Char) :
    kept (Region.literal.mark text) = Region.literal.mark text :=
  List.filter_eq_self.mpr fun mark hmark => by rw [Region.of_mem_mark mark hmark]; rfl

theorem placed_literal (h : (TokenKind.string text).Spelled) :
    Placed (stringLiteral text) (Region.literal.mark (splice (stringLiteral text).toList)) where
  reads := reads_literal (Token.Lexeme.paired_of_spelled h)
  oneLine hmem := by
    rw [kept_literal] at hmem
    cases Region.of_mem_mark _ hmem
  last c hc hquote := by
    rw [stringLiteral, String.toList_append, List.getLast?_append] at hc
    exact absurd (Option.some.inj hc).symm hquote

theorem starts_literal (text : String) :
    Starts (Region.literal.mark (splice (stringLiteral text).toList)) := by
  have htext : (stringLiteral text).toList = '"' :: (escape text.toList ++ ['"']) := by
    simp [stringLiteral]
  refine ⟨(.literal, '"'), ?_, by decide⟩
  rw [kept_literal, htext, splice_other (by decide)]
  rfl

/-- A configured name of a call that keeps its place in a line: with the parenthesis after it, it is
read from code to code, and its code does not end the line and starts with no blank. -/
def KeepsPlace (name : String) : Prop :=
  ∃ marks, Reads (name ++ "(").toList (marks ++ [(.code, '(')]) ∧ (.code, '\n') ∉ marks ∧
    (kept marks).head? ≠ some blank

theorem Marked.placed {isTarget : String → Prop}
    (htargets : ∀ name, isTarget name → KeepsPlace name) (h : Marked isTarget text marks) :
    ∃ marks, Placed text marks ∧ Starts marks := by
  induction h with
  | @plain text hstart htext =>
    refine ⟨_, placed_plain htext, ?_⟩
    obtain ⟨c, cs, hcs, hc⟩ := hstart
    refine ⟨(.code, c), ?_, fun heq => hc (Prod.mk.inj heq).2⟩
    rw [kept_code, hcs]
    rfl
  | @literal text h => exact ⟨_, placed_literal h, starts_literal text⟩
  | @target name h =>
    obtain ⟨marks, hreads, hline, hfirst⟩ := htargets name h
    have hkept : kept (marks ++ [(.code, '(')]) = kept marks ++ [(.code, '(')] := kept_append ..
    refine ⟨_, ⟨hreads, ?_, fun c hc _ => ?_⟩, ?_⟩
    · rw [hkept, List.mem_append, not_or]
      exact ⟨fun hmem => hline (List.mem_of_mem_filter hmem), by decide⟩
    · rw [String.toList_append, List.getLast?_append] at hc
      obtain rfl : '(' = c := Option.some.inj hc
      rw [hkept, List.getLast?_append]
      rfl
    · rw [Starts, hkept, List.head?_append]
      cases hhead : (kept marks).head? with
      | none => exact ⟨(.code, '('), rfl, by decide⟩
      | some mark =>
        rw [hhead] at hfirst
        exact ⟨mark, rfl, fun heq => hfirst (congrArg some heq)⟩
  | @more text rest marks _ hrest ih =>
    obtain ⟨marks, hmarks, hstarts⟩ := ih
    exact ⟨_, hmarks.append (placed_plain hrest), hstarts.append _⟩
  | append _ _ ih ihmore =>
    obtain ⟨marks, hmarks, hstarts⟩ := ih
    obtain ⟨more, hmore, -⟩ := ihmore
    exact ⟨_, hmarks.append hmore, hstarts.append _⟩
  | quotient _ _ ih ihmore =>
    obtain ⟨marks, hmarks, hstarts⟩ := ih
    obtain ⟨more, hmore, -⟩ := ihmore
    exact ⟨_, (hmarks.append placed_quotient).append hmore, (hstarts.append _).append _⟩

end Places

section Turns

variable {style : Style} {line : Nat} {notes : List String} {text : String}

theorem Written.upright {isTarget : String → Prop}
    (htargets : ∀ name, isTarget name → KeepsPlace name) (h : Written isTarget text) {c : Char}
    (hlast : text.toList.getLast? = some c) (hquote : c ≠ '"')
    (hblank : c ≠ ' ') : Upright text := by
  obtain ⟨_, hmarked⟩ := h
  obtain ⟨marks, hmarks, hstarts⟩ := hmarked.placed htargets
  obtain rfl := hmarks.reads.scan_eq
  exact ⟨hmarks.reads, hmarks.oneLine, hstarts, c, hlast, hblank, hmarks.last c hlast hquote⟩

theorem Upright.getLast? (h : Upright text) {c : Char} (hlast : text.toList.getLast? = some c) :
    (codeMarks text).getLast? = some (.code, c) := by
  obtain ⟨d, hd, -, hmarks⟩ := h.last
  obtain rfl := Option.some.inj (hlast.symm.trans hd)
  exact hmarks

/-- The text of a statement that has no block. -/
def EndsStatement (text : String) : Prop := ∃ front, text = front ++ ";"

theorem EndsStatement.append {text : String} (h : EndsStatement text) (front : String) :
    EndsStatement (front ++ text) := by
  obtain ⟨inner, rfl⟩ := h
  exact ⟨front ++ inner, String.append_assoc.symm⟩

theorem EndsStatement.getLast? (h : EndsStatement text) : text.toList.getLast? = some ';' := by
  obtain ⟨front, rfl⟩ := h
  simp

theorem turnOf_statement (h : Upright text) (hends : EndsStatement text) :
    turnOf (codeMarks text) = .none := by
  have hlast := h.getLast? hends.getLast?
  have hclose : codeMarks text ≠ [(.code, '\x7d')] := by
    intro heq
    rw [heq] at hlast
    exact absurd hlast (by decide)
  simp only [turnOf, hclose, if_false, hlast]
  rfl

/-- A head starts with its first character, unless that starts a literal or a comment. -/
theorem turnOf_head (h : Upright text) {c : Char} (hfirst : text.toList.head? = some c)
    (hplain : isPlain c = true) (hlast : text.toList.getLast? = some '\x7b') :
    turnOf (codeMarks text) = headTurn (c == '\x7d') := by
  have hlast' := h.getLast? hlast
  obtain ⟨cs, hcs⟩ := List.head?_eq_some_iff.mp hfirst
  have hhead : (codeMarks text).head? = some (.code, c) := by
    rw [codeMarks, hcs, ← List.singleton_append, reads_char hplain, kept_append]
    rfl
  have hclose : codeMarks text ≠ [(.code, '\x7d')] := by
    intro heq
    rw [heq] at hlast'
    exact absurd hlast' (by decide)
  have hmark : ((.code, c) : Region × Char) = (.code, '\x7d') ↔ c = '\x7d' := by simp
  simp only [turnOf, hclose, if_false, hlast', if_true, hhead, Option.some.injEq, hmark, headTurn,
    beq_iff_eq]

theorem getLast?_head (front : String) : (front ++ ") \x7b").toList.getLast? = some '\x7b' := by
  rw [String.toList_append, List.getLast?_append]
  rfl

theorem assignment_ends {target : Target} {value : Expr} {binding : Binding} {text : String}
    (h : assignment style line target value binding = .ok text) : EndsStatement text := by
  obtain ⟨name, -, h⟩ := Outcome.bind_eq_ok.mp h
  split at h
  · split at h
    · obtain ⟨texts, -, h⟩ := Outcome.bind_eq_ok.mp h
      obtain ⟨type, -, h⟩ := Outcome.bind_eq_ok.mp h
      cases h
      exact .append ⟨"\x7d", rfl⟩ _
    · cases h
  · obtain ⟨type, -, h⟩ := Outcome.bind_eq_ok.mp h
    obtain ⟨value, -, h⟩ := Outcome.bind_eq_ok.mp h
    cases h
    exact ⟨_, rfl⟩
  · obtain ⟨value, -, h⟩ := Outcome.bind_eq_ok.mp h
    cases h
    exact ⟨_, rfl⟩
  · cases h

theorem printLines_ends (texts : List String) : ∀ text ∈ printLines texts, EndsStatement text := by
  fun_induction printLines texts with
  | case1 => exact List.forall_mem_singleton.mpr ⟨"Serial.println()", rfl⟩
  | case2 text => exact List.forall_mem_singleton.mpr (.append ⟨")", rfl⟩ _)
  | case3 text texts _ ih =>
    have hblank : EndsStatement "Serial.print(\" \");" := ⟨"Serial.print(\" \")", rfl⟩
    exact List.forall_mem_cons.mpr ⟨.append ⟨")", rfl⟩ _, List.forall_mem_cons.mpr ⟨hblank, ih⟩⟩

theorem exprLines_ends {value : Expr} {texts : List String}
    (h : exprLines style line value = .ok texts) :
    ∀ text ∈ texts, EndsStatement text := by
  unfold exprLines at h
  split at h
  · split at h
    · obtain ⟨args, -, h⟩ := Outcome.bind_eq_ok.mp h
      cases h
      exact printLines_ends args
    · obtain ⟨text, -, h⟩ := Outcome.bind_eq_ok.mp h
      cases h
      exact List.forall_mem_singleton.mpr ⟨_, rfl⟩
  · obtain ⟨text, -, h⟩ := Outcome.bind_eq_ok.mp h
    cases h
    exact List.forall_mem_singleton.mpr ⟨_, rfl⟩

theorem declarations_ends {hoisted : List (String × Kind)} {texts : List String}
    (h : declarations style line hoisted = .ok texts) : ∀ text ∈ texts, EndsStatement text := by
  induction hoisted generalizing texts with
  | nil =>
    cases h
    exact List.forall_mem_nil _
  | cons v hoisted ih =>
    obtain ⟨type, -, h⟩ := Outcome.bind_eq_ok.mp h
    obtain ⟨more, hmore, h⟩ := Outcome.bind_eq_ok.mp h
    cases h
    exact List.forall_mem_cons.mpr ⟨⟨_, rfl⟩, ih hmore⟩

theorem CodeLine.ends {stmt : Stmt} {text : String}
    (h : CodeLine style stmt text) : EndsStatement text := by
  cases h with
  | assign h => exact assignment_ends h
  | expr h hmem => exact exprLines_ends h _ hmem
  | give => exact ⟨_, rfl⟩
  | bare => exact ⟨"return", rfl⟩
  | stop => exact ⟨"break", rfl⟩
  | skip => exact ⟨"continue", rfl⟩

/-- A line of code ends a statement or opens a block. -/
theorem CodeOf.getLast? {stmt : Stmt} (h : CodeOf style stmt text) :
    text.toList.getLast? = some ';' ∨ text.toList.getLast? = some '\x7b' := by
  induction h with
  | plain h => exact .inl h.ends.getLast?
  | header h =>
    obtain ⟨returns, params, -, -, rfl⟩ := functionHeader_cases h
    exact .inr (getLast?_head _)
  | declaration h hmem => exact .inl (declarations_ends h _ hmem).getLast?
  | branch chained h => exact .inr (getLast?_head _)
  | other => exact .inr rfl
  | loop h =>
    obtain ⟨_, _, _, -, -, -, rfl⟩ := loopHeader_cases h
    exact .inr (getLast?_head _)
  | inner _ _ ih => exact ih

theorem functionHeader_opens {head : FunctionHead} {signature : Signature} (htext : Upright text)
    (h : functionHeader style line head signature = .ok text) :
    turnOf (codeMarks text) = headTurn false := by
  obtain ⟨returns, params, hreturns, -, rfl⟩ := functionHeader_cases h
  obtain ⟨c, cs, hcs, hc⟩ : ∃ c cs, returns.toList = c :: cs ∧ c.isAlpha = true := by
    rcases hreturns with rfl | hreturns
    · exact ⟨_, _, rfl, rfl⟩
    · exact typeName_start hreturns
  have hbrace : (c == '\x7d') = false := beq_false_of_ne (by rintro rfl; cases hc)
  have hplain : isPlain c = true := isPlain_of_holds hc (by decide)
  rw [turnOf_head htext (by simp [hcs]) hplain (getLast?_head _), hbrace]

theorem loopHeader_opens {var : String} {bounds : Bounds} {binding : Binding} (htext : Upright text)
    (h : loopHeader style line var bounds binding = .ok text) :
    turnOf (codeMarks text) = headTurn false := by
  obtain ⟨start, stop, first, -, -, -, rfl⟩ := loopHeader_cases h
  exact turnOf_head (c := 'f') htext (by simp) rfl (getLast?_head _)

theorem branch_turns {chained : Bool} {condition : String}
    (htext : Upright (openingOf chained ++ "if (" ++ condition ++ ") \x7b")) :
    turnOf (codeMarks (openingOf chained ++ "if (" ++ condition ++ ") \x7b")) =
      headTurn chained := by
  cases chained with
  | false => exact turnOf_head (c := 'i') htext (by simp [openingOf]) rfl (getLast?_head _)
  | true => exact turnOf_head (c := '\x7d') htext (by simp [openingOf]) rfl (getLast?_head _)

theorem noted_linked {contents : List Content}
    (h : ∀ text, .code text ∈ contents → turnOf (codeMarks text) = .none) :
    Linked false (noted notes contents) := by
  induction contents with
  | nil => exact .nil
  | cons content contents ih =>
    have hcontent : ∀ text, content = .code text → turnOf (codeMarks text) = .none :=
      fun text heq => h text (heq ▸ List.mem_cons_self)
    have hcontents := ih fun text hmem => h text (List.mem_cons_of_mem _ hmem)
    cases contents with
    | nil => exact .line hcontent .nil
    | cons next contents => exact .line hcontent hcontents

/-- A chain goes on with a conditional. -/
theorem chained_of_hasBody {chained : Bool} {stmt : Stmt}
    (hchain : chained = true → isChain [stmt] = true) (h : isChain [stmt] = false) :
    chained = false :=
  Bool.eq_false_iff.mpr fun hchained => Bool.false_ne_true (h.symm.trans (hchain hchained))

mutual

/-- The outline of a statement is linked if its code keeps its place. Only a conditional
goes on with a chain. -/
theorem outline_linked (chained : Bool) {notes : List String} {stmt : Stmt}
    (hcode : ∀ text, CodeOf style stmt text → Upright text)
    (hchain : chained = true → isChain [stmt] = true) {pieces : List Piece}
    (h : outline style (openingOf chained) notes stmt = .ok pieces) : Linked chained pieces := by
  have hinnerCode : ∀ inner ∈ stmt.inner, ∀ text, CodeOf style inner text → Upright text :=
    fun inner hmem text h => hcode text (.inner hmem h)
  cases stmt with
  | function line head signature hoisted body =>
    obtain rfl := chained_of_hasBody hchain rfl
    unfold outline at h
    cases signature with
    | none => cases h
    | some signature =>
      obtain ⟨header, hheader, h⟩ := Outcome.bind_eq_ok.mp h
      obtain ⟨names, hnames, h⟩ := Outcome.bind_eq_ok.mp h
      obtain ⟨inner, hinner, h⟩ := Outcome.bind_eq_ok.mp h
      cases h
      have hdeclared : ∀ text, .code text ∈ names.map Content.code →
          turnOf (codeMarks text) = .none := by
        intro text hmem
        obtain ⟨name, hname, heq⟩ := List.mem_map.mp hmem
        obtain rfl := Content.code.inj heq
        exact turnOf_statement (hcode name (.declaration hnames hname))
          (declarations_ends hnames name hname)
      have hbodyCode : ∀ stmt ∈ body, ∀ text, CodeOf style stmt text → Upright text := hinnerCode
      have hlinked : Linked false inner := outlineAll_linked hbodyCode hinner
      have hbody : Linked false (noted [] (names.map .code) ++ inner) :=
        (noted_linked hdeclared).append hlinked
      exact .block (functionHeader_opens (hcode header (.header hheader)) hheader) hbody .nil
  | conditional line condition thenBody elseBody =>
    obtain ⟨hthenCode, helseCode⟩ := List.forall_mem_append.mp hinnerCode
    rw [outline] at h
    obtain ⟨text, htext, h⟩ := Outcome.bind_eq_ok.mp h
    obtain ⟨inner, hinner, h⟩ := Outcome.bind_eq_ok.mp h
    have hhead := branch_turns (hcode _ (.branch chained htext))
    have hthen : Linked false inner := outlineAll_linked hthenCode hinner
    split at h
    · next hchain' =>
      obtain ⟨chain, hpieces, h⟩ := Outcome.bind_eq_ok.mp h
      cases h
      obtain ⟨stmt, rfl, hstmt⟩ := exists_of_isChain hchain'
      rw [outlineAll_chain hstmt] at hpieces
      have hnext : Linked true chain :=
        outline_linked true (helseCode stmt List.mem_cons_self) (fun _ => hstmt) hpieces
      exact .block hhead hthen hnext
    split at h
    · cases h
      exact .block hhead hthen .nil
    · obtain ⟨other, hother, h⟩ := Outcome.bind_eq_ok.mp h
      cases h
      exact .block hhead hthen (.block rfl (outlineAll_linked helseCode hother) .nil)
  | loop line var bounds binding body =>
    obtain rfl := chained_of_hasBody hchain rfl
    rw [outline] at h
    obtain ⟨header, hheader, h⟩ := Outcome.bind_eq_ok.mp h
    obtain ⟨inner, hinner, h⟩ := Outcome.bind_eq_ok.mp h
    cases h
    have hbodyCode : ∀ stmt ∈ body, ∀ text, CodeOf style stmt text → Upright text := hinnerCode
    have hlinked : Linked false inner := outlineAll_linked hbodyCode hinner
    exact .block (loopHeader_opens (hcode header (.loop hheader)) hheader) hlinked .nil
  | _ =>
    obtain rfl := chained_of_hasBody hchain rfl
    rw [outline_contents rfl] at h
    obtain ⟨lines, hlines, rfl⟩ := Outcome.map_eq_ok.mp h
    refine noted_linked fun text hmem => ?_
    have hline := contents_code hlines hmem
    exact turnOf_statement (hcode text (.plain hline)) hline.ends
termination_by sizeOf stmt
decreasing_by
  all_goals
    subst_vars
    simp only [List.cons.sizeOf_spec, Stmt.function.sizeOf_spec, Stmt.conditional.sizeOf_spec,
      Stmt.loop.sizeOf_spec]
    omega

theorem outlineAll_linked {taken : Bool} {stmts : List Stmt}
    (hcode : ∀ stmt ∈ stmts, ∀ text, CodeOf style stmt text → Upright text) {pieces : List Piece}
    (h : outlineAll style "" taken stmts = .ok pieces) : Linked false pieces := by
  cases stmts with
  | nil =>
    cases h
    exact .nil
  | cons stmt stmts =>
    obtain ⟨hstmt, hstmts⟩ := List.forall_mem_cons.mp hcode
    rw [outlineAll] at h
    split at h
    · exact outlineAll_linked hstmts h
    · obtain ⟨first, hfirst, h⟩ := Outcome.bind_eq_ok.mp h
      obtain ⟨more, hmore, h⟩ := Outcome.bind_eq_ok.mp h
      cases h
      have hlinked : Linked false first :=
        outline_linked false hstmt (fun h => absurd h Bool.false_ne_true) hfirst
      exact hlinked.append (outlineAll_linked hstmts hmore)
termination_by sizeOf stmts
decreasing_by
  all_goals
    subst_vars
    simp only [List.cons.sizeOf_spec]
    omega

end

/-- The outline of a program is linked if its code keeps its place. -/
theorem outlineOf_linked {p : Program}
    (hcode : ∀ stmt ∈ p.header ++ p.statements, ∀ text, CodeOf style stmt text → Upright text)
    {pieces : List Piece} (h : outlineOf style p = .ok pieces) : Linked false pieces := by
  obtain ⟨hheaderCode, hstmtsCode⟩ := List.forall_mem_append.mp hcode
  obtain ⟨header, hheader, h⟩ := Outcome.bind_eq_ok.mp h
  obtain ⟨statements, hstmts, h⟩ := Outcome.bind_eq_ok.mp h
  cases h
  exact (outlineAll_linked hheaderCode hheader).append (outlineAll_linked hstmtsCode hstmts)

theorem outlineOf_blocks {p : Program} {pieces : List Piece} (h : outlineOf style p = .ok pieces) :
    blocksOf style p = .ok (blocksOn pieces) := by
  obtain ⟨header, hheader, h⟩ := Outcome.bind_eq_ok.mp h
  obtain ⟨statements, hstmts, h⟩ := Outcome.bind_eq_ok.mp h
  cases h
  rw [blocksOn_append]
  exact Outcome.bind_eq_ok.mpr ⟨_, outlineAll_blocks hheader,
    Outcome.bind_eq_ok.mpr ⟨_, outlineAll_blocks hstmts, rfl⟩⟩

end Turns

end Sketch

namespace Translator

open Sketch Inference

variable {config : Config} {t : Translator} {source : String} {p p' : Program}

/-- A sketch has the blocks of its program. Its text, in which each level stands in by the width of
the configuration, is read as these blocks if no configured name of a call breaks its line or moves
it further in, and no comment in block form ends early. -/
theorem generate_blocks (h : ofConfig config = .ok t) (hsource : Program.ofSource source = .ok p)
    (hinfer : (infer t.table p).1 = .ok p') :
    ∃ output blocks,
      t.generate p' = .ok output ∧ blocksOf t.style p' = .ok blocks ∧
      ((∀ name, IsTarget t.table name → KeepsPlace name) →
        (∀ line text, .comment line .block text ∈ triviaIn (p.header ++ p.statements) →
          Closed text) →
        readBlocks t.config.indentWidth output = some blocks) := by
  have htable := (built_of_ofConfig h).sound
  obtain ⟨pieces, hpieces, hgenerate⟩ := infer_outline htable hsource hinfer t.config.floatType
  refine ⟨_, _, hgenerate t.config.indentWidth, outlineOf_blocks hpieces,
    fun htargets hclosed => ?_⟩
  obtain ⟨hheader, hstmts⟩ := infer_noted htable hsource hinfer
  have hcode : ∀ stmt ∈ p'.header ++ p'.statements, ∀ text, CodeOf t.style stmt text →
      Upright text := by
    intro stmt hstmt text hcode
    have hwritten : Written (IsTarget t.table) text :=
      hcode.written (renames_isTarget _) (infer_lexical htable hsource hinfer stmt hstmt)
    rcases hcode.getLast? with hlast | hlast <;>
    exact hwritten.upright htargets hlast (by decide) (by decide)
  have hclose : Upright "\x7d" := by
    have hplain : Written (fun _ => False) "\x7d" := .plain ⟨'\x7d', _, rfl, by decide⟩ (by decide)
    exact hplain.upright nofun (c := '\x7d') rfl (by decide) (by decide)
  exact readBlocks_lines (outlineOf_linked hcode hpieces)
    (outlineOf_tidy hheader hstmts hclose hcode
      (infer_commented htable hsource hinfer hclosed) hpieces)

/-- The sketch of a program with nested blocks. -/
def blinkSketch : String :=
  "// blink\nint led = 13;\nvoid loop() \x7b\n    int on;\n" ++
    "    for (int i = 0; i < 3; i++) \x7b\n        if (i < led) \x7b\n            on = i;\n" ++
    "        \x7d else if (led > 5) \x7b  // enough\n            break;\n        \x7d\n" ++
    "    \x7d\n    delay(on);\n\x7d\n"

def blinkBlocks : List Block := [
  .line "int led = 13;",
  .block "void loop() \x7b" [
    .line "int on;",
    .block "for (int i = 0; i < 3; i++) \x7b" [
      .block "if (i < led) \x7b" [.line "on = i;"] false,
      .block "\x7d else if (led > 5) \x7b" [.line "break;"] true] true,
    .line "delay(on);"] true]

theorem generate_blocks_blink :
    ofConfig default = .ok standard ∧
    Program.ofSource Program.blinkText = .ok .blink ∧
      ∃ p', (infer standard.table .blink).1 = .ok p' ∧
      standard.generate p' = .ok blinkSketch ∧ readBlocks 4 blinkSketch = some blinkBlocks := by
  have hconfig : ofConfig default = .ok standard := by decide
  obtain ⟨p', hinfer⟩ := Program.exists_infer_blink
  obtain ⟨output, blocks, hgenerate, hblocks, hread⟩ :=
    generate_blocks (t := standard) hconfig Program.ofSource_blink hinfer
  have houtput : ((infer .builtin .blink).1.bind standard.generate).toOption =
      some blinkSketch := by
    decide +kernel
  have hblocks' : (infer .builtin .blink).1.bind (blocksOf standard.style) = .ok blinkBlocks := by
    with_unfolding_all rfl
  rw [hinfer] at houtput hblocks'
  simp only [Except.bind, hgenerate] at houtput
  obtain rfl : output = blinkSketch := Option.some.inj houtput
  obtain rfl := Except.ok.inj (hblocks.symm.trans hblocks')
  have htargets : ∀ name, IsTarget standard.table name → KeepsPlace name := by
    rintro name ⟨rule, hrule, hform⟩
    have hrenames : Renames .builtin fun _ => False := renames_builtin
    exact (hrenames rule hrule name hform).elim
  have hcomments : triviaIn (Program.blink.header ++ Program.blink.statements) =
      [.comment 1 .line " blink", .comment 8 .trailing " enough"] := rfl
  refine ⟨hconfig, Program.ofSource_blink, p', hinfer, hgenerate, hread htargets ?_⟩
  intro line text hmem
  simp [hcomments] at hmem

/-- A configuration in which the name of a call is `target` in the sketch. -/
def calling (target : String) : Config :=
  { (default : Config) with calls := [⟨"beep", some target, none⟩] }

def beepText : String := "def f():\n    beep()\n"

def beep : Program where
  header := []
  statements := [.function 1 ⟨"f", [], none, false⟩ none [] [.expr 2 (.call "beep" [])]]

theorem ofSource_beep : Program.ofSource beepText = .ok beep := by
  have htokens : Token.tokenize beepText = .ok [
      ⟨.keyword .define, ⟨0, 3, 1, 0⟩⟩, ⟨.identifier "f", ⟨4, 5, 1, 4⟩⟩,
      ⟨.symbol .leftParen, ⟨5, 6, 1, 5⟩⟩, ⟨.symbol .rightParen, ⟨6, 7, 1, 6⟩⟩,
      ⟨.symbol .colon, ⟨7, 8, 1, 7⟩⟩, ⟨.newline, ⟨8, 9, 1, 8⟩⟩, ⟨.indent, ⟨13, 13, 2, 4⟩⟩,
      ⟨.identifier "beep", ⟨13, 17, 2, 4⟩⟩, ⟨.symbol .leftParen, ⟨17, 18, 2, 8⟩⟩,
      ⟨.symbol .rightParen, ⟨18, 19, 2, 9⟩⟩, ⟨.newline, ⟨19, 20, 2, 10⟩⟩,
      ⟨.dedent, ⟨20, 20, 3, 0⟩⟩, ⟨.eof, ⟨20, 20, 3, 0⟩⟩] := by decide +kernel
  rw [Program.ofSource, htokens]
  cbv

theorem translate_beep {target output : String}
    (h : ((ofConfig (calling target)).toOption.bind fun t =>
      ((infer t.table beep).1.bind t.generate).toOption) = some output) :
    ∃ t, ofConfig (calling target) = .ok t ∧ t.translate beepText = .ok output := by
  obtain ⟨t, ht, houtput⟩ := Option.bind_eq_some_iff.mp h
  refine ⟨t, Outcome.eq_ok_of_toOption ht, ?_⟩
  rw [translate_eq, ofSource_beep]
  exact Outcome.eq_ok_of_toOption houtput

/-- A name that starts with a blank moves its line further in, one with a line end in it may end the
block, and one that opens a comment takes in the end of the block. -/
theorem generate_blocks_misplaced :
    (∃ t, ofConfig (calling " tone") = .ok t ∧
      t.translate beepText = .ok "void f() \x7b\n     tone();\n\x7d\n") ∧
    (readBlocks 4 "void f() \x7b\n     tone();\n\x7d\n").isNone = true ∧
    (∃ t, ofConfig (calling "\x7d\ntone") = .ok t ∧
      t.translate beepText = .ok "void f() \x7b\n    \x7d\ntone();\n\x7d\n") ∧
    (readBlocks 4 "void f() \x7b\n    \x7d\ntone();\n\x7d\n").isNone = true ∧
    (∃ t, ofConfig (calling "tone/*") = .ok t ∧
      t.translate beepText = .ok "void f() \x7b\n    tone/*();\n\x7d\n") ∧
    (readBlocks 4 "void f() \x7b\n    tone/*();\n\x7d\n").isNone = true :=
  ⟨translate_beep (by decide +kernel), by decide +kernel, translate_beep (by decide +kernel),
    by decide +kernel, translate_beep (by decide +kernel), by decide +kernel⟩

end Translator

end Sketchwright
