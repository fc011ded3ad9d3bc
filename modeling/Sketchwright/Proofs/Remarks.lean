import Sketchwright.Proofs.CodeText

/-! The comments of a sketch. Its text is made of rows of code and comments, each comment of the
program is written once in them and in its place, and a comment that ends a line of the program ends
the line of what it stands after. -/

namespace Sketchwright

/-- The text of a comment in a sketch. -/
def Stmt.written : Stmt → List String
  | .comment _ .block text => [Sketch.blockComment text]
  | .comment _ _ text => [Sketch.lineComment text]
  | _ => []

namespace Sketch

/-- A comment as it is written, and what stands before it on its line. -/
structure Remark where
  host : Option String
  text : String
  deriving DecidableEq

/-- Comments that stand one behind the other. -/
def remarksAfter : Option String → List String → List Remark
  | _, [] => []
  | host, comment :: comments => ⟨host, comment⟩ :: remarksAfter (some comment) comments

/-- A line of a sketch in its parts. -/
structure Row where
  blanks : Nat
  code : Option String
  comments : List String
  deriving DecidableEq

namespace Row

/-- A line with its end. Two blanks stand between two parts of it. -/
def text (row : Row) : String :=
  String.ofList (List.replicate row.blanks ' ') ++
    "  ".intercalate (row.code.toList ++ row.comments) ++ "\n"

def remarks (row : Row) : List Remark := remarksAfter row.code row.comments

end Row

/-- The last line of a statement that has no block. -/
def lastLine (style : Style) (stmt : Stmt) : Writing (Option String) := do
  return (← contents style stmt).getLast?.map Content.text

/-- What an else body starts with: a chain goes on with its conditional, and any other one
has a head of its own. -/
def otherwise (elseBody : List Stmt) : String × Option String :=
  if isChain elseBody then ("\x7d else ", none) else ("", some "\x7d else \x7b")

mutual

/-- The comments of a statement. The head of a block is what a comment at the start of it stands
after. -/
def remarks (style : Style) (opening : String) : Stmt → Writing (List Remark)
  | .function line head signature _ body => do
    match signature with
    | none => throw (.internal line (.signatureMissing head.name))
    | some signature =>
      let header ← functionHeader style line head signature
      remarksIn style "" (some header) body
  | .conditional line condition thenBody elseBody => do
    let text ← expression style line condition
    let inner ← remarksIn style "" (some (opening ++ "if (" ++ text ++ ") \x7b")) thenBody
    let (opening, host) := otherwise elseBody
    let other ← remarksIn style opening host elseBody
    return inner ++ other
  | .loop line var bounds binding body => do
    let header ← loopHeader style line var bounds binding
    remarksIn style "" (some header) body
  | stmt => return stmt.written.map fun text => ⟨none, text⟩

/-- The comments of some statements. One at the end of a line stands after `host`, the last line of
the statement before it, or on a line of its own if there is none. -/
def remarksIn (style : Style) (opening : String) (host : Option String) :
    List Stmt → Writing (List Remark)
  | [] => return []
  | .comment _ .trailing text :: stmts => do
    let more ← remarksIn style opening (some (lineComment text)) stmts
    return ⟨host, lineComment text⟩ :: more
  | stmt :: stmts => do
    let first ← remarks style opening stmt
    let more ← remarksIn style opening (← lastLine style stmt) stmts
    return first ++ more

end

/-- The comments of a program. -/
def remarksOf (style : Style) (p : Program) : Writing (List Remark) := do
  return (← remarksIn style "" none p.header) ++ (← remarksIn style "" none p.statements)

section Rows

/-- The parts of a line. -/
def Line.row (width : Nat) (line : Line) : Row :=
  let notes := line.notes.map lineComment
  match line.content with
  | .code text => ⟨line.depth * width, some text, notes⟩
  | .comment text => ⟨line.depth * width, none, lineComment text :: notes⟩
  | .block text => ⟨line.depth * width, none, blockComment text :: notes⟩
  | .empty => ⟨0, none, notes⟩

theorem intercalate_notes (text : String) (notes : List String) :
    "  ".intercalate (text :: notes.map lineComment) =
      text ++ String.join (notes.map fun note => "  " ++ lineComment note) := by
  induction notes generalizing text with
  | nil => simp
  | cons note notes ih =>
    rw [List.map_cons, String.intercalate_cons_cons, ih]
    simp [String.append_assoc]

theorem Line.text_row {line : Line} (h : line.content = .empty → line.notes = []) (width : Nat) :
    (line.row width).text = line.render width := by
  obtain ⟨depth, content, notes⟩ := line
  cases content with
  | empty =>
    obtain rfl : notes = [] := h rfl
    rfl
  | _ => simp [Row.text, Line.row, Line.render, Line.margin, Line.notesText, Content.text,
      intercalate_notes, String.append_assoc]

theorem Line.code_row {line : Line} {width : Nat} {code : String}
    (h : code ∈ (line.row width).code) : line.content = .code code := by
  obtain ⟨_, content, _⟩ := line
  cases content with
  | code text => exact congrArg Content.code (Option.some.inj h)
  | _ => cases h

/-- The comments of lines. -/
def remarksOn (lines : List Line) : List Remark := lines.flatMap fun line => (line.row 0).remarks

theorem remarksOn_rows (lines : List Line) (width : Nat) :
    (lines.map (Line.row width)).flatMap Row.remarks = remarksOn lines := by
  rw [remarksOn, List.flatMap_map]
  refine List.flatMap_congr fun line _ => ?_
  obtain ⟨_, content, _⟩ := line
  cases content <;> rfl

theorem remarksOn_append (lines more : List Line) :
    remarksOn (lines ++ more) = remarksOn lines ++ remarksOn more := List.flatMap_append

end Rows

section Outlines

variable {style : Style} {opening : String} {notes : List String} {host : Option String}

/-- The comment that a line holds itself. -/
def Content.remarks : Content → List Remark
  | .comment text => [⟨none, lineComment text⟩]
  | .block text => [⟨none, blockComment text⟩]
  | _ => []

theorem remarksOn_noted {lines : List Content}
    (h : ∀ content ∈ lines, content = .empty → notes = []) (depth : Nat) :
    remarksOn (linesIn depth (noted notes lines)) = lines.flatMap Content.remarks ++
      if lines.isEmpty then []
      else remarksAfter (lines.getLast?.map Content.text) (notes.map lineComment) := by
  induction lines with
  | nil => rfl
  | cons content lines ih =>
    obtain ⟨hcontent, hlines⟩ := List.forall_mem_cons.mp h
    cases lines with
    | nil =>
      cases content with
      | empty =>
        obtain rfl := hcontent rfl
        rfl
      | _ => exact List.append_nil _
    | cons next lines =>
      have hfirst : remarksOn [⟨depth, content, []⟩] = content.remarks := by cases content <;> rfl
      have hcons : linesIn depth (noted notes (content :: next :: lines)) =
          [⟨depth, content, []⟩] ++ linesIn depth (noted notes (next :: lines)) := rfl
      rw [hcons, remarksOn_append, hfirst, ih hlines, List.getLast?_cons_cons, ← List.append_assoc]
      rfl

theorem remarksOn_codes (texts : List String) (depth : Nat) :
    remarksOn (linesIn depth (noted [] (texts.map .code))) = [] := by
  rw [remarksOn_noted fun _ _ _ => rfl, List.flatMap_map, List.map_nil, remarksAfter, ite_self,
    List.append_nil]
  exact List.flatMap_eq_nil_iff.mpr fun _ _ => rfl

theorem remarksOn_block {head : String} {body : List Piece} {closes : Bool} {depth : Nat} :
    remarksOn ((Piece.block head notes body closes).lines depth) =
      remarksAfter (some head) (notes.map lineComment) ++ remarksOn (linesIn (depth + 1) body) := by
  have hclosing : remarksOn (closing depth closes) = [] := by cases closes <;> rfl
  have hhead : remarksOn [⟨depth, .code head, notes⟩] =
      remarksAfter (some head) (notes.map lineComment) := List.append_nil _
  rw [Piece.lines, ← List.singleton_append, remarksOn_append, remarksOn_append, hclosing, hhead,
    List.append_nil]

/-- A block has the comments that stand after its head and in its body. -/
theorem remarksOn_body {head : String} {body : List Stmt} {inner : List Piece} {all : List Remark}
    (h : ∀ depth, (if (some head).isSome then
        remarksAfter (some head) ((noteBefore body).map lineComment) else []) ++
      remarksOn (linesIn depth inner) = all) (closes : Bool) (depth : Nat) :
    remarksOn ((Piece.block head (noteBefore body) inner closes).lines depth) = all := by
  rw [remarksOn_block]
  exact h (depth + 1)

/-- A statement without a block has its own comment, if it is one, in the last of its lines. -/
theorem contents_remarks {stmt : Stmt} (hbody : stmt.hasBody = false) {lines : List Content}
    (h : contents style stmt = .ok lines) :
    remarks style opening stmt = .ok (lines.flatMap Content.remarks) := by
  have hremarks : remarks style opening stmt = .ok (stmt.written.map fun text => ⟨none, text⟩) := by
    cases stmt <;> first | rfl | cases hbody
  rw [hremarks]
  rcases contents_cases h with ⟨htrivia, texts, rfl⟩ | ⟨_, _, rfl, rfl⟩ |
      ⟨_, commentStyle, _, hstyle, rfl, rfl⟩ | ⟨_, rfl, rfl⟩
  · have hnone : stmt.written = [] := by
      cases stmt <;> first | rfl | cases htrivia
    have hcodes : (texts.map Content.code).flatMap Content.remarks = [] := by
      rw [List.flatMap_map]
      exact List.flatMap_eq_nil_iff.mpr fun _ _ => rfl
    rw [hnone, hcodes]
    rfl
  · rfl
  · cases commentStyle <;> first | rfl | exact absurd rfl hstyle
  · rfl

/-- An empty line is that of a statement after which no comment stands. -/
theorem isSimple_of_empty {stmt : Stmt} {lines : List Content}
    (h : contents style stmt = .ok lines) (hempty : .empty ∈ lines) : stmt.isSimple = false := by
  rcases contents_cases h with ⟨-, texts, rfl⟩ | ⟨_, _, rfl, rfl⟩ | ⟨_, _, _, _, rfl, rfl⟩ |
      ⟨_, rfl, rfl⟩
  · obtain ⟨_, -, heq⟩ := List.mem_map.mp hempty
    cases heq
  · cases List.mem_singleton.mp hempty
  · cases List.mem_singleton.mp hempty
  · rfl

theorem remarksIn_cons {stmt : Stmt} {stmts : List Stmt} (h : noteBefore (stmt :: stmts) = []) :
    remarksIn style opening host (stmt :: stmts) = (do
      let first ← remarks style opening stmt
      let more ← remarksIn style opening (← lastLine style stmt) stmts
      return first ++ more) := by
  unfold noteBefore at h
  split at h
  · cases h
  · next hnote =>
    rw [remarksIn]
    exact fun line text heq => hnote line text stmts (heq ▸ rfl)

mutual

/-- The lines of a statement have its comments, and then the ones after it if there is a line for
that. -/
theorem outline_remarks {opening : String} {notes : List String} {stmt : Stmt} (h : stmt.Noted)
    (hnotes : stmt.isSimple = false → notes = []) {pieces : List Piece}
    (hpieces : outline style opening notes stmt = .ok pieces) :
    ∃ own host, remarks style opening stmt = .ok own ∧ lastLine style stmt = .ok host ∧
      (notes ≠ [] → host.isSome = !pieces.isEmpty) ∧ ∀ depth, remarksOn (linesIn depth pieces) =
        own ++ if pieces.isEmpty then [] else remarksAfter host (notes.map lineComment) := by
  cases stmt with
  | function line head signature hoisted body =>
    obtain rfl := hnotes rfl
    unfold outline at hpieces
    cases signature with
    | none => cases hpieces
    | some signature =>
      obtain ⟨header, hheader, hpieces⟩ := Outcome.bind_eq_ok.mp hpieces
      obtain ⟨names, -, hpieces⟩ := Outcome.bind_eq_ok.mp hpieces
      obtain ⟨inner, hinner, hpieces⟩ := Outcome.bind_eq_ok.mp hpieces
      cases hpieces
      obtain ⟨own, hown, hbody⟩ :=
        outlineAll_remarks (some header) h.function_body (fun _ => rfl) hinner
      refine ⟨own, none, Outcome.bind_eq_ok.mpr ⟨header, hheader, hown⟩, rfl, nofun,
        fun depth => ?_⟩
      have hlines : ∀ depth, remarksOn (linesIn depth (noted [] (names.map .code) ++ inner)) =
          remarksOn (linesIn depth inner) := by
        intro depth
        rw [linesIn_append, remarksOn_append, remarksOn_codes, List.nil_append]
      rw [linesIn, linesIn, List.append_nil, remarksOn_body fun depth => by rw [hlines, hbody]]
      exact (List.append_nil _).symm
  | conditional line condition thenBody elseBody =>
    obtain rfl := hnotes rfl
    obtain ⟨hthen, helse⟩ := h.conditional_bodies
    rw [outline] at hpieces
    obtain ⟨text, htext, hpieces⟩ := Outcome.bind_eq_ok.mp hpieces
    obtain ⟨inner, hinner, hpieces⟩ := Outcome.bind_eq_ok.mp hpieces
    obtain ⟨own, hown, hbranch⟩ := outlineAll_remarks
      (some (opening ++ "if (" ++ text ++ ") \x7b")) hthen (fun _ => rfl) hinner
    have hjoin : ∀ {start host rest}, otherwise elseBody = (start, host) →
        remarksIn style start host elseBody = .ok rest →
        remarks style opening (.conditional line condition thenBody elseBody) =
          .ok (own ++ rest) := by
      intro start host rest hstart hrest
      rw [remarks, hstart]
      exact Outcome.bind_eq_ok.mpr ⟨text, htext, Outcome.bind_eq_ok.mpr
        ⟨own, hown, Outcome.bind_eq_ok.mpr ⟨rest, hrest, rfl⟩⟩⟩
    split at hpieces
    · next hchain =>
      obtain ⟨chain, hchain', hpieces⟩ := Outcome.bind_eq_ok.mp hpieces
      cases hpieces
      have hnone := noteBefore_of_chain hchain
      obtain ⟨rest, hrest, hother⟩ :=
        outlineAll_remarks none helse (fun hnotes => absurd hnone hnotes) hchain'
      refine ⟨own ++ rest, none, hjoin (if_pos hchain) hrest, rfl, nofun, fun depth => ?_⟩
      have hother' := hother depth
      rw [hnone] at hother'
      rw [linesIn, remarksOn_append, remarksOn_body hbranch, ← hother']
      exact (List.append_nil _).symm
    split at hpieces
    · next hchain hempty =>
      cases hpieces
      obtain rfl := List.isEmpty_iff.mp hempty
      refine ⟨own ++ [], none, hjoin rfl rfl, rfl, nofun, fun depth => ?_⟩
      rw [linesIn, linesIn, List.append_nil, remarksOn_body hbranch, List.append_nil]
      exact (List.append_nil _).symm
    · next hchain _ =>
      obtain ⟨other, hother, hpieces⟩ := Outcome.bind_eq_ok.mp hpieces
      cases hpieces
      obtain ⟨rest, hrest, hlines⟩ := outlineAll_remarks
        (some "\x7d else \x7b") helse (fun _ => rfl) hother
      refine ⟨own ++ rest, none, hjoin (if_neg hchain) hrest, rfl, nofun, fun depth => ?_⟩
      rw [linesIn, linesIn, linesIn, List.append_nil, remarksOn_append, remarksOn_body hbranch,
        remarksOn_body hlines]
      exact (List.append_nil _).symm
  | loop line var bounds binding body =>
    obtain rfl := hnotes rfl
    rw [outline] at hpieces
    obtain ⟨header, hheader, hpieces⟩ := Outcome.bind_eq_ok.mp hpieces
    obtain ⟨inner, hinner, hpieces⟩ := Outcome.bind_eq_ok.mp hpieces
    cases hpieces
    obtain ⟨own, hown, hbody⟩ :=
      outlineAll_remarks (some header) h.loop_body (fun _ => rfl) hinner
    refine ⟨own, none, ?_, rfl, nofun, fun depth => ?_⟩
    · rw [remarks]
      exact Outcome.bind_eq_ok.mpr ⟨header, hheader, hown⟩
    · rw [linesIn, linesIn, List.append_nil, remarksOn_body hbody]
      exact (List.append_nil _).symm
  | _ =>
    rw [outline_contents rfl] at hpieces
    obtain ⟨lines, hlines, rfl⟩ := Outcome.map_eq_ok.mp hpieces
    have hempty : ∀ content ∈ lines, content = .empty → notes = [] := by
      rintro _ hcontent rfl
      exact hnotes (isSimple_of_empty hlines hcontent)
    refine ⟨_, lines.getLast?.map Content.text, contents_remarks rfl hlines, ?_, ?_,
      fun depth => ?_⟩
    · rw [lastLine, hlines]
      rfl
    · intro _
      rw [isEmpty_noted]
      cases lines with
      | nil => rfl
      | cons content lines => simp [List.getLast?_cons]
    · rw [remarksOn_noted hempty, isEmpty_noted]

theorem outlineAll_remarks {opening : String} {noted taken : Bool} (host : Option String)
    {stmts : List Stmt} (h : NotedAll noted stmts)
    (htaken : noteBefore stmts ≠ [] → host.isSome = taken) {pieces : List Piece}
    (hpieces : outlineAll style opening taken stmts = .ok pieces) :
    ∃ all, remarksIn style opening host stmts = .ok all ∧ ∀ depth,
      (if taken then remarksAfter host ((noteBefore stmts).map lineComment) else []) ++
        remarksOn (linesIn depth pieces) = all := by
  cases stmts with
  | nil =>
    cases hpieces
    refine ⟨[], rfl, fun depth => ?_⟩
    cases taken <;> rfl
  | cons stmt stmts =>
    cases h with
    | @note line text _ hstmts =>
      have hhost : host.isSome = taken := htaken (List.cons_ne_nil _ _)
      have hnone := noteBefore_eq hstmts
      cases taken with
      | true =>
        rw [outlineAll] at hpieces
        obtain ⟨rest, hrest, hmore⟩ := outlineAll_remarks
          (some (lineComment text)) hstmts (fun _ => rfl) hpieces
        refine ⟨⟨host, lineComment text⟩ :: rest, ?_, fun depth => ?_⟩
        · rw [remarksIn, hrest]
          rfl
        · have hlines := hmore depth
          rw [hnone] at hlines
          exact congrArg (⟨host, lineComment text⟩ :: ·) hlines
      | false =>
        obtain rfl : host = none := by simpa using hhost
        rw [outlineAll, hnone] at hpieces
        obtain ⟨first, hfirst, hpieces⟩ := Outcome.bind_eq_ok.mp hpieces
        obtain ⟨more, hmore, hpieces⟩ := Outcome.bind_eq_ok.mp hpieces
        cases hfirst
        cases hpieces
        obtain ⟨rest, hrest, hlines⟩ := outlineAll_remarks
          (some (lineComment text)) hstmts (fun _ => rfl) hmore
        refine ⟨⟨none, lineComment text⟩ :: rest, ?_, fun depth => ?_⟩
        · rw [remarksIn, hrest]
          rfl
        · have hlines' := hlines depth
          rw [hnone] at hlines'
          rw [linesIn_append, remarksOn_append, ← hlines']
          rfl
    | cons hstmt hstmts =>
      have hnone : noteBefore (_ :: stmts) = [] := noteBefore_cons hstmt
      rw [outlineAll_cons hnone] at hpieces
      obtain ⟨first, hfirst, hpieces⟩ := Outcome.bind_eq_ok.mp hpieces
      obtain ⟨more, hmore, hpieces⟩ := Outcome.bind_eq_ok.mp hpieces
      cases hpieces
      have hnotes : stmt.isSimple = false → noteBefore stmts = [] := by
        intro hsimple
        rw [hsimple] at hstmts
        exact noteBefore_eq hstmts
      obtain ⟨own, last, hown, hlast, htaken', hlines⟩ := outline_remarks hstmt hnotes hfirst
      obtain ⟨rest, hrest, hlines'⟩ := outlineAll_remarks last hstmts htaken' hmore
      refine ⟨own ++ rest, ?_, fun depth => ?_⟩
      · rw [remarksIn_cons hnone]
        exact Outcome.bind_eq_ok.mpr ⟨own, hown, Outcome.bind_eq_ok.mpr
          ⟨last, hlast, Outcome.bind_eq_ok.mpr ⟨rest, hrest, rfl⟩⟩⟩
      · rw [hnone, linesIn_append, remarksOn_append, hlines depth, ← hlines' depth,
          List.append_assoc]
        cases first <;> cases taken <;> rfl

end

/-- The comments of a program are those of its lines. -/
theorem outlineOf_remarks {p : Program} (hheader : NotedAll false p.header)
    (hstmts : NotedAll false p.statements) {pieces : List Piece}
    (h : outlineOf style p = .ok pieces) :
    remarksOf style p = .ok (remarksOn (linesIn 0 pieces)) := by
  obtain ⟨header, hheader', h⟩ := Outcome.bind_eq_ok.mp h
  obtain ⟨statements, hstmts', h⟩ := Outcome.bind_eq_ok.mp h
  cases h
  have hnone := noteBefore_eq hheader
  have hnone' := noteBefore_eq hstmts
  obtain ⟨first, hfirst, hlines⟩ :=
    outlineAll_remarks none hheader (fun hnotes => absurd hnone hnotes) hheader'
  obtain ⟨second, hsecond, hlines'⟩ :=
    outlineAll_remarks none hstmts (fun hnotes => absurd hnone' hnotes) hstmts'
  have hfirst' := hlines 0
  have hsecond' := hlines' 0
  rw [hnone] at hfirst'
  rw [hnone'] at hsecond'
  rw [linesIn_append, remarksOn_append]
  refine Outcome.bind_eq_ok.mpr ⟨first, hfirst, Outcome.bind_eq_ok.mpr ⟨second, hsecond, ?_⟩⟩
  rw [← hfirst', ← hsecond']
  rfl

end Outlines

section Texts

variable {style : Style}

mutual

theorem remarks_texts {opening : String} {stmt : Stmt} {all : List Remark}
    (h : remarks style opening stmt = .ok all) :
    all.map Remark.text = stmt.trivia.flatMap Stmt.written := by
  cases stmt with
  | function line head signature hoisted body =>
    unfold remarks at h
    cases signature with
    | none => cases h
    | some signature =>
      obtain ⟨_, -, h⟩ := Outcome.bind_eq_ok.mp h
      exact remarksIn_texts h
  | conditional line condition thenBody elseBody =>
    rw [remarks] at h
    obtain ⟨_, -, h⟩ := Outcome.bind_eq_ok.mp h
    obtain ⟨inner, hinner, h⟩ := Outcome.bind_eq_ok.mp h
    obtain ⟨other, hother, h⟩ := Outcome.bind_eq_ok.mp h
    cases h
    rw [List.map_append, remarksIn_texts hinner, remarksIn_texts hother, Stmt.trivia,
      List.flatMap_append]
  | loop line var bounds binding body =>
    rw [remarks] at h
    obtain ⟨_, -, h⟩ := Outcome.bind_eq_ok.mp h
    exact remarksIn_texts h
  | comment _ commentStyle _ =>
    cases h
    cases commentStyle <;> rfl
  | _ =>
    cases h
    rfl

/-- The comments of statements are written one after the other. -/
theorem remarksIn_texts {opening : String} {host : Option String} {stmts : List Stmt}
    {all : List Remark} (h : remarksIn style opening host stmts = .ok all) :
    all.map Remark.text = (triviaIn stmts).flatMap Stmt.written := by
  cases stmts with
  | nil =>
    cases h
    rfl
  | cons stmt stmts =>
    rw [triviaIn, List.flatMap_append]
    by_cases hnote : noteBefore (stmt :: stmts) = []
    · rw [remarksIn_cons hnote] at h
      obtain ⟨first, hfirst, h⟩ := Outcome.bind_eq_ok.mp h
      obtain ⟨_, -, h⟩ := Outcome.bind_eq_ok.mp h
      obtain ⟨more, hmore, h⟩ := Outcome.bind_eq_ok.mp h
      cases h
      rw [List.map_append, remarks_texts hfirst, remarksIn_texts hmore]
    · unfold noteBefore at hnote
      split at hnote
      · next heq =>
        cases heq
        rw [remarksIn] at h
        obtain ⟨more, hmore, h⟩ := Outcome.bind_eq_ok.mp h
        cases h
        rw [List.map_cons, remarksIn_texts hmore]
        rfl
      · exact absurd rfl hnote

end

theorem remarksOf_texts {p : Program} {all : List Remark} (h : remarksOf style p = .ok all) :
    all.map Remark.text = (triviaIn (p.header ++ p.statements)).flatMap Stmt.written := by
  obtain ⟨first, hfirst, h⟩ := Outcome.bind_eq_ok.mp h
  obtain ⟨second, hsecond, h⟩ := Outcome.bind_eq_ok.mp h
  cases h
  rw [List.map_append, remarksIn_texts hfirst, remarksIn_texts hsecond, triviaIn_append,
    List.flatMap_append]

end Texts

end Sketch

namespace Translator

open Program Sketch Inference

variable {config : Config} {t : Translator} {source output : String}

/-- A sketch keeps the comments of its text. The program has the comments and blank lines of the
tokens in the same order, but for blank lines at its end. The sketch is made of rows: in their code
there is no comment but in the configured names of calls, and behind it the comments of the program
stand in the same order, each of them once and after what it stands after in the program. -/
theorem translate_comments (h : ofConfig config = .ok t)
    (houtput : t.translate source = .ok output) :
    ∃ (tokens : List Token) (p p' : Program) (rows : List Row), Token.tokenize source = .ok tokens ∧
      Program.ofSource source = .ok p ∧
      (infer t.table p).1 = .ok p' ∧
      (∃ blanks, notices .first tokens = triviaIn (p.header ++ p.statements) ++ blanks ∧
        (∀ stmt ∈ blanks, stmt.isBlank = true) ∧
        ∀ stmt ∈ (p.header ++ p.statements).getLast?, stmt.isBlank = false) ∧
      output = String.join (rows.map Row.text) ∧
      (∀ row ∈ rows, ∀ code ∈ row.code, Written (IsTarget t.table) code) ∧
      remarksOf t.style p' = .ok (rows.flatMap Row.remarks) ∧
      (rows.flatMap Row.remarks).map Remark.text =
        (triviaIn (p.header ++ p.statements)).flatMap Stmt.written := by
  have htable := (built_of_ofConfig h).sound
  obtain ⟨p, p', hsource, hinfer, hgenerate⟩ := translate_eq_ok.mp houtput
  obtain ⟨tokens, blanks, htokens, hnotices, hblanks, hlast, -⟩ := ofSource_notices hsource
  obtain ⟨pieces, hpieces, hlines⟩ := infer_outline htable hsource hinfer t.config.floatType
  obtain ⟨hheader, hstmts⟩ := infer_noted htable hsource hinfer
  have htidy : ∀ line ∈ linesIn 0 pieces,
      Tidy (Written (IsTarget t.table)) (fun _ => True) (fun _ => True) line :=
    outlineOf_tidy hheader hstmts (.plain ⟨'\x7d', _, rfl, by decide⟩ (by decide))
      (fun stmt hstmt text hcode =>
        hcode.written (renames_isTarget _) (infer_lexical htable hsource hinfer stmt hstmt))
      (fun stmt _ => commented_true stmt) hpieces
  have hremarks : remarksOf t.style p' =
      .ok (((linesIn 0 pieces).map (Line.row t.config.indentWidth)).flatMap Row.remarks) := by
    rw [remarksOn_rows]
    exact outlineOf_remarks hheader hstmts hpieces
  refine ⟨tokens, p, p', (linesIn 0 pieces).map (Line.row t.config.indentWidth), htokens, hsource,
    hinfer, ⟨blanks, hnotices, hblanks, hlast⟩, ?_, ?_, hremarks, ?_⟩
  · rw [List.map_map, Except.ok.inj (hgenerate.symm.trans (hlines t.config.indentWidth))]
    refine congrArg String.join (List.map_congr_left fun line hline => ?_)
    exact (Line.text_row (htidy line hline).empty _).symm
  · intro row hrow code hcode
    obtain ⟨line, hline, rfl⟩ := List.mem_map.mp hrow
    exact (htidy line hline).code code (Line.code_row hcode)
  · rw [remarksOf_texts hremarks,
      triviaIn_bare (infer_bare htable (wellFormed_of_source hsource) hinfer)]

/-- Comments after a statement with a line, on a line of their own, after a head and after a
statement without a line. -/
def notedText : String := "x = 1 # a\n\"\"\"b*/c\"\"\"\n\ndef f(): # d\n  pass # e\\\n\n"

def notedSketch : String :=
  "int x = 1;  // a\n/*b* /c*/\n\nvoid f() \x7b  // d\n    /* e\\*/\n\x7d\n"

theorem translate_comments_sample : ofConfig default = .ok standard ∧
    standard.translate notedText = .ok notedSketch ∧ ∃ rows : List Row,
      notedSketch = String.join (rows.map Row.text) ∧ rows.flatMap Row.remarks =
        [⟨some "int x = 1;", "// a"⟩, ⟨none, "/*b* /c*/"⟩, ⟨some "void f() \x7b", "// d"⟩,
          ⟨none, "/* e\\*/"⟩] := by
  have hconfig : ofConfig default = .ok standard := by decide
  have htokens : Token.tokenize notedText = .ok [
      ⟨.identifier "x", ⟨0, 1, 1, 0⟩⟩, ⟨.symbol .equal, ⟨2, 3, 1, 2⟩⟩, ⟨.integer 1, ⟨4, 5, 1, 4⟩⟩,
      ⟨.comment " a", ⟨6, 9, 1, 6⟩⟩, ⟨.newline, ⟨9, 10, 1, 9⟩⟩, ⟨.string "b*/c", ⟨10, 20, 2, 0⟩⟩,
      ⟨.newline, ⟨20, 21, 2, 10⟩⟩, ⟨.blankLine, ⟨21, 21, 3, 0⟩⟩, ⟨.keyword .define, ⟨22, 25, 4, 0⟩⟩,
      ⟨.identifier "f", ⟨26, 27, 4, 4⟩⟩, ⟨.symbol .leftParen, ⟨27, 28, 4, 5⟩⟩,
      ⟨.symbol .rightParen, ⟨28, 29, 4, 6⟩⟩, ⟨.symbol .colon, ⟨29, 30, 4, 7⟩⟩,
      ⟨.comment " d", ⟨31, 34, 4, 9⟩⟩, ⟨.newline, ⟨34, 35, 4, 12⟩⟩, ⟨.indent, ⟨37, 37, 5, 2⟩⟩,
      ⟨.keyword .pass, ⟨37, 41, 5, 2⟩⟩, ⟨.comment " e\\", ⟨42, 46, 5, 7⟩⟩,
      ⟨.newline, ⟨46, 47, 5, 11⟩⟩, ⟨.dedent, ⟨48, 48, 7, 0⟩⟩, ⟨.blankLine, ⟨47, 47, 6, 0⟩⟩,
      ⟨.eof, ⟨48, 48, 7, 0⟩⟩] := by decide +kernel
  let p : Program :=
    ⟨[], [.assign 1 (.name "x") (.literal (.int 1)) none .unresolved, .comment 1 .trailing " a",
      .comment 2 .block "b*/c", .blank 3, .function 4 ⟨"f", [], none, false⟩ none []
      [.comment 4 .trailing " d", .pass 5, .comment 5 .trailing " e\\"]]⟩
  have hsource : Program.ofSource notedText = .ok p := by
    unfold Program.ofSource
    rw [htokens]
    cbv
  have hgenerate : ((infer standard.table p).1.bind standard.generate).toOption =
      some notedSketch := by decide +kernel
  have houtput : standard.translate notedText = .ok notedSketch := by
    rw [translate_eq, hsource]
    exact Outcome.eq_ok_of_toOption hgenerate
  have hremarks : ((infer standard.table p).1.bind (remarksOf standard.style)).toOption =
      some [⟨some "int x = 1;", "// a"⟩, ⟨none, "/*b* /c*/"⟩, ⟨some "void f() \x7b", "// d"⟩,
        ⟨none, "/* e\\*/"⟩] := by decide +kernel
  obtain ⟨_, p₁, p', rows, -, hsource₁, hinfer, -, hrows, -, hall, -⟩ :=
    translate_comments hconfig houtput
  obtain rfl := Except.ok.inj (hsource.symm.trans hsource₁)
  rw [hinfer] at hremarks
  simp only [Except.bind, hall] at hremarks
  exact ⟨hconfig, houtput, rows, hrows, Option.some.inj hremarks⟩

end Translator

end Sketchwright
