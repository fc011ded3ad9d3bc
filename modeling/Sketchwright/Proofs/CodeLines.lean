import Sketchwright.Proofs.Comments

/-! The lines of a sketch one by one: which code they hold and which comments. -/

namespace Sketchwright

/-- The statements in the blocks of a statement. -/
def Stmt.inner : Stmt → List Stmt
  | .function _ _ _ _ body => body
  | .conditional _ _ thenBody elseBody => thenBody ++ elseBody
  | .loop _ _ _ _ body => body
  | _ => []

namespace Sketch

/-- The text before the condition of a branch. -/
def openingOf (chained : Bool) : String := if chained then "\x7d else " else ""

/-- The code that a statement has in its lines, ends of blocks apart. -/
inductive CodeOf (style : Style) : Stmt → String → Prop
  | plain {stmt text} (h : CodeLine style stmt text) : CodeOf style stmt text
  | header {line head signature hoisted body text}
    (h : functionHeader style line head signature = .ok text) :
      CodeOf style (.function line head (some signature) hoisted body) text
  | declaration {line head signature hoisted body texts text}
    (h : declarations style line hoisted = .ok texts)
      (hmem : text ∈ texts) : CodeOf style (.function line head signature hoisted body) text
  | branch {line condition thenBody elseBody text} (chained : Bool)
    (h : expression style line condition = .ok text) :
      CodeOf style (.conditional line condition thenBody elseBody)
      (openingOf chained ++ "if (" ++ text ++ ") \x7b")
  | other {line condition thenBody elseBody} :
      CodeOf style (.conditional line condition thenBody elseBody) "\x7d else \x7b"
  | loop {line var bounds binding body text}
    (h : loopHeader style line var bounds binding = .ok text) :
      CodeOf style (.loop line var bounds binding body) text
  | inner {stmt inner text} (hinner : inner ∈ stmt.inner) (h : CodeOf style inner text) :
    CodeOf style stmt text

/-- Comments that may stand at the end of a line. -/
structure Notes (isNote : String → Prop) (notes : List String) : Prop where
  single : notes.length ≤ 1
  each : ∀ text ∈ notes, isNote text

theorem Notes.nil {isNote : String → Prop} : Notes isNote [] :=
  ⟨Nat.zero_le 1, List.forall_mem_nil _⟩

/-- A line whose code satisfies `isCode` and whose comments satisfy `isNote`, or `isBlock` in
block form. Only one comment stands at its end, and none after a comment up to the end of the
line or in an empty line. -/
structure Tidy (isCode isNote isBlock : String → Prop) (line : Line) : Prop where
  code : ∀ text, line.content = .code text → isCode text
  comment : ∀ text, line.content = .comment text → isNote text ∧ line.notes = []
  block : ∀ text, line.content = .block text → isBlock text
  empty : line.content = .empty → line.notes = []
  notes : Notes isNote line.notes

/-- What the comments of a program satisfy. -/
def Commented (isNote isBlock : String → Prop) : Stmt → Prop
  | .comment _ .block text => isBlock text
  | .comment _ _ text => isNote text
  | _ => True

theorem Commented.imp {isNote isNote' isBlock isBlock' : String → Prop} {stmt : Stmt}
    (h : Commented isNote isBlock stmt) (hnote : ∀ text, isNote text → isNote' text)
    (hblock : ∀ line text, stmt = .comment line .block text → isBlock' text) :
    Commented isNote' isBlock' stmt := by
  cases stmt with
  | comment line commentStyle text =>
    cases commentStyle with
    | block => exact hblock line text rfl
    | line | trailing => exact hnote text h
  | _ => trivial

theorem commented_true (stmt : Stmt) : Commented (fun _ => True) (fun _ => True) stmt := by
  unfold Commented
  split <;> trivial

variable {style : Style} {isCode isNote isBlock : String → Prop}

theorem exists_of_isChain {stmts : List Stmt} (h : isChain stmts = true) :
    ∃ stmt, stmts = [stmt] ∧ isChain [stmt] = true := by
  unfold isChain at h
  split at h
  · exact ⟨_, rfl, rfl⟩
  · cases h

theorem outlineAll_chain {opening : String} {taken : Bool} {stmt : Stmt}
    (h : isChain [stmt] = true) :
    outlineAll style opening taken [stmt] = outline style opening [] stmt := by
  rw [outlineAll_cons (noteBefore_of_chain h)]
  simp [outlineAll, noteBefore]

theorem commented_of_trivia {stmt : Stmt}
    (h : ∀ comment ∈ stmt.trivia, Commented isNote isBlock comment) :
    Commented isNote isBlock stmt := by
  cases stmt with
  | comment line commentStyle text => exact h _ List.mem_cons_self
  | _ => trivial

theorem tidy_code {depth : Nat} {text : String} {notes : List String} (htext : isCode text)
    (hnotes : Notes isNote notes) :
    Tidy isCode isNote isBlock ⟨depth, .code text, notes⟩ where
  code _ h := Content.code.inj h ▸ htext
  comment _ h := nomatch h
  block _ h := nomatch h
  empty h := nomatch h
  notes := hnotes

theorem tidy_contents {stmt : Stmt} {lines : List Content} (h : contents style stmt = .ok lines)
    (hcode : ∀ text, CodeOf style stmt text → isCode text)
    (hcomment : Commented isNote isBlock stmt) {notes : List String} (hnotes : Notes isNote notes)
    (hsimple : stmt.isSimple = false → notes = []) (depth : Nat) :
    ∀ content ∈ lines, Tidy isCode isNote isBlock ⟨depth, content, notes⟩ := by
  rcases contents_cases h with ⟨-, texts, rfl⟩ | ⟨_, _, rfl, rfl⟩ |
    ⟨_, commentStyle, _, hstyle, rfl, rfl⟩ | ⟨_, rfl, rfl⟩
  · intro content hmem
    obtain ⟨text, -, rfl⟩ := List.mem_map.mp hmem
    exact tidy_code (hcode text (.plain (contents_code h hmem))) hnotes
  · exact List.forall_mem_singleton.mpr
      ⟨nofun, nofun, fun _ h => Content.block.inj h ▸ hcomment, nofun, hnotes⟩
  · cases commentStyle with
    | block => exact absurd rfl hstyle
    | line | trailing =>
      exact List.forall_mem_singleton.mpr
        ⟨nofun, fun _ h => ⟨Content.comment.inj h ▸ hcomment, hsimple rfl⟩, nofun, nofun, hnotes⟩
  · exact List.forall_mem_singleton.mpr ⟨nofun, nofun, nofun, fun _ => hsimple rfl, hnotes⟩

theorem tidy_noted {contents : List Content} {notes : List String} {depth : Nat}
    (h : ∀ content ∈ contents, Tidy isCode isNote isBlock ⟨depth, content, []⟩ ∧
      Tidy isCode isNote isBlock ⟨depth, content, notes⟩) :
    ∀ line ∈ linesIn depth (noted notes contents), Tidy isCode isNote isBlock line := by
  induction contents with
  | nil => exact List.forall_mem_nil _
  | cons content contents ih =>
    obtain ⟨⟨hplain, hnoted⟩, hcontents⟩ := List.forall_mem_cons.mp h
    cases contents with
    | nil => exact List.forall_mem_singleton.mpr hnoted
    | cons next contents => exact List.forall_mem_cons.mpr ⟨hplain, ih hcontents⟩

theorem notes_noteBefore {stmts : List Stmt}
    (h : ∀ stmt ∈ triviaIn stmts, Commented isNote isBlock stmt) :
    Notes isNote (noteBefore stmts) := by
  unfold noteBefore
  split
  · exact ⟨le_refl 1, List.forall_mem_singleton.mpr (h _ List.mem_cons_self)⟩
  · exact .nil

theorem tidy_block {head : String} {notes : List String} {body : List Piece} {closes : Bool}
    {depth : Nat} (hhead : isCode head) (hnotes : Notes isNote notes) (hclose : isCode "\x7d")
    (hbody : ∀ line ∈ linesIn (depth + 1) body, Tidy isCode isNote isBlock line) :
    ∀ line ∈ (Piece.block head notes body closes).lines depth, Tidy isCode isNote isBlock line := by
  refine List.forall_mem_cons.mpr ⟨tidy_code hhead hnotes, List.forall_mem_append.mpr ⟨hbody, ?_⟩⟩
  cases closes with
  | false => exact List.forall_mem_nil _
  | true => exact List.forall_mem_singleton.mpr (tidy_code hclose .nil)

mutual

/-- The lines of a statement are tidy if its code and its comments are right. -/
theorem outline_tidy (hclose : isCode "\x7d") (chained : Bool) {notes : List String} {stmt : Stmt}
    (h : stmt.Noted) (hcode : ∀ text, CodeOf style stmt text → isCode text)
    (hcomments : ∀ comment ∈ stmt.trivia, Commented isNote isBlock comment)
    (hnotes : Notes isNote notes) (hsimple : stmt.isSimple = false → notes = [])
    {pieces : List Piece} (depth : Nat)
    (hpieces : outline style (openingOf chained) notes stmt = .ok pieces) :
    ∀ line ∈ linesIn depth pieces, Tidy isCode isNote isBlock line := by
  have hinner : ∀ inner ∈ stmt.inner, ∀ text, CodeOf style inner text → isCode text :=
    fun inner hmem text h => hcode text (.inner hmem h)
  cases stmt with
  | function line head signature hoisted body =>
    unfold outline at hpieces
    cases signature with
    | none => cases hpieces
    | some signature =>
      obtain ⟨header, hheader, hpieces⟩ := Outcome.bind_eq_ok.mp hpieces
      obtain ⟨names, hnames, hpieces⟩ := Outcome.bind_eq_ok.mp hpieces
      obtain ⟨inner, hinner', hpieces⟩ := Outcome.bind_eq_ok.mp hpieces
      cases hpieces
      have hdeclared : ∀ content ∈ names.map Content.code,
          Tidy isCode isNote isBlock ⟨depth + 1, content, []⟩ := by
        intro content hmem
        obtain ⟨text, htext, rfl⟩ := List.mem_map.mp hmem
        exact tidy_code (hcode text (.declaration hnames htext)) .nil
      have hbody := outlineAll_tidy hclose h.function_body hinner hcomments (depth + 1) hinner'
      rw [linesIn, linesIn, List.append_nil]
      refine tidy_block (hcode header (.header hheader)) (notes_noteBefore hcomments) hclose ?_
      rw [linesIn_append]
      exact List.forall_mem_append.mpr
        ⟨tidy_noted fun content hmem => ⟨hdeclared content hmem, hdeclared content hmem⟩, hbody⟩
  | conditional line condition thenBody elseBody =>
    obtain ⟨hthen, helse⟩ := h.conditional_bodies
    obtain ⟨hthenCode, helseCode⟩ := List.forall_mem_append.mp hinner
    obtain ⟨hthenComments, helseComments⟩ := List.forall_mem_append.mp hcomments
    rw [outline] at hpieces
    obtain ⟨text, htext, hpieces⟩ := Outcome.bind_eq_ok.mp hpieces
    obtain ⟨inner, hinner', hpieces⟩ := Outcome.bind_eq_ok.mp hpieces
    have hbranch : ∀ closes, ∀ line ∈ (Piece.block (openingOf chained ++ "if (" ++ text ++ ") \x7b")
        (noteBefore thenBody)
        inner closes).lines depth, Tidy isCode isNote isBlock line := fun closes =>
      tidy_block (hcode _ (.branch chained htext)) (notes_noteBefore hthenComments) hclose
        (outlineAll_tidy hclose hthen hthenCode hthenComments (depth + 1) hinner')
    split at hpieces
    · next hchain =>
      obtain ⟨chain, hchain', hpieces⟩ := Outcome.bind_eq_ok.mp hpieces
      cases hpieces
      obtain ⟨stmt, rfl, hstmt⟩ := exists_of_isChain hchain
      rw [outlineAll_chain hstmt] at hchain'
      have hnoted : stmt.Noted := by
        cases helse with
        | cons hnoted _ => exact hnoted
        | note _ => cases hstmt
      have hnext := outline_tidy hclose true hnoted (helseCode stmt List.mem_cons_self)
        (List.append_nil stmt.trivia ▸ helseComments) .nil (fun _ => rfl) depth hchain'
      rw [linesIn]
      exact List.forall_mem_append.mpr ⟨hbranch false, hnext⟩
    split at hpieces
    · cases hpieces
      rw [linesIn, linesIn, List.append_nil]
      exact hbranch true
    · obtain ⟨other, hother, hpieces⟩ := Outcome.bind_eq_ok.mp hpieces
      cases hpieces
      have hlines := outlineAll_tidy hclose helse helseCode helseComments (depth + 1) hother
      rw [linesIn, linesIn, linesIn, List.append_nil]
      exact List.forall_mem_append.mpr
        ⟨hbranch false, tidy_block (hcode _ .other) (notes_noteBefore helseComments) hclose hlines⟩
  | loop line var bounds binding body =>
    rw [outline] at hpieces
    obtain ⟨header, hheader, hpieces⟩ := Outcome.bind_eq_ok.mp hpieces
    obtain ⟨inner, hinner', hpieces⟩ := Outcome.bind_eq_ok.mp hpieces
    cases hpieces
    rw [linesIn, linesIn, List.append_nil]
    exact tidy_block (hcode header (.loop hheader)) (notes_noteBefore hcomments) hclose
      (outlineAll_tidy hclose h.loop_body hinner hcomments (depth + 1) hinner')
  | _ =>
    rw [outline_contents rfl] at hpieces
    obtain ⟨lines, hlines, rfl⟩ := Outcome.map_eq_ok.mp hpieces
    have hcomment := commented_of_trivia hcomments
    refine tidy_noted fun content hmem => ⟨?_, ?_⟩
    · exact tidy_contents hlines hcode hcomment .nil (fun _ => rfl) depth content hmem
    · exact tidy_contents hlines hcode hcomment hnotes hsimple depth content hmem
termination_by sizeOf stmt
decreasing_by
  all_goals
    subst_vars
    simp only [List.cons.sizeOf_spec, Stmt.function.sizeOf_spec, Stmt.conditional.sizeOf_spec,
      Stmt.loop.sizeOf_spec]
    omega

theorem outlineAll_tidy (hclose : isCode "\x7d") {noted taken : Bool} {stmts : List Stmt}
    (h : NotedAll noted stmts)
    (hcode : ∀ stmt ∈ stmts, ∀ text, CodeOf style stmt text → isCode text)
    (hcomments : ∀ comment ∈ triviaIn stmts, Commented isNote isBlock comment) {pieces : List Piece}
    (depth : Nat) (hpieces : outlineAll style "" taken stmts = .ok pieces) :
    ∀ line ∈ linesIn depth pieces, Tidy isCode isNote isBlock line := by
  cases stmts with
  | nil =>
    cases hpieces
    exact List.forall_mem_nil _
  | cons stmt stmts =>
    obtain ⟨hstmtCode, hrestCode⟩ := List.forall_mem_cons.mp hcode
    obtain ⟨hstmtComments, hrestComments⟩ := List.forall_mem_append.mp hcomments
    cases h with
    | @note line text _ hstmts =>
      cases taken with
      | true =>
        rw [outlineAll] at hpieces
        exact outlineAll_tidy hclose hstmts hrestCode hrestComments depth hpieces
      | false =>
        rw [outlineAll, noteBefore_eq hstmts] at hpieces
        obtain ⟨first, hfirst, hpieces⟩ := Outcome.bind_eq_ok.mp hpieces
        obtain ⟨more, hmore, hpieces⟩ := Outcome.bind_eq_ok.mp hpieces
        cases hfirst
        cases hpieces
        have hcontents : contents style (.comment line .trailing text) = .ok [.comment text] := rfl
        have hcomment : Tidy isCode isNote isBlock ⟨depth, .comment text, []⟩ :=
          tidy_contents hcontents hstmtCode (hstmtComments _ List.mem_cons_self) .nil
          (fun _ => rfl) depth _
            List.mem_cons_self
        rw [linesIn_append]
        exact List.forall_mem_append.mpr ⟨List.forall_mem_singleton.mpr hcomment,
          outlineAll_tidy hclose hstmts hrestCode hrestComments depth hmore⟩
    | cons hstmt hstmts =>
      rw [outlineAll_cons (noteBefore_cons hstmt)] at hpieces
      obtain ⟨first, hfirst, hpieces⟩ := Outcome.bind_eq_ok.mp hpieces
      obtain ⟨more, hmore, hpieces⟩ := Outcome.bind_eq_ok.mp hpieces
      cases hpieces
      have hsimple : stmt.isSimple = false → noteBefore stmts = [] := by
        intro hsimple
        rw [hsimple] at hstmts
        exact noteBefore_eq hstmts
      have hlines := outline_tidy hclose false hstmt hstmtCode hstmtComments
          (notes_noteBefore hrestComments) hsimple
        depth hfirst
      rw [linesIn_append]
      exact List.forall_mem_append.mpr
        ⟨hlines, outlineAll_tidy hclose hstmts hrestCode hrestComments depth hmore⟩
termination_by sizeOf stmts
decreasing_by
  all_goals
    subst_vars
    simp only [List.cons.sizeOf_spec]
    omega

end

/-- The lines of a program are tidy if its code and its comments are right. -/
theorem outlineOf_tidy {p : Program} (hheader : NotedAll false p.header)
    (hstmts : NotedAll false p.statements) (hclose : isCode "\x7d")
    (hcode : ∀ stmt ∈ p.header ++ p.statements, ∀ text, CodeOf style stmt text → isCode text)
    (hcomments : ∀ comment ∈ triviaIn (p.header ++ p.statements), Commented isNote isBlock comment)
    {pieces : List Piece} (h : outlineOf style p = .ok pieces) :
    ∀ line ∈ linesIn 0 pieces, Tidy isCode isNote isBlock line := by
  obtain ⟨hheaderCode, hstmtsCode⟩ := List.forall_mem_append.mp hcode
  rw [triviaIn_append] at hcomments
  obtain ⟨hheaderComments, hstmtsComments⟩ := List.forall_mem_append.mp hcomments
  obtain ⟨header, hheader', h⟩ := Outcome.bind_eq_ok.mp h
  obtain ⟨statements, hstmts', h⟩ := Outcome.bind_eq_ok.mp h
  cases h
  rw [linesIn_append]
  exact List.forall_mem_append.mpr
    ⟨outlineAll_tidy hclose hheader hheaderCode hheaderComments 0 hheader',
      outlineAll_tidy hclose hstmts hstmtsCode hstmtsComments 0 hstmts'⟩

end Sketch

end Sketchwright
