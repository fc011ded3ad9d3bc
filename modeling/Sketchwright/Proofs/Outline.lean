import Sketchwright.Proofs.Notices
import Sketchwright.Sketch.Emit

/-! The blocks of a sketch. The lines on a page are those of an outline, in which each function,
branch and loop of the program is a block with the lines of its body in it. -/

namespace Sketchwright.Sketch

/-- A part of a sketch: a line, or a block with the line that opens it. A block closes unless it is
followed by the next one of its chain. -/
inductive Piece where
  | line (content : Content) (notes : List String)
  | block (head : String) (notes : List String) (body : List Piece) (closes : Bool)

def closing (depth : Nat) (closes : Bool) : List Line :=
  if closes then [⟨depth, .code "\x7d", []⟩] else []

mutual

def Piece.lines (depth : Nat) : Piece → List Line
  | .line content notes => [⟨depth, content, notes⟩]
  | .block head notes body closes =>
    ⟨depth, .code head, notes⟩ :: (linesIn (depth + 1) body ++ closing depth closes)

def linesIn (depth : Nat) : List Piece → List Line
  | [] => []
  | piece :: pieces => piece.lines depth ++ linesIn depth pieces

end

/-- Lines with these contents, the last of which ends with notes. -/
def noted (notes : List String) : List Content → List Piece
  | [] => []
  | [content] => [.line content notes]
  | content :: contents => .line content [] :: noted notes contents

/-- The comment that goes to the end of the line before some statements. -/
def noteBefore : List Stmt → List String
  | .comment _ .trailing text :: _ => [text]
  | _ => []

/-- The lines of a statement that has no block. -/
def contents (style : Style) : Stmt → Writing (List Content)
  | .assign line target value _ binding =>
    do return [.code (← assignment style line target value binding)]
  | .expr line value => do return (← exprLines style line value).map .code
  | .give line (some value) => do
    let text ← expression style line value
    return [.code ("return " ++ text ++ ";")]
  | .give _ none => return [.code "return;"]
  | .comment _ .block text => return [.block text]
  | .comment _ _ text => return [.comment text]
  | .blank _ => return [.empty]
  | .stop _ => return [.code "break;"]
  | .skip _ => return [.code "continue;"]
  | _ => return []

mutual

/-- The outline of a statement, when `notes` are the comments at the end of its last line. -/
def outline (style : Style) (opening : String) (notes : List String) : Stmt → Writing (List Piece)
  | .function line head signature hoisted body => do
    match signature with
    | none => throw (.internal line (.signatureMissing head.name))
    | some signature =>
      let header ← functionHeader style line head signature
      let names ← declarations style line hoisted
      let inner ← outlineAll style "" true body
      return [.block header (noteBefore body) (noted [] (names.map .code) ++ inner) true]
  | .conditional line condition thenBody elseBody => do
    let text ← expression style line condition
    let inner ← outlineAll style "" true thenBody
    let branch := Piece.block (opening ++ "if (" ++ text ++ ") \x7b") (noteBefore thenBody) inner
    if isChain elseBody then return branch false :: (← outlineAll style "\x7d else " true elseBody)
    else if elseBody.isEmpty then return [branch true]
    else
      let other ← outlineAll style "" true elseBody
      return [branch false, .block "\x7d else \x7b" (noteBefore elseBody) other true]
  | .loop line var bounds binding body => do
    let header ← loopHeader style line var bounds binding
    let inner ← outlineAll style "" true body
    return [.block header (noteBefore body) inner true]
  | stmt => do return noted notes (← contents style stmt)

/-- The outline of some statements. A comment at the end of a line stands in it where the line is,
if there is one: `taken` says so of a comment that comes first. -/
def outlineAll (style : Style) (opening : String) (taken : Bool) : List Stmt → Writing (List Piece)
  | [] => return []
  | stmt :: stmts => do
    if taken && !(noteBefore (stmt :: stmts)).isEmpty then outlineAll style opening true stmts
    else
      let pieces ← outline style opening (noteBefore stmts) stmt
      return pieces ++ (← outlineAll style opening (!pieces.isEmpty) stmts)

end

variable {style : Style} {depth : Nat} {opening : String} {notes : List String}

/-- A statement has lines of code, unless it is a comment or a blank line. -/
theorem contents_cases {stmt : Stmt} {lines : List Content} (h : contents style stmt = .ok lines) :
    (stmt.isTrivia = false ∧ ∃ texts : List String, lines = texts.map Content.code) ∨
      (∃ line text, stmt = .comment line .block text ∧ lines = [.block text]) ∨
      (∃ line commentStyle text, commentStyle ≠ .block ∧ stmt = .comment line commentStyle text ∧
        lines = [.comment text]) ∨
      ∃ line, stmt = .blank line ∧ lines = [.empty] := by
  cases stmt with
  | assign =>
    obtain ⟨text, -, h⟩ := Outcome.bind_eq_ok.mp h
    cases h
    exact .inl ⟨rfl, [text], rfl⟩
  | expr =>
    obtain ⟨texts, -, h⟩ := Outcome.bind_eq_ok.mp h
    cases h
    exact .inl ⟨rfl, texts, rfl⟩
  | give line value =>
    cases value with
    | none =>
      cases h
      exact .inl ⟨rfl, ["return;"], rfl⟩
    | some value =>
      obtain ⟨text, -, h⟩ := Outcome.bind_eq_ok.mp h
      cases h
      exact .inl ⟨rfl, ["return " ++ text ++ ";"], rfl⟩
  | comment line commentStyle text =>
    cases commentStyle with
    | block =>
      cases h
      exact .inr (.inl ⟨line, text, rfl, rfl⟩)
    | line | trailing =>
      cases h
      refine .inr (.inr (.inl ⟨line, _, text, ?_, rfl, rfl⟩))
      exact nofun
  | blank line =>
    cases h
    exact .inr (.inr (.inr ⟨line, rfl, rfl⟩))
  | stop =>
    cases h
    exact .inl ⟨rfl, ["break;"], rfl⟩
  | skip =>
    cases h
    exact .inl ⟨rfl, ["continue;"], rfl⟩
  | _ =>
    cases h
    exact .inl ⟨rfl, [], rfl⟩

/-- The code of a statement that has no block. -/
inductive CodeLine (style : Style) : Stmt → String → Prop
  | assign {line target value declared binding text}
    (h : assignment style line target value binding = .ok text) :
      CodeLine style (.assign line target value declared binding) text
  | expr {line value texts text} (h : exprLines style line value = .ok texts)
    (hmem : text ∈ texts) :
      CodeLine style (.expr line value) text
  | give {line value text} (h : expression style line value = .ok text) :
      CodeLine style (.give line (some value)) ("return " ++ text ++ ";")
  | bare {line} : CodeLine style (.give line none) "return;"
  | stop {line} : CodeLine style (.stop line) "break;"
  | skip {line} : CodeLine style (.skip line) "continue;"

theorem contents_code {stmt : Stmt} {lines : List Content} (h : contents style stmt = .ok lines)
    {text : String} (hmem : .code text ∈ lines) : CodeLine style stmt text := by
  have hsingle : ∀ {code}, CodeLine style stmt code → .code text ∈ [Content.code code] →
      CodeLine style stmt text := by
    intro code hcode hmem
    obtain rfl := Content.code.inj (List.mem_singleton.mp hmem)
    exact hcode
  cases stmt with
  | assign =>
    obtain ⟨code, hcode, h⟩ := Outcome.bind_eq_ok.mp h
    cases h
    exact hsingle (.assign hcode) hmem
  | expr =>
    obtain ⟨texts, htexts, h⟩ := Outcome.bind_eq_ok.mp h
    cases h
    obtain ⟨code, hcode, heq⟩ := List.mem_map.mp hmem
    obtain rfl := Content.code.inj heq
    exact .expr htexts hcode
  | give line value =>
    cases value with
    | none =>
      cases h
      exact hsingle .bare hmem
    | some value =>
      obtain ⟨code, hcode, h⟩ := Outcome.bind_eq_ok.mp h
      cases h
      exact hsingle (.give hcode) hmem
  | comment line commentStyle text =>
    cases commentStyle <;>
    · cases h
      cases List.mem_singleton.mp hmem
  | blank =>
    cases h
    cases List.mem_singleton.mp hmem
  | stop =>
    cases h
    exact hsingle .stop hmem
  | skip =>
    cases h
    exact hsingle .skip hmem
  | _ =>
    cases h
    cases hmem

theorem linesIn_append (pieces more : List Piece) :
    linesIn depth (pieces ++ more) = linesIn depth pieces ++ linesIn depth more := by
  induction pieces with
  | nil => rfl
  | cons piece pieces ih => rw [List.cons_append, linesIn, linesIn, ih, List.append_assoc]

theorem linesIn_isEmpty (pieces : List Piece) :
    (linesIn depth pieces).isEmpty = pieces.isEmpty := by
  cases pieces with
  | nil => rfl
  | cons piece pieces => cases piece <;> rfl

theorem noted_cons (content : Content) (contents : List Content) :
    noted [] (content :: contents) = .line content [] :: noted [] contents := by
  cases contents <;> rfl

theorem isEmpty_noted (contents : List Content) :
    (noted notes contents).isEmpty = contents.isEmpty := by
  cases contents with
  | nil => rfl
  | cons content contents => cases contents <;> rfl

namespace Page

/-- The page with more lines on it. -/
def write (page : Page) (lines : List Line) : Page := lines.reverse ++ page

/-- Adds comments to the end of the latest line. -/
def addNotes (page : Page) (texts : List String) : Page := texts.foldl note page

variable {page : Page}

@[simp] theorem write_nil : page.write [] = page := rfl

@[simp] theorem write_append {lines more : List Line} :
    page.write (lines ++ more) = (page.write lines).write more := by
  simp [write]

theorem write_single {line : Line} : page.write [line] = line :: page := rfl

theorem length_write {lines : List Line} :
    (page.write lines).length = lines.length + page.length := by
  simp [write]

theorem pushCodes_eq (texts : List String) :
    page.pushCodes depth texts = page.write (linesIn depth (noted [] (texts.map .code))) := by
  unfold pushCodes
  induction texts generalizing page with
  | nil => rfl
  | cons text texts ih =>
    rw [List.foldl_cons, ih, List.map_cons, noted_cons, linesIn, write_append]
    rfl

/-- A comment after lines without blocks goes to the last one of them. -/
theorem note_write {lines : List Content} (h : lines ≠ []) (text : String) :
    (page.write (linesIn depth (noted [] lines))).note text =
      page.write (linesIn depth (noted [text] lines)) := by
  induction lines generalizing page with
  | nil => exact absurd rfl h
  | cons content lines ih =>
    cases lines with
    | nil => rfl
    | cons next lines =>
      have hcons : noted [text] (content :: next :: lines) =
          .line content [] :: noted [text] (next :: lines) := rfl
      rw [noted_cons, hcons, linesIn, linesIn, write_append, write_append]
      exact ih (List.cons_ne_nil _ _)

theorem longer_write {lines : List Line} :
    decide (page.length < (page.write lines).length) = !lines.isEmpty := by
  cases lines with
  | nil => simp
  | cons line lines => simp [length_write]

theorem write_ne_nil {lines : List Line} (h : page ≠ []) : page.write lines ≠ [] :=
  List.append_ne_nil_of_right_ne_nil _ h

theorem write_ne_nil_of_lines {lines : List Line} (h : lines.isEmpty = false) :
    page.write lines ≠ [] := by
  cases lines with
  | nil => cases h
  | cons line lines => simp [write]

/-- The comment before some statements goes to the last one of the lines
before it, if there is one. -/
theorem addNotes_write {lines : List Content} (h : lines.isEmpty = false) (stmts : List Stmt) :
    (page.write (linesIn depth (noted [] lines))).addNotes (noteBefore stmts) =
      page.write (linesIn depth (noted (noteBefore stmts) lines)) := by
  unfold noteBefore
  split
  · exact note_write (List.isEmpty_eq_false_iff.mp h) _
  · rfl

end Page

theorem emitStmt_contents {stmt : Stmt} (h : stmt.hasBody = false) (page : Page) :
    emitStmt style depth opening stmt page =
      (fun lines => page.write (linesIn depth (noted [] lines))) <$> contents style stmt := by
  cases stmt with
  | function | conditional | loop => cases h
  | expr line value => simp [emitStmt, contents, Page.pushCodes_eq]
  | give line value =>
    cases value <;> simp [emitStmt, contents, noted, linesIn, Piece.lines, Page.write_single,
      Page.pushCode, Page.push]
  | comment line commentStyle text => cases commentStyle <;> rfl
  | assign =>
    simp [emitStmt, contents, noted, linesIn, Piece.lines, Page.write_single,
      Page.pushCode, Page.push]
  | blank | stop | skip | global | pass => rfl

theorem outline_contents {stmt : Stmt} (h : stmt.hasBody = false) :
    outline style opening notes stmt = noted notes <$> contents style stmt := by
  cases stmt with
  | function | conditional | loop => cases h
  | _ => rfl

theorem noteBefore_cons {stmt : Stmt} {stmts : List Stmt} (h : stmt.Noted) :
    noteBefore (stmt :: stmts) = [] := by
  cases h with
  | simple hsimple =>
    unfold noteBefore
    split
    · next heq =>
      cases heq
      cases hsimple
    · rfl
  | _ => rfl

theorem noteBefore_eq {stmts : List Stmt} (h : NotedAll false stmts) : noteBefore stmts = [] := by
  cases h with
  | nil => rfl
  | cons hstmt _ => exact noteBefore_cons hstmt

theorem noteBefore_of_chain {stmts : List Stmt} (h : isChain stmts = true) :
    noteBefore stmts = [] := by
  unfold isChain at h
  split at h
  · rfl
  · cases h

theorem emitBlock_cons {stmt : Stmt} {stmts : List Stmt} {joins : Bool} {page : Page}
    (h : noteBefore (stmt :: stmts) = []) :
    emitBlock style depth opening joins (stmt :: stmts) page = (do
      let next ← emitStmt style depth opening stmt page
      emitBlock style depth opening (page.length < next.length) stmts next) := by
  unfold noteBefore at h
  split at h
  · cases h
  · next hnote =>
    rw [emitBlock]
    exact fun line text heq => hnote line text stmts (heq ▸ rfl)

theorem outlineAll_cons {stmt : Stmt} {stmts : List Stmt} {taken : Bool}
    (h : noteBefore (stmt :: stmts) = []) :
    outlineAll style opening taken (stmt :: stmts) = (do
      let pieces ← outline style opening (noteBefore stmts) stmt
      return pieces ++ (← outlineAll style opening (!pieces.isEmpty) stmts)) := by
  rw [outlineAll, h]
  simp

theorem addNotes_pushCode {head : String} {page : Page} :
    (page.pushCode depth head).addNotes notes = ⟨depth, .code head, notes⟩ :: page := by
  have hadd : ∀ before : List String, Page.addNotes (⟨depth, .code head, before⟩ :: page) notes =
      ⟨depth, .code head, before ++ notes⟩ :: page := by
    unfold Page.addNotes
    induction notes with
    | nil => simp
    | cons text notes ih =>
      intro before
      rw [List.foldl_cons, Page.note, ih, List.append_assoc, List.singleton_append]
  exact hadd []

/-- The lines of a block are its head with notes, the lines of its body and its end. -/
theorem write_block {head : String} {body more : List Piece} {closes : Bool} {page : Page} :
    page.write (linesIn depth (.block head notes body closes :: more)) =
      ((((page.pushCode depth head).addNotes notes).write (linesIn (depth + 1) body)).write
        (closing depth closes)).write
        (linesIn depth more) := by
  rw [addNotes_pushCode, ← Page.write_single, linesIn, Piece.lines, ← List.singleton_append,
    Page.write_append, Page.write_append, Page.write_append]

mutual

theorem emitStmt_outline {stmt : Stmt} (h : stmt.Noted) (depth : Nat) (opening : String)
    (page : Page) :
    emitStmt style depth opening stmt page =
      (fun pieces => page.write (linesIn depth pieces)) <$> outline style opening [] stmt := by
  have hhead : ∀ {head : String} {page : Page}, page.pushCode depth head ≠ [] :=
    List.cons_ne_nil _ _
  cases stmt with
  | function line head signature hoisted body =>
    have hbody := h.function_body
    unfold emitStmt outline
    cases signature with
    | none => rfl
    | some signature =>
      dsimp only
      rw [map_bind]
      refine bind_congr fun header => ?_
      rw [map_bind]
      refine bind_congr fun names => ?_
      have hlines : ∀ inner, page.write (linesIn depth [.block header (noteBefore body)
          (noted [] (names.map .code) ++ inner) true]) = ((((page.pushCode depth header).addNotes
            (noteBefore body)).pushCodes (depth + 1) names).write (linesIn
            (depth + 1) inner)).pushCode depth "\x7d" := by
        intro inner
        rw [write_block, linesIn_append, Page.write_append, ← Page.pushCodes_eq]
        rfl
      simp only [map_bind, map_pure, hlines]
      split
      · next line' text rest =>
        have hrest : NotedAll false rest := by
          cases hbody with
          | note hrest => exact hrest
          | cons hnote _ => exact nomatch hnote
        rw [emitBlock_outline hrest (depth + 1) "" true _ nofun, bind_map_left, noteBefore_eq hrest]
        rfl
      · next hnote =>
        have hfirst : NotedAll false body := by
          cases hbody with
          | nil => exact .nil
          | note => exact absurd rfl (hnote _ _ _)
          | cons hstmt hstmts => exact .cons hstmt hstmts
        rw [emitBlock_outline hfirst (depth + 1) "" true _ nofun, bind_map_left,
          noteBefore_eq hfirst]
        rfl
  | conditional line condition thenBody elseBody =>
    obtain ⟨hthen, helse⟩ := h.conditional_bodies
    rw [emitStmt, outline, map_bind]
    refine bind_congr fun text => ?_
    dsimp only
    rw [emitBlock_outline hthen (depth + 1) "" true _ fun _ _ => hhead, bind_map_left, map_bind]
    refine bind_congr fun inner => ?_
    rw [if_pos rfl]
    split
    · next hchain =>
      have hpage : ((page.pushCode depth (opening ++ "if (" ++ text ++ ") \x7b")).addNotes
          (noteBefore thenBody)).write
          (linesIn (depth + 1) inner) ≠ [] := by
        rw [addNotes_pushCode]
        exact Page.write_ne_nil (List.cons_ne_nil _ _)
      rw [emitBlock_outline helse depth "\x7d else " true _ fun _ _ => hpage,
        noteBefore_of_chain hchain, map_bind, map_eq_pure_bind]
      refine bind_congr fun chain => ?_
      rw [if_pos rfl, map_pure, write_block]
      rfl
    split
    · rw [map_pure, write_block]
      rfl
    · rw [emitBlock_outline helse (depth + 1) "" true _ fun _ _ => hhead, bind_map_left, map_bind]
      refine bind_congr fun other => ?_
      rw [if_pos rfl, map_pure, write_block, write_block]
      rfl
  | loop line var bounds binding body =>
    have hbody := h.loop_body
    rw [emitStmt, outline, map_bind]
    refine bind_congr fun header => ?_
    rw [emitBlock_outline hbody (depth + 1) "" true _ fun _ _ => hhead, bind_map_left, map_bind]
    refine bind_congr fun inner => ?_
    rw [if_pos rfl, map_pure, write_block]
    rfl
  | _ =>
    rw [emitStmt_contents rfl, outline_contents rfl, Functor.map_map]
termination_by sizeOf stmt
decreasing_by
  all_goals
    subst_vars
    simp only [List.cons.sizeOf_spec, Stmt.function.sizeOf_spec, Stmt.conditional.sizeOf_spec,
      Stmt.loop.sizeOf_spec]
    omega

theorem emitBlock_outline {noted : Bool} {stmts : List Stmt} (h : NotedAll noted stmts)
    (depth : Nat) (opening : String) (joins : Bool) (page : Page)
    (hpage : joins = true → noted = true → page ≠ []) :
    emitBlock style depth opening joins stmts page =
      (fun pieces => (if joins then page.addNotes (noteBefore stmts) else page).write
        (linesIn depth pieces)) <$>
        outlineAll style opening joins stmts := by
  cases stmts with
  | nil =>
    rw [emitBlock, outlineAll, map_pure]
    cases joins <;> rfl
  | cons stmt stmts =>
    cases h with
    | @note line text _ hstmts =>
      cases joins with
      | true =>
        obtain ⟨latest, page, rfl⟩ := List.exists_cons_of_ne_nil (hpage rfl rfl)
        rw [emitBlock, outlineAll]
        exact (emitBlock_outline hstmts depth opening true _ nofun).trans
          (by rw [noteBefore_eq hstmts]; rfl)
      | false =>
        have hline : outlineAll style opening false (.comment line .trailing text :: stmts) =
            (.line (.comment text) [] :: ·) <$> outlineAll style opening true stmts := by
          rw [outlineAll, noteBefore_eq hstmts, map_eq_pure_bind]
          rfl
        rw [emitBlock, hline, Functor.map_map]
        refine (emitBlock_outline hstmts depth opening true _ nofun).trans
          (congrArg (· <$> _) (funext fun pieces => ?_))
        rw [noteBefore_eq hstmts, linesIn, Page.write_append]
        rfl
    | cons hstmt hstmts =>
      have hnext : ∀ pieces, emitBlock style depth opening
          (page.length < (page.write (linesIn depth pieces)).length) stmts
          (page.write (linesIn depth pieces)) = (fun more => (if !pieces.isEmpty then
            (page.write (linesIn depth pieces)).addNotes (noteBefore stmts)
              else page.write (linesIn depth pieces)).write
              (linesIn depth more)) <$> outlineAll style opening (!pieces.isEmpty) stmts := by
        intro pieces
        rw [Page.longer_write, linesIn_isEmpty]
        refine emitBlock_outline hstmts depth opening _ _ fun hwrites _ =>
          Page.write_ne_nil_of_lines ?_
        rw [linesIn_isEmpty]
        exact Bool.not_eq_true' _ |>.mp hwrites
      have hnone : noteBefore (stmt :: stmts) = [] := noteBefore_cons hstmt
      have hpage' : (if joins = true then page.addNotes [] else page) = page := ite_self _
      rw [emitBlock_cons hnone, outlineAll_cons hnone, hnone, hpage',
        emitStmt_outline hstmt depth opening page, bind_map_left, map_bind]
      simp only [hnext, map_bind, map_pure]
      cases hsimple : stmt.isSimple with
      | false =>
        rw [hsimple] at hstmts
        simp only [noteBefore_eq hstmts, Page.addNotes, List.foldl_nil, ite_self, map_eq_pure_bind,
          linesIn_append, Page.write_append]
      | true =>
        have hbody : stmt.hasBody = false := by
          cases stmt <;> first | rfl | cases hsimple
        rw [outline_contents hbody, outline_contents hbody, bind_map_left, bind_map_left]
        refine bind_congr fun contents => ?_
        simp only [isEmpty_noted, map_eq_pure_bind, linesIn_append, Page.write_append]
        cases hempty : contents.isEmpty with
        | true =>
          obtain rfl := List.isEmpty_iff.mp hempty
          rfl
        | false => simp only [Bool.not_false, if_true, Page.addNotes_write hempty]
termination_by sizeOf stmts
decreasing_by
  all_goals
    subst_vars
    simp only [List.cons.sizeOf_spec]
    omega

end

/-- The outline of a program. -/
def outlineOf (style : Style) (p : Program) : Writing (List Piece) := do
  let header ← outlineAll style "" true p.header
  return header ++ (← outlineAll style "" true p.statements)

/-- The text of a sketch is that of the lines of its outline. -/
theorem generate_outline {p : Program} (hheader : NotedAll false p.header)
    (hstmts : NotedAll false p.statements) (width : Nat) :
    generate style width p =
      (fun pieces => String.join ((linesIn 0 pieces).map (Line.render width))) <$>
        outlineOf style p := by
  unfold generate page outlineOf
  rw [emitBlock_outline hheader 0 "" true [] nofun, bind_map_left, bind_assoc, map_bind]
  refine bind_congr fun header => ?_
  rw [emitBlock_outline hstmts 0 "" true _ nofun, bind_map_left, map_bind]
  refine bind_congr fun statements => ?_
  have hlines : ((Page.write [] (linesIn 0 header)).write (linesIn 0 statements)).lines =
      linesIn 0 (header ++ statements) := by
    rw [← Page.write_append, ← linesIn_append]
    simp [Page.lines, Page.write]
  rw [noteBefore_eq hheader, noteBefore_eq hstmts, map_pure, ← hlines]
  rfl

end Sketchwright.Sketch
