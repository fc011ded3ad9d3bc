import Sketchwright.Proofs.Hygiene

/-! The blocks of a sketch, read from its text. The reader knows nothing of the program: it leaves
out comments and finds the blocks by the braces at the ends of the lines of code, each of which has
to stand as far in as there are blocks around it. -/

namespace Sketchwright

namespace Sketch

/-- A part of a text: a line of code, or a block with the line that opens it. A block closes unless
it is followed by the next one of its chain. -/
inductive Block where
  | line (text : String)
  | block (head : String) (body : List Block) (closes : Bool)

section Reading

def blank : Region × Char := (.code, ' ')

/-- What is left without comments. -/
def kept (marks : Marks) : Marks := marks.filter fun mark => mark.1 == .code || mark.1 == .literal

/-- The characters of a text that are not in comments. -/
def codeMarks (text : String) : Marks := kept (scan .code (splice text.toList))

/-- A line of code: the blanks before it, and its characters from the first to the last that is not
a blank. -/
structure CodeRow where
  blanks : Nat
  marks : Marks

/-- The code of a line, if it has some. -/
def codeRow? (row : Marks) : Option CodeRow :=
  let code := (row.dropWhile (· == blank)).rdropWhile (· == blank)
  if code.isEmpty then none else some ⟨(row.takeWhile (· == blank)).length, code⟩

/-- The lines of code of a text. They end at the line ends outside comments and literals. -/
def codeRows (text : String) : List CodeRow :=
  ((codeMarks text).splitOn (.code, '\n')).filterMap codeRow?

def textOfMarks (marks : Marks) : String := String.ofList (marks.map Prod.snd)

/-- What a line does to the blocks that are open. -/
inductive Turn where
  | none
  | opens
  | closes
  /-- Closes a block and opens the next one of its chain. -/
  | goesOn

/-- The braces that count stand at the ends of a line, outside literals. -/
def turnOf (marks : Marks) : Turn :=
  if marks = [(.code, '\x7d')] then .closes
  else if marks.getLast? = some (.code, '\x7b') then
    if marks.head? = some (.code, '\x7d') then .goesOn else .opens
  else .none

/-- A block whose end has not been read yet, and what was read before it. -/
structure OpenBlock where
  before : List Block
  head : String

def OpenBlock.close (block : OpenBlock) (body : List Block) (closes : Bool) : List Block :=
  block.before ++ [.block block.head body closes]

/-- The blocks around a place, the innermost first, and what has been read of that one. -/
structure Reader where
  around : List OpenBlock
  found : List Block

namespace Reader

/-- Reads a line of code. It has to stand as far in as the blocks around it ask for, a line that
ends a block as far as the line that opened it. -/
def step (width : Nat) (reader : Reader) (row : CodeRow) : Option Reader :=
  let text := textOfMarks row.marks
  match turnOf row.marks, reader.around with
  | .none, around =>
    if row.blanks = around.length * width then some ⟨around, reader.found ++ [.line text]⟩ else none
  | .opens, around =>
    if row.blanks = around.length * width then some ⟨⟨reader.found, text⟩ :: around, []⟩ else none
  | .closes, block :: around =>
    if row.blanks = around.length * width then some ⟨around, block.close reader.found true⟩
    else none
  | .goesOn, block :: around =>
    if row.blanks = around.length * width then
      some ⟨⟨block.close reader.found false, text⟩ :: around, []⟩
    else none
  | _, [] => none

def run (width : Nat) (reader : Reader) (rows : List CodeRow) : Option Reader :=
  rows.foldlM (step width) reader

end Reader

/-- The blocks of a text with `width` blanks for each level, if each of them
is opened and closed. -/
def readBlocks (width : Nat) (text : String) : Option (List Block) :=
  match Reader.run width ⟨[], []⟩ (codeRows text) with
  | some ⟨[], found⟩ => some found
  | _ => none

end Reading

section Blocks

/-- Code as it is read: without comments, and with its lines joined. -/
def asRead (text : String) : String := textOfMarks (codeMarks text)

def Content.block? : Content → Option Block
  | .code text => some (.line (asRead text))
  | _ => none

mutual

/-- The blocks of a statement. An else body that is a conditional goes on with the chain: its head
starts with `opening`. -/
def blocks (style : Style) (opening : String) : Stmt → Writing (List Block)
  | .function line head signature hoisted body => do
    match signature with
    | none => throw (.internal line (.signatureMissing head.name))
    | some signature =>
      let header ← functionHeader style line head signature
      let names ← declarations style line hoisted
      let inner ← blocksIn style "" body
      return [.block (asRead header) (names.map (fun name => .line (asRead name)) ++ inner) true]
  | .conditional line condition thenBody elseBody => do
    let text ← expression style line condition
    let inner ← blocksIn style "" thenBody
    let branch := Block.block (asRead (opening ++ "if (" ++ text ++ ") \x7b")) inner
    if isChain elseBody then return branch false :: (← blocksIn style "\x7d else " elseBody)
    else if elseBody.isEmpty then return [branch true]
    else
      let other ← blocksIn style "" elseBody
      return [branch false, .block (asRead "\x7d else \x7b") other true]
  | .loop line var bounds binding body => do
    let header ← loopHeader style line var bounds binding
    let inner ← blocksIn style "" body
    return [.block (asRead header) inner true]
  | stmt => do return (← contents style stmt).filterMap Content.block?

def blocksIn (style : Style) (opening : String) : List Stmt → Writing (List Block)
  | [] => return []
  | stmt :: stmts => do
    let first ← blocks style opening stmt
    let more ← blocksIn style opening stmts
    return first ++ more

end

/-- The blocks of a program. -/
def blocksOf (style : Style) (p : Program) : Writing (List Block) := do
  return (← blocksIn style "" p.header) ++ (← blocksIn style "" p.statements)

mutual

/-- The blocks of a part of an outline. -/
def Piece.blocks : Piece → List Block
  | .line content _ => content.block?.toList
  | .block head _ body closes => [.block (asRead head) (blocksOn body) closes]

def blocksOn : List Piece → List Block
  | [] => []
  | piece :: pieces => piece.blocks ++ blocksOn pieces

end

variable {style : Style} {notes : List String}

theorem blocksOn_append (pieces more : List Piece) :
    blocksOn (pieces ++ more) = blocksOn pieces ++ blocksOn more := by
  induction pieces with
  | nil => rfl
  | cons piece pieces ih => rw [List.cons_append, blocksOn, blocksOn, ih, List.append_assoc]

theorem blocksOn_noted (contents : List Content) :
    blocksOn (noted notes contents) = contents.filterMap Content.block? := by
  induction contents with
  | nil => rfl
  | cons content contents ih =>
    have hcons : blocksOn (noted notes (content :: contents)) =
        content.block?.toList ++ contents.filterMap Content.block? := by
      cases contents with
      | nil => rfl
      | cons next contents => rw [← ih]; rfl
    rw [hcons]
    cases content <;> rfl

theorem blocksOn_codes (texts : List String) :
    blocksOn (noted [] (texts.map .code)) = texts.map fun text => .line (asRead text) := by
  rw [blocksOn_noted, List.filterMap_map]
  exact congrFun List.filterMap_eq_map' texts

theorem exists_of_noteBefore {stmt : Stmt} {stmts : List Stmt}
    (h : (!(noteBefore (stmt :: stmts)).isEmpty) = true) :
    ∃ line text, stmt = .comment line .trailing text := by
  unfold noteBefore at h
  split at h
  · next heq =>
    cases heq
    exact ⟨_, _, rfl⟩
  · cases h

mutual

/-- The outline of a statement has its blocks. -/
theorem outline_blocks {opening : String} {notes : List String} {stmt : Stmt} {pieces : List Piece}
    (h : outline style opening notes stmt = .ok pieces) :
    blocks style opening stmt = .ok (blocksOn pieces) := by
  cases stmt with
  | function line head signature hoisted body =>
    unfold outline at h
    cases signature with
    | none => cases h
    | some signature =>
      obtain ⟨header, hheader, h⟩ := Outcome.bind_eq_ok.mp h
      obtain ⟨names, hnames, h⟩ := Outcome.bind_eq_ok.mp h
      obtain ⟨inner, hinner, h⟩ := Outcome.bind_eq_ok.mp h
      cases h
      refine Outcome.bind_eq_ok.mpr ⟨header, hheader, Outcome.bind_eq_ok.mpr ⟨names, hnames,
        Outcome.bind_eq_ok.mpr ⟨_, outlineAll_blocks hinner, ?_⟩⟩⟩
      rw [blocksOn, Piece.blocks, blocksOn_append, blocksOn_codes]
      rfl
  | conditional line condition thenBody elseBody =>
    rw [outline] at h
    obtain ⟨text, htext, h⟩ := Outcome.bind_eq_ok.mp h
    obtain ⟨inner, hinner, h⟩ := Outcome.bind_eq_ok.mp h
    rw [blocks]
    refine Outcome.bind_eq_ok.mpr ⟨text, htext,
      Outcome.bind_eq_ok.mpr ⟨_, outlineAll_blocks hinner, ?_⟩⟩
    split at h
    · next hchain =>
      obtain ⟨chain, hchain', h⟩ := Outcome.bind_eq_ok.mp h
      cases h
      rw [if_pos hchain, outlineAll_blocks hchain']
      rfl
    · next hchain =>
      rw [if_neg hchain]
      split at h
      · next hempty =>
        cases h
        rw [if_pos hempty]
        rfl
      · next hempty =>
        obtain ⟨other, hother, h⟩ := Outcome.bind_eq_ok.mp h
        cases h
        rw [if_neg hempty, outlineAll_blocks hother]
        rfl
  | loop line var bounds binding body =>
    rw [outline] at h
    obtain ⟨header, hheader, h⟩ := Outcome.bind_eq_ok.mp h
    obtain ⟨inner, hinner, h⟩ := Outcome.bind_eq_ok.mp h
    cases h
    rw [blocks]
    exact Outcome.bind_eq_ok.mpr ⟨header, hheader,
      Outcome.bind_eq_ok.mpr ⟨_, outlineAll_blocks hinner, rfl⟩⟩
  | _ =>
    rw [outline_contents rfl] at h
    obtain ⟨lines, hlines, rfl⟩ := Outcome.map_eq_ok.mp h
    rw [blocksOn_noted]
    exact Outcome.bind_eq_ok.mpr ⟨lines, hlines, rfl⟩

theorem outlineAll_blocks {opening : String} {taken : Bool} {stmts : List Stmt}
    {pieces : List Piece} (h : outlineAll style opening taken stmts = .ok pieces) :
    blocksIn style opening stmts = .ok (blocksOn pieces) := by
  cases stmts with
  | nil =>
    cases h
    rfl
  | cons stmt stmts =>
    rw [outlineAll] at h
    split at h
    · next htaken =>
      obtain ⟨_, _, rfl⟩ := exists_of_noteBefore (Bool.and_eq_true_iff.mp htaken).2
      exact Outcome.bind_eq_ok.mpr ⟨[], rfl, Outcome.bind_eq_ok.mpr ⟨_, outlineAll_blocks h, rfl⟩⟩
    · obtain ⟨first, hfirst, h⟩ := Outcome.bind_eq_ok.mp h
      obtain ⟨more, hmore, h⟩ := Outcome.bind_eq_ok.mp h
      cases h
      rw [blocksOn_append]
      exact Outcome.bind_eq_ok.mpr ⟨_, outline_blocks hfirst,
        Outcome.bind_eq_ok.mpr ⟨_, outlineAll_blocks hmore, rfl⟩⟩

end

end Blocks

section Rows

theorem kept_append (marks more : Marks) : kept (marks ++ more) = kept marks ++ kept more :=
  List.filter_append ..

theorem kept_code (text : List Char) : kept (Region.code.mark text) = Region.code.mark text :=
  List.filter_eq_self.mpr fun mark hmark => by rw [Region.of_mem_mark mark hmark]; rfl

theorem kept_comment {region : Region} (h : region = .line ∨ region = .block) (text : List Char) :
    kept (region.mark text) = [] :=
  List.filter_eq_nil_iff.mpr fun mark hmark => by
    rw [Region.of_mem_mark mark hmark]
    rcases h with rfl | rfl <;> decide

theorem kept_commentMarks (text : String) : kept (commentMarks text) = [] := by
  unfold commentMarks
  split
  · exact kept_comment (.inr rfl) _
  · exact kept_comment (.inl rfl) _

theorem mark_blanks (n : Nat) :
    Region.code.mark (List.replicate n ' ') = List.replicate n blank := List.map_replicate

theorem kept_notesMarks (notes : List String) :
    kept (notesMarks notes) = List.replicate (2 * notes.length) blank := by
  induction notes with
  | nil => rfl
  | cons text notes ih =>
    have hcons : notesMarks (text :: notes) =
        Region.code.mark [' ', ' '] ++ commentMarks text ++ notesMarks notes := rfl
    rw [hcons, kept_append, kept_append, kept_commentMarks, kept_code, ih, List.append_nil,
      List.length_cons, Nat.mul_succ, Nat.add_comm, List.replicate_add]
    rfl

/-- The code of a line, without blanks around it. -/
def Content.codeMarks : Content → Marks
  | .code text => Sketch.codeMarks text
  | _ => []

theorem Content.kept_marks (content : Content) : kept content.marks = content.codeMarks := by
  cases content with
  | code text => rfl
  | comment text => exact kept_commentMarks text
  | block text => exact kept_comment (.inr rfl) _
  | empty => rfl

/-- Without its comments a line is its code between blanks. -/
theorem Line.kept_marks (line : Line) (width : Nat) : ∃ before after,
    kept (line.marks width) = List.replicate before blank ++ line.content.codeMarks ++
      List.replicate after blank ++ [(.code, '\n')] ∧
    ∀ text, line.content = .code text → before = line.depth * width := by
  obtain ⟨before, hmargin, hbefore⟩ : ∃ before,
      (line.margin width).toList = List.replicate before ' ' ∧
      ∀ text, line.content = .code text → before = line.depth * width := by
    unfold Line.margin
    split
    · next hempty => exact ⟨0, rfl, fun _ htext => nomatch hempty.symm.trans htext⟩
    · exact ⟨_, String.toList_ofList, fun _ _ => rfl⟩
  refine ⟨before, 2 * line.notes.length, ?_, hbefore⟩
  rw [Line.marks, kept_append, kept_append, kept_append, hmargin, kept_code, mark_blanks,
    Content.kept_marks, kept_notesMarks]
  rfl

theorem rdropWhile_blanks (code : Marks) (n : Nat) :
    (code ++ List.replicate n blank).rdropWhile (· == blank) = code.rdropWhile (· == blank) := by
  induction n with
  | zero => rw [List.replicate_zero, List.append_nil]
  | succ n ih =>
    rw [List.replicate_succ', ← List.append_assoc, List.rdropWhile_concat_pos _ _ _ (by simp), ih]

theorem codeRow?_code {code : Marks} {first last : Region × Char} (hfirst : code.head? = some first)
    (hfirst' : first ≠ blank) (hlast : code.getLast? = some last) (hlast' : last ≠ blank)
    (before after : Nat) :
    codeRow? (List.replicate before blank ++ code ++ List.replicate after blank) =
      some ⟨before, code⟩ := by
  have hblank : ∀ n, ∀ mark ∈ List.replicate n blank, (mark == blank) = true :=
    fun n mark hmark => beq_iff_eq.mpr (List.eq_of_mem_replicate hmark)
  obtain ⟨rest, rfl⟩ := List.head?_eq_some_iff.mp hfirst
  have hstop : (first == blank) = false := beq_false_of_ne hfirst'
  have hrest : List.dropWhile (· == blank) (first :: rest ++ List.replicate after blank) =
      first :: rest ++ List.replicate after blank := List.dropWhile_cons_of_neg (by simp [hstop])
  have htake : List.takeWhile (· == blank) (first :: rest ++ List.replicate after blank) = [] :=
    List.takeWhile_cons_of_neg (by simp [hstop])
  have hend : (first :: rest ++ List.replicate after blank).rdropWhile (· == blank) =
      first :: rest := by
    rw [rdropWhile_blanks, List.rdropWhile_eq_self_iff]
    intro hne
    rw [List.getLast?_eq_getLast_of_ne_nil hne] at hlast
    simpa [Option.some.inj hlast] using hlast'
  rw [codeRow?, List.append_assoc, List.dropWhile_append_of_pos (hblank before), hrest, hend,
    List.takeWhile_append_of_pos (hblank before), htake, List.append_nil, List.length_replicate]
  rfl

theorem codeRow?_blanks (n : Nat) : codeRow? (List.replicate n blank) = none := by
  have hdrop : List.dropWhile (· == blank) (List.replicate n blank) = [] :=
    List.dropWhile_eq_nil_iff.mpr fun mark hmark => beq_iff_eq.mpr (List.eq_of_mem_replicate hmark)
  rw [codeRow?, hdrop]
  rfl

/-- Code that keeps its place in a line of a sketch: it is read whatever follows it, its code does
not end the line, and there are no blanks around it. -/
structure Upright (text : String) : Prop where
  reads : Reads text.toList (scan .code (splice text.toList))
  oneLine : (.code, '\n') ∉ codeMarks text
  first : ∃ mark, (codeMarks text).head? = some mark ∧ mark ≠ blank
  last : ∃ c, text.toList.getLast? = some c ∧ c ≠ ' ' ∧ (codeMarks text).getLast? = some (.code, c)

def Line.codeRow? (width : Nat) (line : Line) : Option CodeRow :=
  match line.content with
  | .code text => some ⟨line.depth * width, codeMarks text⟩
  | _ => none

/-- The lines of code of a text of lines are those lines. -/
theorem codeRows_lines {lines : List Line} (h : ∀ line ∈ lines, Tidy Upright OneLine Closed line)
    (width : Nat) : codeRows (String.join (lines.map (Line.render width))) =
      lines.filterMap (Line.codeRow? width) := by
  have hreads := reads_lines (fun _ => Upright.reads) h width
  rw [codeRows, codeMarks, hreads.scan_eq]
  clear hreads
  induction lines with
  | nil => rfl
  | cons line lines ih =>
    obtain ⟨hline, hlines⟩ := List.forall_mem_cons.mp h
    obtain ⟨before, after, hmarks, hbefore⟩ := line.kept_marks width
    have hblank : ∀ n, (.code, '\n') ∉ List.replicate n blank := fun n hmem =>
      absurd (List.eq_of_mem_replicate hmem) (by decide)
    have hcode : (.code, '\n') ∉ line.content.codeMarks := by
      cases hcontent : line.content with
      | code text => exact (hline.code text hcontent).oneLine
      | _ => exact List.not_mem_nil
    have hrow : (.code, '\n') ∉ List.replicate before blank ++ line.content.codeMarks ++
        List.replicate after blank := by
      simp only [List.mem_append, not_or]
      exact ⟨⟨hblank _, hcode⟩, hblank _⟩
    rw [List.flatMap_cons, kept_append, hmarks, List.append_assoc, List.singleton_append,
      List.splitOn_append_cons_self_of_not_mem hrow, List.filterMap_cons, ih hlines,
      List.filterMap_cons]
    have hrow? : codeRow? (List.replicate before blank ++ line.content.codeMarks ++
        List.replicate after blank) = line.codeRow? width := by
      unfold Line.codeRow?
      cases hcontent : line.content with
      | code text =>
        obtain ⟨-, -, ⟨_, hfirst, hfirst'⟩, ⟨_, -, hvisible, hlast⟩⟩ := hline.code text hcontent
        rw [hbefore text hcontent]
        exact codeRow?_code hfirst hfirst' hlast (fun heq => hvisible (Prod.mk.inj heq).2) _ _
      | _ =>
        show codeRow? (List.replicate before blank ++ [] ++ List.replicate after blank) = none
        rw [List.append_nil, ← List.replicate_add]
        exact codeRow?_blanks _
    rw [hrow?]

end Rows

section Runs

variable {width depth : Nat}

namespace Reader

theorem run_cons {reader next : Reader} {row : CodeRow} (h : reader.step width row = some next)
    (rows : List CodeRow) : reader.run width (row :: rows) = next.run width rows := by
  rw [run, List.foldlM_cons, h]
  rfl

theorem run_append {reader next : Reader} {rows : List CodeRow}
    (h : reader.run width rows = some next) (more : List CodeRow) :
    reader.run width (rows ++ more) = next.run width more := by
  rw [run, List.foldlM_append, ← run, h]
  rfl

end Reader

/-- What the head of a block does: it goes on with a chain or opens a block. -/
def headTurn (chained : Bool) : Turn := if chained then .goesOn else .opens

/-- Pieces whose lines do to the blocks around them what they should. A block that does not close is
followed by the next one of its chain; `chained` says so of the block before the pieces. -/
inductive Linked : Bool → List Piece → Prop
  | nil : Linked false []
  | line {content notes pieces}
      (hline : ∀ text, content = .code text → turnOf (codeMarks text) = .none)
      (hpieces : Linked false pieces) : Linked false (.line content notes :: pieces)
  | block {chained head notes body closes pieces}
      (hhead : turnOf (codeMarks head) = headTurn chained)
      (hbody : Linked false body) (hpieces : Linked (!closes) pieces) :
      Linked chained (.block head notes body closes :: pieces)

theorem Linked.append {chained : Bool} {pieces more : List Piece} (h : Linked chained pieces)
    (hmore : Linked false more) : Linked chained (pieces ++ more) := by
  induction h with
  | nil => exact hmore
  | line hline _ ih => exact .line hline ih
  | block hhead hbody _ _ ih => exact .block hhead hbody ih

/-- The reader after `before` in the blocks `around`: it is there already, or in a block of a chain
that goes on. -/
inductive Awaits (around : List OpenBlock) : Bool → List Block → Reader → Prop
  | after {before} : Awaits around false before ⟨around, before⟩
  | inside {block body} : Awaits around true (block.close body false) ⟨block :: around, body⟩

/-- The line of a head opens a block, after the end of one that goes on with it. -/
theorem Awaits.step_head {around : List OpenBlock} {chained : Bool} {before : List Block}
    {reader : Reader} (h : Awaits around chained before reader) {head : String}
    (hhead : turnOf (codeMarks head) = headTurn chained) (hdepth : around.length = depth) :
    reader.step width ⟨depth * width, codeMarks head⟩ =
      some ⟨⟨before, asRead head⟩ :: around, []⟩ := by
  cases h with
  | after =>
    have hhead' : turnOf (codeMarks head) = .opens := hhead
    simp only [Reader.step, hhead', hdepth, if_true]
    rfl
  | inside =>
    have hhead' : turnOf (codeMarks head) = .goesOn := hhead
    simp only [Reader.step, hhead', hdepth, if_true]
    rfl

/-- The lines of linked pieces are read as the blocks of these pieces. -/
theorem Linked.run {chained : Bool} {pieces : List Piece} (h : Linked chained pieces)
    {around : List OpenBlock} {before : List Block} {reader : Reader}
    (hreader : Awaits around chained before reader) (hdepth : around.length = depth) :
    reader.run width ((linesIn depth pieces).filterMap (Line.codeRow? width)) =
      some ⟨around, before ++ blocksOn pieces⟩ := by
  induction h generalizing around before reader depth with
  | nil =>
    cases hreader
    rw [blocksOn, List.append_nil]
    rfl
  | @line content notes pieces hline _ ih =>
    cases hreader
    rw [linesIn, Piece.lines, List.filterMap_append, blocksOn, ← List.append_assoc]
    cases content with
    | code text =>
      have hstep : Reader.step width ⟨around, before⟩ ⟨depth * width, codeMarks text⟩ =
          some ⟨around, before ++ [.line (asRead text)]⟩ := by
        simp only [Reader.step, hline text rfl, hdepth, if_true]
        rfl
      exact (Reader.run_cons hstep _).trans (ih .after hdepth)
    | _ =>
      show Reader.run width ⟨around, before⟩ ((linesIn depth pieces).filterMap _) =
        some ⟨around, before ++ [] ++ blocksOn pieces⟩
      rw [List.append_nil]
      exact ih .after hdepth
  | @block chained head notes body closes pieces hhead _ _ ihbody ih =>
    have hbody : Reader.run width ⟨⟨before, asRead head⟩ :: around, []⟩
        ((linesIn (depth + 1) body).filterMap (Line.codeRow? width)) =
          some ⟨⟨before, asRead head⟩ :: around, blocksOn body⟩ :=
      ihbody .after (by rw [List.length_cons, hdepth])
    have hlines : (linesIn depth (.block head notes body closes :: pieces)).filterMap
        (Line.codeRow? width) = ⟨depth * width, codeMarks head⟩ ::
          ((linesIn (depth + 1) body).filterMap (Line.codeRow? width) ++
            ((closing depth closes).filterMap (Line.codeRow? width) ++
              (linesIn depth pieces).filterMap (Line.codeRow? width))) := by
      rw [linesIn, Piece.lines, List.cons_append, List.append_assoc, ← List.filterMap_append,
        ← List.filterMap_append]
      rfl
    rw [hlines, Reader.run_cons (hreader.step_head hhead hdepth), Reader.run_append hbody, blocksOn,
      ← List.append_assoc]
    cases closes with
    | false => exact ih (@Awaits.inside around ⟨before, asRead head⟩ (blocksOn body)) hdepth
    | true =>
      have hstep : Reader.step width ⟨⟨before, asRead head⟩ :: around, blocksOn body⟩
          ⟨depth * width, codeMarks "\x7d"⟩ =
            some ⟨around, before ++ [.block (asRead head) (blocksOn body) true]⟩ := by
        have hclose : turnOf (codeMarks "\x7d") = .closes := rfl
        simp only [Reader.step, hclose, hdepth, if_true]
        rfl
      exact (Reader.run_cons hstep _).trans (ih .after hdepth)

/-- A text of linked pieces whose code keeps its place is read as the blocks of the pieces. -/
theorem readBlocks_lines {pieces : List Piece} (h : Linked false pieces)
    (htidy : ∀ line ∈ linesIn 0 pieces, Tidy Upright OneLine Closed line) :
    readBlocks width (String.join ((linesIn 0 pieces).map (Line.render width))) =
      some (blocksOn pieces) := by
  have hrun : Reader.run width ⟨[], []⟩ ((linesIn 0 pieces).filterMap (Line.codeRow? width)) =
      some ⟨[], blocksOn pieces⟩ := h.run .after rfl
  rw [readBlocks, codeRows_lines htidy, hrun]

end Runs

end Sketch

end Sketchwright
