import Sketchwright.Proofs.Bare
import Sketchwright.Proofs.Emission
import Sketchwright.Proofs.Outline

/-! Comments and blank lines of a resolved program. Inference leaves them where they are, so that
the sketch has the lines of an outline. -/

namespace Sketchwright

mutual

theorem Stmt.trivia_bare (stmt : Stmt) : stmt.bare.trivia = stmt.trivia := by
  cases stmt with
  | function line head signature hoisted body => exact triviaIn_bareAll body
  | conditional line condition thenBody elseBody =>
    rw [Stmt.bare, Stmt.trivia, Stmt.trivia, triviaIn_bareAll thenBody, triviaIn_bareAll elseBody]
  | loop line var bounds binding body => exact triviaIn_bareAll body
  | _ => rfl

theorem triviaIn_bareAll (stmts : List Stmt) : triviaIn (bareAll stmts) = triviaIn stmts := by
  cases stmts with
  | nil => rfl
  | cons stmt stmts => rw [bareAll, triviaIn, triviaIn, stmt.trivia_bare, triviaIn_bareAll stmts]

end

theorem Stmt.isSimple_bare (stmt : Stmt) : stmt.bare.isSimple = stmt.isSimple := by
  cases stmt <;> rfl

theorem Stmt.bare_eq_comment {stmt : Stmt} {line : Nat} {style : CommentStyle} {text : String} :
    stmt.bare = .comment line style text ↔ stmt = .comment line style text := by
  cases stmt <;> simp [Stmt.bare]

mutual

theorem Stmt.noted_bare {stmt : Stmt} : stmt.bare.Noted ↔ stmt.Noted := by
  cases stmt with
  | function line head signature hoisted body =>
    exact ⟨fun h => .function (notedAll_bareAll.mp h.function_body),
      fun h => .function (notedAll_bareAll.mpr h.function_body)⟩
  | conditional line condition thenBody elseBody =>
    refine ⟨fun h => ?_, fun h => ?_⟩
    · obtain ⟨hthen, helse⟩ := h.conditional_bodies
      exact .conditional (notedAll_bareAll.mp hthen) (notedAll_bareAll.mp helse)
    · obtain ⟨hthen, helse⟩ := h.conditional_bodies
      exact .conditional (notedAll_bareAll.mpr hthen) (notedAll_bareAll.mpr helse)
  | loop line var bounds binding body =>
    exact ⟨fun h => .loop (notedAll_bareAll.mp h.loop_body),
      fun h => .loop (notedAll_bareAll.mpr h.loop_body)⟩
  | assign => exact ⟨fun _ => .simple rfl, fun _ => .simple rfl⟩
  | _ => exact Iff.rfl

theorem notedAll_bareAll {noted : Bool} {stmts : List Stmt} :
    NotedAll noted (bareAll stmts) ↔ NotedAll noted stmts := by
  cases stmts with
  | nil => exact Iff.rfl
  | cons stmt stmts =>
    rw [bareAll]
    refine ⟨fun h => ?_, fun h => ?_⟩
    · generalize hbare : stmt.bare = bare at h
      cases h with
      | note hstmts =>
        obtain rfl := Stmt.bare_eq_comment.mp hbare
        exact .note (notedAll_bareAll.mp hstmts)
      | cons hstmt hstmts =>
        subst hbare
        rw [stmt.isSimple_bare] at hstmts
        exact .cons (Stmt.noted_bare.mp hstmt) (notedAll_bareAll.mp hstmts)
    · cases h with
      | note hstmts => exact .note (notedAll_bareAll.mpr hstmts)
      | cons hstmt hstmts =>
        rw [← stmt.isSimple_bare] at hstmts
        exact .cons (Stmt.noted_bare.mpr hstmt) (notedAll_bareAll.mpr hstmts)

end

section Bare

variable {p p' : Program} (h : p'.bare = p.bare)

include h

theorem Program.header_bare : p'.header = p.header := (Program.mk.inj h).1

theorem Program.statements_bare : bareAll p'.statements = bareAll p.statements :=
  (Program.mk.inj h).2

/-- Inference leaves comments and blank lines as they are. -/
theorem triviaIn_bare :
    triviaIn (p'.header ++ p'.statements) = triviaIn (p.header ++ p.statements) := by
  rw [triviaIn_append, triviaIn_append, Program.header_bare h, ← triviaIn_bareAll p'.statements,
    Program.statements_bare h, triviaIn_bareAll]

theorem NotedAll.statements_bare (hnoted : NotedAll false p.statements) :
    NotedAll false p'.statements := by
  rw [← notedAll_bareAll, Program.statements_bare h]
  exact notedAll_bareAll.mpr hnoted

end Bare

namespace Inference

open Sketch

variable {table : CallTable} {source : String} {p p' : Program}

theorem infer_bare (htable : table.Sound) (hp : p.WellFormed)
    (h : (infer table p).1 = .ok p') : p'.bare = p.bare := by
  rcases infer_cases htable hp with ⟨e, herror, -⟩ | ⟨p'', _, _, _, hok, hinferred⟩
  · cases herror.symm.trans h
  · obtain rfl := Except.ok.inj (hok.symm.trans h)
    exact hinferred.bare_eq htable hp

/-- In a resolved program comments stand where the grammar puts them. -/
theorem infer_noted (htable : table.Sound) (hsource : Program.ofSource source = .ok p)
    (h : (infer table p).1 = .ok p') : NotedAll false p'.header ∧ NotedAll false p'.statements := by
  obtain ⟨_, _, -, -, -, -, hheader, hstmts⟩ := Program.ofSource_notices hsource
  have hbare := infer_bare htable (Program.wellFormed_of_source hsource) h
  rw [Program.header_bare hbare]
  exact ⟨hheader, hstmts.statements_bare hbare⟩

/-- A resolved program has an outline, and its sketch has the lines of that. -/
theorem infer_outline (htable : table.Sound) (hsource : Program.ofSource source = .ok p)
    (h : (infer table p).1 = .ok p') (floatType : FloatType) :
    ∃ pieces, outlineOf ⟨table, floatType⟩ p' = .ok pieces ∧ ∀ width,
      generate ⟨table, floatType⟩ width p' =
        .ok (String.join ((linesIn 0 pieces).map (Line.render width))) := by
  obtain ⟨hheader, hstmts⟩ := infer_noted htable hsource h
  have hp := Program.wellFormed_of_source hsource
  rcases infer_cases htable hp with ⟨e, herror, -⟩ | ⟨p'', _, _, _, hok, hinferred⟩
  · cases herror.symm.trans h
  obtain rfl := Except.ok.inj (hok.symm.trans h)
  obtain ⟨output, houtput⟩ := hinferred.generates htable hp floatType 0
  rw [generate_outline hheader hstmts] at houtput
  obtain ⟨pieces, hpieces, -⟩ := Outcome.map_eq_ok.mp houtput
  refine ⟨pieces, hpieces, fun width => ?_⟩
  rw [generate_outline hheader hstmts, hpieces]
  rfl

end Inference

namespace Translator

open Program Sketch Inference

variable {config : Config} {t : Translator} {source output : String}

theorem translate_eq_ok :
    t.translate source = .ok output ↔ ∃ p p', Program.ofSource source = .ok p ∧
    (infer t.table p).1 = .ok p' ∧ t.generate p' = .ok output := by
  rw [translate_eq]
  cases hsource : Program.ofSource source with
  | error e => simp [Except.bind]
  | ok p =>
    cases hinfer : (infer t.table p).1 with
    | error e => simp [Except.bind, hinfer]
    | ok p' => simp [Except.bind, hinfer]

end Translator

end Sketchwright
