import Mathlib
import Sketchwright.Proofs.Canonical
import Sketchwright.Proofs.Outcome

/-! What the readers of a line and of the heads of blocks make of the tokens of a statement. What
they return is compared up to line numbers, which are those of the tokens. -/

namespace Sketchwright

open Reading

/-- A reader returns this value, as far as `view` shows it, and this rest. -/
def ReadsUpTo {α β : Type} {n : Nat} (view : α → β) (reader : Reading α n) (a : α)
    (rest : List Token) : Prop :=
  ∃ a', Reads reader a' rest ∧ view a' = view a

namespace Reading

variable {ts rest : List Token} (finalLine : Nat)

theorem Starts.map_kind {kinds : List TokenKind} (h : Starts ts kinds rest) :
    ts.map Token.kind = kinds ++ rest.map Token.kind := by
  obtain ⟨front, rfl, rfl⟩ := h
  exact List.map_append

theorem Starts.first {kind : TokenKind} {kinds : List TokenKind}
    (h : Starts ts (kind :: kinds) rest) :
    ∃ middle, Starts ts [kind] middle ∧ Starts middle kinds rest :=
  Starts.split (List.singleton_append ▸ h)

theorem reads_expectIdentifier {name : String} (h : Starts ts [.identifier name] rest) :
    Reads (expectIdentifier finalLine ts) name rest := by
  obtain ⟨t, more, rfl, ht, hmore⟩ := h.uncons
  obtain rfl := starts_nil hmore
  refine ⟨Nat.lt_succ_self _, ?_⟩
  unfold expectIdentifier
  simp only [ht]
  rfl

theorem reads_expectKeyword {k : Keyword} (h : Starts ts [.keyword k] rest) :
    Reads (expectKeyword finalLine k ts) () rest := by
  obtain ⟨t, more, rfl, ht, hmore⟩ := h.uncons
  obtain rfl := starts_nil hmore
  exact ⟨Nat.lt_succ_self _, by rw [expectKeyword, if_pos ht]; rfl⟩

end Reading

theorem endsLine_cases {kind : TokenKind} (h : kind.endsLine = true) :
    kind = .newline ∨ (∃ text, kind = .comment text) ∨ kind = .eof := by
  cases kind with
  | newline => exact .inl rfl
  | comment text => exact .inr (.inl ⟨text, rfl⟩)
  | eof => exact .inr (.inr rfl)
  | _ => cases h

theorem closes_of_endsLine {kind : TokenKind} (h : kind.endsLine = true) :
    Expr.closes 1 kind = true := by
  cases kind <;> first | rfl | cases h

namespace Program

variable {place : Place} {ts rest : List Token} (finalLine : Nat)

section Lines

/-- The comment at the end of a line before these statements. -/
def noteOf : List Stmt → List Stmt
  | .comment line .trailing text :: _ => [.comment line .trailing text]
  | _ => []

/-- The statements after that comment. -/
def afterNote : List Stmt → List Stmt
  | .comment _ .trailing _ :: stmts => stmts
  | stmts => stmts

theorem noteOf_append (stmts : List Stmt) : noteOf stmts ++ afterNote stmts = stmts := by
  unfold noteOf afterNote
  split <;> rfl

theorem afterNote_of_allowed {stmts : List Stmt} (h : AllowedAll place false stmts) :
    afterNote stmts = stmts := by
  cases h with
  | nil => rfl
  | cons hstmt => cases hstmt <;> rfl

theorem endsLine_lineEnd {stmts : List Stmt} {more : List TokenKind}
    (h : Starts ts (lineEnd stmts ++ more) rest) :
    (kindOf ts).endsLine = true := by
  unfold lineEnd at h
  split at h
  · rw [h.kindOf]
    rfl
  · rw [h.kindOf]
    rfl

theorem reads_endLine (h : Starts ts [.newline] rest) : Reads (endLine finalLine ts) () rest := by
  obtain ⟨t, more, rfl, ht, hmore⟩ := h.uncons
  obtain rfl := starts_nil hmore
  exact ⟨by simp only [List.length_cons]; omega, by rw [endLine, if_pos ht]; rfl⟩

theorem reads_finishLine {stmts : List Stmt} (h : Starts ts (lineEnd stmts) rest) :
    ReadsUpTo unlinedAll (finishLine finalLine ts) (noteOf stmts) rest := by
  unfold lineEnd at h
  split at h
  · obtain ⟨⟨_, span⟩, more, rfl, rfl, hmore⟩ := h.uncons
    obtain ⟨hfits, hread⟩ := reads_endLine finalLine hmore
    refine ⟨[.comment span.line .trailing _], ⟨by simp only [List.length_cons]; omega, ?_⟩, rfl⟩
    unfold finishLine
    simp only [hread, bind, Except.bind]
    rfl
  · next hnone =>
    obtain ⟨hfits, hread⟩ := reads_endLine finalLine h
    have hnote : noteOf stmts = [] := by
      unfold noteOf
      split
      · exact absurd rfl (hnone _ _ _)
      · rfl
    refine ⟨[], ⟨hfits, ?_⟩, by rw [hnote]⟩
    have hkind := h.kindOf
    unfold finishLine
    split
    · cases hkind
    · simp only [hread, bind, Except.bind]
      rfl

end Lines

section Simple

theorem reads_names {ids : List String} (hne : ids ≠ []) (hrest : kindOf rest ≠ .symbol .comma)
    (h : Starts ts (Expr.listed (ids.map fun name => [.identifier name])) rest) :
    Reads (names finalLine ts) ids rest := by
  induction ids generalizing ts with
  | nil => exact absurd rfl hne
  | cons id ids ih =>
    cases ids with
    | nil =>
      obtain ⟨hfits, hread⟩ := reads_expectIdentifier finalLine h
      refine ⟨hfits, ?_⟩
      obtain ⟨t, more, rfl, ht, hmore⟩ := h.uncons
      obtain rfl := starts_nil hmore
      rw [names]
      · simp only [hread, bind, Except.bind]
        rfl
      · rintro t span more ⟨⟩
        exact hrest rfl
    | cons next ids =>
      rw [List.map_cons, List.map_cons, Expr.listed_cons_cons, List.singleton_append] at h
      obtain ⟨t, more, rfl, ht, hmore⟩ := h.uncons
      obtain ⟨⟨_, span⟩, after, rfl, rfl, hafter⟩ := hmore.uncons
      obtain ⟨hfits, hread⟩ := ih (List.cons_ne_nil _ _) hafter
      refine ⟨by simp only [List.length_cons]; omega, ?_⟩
      unfold names
      simp only [ht, hread, bind, Except.bind]
      rfl

theorem reads_annotatedKind {kind : Kind} (hkind : kind.Annotates)
    (h : Starts ts [.identifier kind.text] rest) :
    Reads (annotatedKind finalLine ts) kind rest := by
  obtain ⟨hfits, hread⟩ := reads_expectIdentifier finalLine h
  refine ⟨hfits, ?_⟩
  have hname : Kind.ofAnnotation? kind.text = some kind := hkind
  unfold annotatedKind
  simp only [hread, hname, bind, Except.bind]
  rfl

theorem of_isIncrement (h : isIncrement ts = true) : ∃ x a b more, ts = x :: a :: b :: more ∧
    Expr.isSign a.kind = true ∧ Expr.isSign b.kind = true ∧ (kindOf more).endsLine = true := by
  unfold isIncrement at h
  split at h
  · next x a b more =>
    simp only [Bool.and_eq_true, Bool.or_eq_true, beq_iff_eq] at h
    obtain ⟨⟨⟨-, hsign⟩, hsame⟩, hend⟩ := h
    refine ⟨x, a, b, more, rfl, ?_, ?_, hend⟩
    · rcases hsign with hsign | hsign <;> rw [hsign] <;> rfl
    · rcases hsign with hsign | hsign <;> rw [← hsame, hsign] <;> rfl
  · cases h

/-- An expression is no increment: no sign comes last in it. -/
theorem isIncrement_eq_false {kinds : List TokenKind} (hkinds : Expr.Operand kinds)
    (h : Starts ts kinds rest) (hrest : Expr.isSign (kindOf rest) = false) :
    isIncrement ts = false := by
  rw [Bool.eq_false_iff]
  intro hincrement
  obtain ⟨x, a, b, more, heq, ha, hb, hend⟩ := of_isIncrement hincrement
  obtain ⟨front, rfl, rfl⟩ := h
  match front, hkinds, heq with
  | [], hkinds, _ => exact hkinds.ne_nil rfl
  | [_], _, heq =>
    cases heq
    exact Bool.false_ne_true (hrest.symm.trans ha)
  | [_, _], hkinds, heq =>
    cases heq
    exact Bool.false_ne_true ((hkinds.last _ rfl).symm.trans ha)
  | [_, _, _], hkinds, heq =>
    cases heq
    exact Bool.false_ne_true ((hkinds.last _ rfl).symm.trans hb)
  | _ :: _ :: _ :: c :: _, hkinds, heq =>
    cases heq
    have hpart : c.kind.endsLine = false := Expr.endsLine_of_isPart (hkinds.parts _ (by simp))
    exact Bool.false_ne_true (hpart.symm.trans hend)

variable (line : Nat)

theorem target?_expr (target : Target) : target? target.expr = some target := by
  cases target <;> rfl

theorem reads_expr {value : Expr} (hvalue : value.Named) (h : Starts ts value.tokens rest)
    (hrest : (kindOf rest).endsLine = true) :
    Reads (assignmentOrExpr finalLine line ts) (.expr line value) rest := by
  have hsign : Expr.isSign (kindOf rest) = false := by
    rcases endsLine_cases hrest with hkind | ⟨_, hkind⟩ | hkind <;> rw [hkind] <;> rfl
  obtain ⟨hfits, hread⟩ := Expr.whole_tokens hvalue finalLine h (closes_of_endsLine hrest)
  refine ⟨hfits, ?_⟩
  unfold assignmentOrExpr
  rcases endsLine_cases hrest with hkind | ⟨_, hkind⟩ | hkind <;>
  · simp only [isIncrement_eq_false (Expr.operand_tokens hvalue) h hsign, hread, hkind,
      bind, Except.bind]
    rfl

theorem reads_assign {target : Target} {value : Expr} (htarget : target.expr.Named)
    (hvalue : value.Named)
    (h : Starts ts (target.expr.tokens ++ .symbol .equal :: value.tokens) rest)
    (hrest : (kindOf rest).endsLine = true) :
    Reads (assignmentOrExpr finalLine line ts)
      (.assign line target value none .unresolved) rest := by
  obtain ⟨middle, hfront, hmiddle⟩ := h.split
  have hkind := hmiddle.kindOf
  have hsign : Expr.isSign (kindOf middle) = false := by rw [hkind]; rfl
  obtain ⟨hfits, hread⟩ := Expr.whole_tokens htarget finalLine hfront (by rw [hkind]; rfl)
  obtain ⟨equal, after, rfl, -, hafter⟩ := hmiddle.uncons
  obtain ⟨hfits', hread'⟩ := Expr.whole_tokens hvalue finalLine hafter (closes_of_endsLine hrest)
  have hnext : kindOf rest ≠ .symbol .equal := fun h => by
    rw [h] at hrest
    cases hrest
  simp only [List.length_cons] at hfits
  refine ⟨by omega, ?_⟩
  unfold assignmentOrExpr
  simp only [isIncrement_eq_false (Expr.operand_tokens htarget) hfront hsign, hread,
    hkind, target?_expr, List.tail_cons, hread', hnext, bind, Except.bind]
  rfl

theorem reads_annotated {id : String} {value : Expr} {kind : Kind} (hid : (Expr.name id).Named)
    (hkind : kind.Annotates) (hvalue : value.Named)
    (h : Starts ts (.identifier id :: .symbol .colon :: .identifier kind.text :: .symbol .equal ::
      value.tokens) rest)
    (hrest : (kindOf rest).endsLine = true) :
    Reads (assignmentOrExpr finalLine line ts)
      (.assign line (.name id) value (some kind) .unresolved) rest := by
  obtain ⟨middle, hfront, hmiddle⟩ := Starts.first h
  have hcolon := hmiddle.kindOf
  have hsign : Expr.isSign (kindOf middle) = false := by rw [hcolon]; rfl
  obtain ⟨hfits, hread⟩ := Expr.whole_tokens hid finalLine hfront (by rw [hcolon]; rfl)
  obtain ⟨colon, after, rfl, -, hafter⟩ := hmiddle.uncons
  obtain ⟨equals, hname, hequals⟩ := Starts.first hafter
  obtain ⟨hfits', hread'⟩ := reads_annotatedKind finalLine hkind hname
  have hequal := hequals.kindOf
  obtain ⟨equal, last, rfl, -, hlast⟩ := hequals.uncons
  obtain ⟨hfits'', hread''⟩ := Expr.whole_tokens hvalue finalLine hlast (closes_of_endsLine hrest)
  simp only [List.length_cons] at hfits hfits'
  refine ⟨by omega, ?_⟩
  unfold assignmentOrExpr
  simp only [isIncrement_eq_false (Expr.operand_tokens hid) hfront hsign, hread, hcolon,
    hread', hequal, List.tail_cons, hread'', bind, Except.bind]
  rfl

/-- What starts as an expression and is no lone string is an assignment or an expression. -/
theorem simpleForm_eq {t : Token} (hstart : Expr.starts t.kind = true)
    (htext : t.kind.isString = true → (kindOf ts).endsLine = false) :
    simpleForm finalLine place (t :: ts) = assignmentOrExpr finalLine t.line (t :: ts) := by
  unfold simpleForm
  dsimp only
  split
  case h_6 word hkind =>
    rw [hkind] at hstart
    rw [if_neg (by simpa [Expr.starts] using hstart)]
  case h_7 text hkind =>
    rw [hkind] at htext
    rw [htext rfl]
    rfl
  case h_8 => rfl
  all_goals next hkind =>
    rw [hkind] at hstart
    cases hstart

theorem starts_target {target : Target} (h : target.expr.Named) :
    ∃ word more, target.expr.tokens = .identifier word :: more ∧ word ∉ unsupportedWords := by
  cases target with
  | name id =>
    cases h with
    | name _ hsupported => exact ⟨id, [], rfl, hsupported⟩
  | element list position =>
    cases h with
    | index _ hsupported => exact ⟨list, _, rfl, hsupported⟩

theorem simpleForm_expr {value : Expr} (hvalue : value.Named)
    (htext : Sketch.isStringLiteral value = false) (h : Starts ts value.tokens rest)
    (hrest : (kindOf rest).endsLine = true) :
    ∃ line, Reads (simpleForm finalLine place ts) (.expr line value) rest := by
  have hoperand := Expr.operand_tokens hvalue
  obtain ⟨kind, more, hkinds, hstart⟩ := hoperand.start
  have hstarts := h
  rw [hkinds] at hstarts
  obtain ⟨t, after, rfl, rfl, hmore⟩ := hstarts.uncons
  refine ⟨t.line, ?_⟩
  rw [simpleForm_eq finalLine hstart ?_]
  · exact reads_expr finalLine t.line hvalue h hrest
  · intro hstring
    cases more with
    | nil =>
      cases hkind : t.kind with
      | string text =>
        rw [hkind] at hkinds
        rw [Expr.eq_literal_of_tokens hvalue hkinds] at htext
        cases htext
      | _ =>
        rw [hkind] at hstring
        cases hstring
    | cons second more =>
      rw [hmore.kindOf]
      exact Expr.endsLine_of_isPart (hoperand.parts _ (by simp [hkinds]))

/-- A statement whose first token is that of a target. -/
theorem simpleForm_target {target : Target} {more : List TokenKind} (htarget : target.expr.Named)
    (h : Starts ts (target.expr.tokens ++ more) rest) :
    ∃ line, simpleForm finalLine place ts = assignmentOrExpr finalLine line ts := by
  obtain ⟨word, kinds, hword, hsupported⟩ := starts_target htarget
  rw [hword] at h
  obtain ⟨t, after, rfl, ht, -⟩ := Starts.uncons h
  exact ⟨t.line, simpleForm_eq finalLine (by rw [ht]; exact Expr.starts_identifier hsupported)
    (by rw [ht]; nofun)⟩

theorem simpleForm_give {value : Option Expr} (hplace : place.inFunction = true)
    (hvalue : ∀ e ∈ value, e.Named) {line : Nat} (h : Starts ts (Stmt.give line value).tokens rest)
    (hrest : (kindOf rest).endsLine = true) :
    ∃ line, Reads (simpleForm finalLine place ts) (.give line value) rest := by
  cases value with
  | none =>
    obtain ⟨t, more, rfl, ht, hmore⟩ := Starts.uncons h
    obtain rfl := starts_nil hmore
    refine ⟨t.line, Nat.lt_succ_self _, ?_⟩
    unfold simpleForm
    simp only [ht, hplace, hrest, bind, Except.bind]
    rfl
  | some value =>
    obtain ⟨t, more, rfl, ht, hmore⟩ := Starts.uncons h
    have hnamed := hvalue value rfl
    have hopen : (kindOf more).endsLine = false := by
      obtain ⟨kind, kinds, hkinds, -⟩ := (Expr.operand_tokens hnamed).start
      have hpart := (Expr.operand_tokens hnamed).parts kind (by simp [hkinds])
      rw [hkinds] at hmore
      rw [hmore.kindOf]
      exact Expr.endsLine_of_isPart hpart
    obtain ⟨hfits, hread⟩ := Expr.whole_tokens hnamed finalLine hmore (closes_of_endsLine hrest)
    refine ⟨t.line, by simp only [List.length_cons]; omega, ?_⟩
    unfold simpleForm
    simp only [ht, hplace, hopen, hread, bind, Except.bind]
    rfl

theorem simpleForm_global {names : List String} (hplace : place.inFunction = true)
    (hnames : names ≠ []) {line : Nat} (h : Starts ts (Stmt.global line names).tokens rest)
    (hrest : (kindOf rest).endsLine = true) :
    ∃ line, Reads (simpleForm finalLine place ts) (.global line names) rest := by
  obtain ⟨t, more, rfl, ht, hmore⟩ := Starts.uncons h
  have hcomma : kindOf rest ≠ .symbol .comma := fun h => by
    rw [h] at hrest
    cases hrest
  obtain ⟨hfits, hread⟩ := reads_names finalLine hnames hcomma hmore
  refine ⟨t.line, by simp only [List.length_cons]; omega, ?_⟩
  unfold simpleForm
  simp only [ht, hplace, hread, bind, Except.bind]
  rfl

/-- A statement without a block is read up to the end of its line. -/
theorem reads_simpleForm {stmt : Stmt} (hstmt : stmt.Allowed place) (hsimple : stmt.isSimple = true)
    (h : Starts ts stmt.tokens rest) (hrest : (kindOf rest).endsLine = true) :
    ReadsUpTo Stmt.unlined (simpleForm finalLine place ts) stmt rest := by
  cases hstmt with
  | function | conditional | loop | line | blank => cases hsimple
  | assign htarget hvalue =>
    unfold Stmt.tokens at h
    obtain ⟨line, hform⟩ := simpleForm_target finalLine htarget h
    rw [hform]
    exact ⟨_, reads_assign finalLine line htarget hvalue h hrest, rfl⟩
  | @annotated _ _ id _ _ hid hkind hvalue =>
    have htarget : (Target.name id).expr.Named := hid
    obtain ⟨line, hform⟩ := simpleForm_target finalLine htarget h
    rw [hform]
    exact ⟨_, reads_annotated finalLine line hid hkind hvalue h hrest, rfl⟩
  | expr hvalue htext =>
    unfold Stmt.tokens at h
    obtain ⟨line, hread⟩ := simpleForm_expr finalLine hvalue htext h hrest
    exact ⟨_, hread, rfl⟩
  | give hplace hvalue =>
    obtain ⟨line, hread⟩ := simpleForm_give finalLine hplace hvalue h hrest
    exact ⟨_, hread, rfl⟩
  | global hplace hnames =>
    obtain ⟨line, hread⟩ := simpleForm_global finalLine hplace hnames h hrest
    exact ⟨_, hread, rfl⟩
  | block =>
    obtain ⟨t, more, rfl, ht, hmore⟩ := Starts.uncons h
    obtain rfl := starts_nil hmore
    refine ⟨.comment t.line .block _, ⟨Nat.lt_succ_self _, ?_⟩, rfl⟩
    unfold simpleForm
    simp only [ht, hrest]
    rfl
  | pass =>
    obtain ⟨t, more, rfl, ht, hmore⟩ := Starts.uncons h
    obtain rfl := starts_nil hmore
    refine ⟨.pass t.line, ⟨Nat.lt_succ_self _, ?_⟩, rfl⟩
    unfold simpleForm
    simp only [ht]
    rfl
  | stop hplace =>
    obtain ⟨t, more, rfl, ht, hmore⟩ := Starts.uncons h
    obtain rfl := starts_nil hmore
    refine ⟨.stop t.line, ⟨Nat.lt_succ_self _, ?_⟩, rfl⟩
    unfold simpleForm
    simp only [ht, hplace]
    rfl
  | skip hplace =>
    obtain ⟨t, more, rfl, ht, hmore⟩ := Starts.uncons h
    obtain rfl := starts_nil hmore
    refine ⟨.skip t.line, ⟨Nat.lt_succ_self _, ?_⟩, rfl⟩
    unfold simpleForm
    simp only [ht, hplace]
    rfl

/-- The same with the end of the line, which a comment of the next statements may stand before. -/
theorem reads_simpleStatement {stmt : Stmt} {next : List Stmt} (hstmt : stmt.Allowed place)
    (hsimple : stmt.isSimple = true) (h : Starts ts (stmt.tokens ++ lineEnd next) rest) :
    ReadsUpTo unlinedAll (simpleStatement finalLine place ts) (stmt :: noteOf next) rest := by
  obtain ⟨middle, hfront, hmiddle⟩ := h.split
  have hend : (kindOf middle).endsLine = true := by
    rw [← List.append_nil (lineEnd _)] at hmiddle
    exact endsLine_lineEnd hmiddle
  obtain ⟨stmt', ⟨hfits, hread⟩, hstmt'⟩ := reads_simpleForm finalLine hstmt hsimple hfront hend
  obtain ⟨note, ⟨hfits', hread'⟩, hnote⟩ := reads_finishLine finalLine hmiddle
  refine ⟨stmt' :: note, ⟨by omega, ?_⟩, by rw [unlinedAll, unlinedAll, hstmt', hnote]⟩
  unfold simpleStatement
  simp only [hread, hread', bind, Except.bind]
  rfl

end Simple

section Heads

variable (line : Nat)

variable {param : Param} {params seen : List Param} {middle : List Token}

/-- A parameter with another one after it. -/
theorem parameters_comma (hfresh : seen.any (·.name == param.name) = false)
    (hkind : ∀ kind ∈ param.kind, kind.Annotates)
    (h : Starts ts (param.tokens ++ [.symbol .comma]) middle)
    (hmore : Reads (parameters finalLine line (seen ++ [param]) middle) params rest) :
    Reads (parameters finalLine line seen ts) (param :: params) rest := by
  obtain ⟨name, kind⟩ := param
  obtain ⟨hfits, hread⟩ := hmore
  obtain ⟨t, after, rfl, ht, hafter⟩ := Starts.uncons h
  have hname : Starts (t :: after) [.identifier name] after :=
    ⟨[t], rfl, by rw [List.map_singleton, ht]⟩
  obtain ⟨hfits', hread'⟩ := reads_expectIdentifier finalLine hname
  have hfirst := Starts.kindOf h
  cases kind with
  | none =>
    have hcomma := Starts.kindOf hafter
    obtain ⟨comma, more, rfl, -, hlast⟩ := Starts.uncons hafter
    obtain rfl := starts_nil hlast
    refine ⟨by simp only [List.length_cons]; omega, ?_⟩
    unfold parameters
    simp only [hfirst, hread', hfresh, hcomma, hread, List.tail_cons, bind, Except.bind,
      pure, Except.pure]
    rfl
  | some kind =>
    have hcolon := Starts.kindOf hafter
    obtain ⟨colon, more, rfl, -, hmore⟩ := Starts.uncons hafter
    obtain ⟨commas, hkind', hcommas⟩ := Starts.first hmore
    obtain ⟨hfits'', hread''⟩ := reads_annotatedKind finalLine (hkind kind rfl) hkind'
    have hcomma := hcommas.kindOf
    obtain ⟨comma, more, rfl, -, hlast⟩ := hcommas.uncons
    obtain rfl := starts_nil hlast
    simp only [List.length_cons] at hfits''
    refine ⟨by simp only [List.length_cons]; omega, ?_⟩
    unfold parameters
    simp only [hfirst, hread', hfresh, hcolon, hread'', hcomma, hread, List.tail_cons,
      bind, Except.bind, pure, Except.pure]
    rfl

/-- The last parameter. -/
theorem parameters_last (hfresh : seen.any (·.name == param.name) = false)
    (hkind : ∀ kind ∈ param.kind, kind.Annotates)
    (h : Starts ts (param.tokens ++ [.symbol .rightParen]) rest) :
    Reads (parameters finalLine line seen ts) [param] rest := by
  obtain ⟨name, kind⟩ := param
  obtain ⟨t, after, rfl, ht, hafter⟩ := Starts.uncons h
  have hname : Starts (t :: after) [.identifier name] after :=
    ⟨[t], rfl, by rw [List.map_singleton, ht]⟩
  obtain ⟨hfits', hread'⟩ := reads_expectIdentifier finalLine hname
  have hfirst := Starts.kindOf h
  cases kind with
  | none =>
    obtain ⟨hfits, hread⟩ := reads_expectSymbol finalLine hafter
    have hparen := Starts.kindOf hafter
    refine ⟨by simp only [List.length_cons]; omega, ?_⟩
    unfold parameters
    simp only [hfirst, hread', hfresh, hparen, hread, bind, Except.bind, pure, Except.pure]
    rfl
  | some kind =>
    have hcolon := Starts.kindOf hafter
    obtain ⟨colon, more, rfl, -, hmore⟩ := Starts.uncons hafter
    obtain ⟨parens, hkind', hparens⟩ := Starts.first hmore
    obtain ⟨hfits'', hread''⟩ := reads_annotatedKind finalLine (hkind kind rfl) hkind'
    obtain ⟨hfits, hread⟩ := reads_expectSymbol finalLine hparens
    have hparen := hparens.kindOf
    refine ⟨by simp only [List.length_cons]; omega, ?_⟩
    unfold parameters
    simp only [hfirst, hread', hfresh, hcolon, hread'', hparen, hread, List.tail_cons,
      bind, Except.bind, pure, Except.pure]
    rfl

/-- The parameters of a definition that are left to read. -/
theorem reads_parameters (hdistinct : ((seen ++ params).map Param.name).Nodup)
    (hkinds : ∀ param ∈ params, ∀ kind ∈ param.kind, kind.Annotates)
    (h : Starts ts (Expr.listed (params.map Param.tokens) ++ [.symbol .rightParen]) rest) :
    Reads (parameters finalLine line seen ts) params rest := by
  induction params generalizing seen ts with
  | nil =>
    obtain ⟨t, more, rfl, ht, hmore⟩ := Starts.uncons h
    obtain rfl := starts_nil hmore
    refine ⟨by simp only [List.length_cons]; omega, ?_⟩
    unfold parameters
    simp only [kindOf, ht]
    rfl
  | cons param params ih =>
    obtain ⟨hkind, hkinds⟩ := List.forall_mem_cons.mp hkinds
    have hfresh : seen.any (·.name == param.name) = false := by
      rw [List.map_append, List.nodup_append] at hdistinct
      simp only [List.any_eq_false, beq_iff_eq]
      intro earlier hearlier heq
      exact hdistinct.2.2 _ (List.mem_map_of_mem hearlier) _
        (List.mem_map_of_mem List.mem_cons_self) heq
    cases params with
    | nil =>
      rw [List.map_singleton, Expr.listed_singleton] at h
      exact parameters_last finalLine line hfresh hkind h
    | cons next params =>
      have hsplit : Starts ts (param.tokens ++ [.symbol .comma] ++
          (Expr.listed ((next :: params).map Param.tokens) ++ [.symbol .rightParen])) rest := by
        rw [List.map_cons, List.map_cons, Expr.listed_cons_cons] at h
        simpa using h
      obtain ⟨middle, hfront, hmiddle⟩ := hsplit.split
      refine parameters_comma finalLine line hfresh hkind hfront (ih ?_ hkinds hmiddle)
      rwa [List.append_assoc, List.singleton_append]

theorem reads_returnKind {returns : Option Kind}
    (hkind : ∀ kind ∈ returns, kind = .void ∨ kind.Annotates) (hrest : kindOf rest ≠ .symbol .arrow)
    (h : Starts ts (returnTokens returns) rest) :
    Reads (returnKind finalLine ts) returns rest := by
  unfold returnTokens at h
  split at h
  · obtain rfl := starts_nil h
    refine ⟨Nat.lt_succ_self _, ?_⟩
    unfold returnKind
    split
    · exact absurd rfl hrest
    · rfl
  · obtain ⟨⟨_, span⟩, after, rfl, rfl, hafter⟩ := h.uncons
    obtain ⟨t, more, rfl, ht, hmore⟩ := hafter.uncons
    obtain rfl := starts_nil hmore
    refine ⟨by simp only [List.length_cons]; omega, ?_⟩
    unfold returnKind
    simp only [kindOf, ht, if_true, List.tail_cons]
    rfl
  · next kind hvoid =>
    obtain ⟨⟨_, span⟩, after, rfl, rfl, hafter⟩ := h.uncons
    obtain ⟨hfits, hread⟩ :=
      reads_annotatedKind finalLine ((hkind kind rfl).resolve_left hvoid) hafter
    have hname := hafter.kindOf
    refine ⟨by simp only [List.length_cons]; omega, ?_⟩
    unfold returnKind
    simp only [hname, hread, bind, Except.bind]
    rfl

/-- What follows `def`. -/
theorem reads_functionHead {head : FunctionHead} (hhead : head.Allowed)
    (h : Starts ts (head.tokens.tail ++ [.symbol .colon]) rest) :
    Reads (functionHead finalLine line ts) head rest := by
  obtain ⟨name, params, returns, isEntry⟩ := head
  have hkinds : (FunctionHead.tokens ⟨name, params, returns, isEntry⟩).tail ++ [.symbol .colon] =
      [.identifier name] ++ ([.symbol .leftParen] ++ ((Expr.listed (params.map Param.tokens) ++
        [.symbol .rightParen]) ++ (returnTokens returns ++ [.symbol .colon]))) := by
    simp [FunctionHead.tokens]
  rw [hkinds] at h
  obtain ⟨afterName, hname, h⟩ := h.split
  obtain ⟨afterOpen, hopen, h⟩ := h.split
  obtain ⟨afterParams, hparams, h⟩ := h.split
  obtain ⟨afterReturns, hreturns, hcolon⟩ := h.split
  have harrow : kindOf afterReturns ≠ .symbol .arrow := by
    rw [hcolon.kindOf]
    nofun
  obtain ⟨hfits₁, hread₁⟩ := reads_expectIdentifier finalLine hname
  obtain ⟨hfits₂, hread₂⟩ := reads_expectSymbol finalLine hopen
  obtain ⟨hfits₃, hread₃⟩ :=
    reads_parameters finalLine line (List.nil_append params ▸ hhead.distinct) hhead.params hparams
  obtain ⟨hfits₄, hread₄⟩ := reads_returnKind finalLine hhead.returns harrow hreturns
  obtain ⟨hfits₅, hread₅⟩ := reads_expectSymbol finalLine hcolon
  have hentry := hhead.isEntry
  dsimp only at hentry
  have hnone : (entryPoints.contains name && !params.isEmpty) = false := by
    cases hcalled : entryPoints.contains name with
    | false => rfl
    | true =>
      have hempty : params = [] := (hhead.entry (hentry.trans hcalled)).1
      rw [hempty]
      rfl
  have hvoid : (entryPoints.contains name && returns.any (· ≠ .void)) = false := by
    cases hcalled : entryPoints.contains name with
    | false => rfl
    | true =>
      cases returns with
      | none => rfl
      | some kind => simp [(hhead.entry (hentry.trans hcalled)).2 kind rfl]
  refine ⟨by omega, ?_⟩
  unfold functionHead
  simp only [hread₁, hread₂, hread₃, hread₄, hread₅, hnone, hvoid, bind, Except.bind, hentry]
  rfl

theorem path_range : Expr.Path "range" := .word ⟨'r', "ange".toList, by decide⟩ (by decide)

theorem named_stepExpr (step : Int) : (stepExpr step).Named := by
  unfold stepExpr
  split
  · exact .unary .literal
  · exact .literal

theorem named_range {bounds : Bounds} (h : bounds.Allowed) :
    (Expr.call "range" bounds.args).Named := by
  refine .call path_range ?_
  unfold Bounds.args
  split
  · exact List.forall_mem_singleton.mpr h.stop
  · next start hstart =>
    have hnamed := h.start start hstart
    split
    · simp [hnamed, h.stop]
    · simp [hnamed, h.stop, named_stepExpr]

theorem stepOf_stepExpr {step : Int} (h : step ≠ 0) : stepOf line (stepExpr step) = .ok step := by
  unfold stepExpr
  split
  · unfold stepOf
    simp [h, bind, Except.bind, pure, Except.pure]
  · unfold stepOf
    simp [h, bind, Except.bind, pure, Except.pure]

theorem boundsOf_args {bounds : Bounds} (h : bounds.Allowed) :
    boundsOf line bounds.args = .ok bounds := by
  obtain ⟨start, stop, step⟩ := bounds
  unfold Bounds.args
  cases start with
  | none =>
    have hstep : step = 1 := h.implicit rfl
    rw [hstep]
    rfl
  | some start =>
    dsimp only
    split
    · next hone =>
      rw [hone]
      rfl
    · simp only [boundsOf, stepOf_stepExpr line h.step, bind, Except.bind]
      rfl

/-- What follows `for`. -/
theorem reads_loopHead {var : String} {bounds : Bounds} (hbounds : bounds.Allowed)
    (h : Starts ts (.identifier var :: .keyword .inRange ::
      ((Expr.call "range" bounds.args).tokens ++ [.symbol .colon])) rest) :
    Reads (loopHead finalLine line ts) (var, bounds) rest := by
  obtain ⟨afterName, hname, h⟩ := Starts.first h
  obtain ⟨afterIn, hin, h⟩ := Starts.first h
  have h : Starts afterIn ((Expr.call "range" bounds.args).tokens ++ [.symbol .colon]) rest := h
  obtain ⟨afterCall, hcall, hcolon⟩ := h.split
  have hcomma : kindOf afterName ≠ .symbol .comma := by
    rw [hin.kindOf]
    nofun
  obtain ⟨hfits₁, hread₁⟩ := reads_expectIdentifier finalLine hname
  obtain ⟨hfits₂, hread₂⟩ := reads_expectKeyword finalLine hin
  obtain ⟨hfits₃, hread₃⟩ :=
    Expr.whole_tokens (named_range hbounds) finalLine hcall (by rw [hcolon.kindOf]; rfl)
  obtain ⟨hfits₄, hread₄⟩ := reads_expectSymbol finalLine hcolon
  refine ⟨by omega, ?_⟩
  unfold loopHead
  simp only [hread₁, hcomma, hread₂, hread₃, boundsOf_args line hbounds, hread₄, bind, Except.bind]
  rfl

end Heads

end Program

end Sketchwright
