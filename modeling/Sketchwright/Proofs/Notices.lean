import Sketchwright.Proofs.Blocks
import Sketchwright.Proofs.Trees

/-! Comments and blank lines. A text has them as tokens and its program as statements: the grammar
keeps each of them in the order of the text, and puts the comment at the end of a line after the
statement or at the start of the block that it follows. -/

namespace Sketchwright

mutual

/-- The comments and blank lines in a statement, from top to bottom. -/
def Stmt.trivia : Stmt → List Stmt
  | .function _ _ _ _ body => triviaIn body
  | .conditional _ _ thenBody elseBody => triviaIn thenBody ++ triviaIn elseBody
  | .loop _ _ _ _ body => triviaIn body
  | .comment line style text => [.comment line style text]
  | .blank line => [.blank line]
  | _ => []

def triviaIn : List Stmt → List Stmt
  | [] => []
  | stmt :: stmts => stmt.trivia ++ triviaIn stmts

end

theorem triviaIn_append (stmts more : List Stmt) :
    triviaIn (stmts ++ more) = triviaIn stmts ++ triviaIn more := by
  induction stmts with
  | nil => rfl
  | cons stmt stmts ih => rw [List.cons_append, triviaIn, triviaIn, ih, List.append_assoc]

mutual

/-- Comments at the end of a line stand after simple statements, or first in a block, on
the line of its head. -/
inductive Stmt.Noted : Stmt → Prop
  | function {line head signature hoisted body} (hbody : NotedAll true body) :
      Stmt.Noted (.function line head signature hoisted body)
  | conditional {line condition thenBody elseBody} (hthen : NotedAll true thenBody)
      (helse : NotedAll true elseBody) : Stmt.Noted (.conditional line condition thenBody elseBody)
  | loop {line var bounds binding body} (hbody : NotedAll true body) :
      Stmt.Noted (.loop line var bounds binding body)
  | simple {stmt} (h : stmt.isSimple = true) : Stmt.Noted stmt
  | line {line text} : Stmt.Noted (.comment line .line text)
  | blank {line} : Stmt.Noted (.blank line)

/-- The same for a list of statements, which may start with such a comment where `noted` holds. -/
inductive NotedAll : Bool → List Stmt → Prop
  | nil {noted} : NotedAll noted []
  | note {line text stmts} (hstmts : NotedAll false stmts) :
      NotedAll true (.comment line .trailing text :: stmts)
  | cons {noted stmt stmts} (hstmt : stmt.Noted) (hstmts : NotedAll stmt.isSimple stmts) :
      NotedAll noted (stmt :: stmts)

end

namespace Stmt.Noted

variable {line : Nat} {body : List Stmt}

theorem function_body {head : FunctionHead} {signature : Option Signature}
    {hoisted : List (String × Kind)}
    (h : Stmt.Noted (.function line head signature hoisted body)) : NotedAll true body := by
  cases h with
  | function hbody => exact hbody
  | simple h => cases h

theorem conditional_bodies {condition : Expr} {elseBody : List Stmt}
    (h : Stmt.Noted (.conditional line condition body elseBody)) :
    NotedAll true body ∧ NotedAll true elseBody := by
  cases h with
  | conditional hthen helse => exact ⟨hthen, helse⟩
  | simple h => cases h

theorem loop_body {var : String} {bounds : Bounds} {binding : Binding}
    (h : Stmt.Noted (.loop line var bounds binding body)) : NotedAll true body := by
  cases h with
  | loop hbody => exact hbody
  | simple h => cases h

end Stmt.Noted

namespace NotedAll

variable {noted : Bool} {stmts more : List Stmt}

theorem weaken (h : NotedAll false stmts) : NotedAll noted stmts := by
  cases h with
  | nil => exact .nil
  | cons hstmt hstmts => exact .cons hstmt hstmts

theorem append (h : NotedAll noted stmts) (hmore : NotedAll false more) :
    NotedAll noted (stmts ++ more) := by
  induction stmts generalizing noted with
  | nil => exact hmore.weaken
  | cons stmt stmts ih =>
    cases h with
    | note hstmts => exact .note (ih hstmts)
    | cons hstmt hstmts => exact .cons hstmt (ih hstmts)

theorem of_append (h : NotedAll noted (stmts ++ more)) : NotedAll noted stmts := by
  induction stmts generalizing noted with
  | nil => exact .nil
  | cons stmt stmts ih =>
    cases h with
    | note hstmts => exact .note (ih hstmts)
    | cons hstmt hstmts => exact .cons hstmt (ih hstmts)

/-- After a statement other than a comment or a blank line no such comment comes first. -/
theorem right_of_append (h : NotedAll noted (stmts ++ more))
    (hmore : ∀ stmt ∈ more.head?, stmt.isTrivia = false) :
    NotedAll false more := by
  induction stmts generalizing noted with
  | nil =>
    cases h with
    | nil => exact .nil
    | note hstmts => cases hmore _ rfl
    | cons hstmt hstmts => exact .cons hstmt hstmts
  | cons stmt stmts ih =>
    cases h with
    | note hstmts => exact ih hstmts
    | cons hstmt hstmts => exact ih hstmts

theorem single {stmt : Stmt} (h : stmt.Noted) : NotedAll noted [stmt] := .cons h .nil

end NotedAll

namespace Program

open Reading

/-- Where a token stands: first in its line, right after a colon, or further on. -/
inductive Standing where
  | first
  | afterColon
  | inside
  deriving DecidableEq

/-- The comments and blank lines among tokens, as the statements that they are. A string literal is
one of them where it is a statement: where one may start, with the end of the line after it. -/
def notices : Standing → List Token → List Stmt
  | _, [] => []
  | standing, t :: ts =>
    match t.kind with
    | .comment text =>
      .comment t.line (if standing = .first then .line else .trailing) text :: notices standing ts
    | .blankLine => .blank t.line :: notices standing ts
    | .string text =>
      if standing ≠ .inside ∧ (kindOf ts).endsLine then
        .comment t.line .block text :: notices .inside ts
      else notices .inside ts
    | .symbol .colon => notices .afterColon ts
    | .newline | .indent | .dedent => notices .first ts
    | _ => notices .inside ts

variable {finalLine line : Nat} {standing : Standing} {t : Token} {ts rest : List Token}

section Notices

theorem notices_inExpr (ht : t.kind.inExpr = true)
    (hstring : t.kind.isString = true → standing = .inside ∨ (kindOf ts).endsLine = false) :
    notices standing (t :: ts) = notices .inside ts := by
  rw [notices]
  split
  case h_3 hkind =>
    rw [hkind] at hstring
    refine if_neg fun hends => ?_
    rcases hstring rfl with hinside | hopen
    · exact hends.1 hinside
    · exact Bool.false_ne_true (hopen.symm.trans hends.2)
  case h_8 => rfl
  all_goals next hkind =>
    rw [hkind] at ht
    cases ht

/-- Inside a line an expression holds no comments and no blank lines. -/
theorem notices_of_inExpr (h : InExpr ts rest) : notices .inside ts = notices .inside rest := by
  obtain ⟨code, rfl, hcode⟩ := h
  induction code with
  | nil => rfl
  | cons t code ih =>
    obtain ⟨ht, hcode⟩ := List.forall_mem_cons.mp hcode
    rw [List.cons_append, notices_inExpr ht fun _ => .inl rfl, ih hcode]

/-- Nor does it where a statement starts, unless it is a lone string literal. -/
theorem notices_of_starts (h : InExpr (t :: ts) rest) (hfits : rest.length < (t :: ts).length)
    (hstring : t.kind.isString = true → (kindOf ts).endsLine = false) :
    notices standing (t :: ts) = notices .inside rest := by
  obtain ⟨code, heq, hcode⟩ := h
  cases code with
  | nil =>
    rw [heq] at hfits
    exact absurd hfits (lt_irrefl _)
  | cons u code =>
    obtain ⟨rfl, rfl⟩ := List.cons_eq_cons.mp heq
    obtain ⟨ht, hcode⟩ := List.forall_mem_cons.mp hcode
    rw [notices_inExpr ht fun h => .inr (hstring h)]
    exact notices_of_inExpr ⟨code, rfl, hcode⟩

/-- A token that is looked at is passed over. -/
theorem notices_tail {kind : TokenKind} (hkind : kindOf ts = kind) (hexpr : kind.inExpr = true) :
    notices .inside ts = notices .inside ts.tail := by
  cases ts with
  | nil => rfl
  | cons t ts => exact notices_inExpr (by rwa [← hkind] at hexpr) fun _ => .inl rfl

theorem notices_colon (hkind : kindOf ts = .symbol .colon) :
    notices .inside ts = notices .afterColon ts.tail := by
  cases ts with
  | nil => rfl
  | cons t ts =>
    have ht : t.kind = .symbol .colon := hkind
    rw [notices, ht]
    rfl

theorem notices_append_eof {eof : Token} (heof : eof.kind = .eof) :
    notices standing (ts ++ [eof]) = notices standing ts := by
  have hend : ∀ us : List Token, kindOf (us ++ [eof]) = kindOf us := by
    intro us
    cases us with
    | nil => exact heof
    | cons u us => rfl
  induction ts generalizing standing with
  | nil => simp [notices, heof]
  | cons t ts ih => simp only [List.cons_append, notices, ih, hend]

end Notices

section Lines

/-- An identifier that is read is one token. -/
theorem expectIdentifier_takes : Yields (expectIdentifier finalLine ts) fun r =>
    ∃ t, t.kind = .identifier r.value ∧ ts = t :: r.rest := by
  unfold expectIdentifier
  split
  · exact .fail
  · split
    · next hkind => exact .pure ⟨_, hkind, rfl⟩
    · exact .fail

theorem expectIdentifier_notices :
    Yields (expectIdentifier finalLine ts) fun r =>
      ∀ standing, notices standing ts = notices .inside r.rest := by
  refine expectIdentifier_takes.imp ?_
  rintro ⟨name, rest, h⟩ ⟨t, hkind, heq⟩ standing
  dsimp only at hkind heq ⊢
  subst heq
  exact notices_inExpr (by rw [hkind]; rfl) (by rw [hkind]; nofun)

theorem annotatedKind_notices :
    Yields (annotatedKind finalLine ts) fun r =>
      ∀ standing, notices standing ts = notices .inside r.rest := by
  unfold annotatedKind
  refine .bind expectIdentifier_notices ?_
  rintro ⟨name, rest, h⟩ hrest
  dsimp only
  split
  · exact .pure hrest
  · exact .fail

theorem expectSymbol_notices {s : Symbol} : Yields (expectSymbol finalLine s ts) fun r =>
    notices .inside ts = notices (if s = .colon then .afterColon else .inside) r.rest := by
  refine expectSymbol_settles.yields.imp ?_
  rintro ⟨_, rest, h⟩ ⟨t, hkind, heq⟩
  dsimp only at heq ⊢
  subst heq
  rw [notices]
  cases s <;> (rw [hkind]; rfl)

/-- A statement that is no comment keeps to the code of its line. -/
theorem assignmentOrExpr_notices (hstring : t.kind.isString = true → (kindOf ts).endsLine = false) :
    Yields (assignmentOrExpr finalLine line (t :: ts)) fun r =>
      r.value.isSimple = true ∧ r.value.trivia = [] ∧
        ∀ standing, notices standing (t :: ts) = notices .inside r.rest := by
  unfold assignmentOrExpr
  refine .check fun _ => .bind Expr.parse_settles.yields ?_
  rintro ⟨left, rest, h⟩ hleft
  have hrest : ∀ standing, notices standing (t :: ts) = notices .inside rest :=
    fun _ => notices_of_starts hleft h hstring
  dsimp only at h ⊢
  split
  · next hequal =>
    split
    · exact .fail
    · refine .bind Expr.parse_settles.yields ?_
      rintro ⟨value, rest', h'⟩ hvalue
      refine .check fun _ => .pure ⟨rfl, rfl, fun standing => ?_⟩
      rw [hrest standing, notices_tail hequal rfl]
      exact notices_of_inExpr hvalue
  · next hcolon =>
    split
    · refine .bind annotatedKind_notices ?_
      rintro ⟨kind, rest', h'⟩ hkind
      refine .check fun hequal => .bind Expr.parse_settles.yields ?_
      rintro ⟨value, rest'', h''⟩ hvalue
      refine .pure ⟨rfl, rfl, fun standing => ?_⟩
      rw [hrest standing, notices_colon hcolon, hkind,
        notices_tail (Decidable.not_not.mp hequal) rfl]
      exact notices_of_inExpr hvalue
    · exact .fail
  · exact .fail
  · exact .fail
  · exact .pure ⟨rfl, rfl, hrest⟩

/-- A statement on one line is a comment if it is a lone string literal. -/
theorem simpleForm_notices {place : Place} : Yields (simpleForm finalLine place ts) fun r =>
    r.value.isSimple = true ∧ ∀ standing, standing ≠ .inside →
      notices standing ts = r.value.trivia ++ notices .inside r.rest := by
  unfold simpleForm
  split
  · exact .fail
  · next t ts =>
    have hkeyword : ∀ {k}, t.kind = .keyword k →
        ∀ standing, notices standing (t :: ts) = notices .inside ts :=
      fun hkind standing => notices_inExpr (by rw [hkind]; rfl)
        (by simp [hkind, TokenKind.isString])
    have hform : (t.kind.isString = true → (kindOf ts).endsLine = false) →
        Yields (assignmentOrExpr finalLine t.line (t :: ts)) fun r => r.value.isSimple = true ∧
          ∀ standing, standing ≠ .inside →
          notices standing (t :: ts) = r.value.trivia ++ notices .inside r.rest := by
      intro hstring
      refine (assignmentOrExpr_notices hstring).imp ?_
      rintro r ⟨hsimple, htrivia, hrest⟩
      exact ⟨hsimple, fun standing _ => by rw [htrivia, hrest standing, List.nil_append]⟩
    split
    · next hkind =>
      refine .check fun _ => ?_
      split
      · exact .pure ⟨rfl, fun standing _ => hkeyword hkind standing⟩
      · refine .bind Expr.parse_settles.yields ?_
        rintro ⟨value, rest, h⟩ hvalue
        exact .pure ⟨rfl, fun standing _ =>
          (hkeyword hkind standing).trans (notices_of_inExpr hvalue)⟩
    · next hkind => exact .pure ⟨rfl, fun standing _ => hkeyword hkind standing⟩
    · next hkind => exact .check fun _ => .pure ⟨rfl, fun standing _ => hkeyword hkind standing⟩
    · next hkind => exact .check fun _ => .pure ⟨rfl, fun standing _ => hkeyword hkind standing⟩
    · next hkind =>
      refine .check fun _ => .bind names_settles.yields ?_
      rintro ⟨ids, rest, h⟩ hids
      exact .pure ⟨rfl, fun standing _ => (hkeyword hkind standing).trans (notices_of_inExpr hids)⟩
    · next hkind =>
      split
      · exact .fail
      · exact hform (by simp [hkind, TokenKind.isString])
    · next text hkind =>
      split
      · next hends =>
        refine .pure ⟨rfl, fun standing hstanding => ?_⟩
        rw [notices, hkind]
        exact if_pos ⟨hstanding, hends⟩
      · next hopen => exact hform fun _ => Bool.eq_false_iff.mpr hopen
    · next hstring =>
      refine hform fun h => ?_
      cases hkind : t.kind with
      | string text => exact absurd hkind (hstring text)
      | _ =>
        rw [hkind] at h
        cases h

theorem endLine_notices :
    Yields (endLine finalLine ts) fun r =>
      ∀ standing, notices standing ts = notices .first r.rest := by
  unfold endLine
  split
  · exact .pure fun _ => rfl
  · split
    · next hnewline =>
      refine .pure fun standing => ?_
      rw [notices, hnewline]
    · exact .fail

/-- The end of a line has its comment, if there is one. -/
theorem finishLine_notices :
    Yields (finishLine finalLine ts) fun r => NotedAll true r.value ∧
    ∀ standing, standing ≠ .first →
      notices standing ts = triviaIn r.value ++ notices .first r.rest := by
  unfold finishLine
  split
  · refine .bind endLine_notices ?_
    rintro ⟨_, rest, h⟩ hrest
    refine .pure ⟨.note .nil, fun standing hstanding => ?_⟩
    rw [notices, if_neg hstanding, hrest standing]
    rfl
  · refine .bind endLine_notices ?_
    rintro ⟨_, rest, h⟩ hrest
    exact .pure ⟨.nil, fun standing _ => hrest standing⟩

/-- From `ts` to `rest` a reader takes whole lines, and its statements have the comments and
blank lines in between. -/
structure Keeps (standing : Standing) (noted : Bool) (ts rest : List Token)
    (stmts : List Stmt) : Prop where
  notices : notices standing ts = triviaIn stmts ++ notices .first rest
  noted : NotedAll noted stmts

theorem Keeps.append {noted : Bool} {us : List Token} {stmts more : List Stmt}
    (h : Keeps standing noted ts us stmts) (hmore : Keeps .first false us rest more) :
    Keeps standing noted ts rest (stmts ++ more) where
  notices := by rw [h.notices, hmore.notices, triviaIn_append, List.append_assoc]
  noted := h.noted.append hmore.noted

theorem simpleStatement_keeps {place : Place} (hstanding : standing ≠ .inside) :
    Yields (simpleStatement finalLine place ts) fun r =>
      Keeps standing false ts r.rest r.value := by
  unfold simpleStatement
  refine .bind simpleForm_notices ?_
  rintro ⟨stmt, rest, h⟩ ⟨hsimple, hstmt⟩
  refine .bind finishLine_notices ?_
  rintro ⟨note, rest', h'⟩ ⟨hnoted, hnote⟩
  refine .pure ⟨?_, .cons (.simple hsimple) (hsimple ▸ hnoted)⟩
  rw [hstmt standing hstanding, hnote .inside nofun, triviaIn, List.append_assoc]

end Lines

section Heads

theorem parameters_notices {seen : List Param} {ts : List Token} :
    Yields (parameters finalLine line seen ts) fun r =>
      notices .inside ts = notices .inside r.rest := by
  unfold parameters
  split
  · next hclose => exact .pure (notices_tail hclose rfl)
  · exact .fail
  · exact .fail
  refine .bind expectIdentifier_notices ?_
  rintro ⟨name, rest, h⟩ hrest
  dsimp only at h hrest ⊢
  refine .check fun _ => .bind (P := fun r => notices .inside rest = notices .inside r.rest) ?_ ?_
  · split
    · next hcolon =>
      refine .bind annotatedKind_notices ?_
      rintro ⟨kind, after, ha⟩ hafter
      exact .pure ((notices_colon hcolon).trans (hafter _))
    · exact .pure rfl
  rintro ⟨kind, rest', h'⟩ hrest'
  dsimp only at h' hrest' ⊢
  split
  · exact .fail
  · next hcomma =>
    refine .bind parameters_notices ?_
    rintro ⟨more, after, ha⟩ hafter
    refine .pure ?_
    rw [hrest, hrest', notices_tail hcomma rfl, hafter]
  · refine .bind expectSymbol_notices ?_
    rintro ⟨_, after, ha⟩ hafter
    exact .pure ((hrest _).trans (hrest'.trans hafter))
termination_by ts.length

theorem returnKind_notices :
    Yields (returnKind finalLine ts) fun r => notices .inside ts = notices .inside r.rest := by
  unfold returnKind
  split
  · split
    · next hnone =>
        exact .pure ((notices_inExpr rfl fun _ => .inl rfl).trans (notices_tail hnone rfl))
    · refine .bind annotatedKind_notices ?_
      rintro ⟨kind, rest, h⟩ hrest
      exact .pure ((notices_inExpr rfl fun _ => .inl rfl).trans (hrest _))
  · exact .pure rfl

/-- The head of a function has no comments. -/
theorem functionHead_notices :
    Yields (functionHead finalLine line ts) fun r =>
      notices .inside ts = notices .afterColon r.rest := by
  unfold functionHead
  refine .bind expectIdentifier_notices ?_
  rintro ⟨name, rest, h⟩ hname
  refine .bind expectSymbol_notices ?_
  rintro ⟨_, rest, h⟩ hopen
  refine .bind parameters_notices ?_
  rintro ⟨params, rest, h⟩ hparams
  refine .bind returnKind_notices ?_
  rintro ⟨returns, rest, h⟩ hreturns
  refine .check fun _ => .check fun _ => .bind expectSymbol_notices ?_
  rintro ⟨_, rest, h⟩ hcolon
  exact .pure ((hname _).trans (hopen.trans (hparams.trans (hreturns.trans hcolon))))

/-- Nor does that of a loop. -/
theorem loopHead_notices :
    Yields (loopHead finalLine line ts) fun r =>
      notices .inside ts = notices .afterColon r.rest := by
  unfold loopHead
  refine .bind expectIdentifier_notices ?_
  rintro ⟨var, rest, h⟩ hvar
  refine .check fun _ => .bind expectKeyword_settles.yields ?_
  rintro ⟨_, rest, h⟩ hin
  refine .bind Expr.parse_settles.yields ?_
  rintro ⟨iterable, rest, h⟩ hiterable
  dsimp only
  split
  · refine .check fun _ => .bind boundsOf_settles.yields fun _ _ => .bind expectSymbol_notices ?_
    rintro ⟨_, rest, h⟩ hcolon
    exact .pure ((hvar _).trans
      ((notices_of_inExpr hin).trans ((notices_of_inExpr hiterable).trans hcolon)))
  · exact .fail

end Heads

section Blocks

/-- The lines of comments and blank lines before a branch. -/
theorem keeps_afterTrivia (ts : List Token) :
    Keeps .first false ts (afterTrivia ts)
      ((ts.takeWhile (·.kind.isTrivia)).filterMap ofTrivia?) := by
  unfold afterTrivia
  induction ts with
  | nil => exact ⟨rfl, .nil⟩
  | cons t ts ih =>
    rw [List.takeWhile_cons, List.dropWhile_cons]
    cases hkind : t.kind with
    | comment text =>
      have hstmt : ofTrivia? t = some (.comment t.line .line text) := by rw [ofTrivia?, hkind]
      refine ⟨?_, ?_⟩
      · simp only [TokenKind.isTrivia, if_true, List.filterMap_cons, hstmt, notices,
          hkind, ih.notices]
        rfl
      · simp only [TokenKind.isTrivia, if_true, List.filterMap_cons, hstmt]
        exact .cons .line ih.noted
    | blankLine =>
      have hstmt : ofTrivia? t = some (.blank t.line) := by rw [ofTrivia?, hkind]
      refine ⟨?_, ?_⟩
      · simp only [TokenKind.isTrivia, if_true, List.filterMap_cons, hstmt, notices,
          hkind, ih.notices]
        rfl
      · simp only [TokenKind.isTrivia, if_true, List.filterMap_cons, hstmt]
        exact .cons .blank ih.noted
    | _ => exact ⟨rfl, .nil⟩

mutual

theorem block_keeps {finalLine : Nat} {place : Place} {ts : List Token} :
    Yields (block finalLine place ts) fun r => Keeps .afterColon true ts r.rest r.value := by
  unfold block
  split
  · refine .bind finishLine_notices ?_
    rintro ⟨note, rest, h⟩ ⟨hnoted, hnote⟩
    dsimp only at h hnoted hnote ⊢
    cases rest with
    | nil => exact .fail
    | cons t rest =>
      dsimp only
      split
      · next hindent =>
        refine .bind blockBody_keeps ?_
        rintro ⟨body, after, h'⟩ hbody
        have hblock : notices .first (t :: rest) = notices .first rest := by rw [notices, hindent]
        refine .pure ⟨?_, hnoted.append hbody.noted⟩
        rw [hnote .afterColon nofun, hblock, hbody.notices, triviaIn_append, List.append_assoc]
      · exact .fail
  · have hcolon : Standing.afterColon ≠ .inside := nofun
    exact (simpleStatement_keeps hcolon).imp fun r hr => ⟨hr.notices, hr.noted.weaken⟩
termination_by (ts.length, 0)
decreasing_by
  simp only [List.length_cons] at h
  exact Prod.Lex.left _ _ (by omega)

theorem blockBody_keeps {finalLine : Nat} {place : Place} {ts : List Token} :
    Yields (blockBody finalLine place ts) fun r => Keeps .first false ts r.rest r.value := by
  cases ts with
  | nil =>
    unfold blockBody
    exact .pure ⟨rfl, .nil⟩
  | cons t ts =>
    unfold blockBody
    dsimp only
    split
    · next hdedent =>
      refine .pure ⟨?_, .nil⟩
      rw [notices, hdedent]
      rfl
    · next hnewline =>
      refine .bind blockBody_keeps ?_
      rintro ⟨body, rest, h⟩ hbody
      refine .pure ⟨?_, hbody.noted⟩
      rw [notices, hnewline]
      exact hbody.notices
    · refine .bind statement_keeps ?_
      rintro ⟨first, rest, h⟩ hfirst
      refine .bind blockBody_keeps ?_
      rintro ⟨more, rest', h'⟩ hmore
      exact .pure (hfirst.append hmore)
termination_by (ts.length, 0)
decreasing_by
  all_goals
    subst_vars
    exact Prod.Lex.left _ _ (by simp only [List.length_cons]; omega)

theorem statement_keeps {finalLine : Nat} {place : Place} {t : Token} {ts : List Token} :
    Yields (statement finalLine place t ts) fun r =>
      Keeps .first false (t :: ts) r.rest r.value := by
  have hkeyword : ∀ {k}, t.kind = .keyword k → notices .first (t :: ts) = notices .inside ts :=
    fun hkind => by rw [notices, hkind]
  unfold statement
  split
  · next hkind =>
    refine .pure ⟨?_, .single .line⟩
    rw [notices, hkind]
    rfl
  · next hkind =>
    refine .pure ⟨?_, .single .blank⟩
    rw [notices, hkind]
    rfl
  · next hkind =>
    refine .check fun _ => .bind functionHead_notices ?_
    rintro ⟨head, rest, h⟩ hhead
    refine .bind block_keeps ?_
    rintro ⟨body, rest', h'⟩ hbody
    refine .pure ⟨?_, .single (.function hbody.noted)⟩
    rw [hkeyword hkind, hhead, hbody.notices, triviaIn, Stmt.trivia, triviaIn, List.append_nil]
  · next hkind =>
    refine .bind conditional_keeps ?_
    rintro ⟨stmt, rest, h⟩ ⟨hrest, hnoted⟩
    refine .pure ⟨?_, .single hnoted⟩
    rw [hkeyword hkind, hrest, triviaIn, triviaIn, List.append_nil]
  · next hkind =>
    refine .bind loopHead_notices ?_
    rintro ⟨⟨var, bounds⟩, rest, h⟩ hhead
    refine .bind block_keeps ?_
    rintro ⟨body, rest', h'⟩ hbody
    refine .check fun _ => .pure ⟨?_, .single (.loop hbody.noted)⟩
    rw [hkeyword hkind, hhead, hbody.notices, triviaIn, Stmt.trivia, triviaIn, List.append_nil]
  · exact .fail
  · exact .fail
  · exact .fail
  · exact .fail
  · exact .fail
  · exact simpleStatement_keeps nofun
termination_by (ts.length, 1)

/-- The comments before a branch are those of the branch above. -/
theorem conditional_keeps {finalLine : Nat} {place : Place} {line : Nat} {ts : List Token} :
    Yields (conditional finalLine place line ts) fun r =>
      notices .inside ts = r.value.trivia ++ notices .first r.rest ∧ r.value.Noted := by
  unfold conditional
  refine .bind Expr.parse_settles.yields ?_
  rintro ⟨condition, rest, h₁⟩ hcondition
  refine .bind expectSymbol_notices ?_
  rintro ⟨_, rest, h₂⟩ hcolon
  refine .bind block_keeps ?_
  rintro ⟨body, rest, h₃⟩ hbody
  have hafter := keeps_afterTrivia rest
  have hlength := afterTrivia_length rest
  have hhead : notices .inside ts = triviaIn body ++ notices .first rest :=
    (notices_of_inExpr hcondition).trans (hcolon.trans hbody.notices)
  dsimp only
  split
  · next span after heq =>
    rw [heq] at hafter
    have hlength' : after.length < rest.length := by
      rw [heq] at hlength
      exact hlength
    refine .bind conditional_keeps ?_
    rintro ⟨stmt, rest', h'⟩ ⟨hrest', hnoted⟩
    refine .pure ⟨?_, .conditional (hbody.noted.append hafter.noted) (.single hnoted)⟩
    have hbranch : notices .first (⟨.keyword .elifBranch, span⟩ :: after) = notices .inside after :=
      rfl
    simp only [hhead, hafter.notices, hbranch, hrest', Stmt.trivia, triviaIn, triviaIn_append,
      List.append_assoc, List.append_nil]
  · next span after heq =>
    rw [heq] at hafter
    have hlength' : after.length < rest.length := by
      rw [heq] at hlength
      exact hlength
    refine .bind expectSymbol_notices ?_
    rintro ⟨_, rest', h'⟩ hcolon'
    refine .bind block_keeps ?_
    rintro ⟨elseBody, rest'', h''⟩ helse
    refine .pure ⟨?_, .conditional (hbody.noted.append hafter.noted) helse.noted⟩
    have hbranch : notices .first (⟨.keyword .elseBranch, span⟩ :: after) = notices .inside after :=
      rfl
    simp only [hhead, hafter.notices, hbranch, hcolon', if_true, helse.notices, Stmt.trivia,
      triviaIn_append, List.append_assoc]
  · refine .pure ⟨?_, .conditional hbody.noted .nil⟩
    rw [hhead, Stmt.trivia, triviaIn, List.append_nil]
termination_by (ts.length, 0)
decreasing_by
  all_goals exact Prod.Lex.left _ _ (by omega)

end

theorem topLevel_keeps {finalLine : Nat} {ts : List Token} {stmts : List Stmt}
    (h : topLevel finalLine ts = .ok stmts) : Keeps .first false ts [] stmts := by
  cases ts with
  | nil =>
    unfold topLevel at h
    cases h
    exact ⟨rfl, .nil⟩
  | cons t ts =>
    unfold topLevel at h
    split at h
    · next hnewline =>
      have hline : notices .first (t :: ts) = notices .first ts := by rw [notices, hnewline]
      obtain ⟨hnotices, hnoted⟩ := topLevel_keeps h
      exact ⟨hline.trans hnotices, hnoted⟩
    · obtain ⟨⟨first, rest, hfits⟩, hfirst, hbind⟩ := Outcome.bind_eq_ok.mp h
      obtain ⟨more, hmore, hpure⟩ := Outcome.bind_eq_ok.mp hbind
      cases hpure
      exact (statement_keeps _ hfirst).append (topLevel_keeps hmore)
termination_by ts.length
decreasing_by
  all_goals
    subst_vars
    simp only [List.length_cons]
    omega

end Blocks

theorem triviaIn_blanks {stmts : List Stmt} (h : ∀ stmt ∈ stmts, stmt.isBlank = true) :
    triviaIn stmts = stmts := by
  induction stmts with
  | nil => rfl
  | cons stmt stmts ih =>
    obtain ⟨hstmt, hstmts⟩ := List.forall_mem_cons.mp h
    rw [triviaIn, ih hstmts]
    cases stmt with
    | blank line => rfl
    | _ => cases hstmt

/-- A program is all of its statements, without the blank lines at the end. -/
theorem exists_blanks (stmts : List Stmt) : ∃ kept blanks, stmts = kept ++ blanks ∧
    (ofStatements stmts).header ++ (ofStatements stmts).statements = kept ∧
    (∀ stmt ∈ (ofStatements stmts).statements.head?, stmt.isTrivia = false) ∧
    (∀ stmt ∈ blanks, stmt.isBlank = true) ∧ ∀ stmt ∈ kept.getLast?, stmt.isBlank = false := by
  refine ⟨(stmts.reverse.dropWhile Stmt.isBlank).reverse,
    (stmts.reverse.takeWhile Stmt.isBlank).reverse, ?_, List.takeWhile_append_dropWhile,
    fun stmt hstmt => ?_, fun stmt hstmt => ?_, fun stmt hstmt => ?_⟩
  · rw [← List.reverse_append, List.takeWhile_append_dropWhile, List.reverse_reverse]
  · have hnot :=
      List.head?_dropWhile_not Stmt.isTrivia (stmts.reverse.dropWhile Stmt.isBlank).reverse
    rw [ofStatements] at hstmt
    dsimp only at hstmt
    rw [hstmt] at hnot
    exact hnot
  · exact List.mem_takeWhile_imp (List.mem_reverse.mp hstmt)
  · rw [List.getLast?_reverse] at hstmt
    have hnot := List.head?_dropWhile_not Stmt.isBlank stmts.reverse
    rw [hstmt] at hnot
    exact hnot

/-- The comments and blank lines of a text are those of its program in the same order, up to blank
lines at the end, and its comments at the end of a line stand where the grammar puts them. -/
theorem ofSource_notices {source : String} {p : Program} (h : ofSource source = .ok p) :
    ∃ tokens blanks, Token.tokenize source = .ok tokens ∧
      notices .first tokens = triviaIn (p.header ++ p.statements) ++ blanks ∧
      (∀ stmt ∈ blanks, stmt.isBlank = true) ∧
      (∀ stmt ∈ (p.header ++ p.statements).getLast?, stmt.isBlank = false) ∧
      NotedAll false p.header ∧ NotedAll false p.statements := by
  rcases ofSource_cases source with ⟨e, he⟩ | ⟨code, t, htokens, heof, hread⟩
  · rw [he] at h
    cases h
  rw [hread] at h
  obtain ⟨stmts, hstmts, rfl⟩ :
      ∃ stmts, topLevel t.line code = .ok stmts ∧ p = ofStatements stmts := by
    cases hresult : read t.line code with
    | error fault =>
      rw [hresult] at h
      cases h
    | ok program =>
      rw [hresult] at h
      cases h
      obtain ⟨stmts, hstmts, hbind⟩ := Outcome.bind_eq_ok.mp hresult
      obtain ⟨_, -, hpure⟩ := Outcome.bind_eq_ok.mp hbind
      cases hpure
      exact ⟨stmts, hstmts, rfl⟩
  obtain ⟨hnotices, hnoted⟩ := topLevel_keeps hstmts
  obtain ⟨kept, blanks, rfl, hkept, hfirst, hblanks, hlast⟩ := exists_blanks stmts
  have hnoted' := hnoted.of_append
  rw [← hkept] at hnoted'
  refine ⟨code ++ [t], blanks, htokens, ?_, hblanks, ?_, hnoted'.of_append,
    hnoted'.right_of_append hfirst⟩
  · rw [notices_append_eof heof, hnotices, triviaIn_append, triviaIn_blanks hblanks, hkept]
    exact List.append_nil _
  · rwa [hkept]

end Program

end Sketchwright
