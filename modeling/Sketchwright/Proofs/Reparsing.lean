import Sketchwright.Proofs.Clauses

/-! The grammar reads the tokens of a program as that program, line numbers apart: by induction over
its statements, where each is read up to the tokens of the next one. -/

namespace Sketchwright.Program

open Reading

variable {place : Place} {ts rest : List Token} (finalLine : Nat)

section Blocks

variable {stmt : Stmt} {stmts next : List Stmt} {kinds : List TokenKind}

/-- After comments and blank lines comes no further branch. -/
def NoBranch (kinds : List TokenKind) : Prop :=
  ∀ kind ∈ (kinds.dropWhile TokenKind.isTrivia).head?,
    kind ≠ .keyword .elifBranch ∧ kind ≠ .keyword .elseBranch

theorem kindOf_afterTrivia (ts : List Token) :
    kindOf (afterTrivia ts) =
      (((ts.map Token.kind).dropWhile TokenKind.isTrivia).head?).getD .eof := by
  rw [List.dropWhile_map, List.head?_map]
  change kindOf (ts.dropWhile (TokenKind.isTrivia ∘ Token.kind)) = _
  cases ts.dropWhile (TokenKind.isTrivia ∘ Token.kind) <;> rfl

theorem NoBranch.kindOf (h : NoBranch (ts.map Token.kind)) :
    kindOf (afterTrivia ts) ≠ .keyword .elifBranch ∧
    kindOf (afterTrivia ts) ≠ .keyword .elseBranch := by
  rw [kindOf_afterTrivia]
  cases hhead : ((ts.map Token.kind).dropWhile TokenKind.isTrivia).head? with
  | none => exact ⟨nofun, nofun⟩
  | some kind => exact h kind hhead

/-- Kinds that a statement without a block may start with. -/
def startsSimple : TokenKind → Bool
  | .keyword .returnValue | .keyword .pass | .keyword .global => true
  | .keyword .breakLoop | .keyword .continueLoop => true
  | kind => Expr.starts kind

/-- Kinds that a statement may start with, comments and blank lines apart. -/
def startsCode : TokenKind → Bool
  | .keyword .define | .keyword .ifBranch | .keyword .forLoop => true
  | kind => startsSimple kind

theorem startsSimple_of_starts {kind : TokenKind} (h : Expr.starts kind = true) :
    startsSimple kind = true := by
  unfold startsSimple
  split <;> first | rfl | exact h

theorem startsCode_of_startsSimple {kind : TokenKind} (h : startsSimple kind = true) :
    startsCode kind = true := by
  unfold startsCode
  split <;> first | rfl | exact h

theorem startsSimple_tokens (h : stmt.Allowed place) (hsimple : stmt.isSimple = true) :
    ∃ kind more, stmt.tokens = kind :: more ∧ startsSimple kind = true := by
  cases h with
  | function | conditional | loop | line | blank => cases hsimple
  | assign htarget =>
    obtain ⟨word, more, hword, hsupported⟩ := starts_target htarget
    unfold Stmt.tokens
    rw [hword]
    exact ⟨_, _, rfl, Expr.starts_identifier hsupported⟩
  | @annotated _ _ id _ _ hid =>
    have htarget : (Target.name id).expr.Named := hid
    obtain ⟨word, more, hword, hsupported⟩ := starts_target htarget
    cases hword
    exact ⟨_, _, rfl, Expr.starts_identifier hsupported⟩
  | expr hvalue =>
    obtain ⟨kind, more, hkinds, hstart⟩ := (Expr.operand_tokens hvalue).start
    exact ⟨kind, more, by rw [Stmt.tokens, hkinds], startsSimple_of_starts hstart⟩
  | @give _ _ value => cases value <;> exact ⟨_, _, rfl, rfl⟩
  | global | block | pass | stop | skip => exact ⟨_, _, rfl, rfl⟩

theorem startsCode_tokens (h : stmt.Allowed place) :
    (∃ kind, stmt.tokens = [kind] ∧ kind.isTrivia = true ∧ stmt.isSimple = false) ∨
      ∃ kind more, stmt.tokens = kind :: more ∧ startsCode kind = true := by
  cases hsimple : stmt.isSimple with
  | true =>
    obtain ⟨kind, more, hkind, hstart⟩ := startsSimple_tokens h hsimple
    exact .inr ⟨kind, more, hkind, startsCode_of_startsSimple hstart⟩
  | false =>
    cases h with
    | line | blank => exact .inl ⟨_, rfl, rfl, rfl⟩
    | function | conditional | loop => exact .inr ⟨_, _, rfl, rfl⟩
    | assign | annotated | expr | give | global | block | pass | stop | skip => cases hsimple

theorem noBranch_nil : NoBranch [] := by simp [NoBranch]

theorem noBranch_dedent : NoBranch (.dedent :: kinds) := by simp [NoBranch, TokenKind.isTrivia]

theorem NoBranch.cons {kind : TokenKind} (hkind : kind.isTrivia = true) (h : NoBranch kinds) :
    NoBranch (kind :: kinds) := by
  unfold NoBranch
  rwa [List.dropWhile_cons_of_pos hkind]

theorem NoBranch.code {kind : TokenKind} (hkind : startsCode kind = true) :
    NoBranch (kind :: kinds) := by
  have hcode : ¬kind.isTrivia = true := fun htrivia => by
    cases kind <;> first | exact absurd htrivia Bool.false_ne_true |
      exact absurd hkind Bool.false_ne_true
  unfold NoBranch
  rw [List.dropWhile_cons_of_neg hcode]
  rintro _ ⟨⟩
  constructor <;>
  · rintro rfl
    cases hkind

theorem blockTokens_note {line : Nat} {text : String} :
    blockTokens (.comment line .trailing text :: stmts) = blockTokens stmts := rfl

theorem noBranch_blockTokens {noted : Bool} (h : AllowedAll place noted stmts)
    (hkinds : NoBranch kinds) :
    NoBranch (blockTokens stmts ++ kinds) := by
  induction stmts generalizing noted with
  | nil => exact hkinds
  | cons stmt stmts ih =>
    cases h with
    | note hstmts =>
      rw [blockTokens_note]
      exact ih hstmts
    | cons hstmt hstmts =>
      rw [blockTokens]
      rcases startsCode_tokens hstmt with ⟨kind, hkind, htrivia, hsimple⟩ |
        ⟨kind, more, hkind, hcode⟩
      · rw [hkind, Stmt.ending, hsimple]
        exact .cons htrivia (ih hstmts)
      · rw [hkind]
        exact .code hcode

/-- A statement is read from its tokens, with the comment at the end of its line; a conditional also
where it goes on with another one. -/
structure Parses (place : Place) (stmt : Stmt) : Prop where
  statement : ∀ finalLine next ⦃t ts rest⦄,
    Starts (t :: ts) (stmt.tokens ++ stmt.ending next) rest →
    NoBranch (rest.map Token.kind) →
      ReadsUpTo unlinedAll (statement finalLine place t ts)
      (stmt :: if stmt.isSimple then noteOf next else []) rest
  branch : Sketch.isChain [stmt] = true →
    ∀ finalLine line ⦃ts rest⦄, Starts ts stmt.tokens.tail rest →
    NoBranch (rest.map Token.kind) →
    ReadsUpTo Stmt.unlined (conditional finalLine place line ts) stmt rest

/-- The comment at the end of a line goes with the statement before it. -/
theorem note_append (h : AllowedAll place stmt.isSimple stmts) :
    (if stmt.isSimple then noteOf stmts else []) ++ afterNote stmts = stmts := by
  cases hsimple : stmt.isSimple with
  | true => exact noteOf_append stmts
  | false =>
    rw [hsimple] at h
    exact afterNote_of_allowed h

/-- The first statement of a list, and what it leaves to the others. -/
theorem Parses.first {after : List TokenKind} (hparses : Parses place stmt)
    (hstmt : stmt.Allowed place) (hstmts : AllowedAll place stmt.isSimple stmts)
    (hts : Starts ts (blockTokens (stmt :: stmts) ++ after) rest)
    (hafter : NoBranch (after ++ rest.map Token.kind)) :
    ∃ t more middle, ts = t :: more ∧ t.kind ≠ .newline ∧ t.kind ≠ .dedent ∧
      ReadsUpTo unlinedAll (Program.statement finalLine place t more)
        (stmt :: if stmt.isSimple then noteOf stmts else []) middle ∧
      Starts middle (blockTokens stmts ++ after) rest := by
  have hkinds : blockTokens (stmt :: stmts) ++ after =
      (stmt.tokens ++ stmt.ending stmts) ++ (blockTokens stmts ++ after) := by
    simp only [blockTokens, List.append_assoc]
  rw [hkinds] at hts
  obtain ⟨middle, hfront, hmiddle⟩ := hts.split
  have hbranch : NoBranch (middle.map Token.kind) := by
    rw [hmiddle.map_kind, List.append_assoc]
    exact noBranch_blockTokens hstmts hafter
  obtain ⟨kind, kinds, hkind, hmark⟩ :
      ∃ kind kinds, stmt.tokens = kind :: kinds ∧ kind ∉ [.newline, .dedent] := by
    rcases startsCode_tokens hstmt with ⟨kind, hkind, htrivia, -⟩ | ⟨kind, more, hkind, hcode⟩
    · exact ⟨kind, [], hkind, by cases kind <;>
        first | exact absurd htrivia Bool.false_ne_true | simp⟩
    · exact ⟨kind, more, hkind, by cases kind <;>
        first | exact absurd hcode Bool.false_ne_true | simp⟩
  have hstarts := hfront
  rw [hkind] at hstarts
  obtain ⟨t, more, rfl, rfl, -⟩ := Starts.uncons hstarts
  simp only [List.mem_cons, List.not_mem_nil, or_false, not_or] at hmark
  exact ⟨t, more, middle, rfl, hmark.1, hmark.2,
    hparses.statement finalLine stmts hfront hbranch, hmiddle⟩

/-- A block is read up to its end if each of its statements is. -/
theorem reads_blockBody {noted : Bool} (h : AllowedAll place noted stmts)
    (hparses : ∀ stmt ∈ stmts, stmt.Allowed place → Parses place stmt)
    (hts : Starts ts (blockTokens stmts ++ [.dedent]) rest) :
    ReadsUpTo unlinedAll (blockBody finalLine place ts) (afterNote stmts) rest := by
  induction stmts generalizing noted ts with
  | nil =>
    obtain ⟨t, more, rfl, ht, hmore⟩ := Starts.uncons hts
    obtain rfl := starts_nil hmore
    refine ⟨[], ⟨by simp only [List.length_cons]; omega, ?_⟩, rfl⟩
    unfold blockBody
    simp only [ht]
    rfl
  | cons stmt stmts ih =>
    obtain ⟨hfirst, hothers⟩ := List.forall_mem_cons.mp hparses
    cases h with
    | note hstmts =>
      obtain ⟨body, hread, hbody⟩ := ih hstmts hothers hts
      exact ⟨body, hread, by rw [hbody, afterNote_of_allowed hstmts, afterNote]⟩
    | cons hstmt hstmts =>
      have hend : NoBranch ([.dedent] ++ rest.map Token.kind) := noBranch_dedent
      obtain ⟨t, more, middle, rfl, hnewline, hdedent, ⟨first, ⟨hfits, hread⟩, hfirst⟩, hmiddle⟩ :=
        (hfirst hstmt).first finalLine hstmt hstmts hts hend
      obtain ⟨body, ⟨hfits', hread'⟩, hbody⟩ := ih hstmts hothers hmiddle
      have hall : unlinedAll (first ++ body) = unlinedAll (afterNote (stmt :: stmts)) := by
        have hself : afterNote (stmt :: stmts) = stmt :: stmts := by cases hstmt <;> rfl
        rw [unlinedAll_append, hfirst, hbody, ← unlinedAll_append, List.cons_append,
          note_append hstmts, hself]
      refine ⟨first ++ body, ⟨by simp only [List.length_cons]; omega, ?_⟩, hall⟩
      unfold blockBody
      split
      · next h => exact absurd h hdedent
      · next h => exact absurd h hnewline
      · simp only [hread, hread', bind, Except.bind]
        rfl

/-- What follows the head of a block. -/
theorem reads_block (h : AllowedAll place true stmts)
    (hparses : ∀ stmt ∈ stmts, stmt.Allowed place → Parses place stmt)
    (hts : Starts ts (lineEnd stmts ++ .indent :: (blockTokens stmts ++ [.dedent])) rest) :
    ReadsUpTo unlinedAll (block finalLine place ts) stmts rest := by
  obtain ⟨middle, hfront, hmiddle⟩ := hts.split
  have hend := endsLine_lineEnd hts
  obtain ⟨note, ⟨hfits, hread⟩, hnote⟩ := reads_finishLine finalLine hfront
  obtain ⟨indent, inside, rfl, hindent, hinside⟩ := hmiddle.uncons
  obtain ⟨body, ⟨hfits', hread'⟩, hbody⟩ := reads_blockBody finalLine h hparses hinside
  have hall : unlinedAll (note ++ body) = unlinedAll stmts := by
    rw [unlinedAll_append, hnote, hbody, ← unlinedAll_append, noteOf_append]
  simp only [List.length_cons] at hfits
  refine ⟨note ++ body, ⟨by omega, ?_⟩, hall⟩
  unfold block
  simp only [hend, if_true, hread, hindent, hread', bind, Except.bind]
  rfl

end Blocks

section Statements

variable {stmt : Stmt} {line : Nat}

/-- Statements that open no block are left to their own reader. -/
theorem statement_eq {t : Token} (h : startsSimple t.kind = true) :
    statement finalLine place t ts = simpleStatement finalLine place (t :: ts) := by
  unfold statement
  split
  all_goals first
    | rfl
    | next hkind =>
      rw [hkind] at h
      exact absurd h Bool.false_ne_true

/-- A statement on one line is read with the comment at its end. -/
theorem parses_simple (hstmt : stmt.Allowed place)
    (hsimple : stmt.isSimple = true) : Parses place stmt where
  statement finalLine next t ts rest hts _ := by
    rw [Stmt.ending, if_pos hsimple] at hts
    rw [if_pos hsimple]
    have hread := reads_simpleStatement finalLine hstmt hsimple hts
    obtain ⟨kind, more, hkind, hstart⟩ := startsSimple_tokens hstmt hsimple
    rw [hkind] at hts
    obtain rfl : t.kind = kind := Starts.kindOf hts
    rwa [statement_eq finalLine hstart]
  branch hchain := by
    cases stmt <;> first | exact absurd hsimple Bool.false_ne_true |
      exact absurd hchain Bool.false_ne_true

theorem parses_line {text : String} : Parses place (.comment line .line text) where
  statement finalLine next t ts rest hts _ := by
    obtain ⟨t, more, heq, ht, hmore⟩ := Starts.uncons hts
    cases heq
    obtain rfl := starts_nil hmore
    refine ⟨[.comment t.line .line text], ⟨Nat.lt_succ_self _, ?_⟩, rfl⟩
    unfold Program.statement
    simp only [ht]
    rfl
  branch := nofun

theorem parses_blank : Parses place (.blank line) where
  statement finalLine next t ts rest hts _ := by
    obtain ⟨t, more, heq, ht, hmore⟩ := Starts.uncons hts
    cases heq
    obtain rfl := starts_nil hmore
    refine ⟨[.blank t.line], ⟨Nat.lt_succ_self _, ?_⟩, rfl⟩
    unfold Program.statement
    simp only [ht]
    rfl
  branch := nofun

variable {body : List Stmt}

theorem parses_function {head : FunctionHead} (hplace : place.inFunction = false)
    (hhead : head.Allowed) (hbody : AllowedAll .function true body)
    (hparses : ∀ stmt ∈ body, stmt.Allowed .function → Parses .function stmt) :
    Parses place (.function line head none [] body) where
  statement finalLine next t ts rest hts _ := by
    have hkinds : (Stmt.function line head none [] body).tokens ++
        Stmt.ending (.function line head none [] body) next =
        .keyword .define :: ((head.tokens.tail ++ [.symbol .colon]) ++
          (lineEnd body ++ .indent :: (blockTokens body ++ [.dedent]))) := by
      simp [Stmt.tokens, FunctionHead.tokens, suite, Stmt.ending, Stmt.isSimple]
    rw [hkinds] at hts
    obtain ⟨t, more, heq, ht, hmore⟩ := Starts.uncons hts
    cases heq
    obtain ⟨middle, hfront, hmiddle⟩ := hmore.split
    obtain ⟨hfits, hread⟩ := reads_functionHead finalLine t.line hhead hfront
    obtain ⟨body', ⟨hfits', hread'⟩, hbody'⟩ := reads_block finalLine hbody hparses hmiddle
    refine ⟨[.function t.line head none [] body'], ⟨by omega, ?_⟩, ?_⟩
    · unfold Program.statement
      simp only [ht, hplace, hread, hread', bind, Except.bind]
      rfl
    · simp [unlinedAll, Stmt.unlined, Stmt.isSimple, hbody']
  branch := nofun

theorem parses_loop {var : String} {bounds : Bounds} (hbounds : bounds.Allowed)
    (hbody : AllowedAll { place with inLoop := true } true body)
    (hparses : ∀ stmt ∈ body, stmt.Allowed { place with inLoop := true } →
      Parses { place with inLoop := true } stmt) :
    Parses place (.loop line var bounds .unresolved body) where
  statement finalLine next t ts rest hts hbranch := by
    have hkinds : (Stmt.loop line var bounds .unresolved body).tokens ++
        Stmt.ending (.loop line var bounds .unresolved body) next =
        .keyword .forLoop :: ((.identifier var :: .keyword .inRange ::
          ((Expr.call "range" bounds.args).tokens ++ [.symbol .colon])) ++
          (lineEnd body ++ .indent :: (blockTokens body ++ [.dedent]))) := by
      simp [Stmt.tokens, suite, Stmt.ending, Stmt.isSimple]
    rw [hkinds] at hts
    obtain ⟨t, more, heq, ht, hmore⟩ := Starts.uncons hts
    cases heq
    obtain ⟨middle, hfront, hmiddle⟩ := hmore.split
    obtain ⟨hfits, hread⟩ := reads_loopHead finalLine t.line hbounds hfront
    obtain ⟨body', ⟨hfits', hread'⟩, hbody'⟩ := reads_block finalLine hbody hparses hmiddle
    refine ⟨[.loop t.line var bounds .unresolved body'], ⟨by omega, ?_⟩, ?_⟩
    · unfold Program.statement
      simp only [ht, hread, hread', hbranch.kindOf.2, bind, Except.bind]
      rfl
    · simp [unlinedAll, Stmt.unlined, Stmt.isSimple, hbody']
  branch := nofun

section Conditional

variable {condition : Expr} {thenBody elseBody : List Stmt}
  {afterCondition afterColon afterThen : List Token}
  {thenRead : List Stmt}

/-- After its body a conditional ends where no branch follows. -/
theorem conditional_end (hcondition : Reads (Expr.parse finalLine ts) condition afterCondition)
    (hcolon : Reads (expectSymbol finalLine .colon afterCondition) () afterColon)
    (hthen : Reads (block finalLine place afterColon) thenRead rest)
    (hrest : NoBranch (rest.map Token.kind)) :
    Reads (conditional finalLine place line ts) (.conditional line condition thenRead []) rest := by
  obtain ⟨hfits₁, hread₁⟩ := hcondition
  obtain ⟨hfits₂, hread₂⟩ := hcolon
  obtain ⟨hfits₃, hread₃⟩ := hthen
  obtain ⟨helif, helse⟩ := hrest.kindOf
  refine ⟨by omega, ?_⟩
  unfold conditional
  simp only [hread₁, hread₂, hread₃, bind, Except.bind]
  split
  · next h =>
    rw [h] at helif
    exact absurd rfl helif
  · next h =>
    rw [h] at helse
    exact absurd rfl helse
  · rfl

theorem conditional_elif (hcondition : Reads (Expr.parse finalLine ts) condition afterCondition)
    (hcolon : Reads (expectSymbol finalLine .colon afterCondition) () afterColon) {span : Span}
    {stmt : Stmt}
    (hthen : Reads (block finalLine place afterColon) thenRead
      (⟨.keyword .elifBranch, span⟩ :: afterThen))
    (hbranch : Reads (conditional finalLine place span.line afterThen) stmt rest) :
    Reads (conditional finalLine place line ts)
      (.conditional line condition thenRead [stmt]) rest := by
  obtain ⟨hfits₁, hread₁⟩ := hcondition
  obtain ⟨hfits₂, hread₂⟩ := hcolon
  obtain ⟨hfits₃, hread₃⟩ := hthen
  obtain ⟨hfits₄, hread₄⟩ := hbranch
  simp only [List.length_cons] at hfits₃
  refine ⟨by omega, ?_⟩
  rw [conditional]
  simp only [hread₁, hread₂, hread₃, bind, Except.bind]
  split
  · next h =>
    cases h
    simp only [hread₄, List.takeWhile_cons, TokenKind.isTrivia, Bool.false_eq_true, if_false,
      List.filterMap_nil, List.append_nil]
    rfl
  · next h => cases h
  · next h _ => exact absurd rfl (h _ _)

theorem conditional_else (hcondition : Reads (Expr.parse finalLine ts) condition afterCondition)
    (hcolon : Reads (expectSymbol finalLine .colon afterCondition) () afterColon) {span : Span}
    {elseRead : List Stmt}
    (hthen : Reads (block finalLine place afterColon) thenRead
      (⟨.keyword .elseBranch, span⟩ :: afterThen))
    {afterElse : List Token}
    (hcolon' : Reads (expectSymbol finalLine .colon afterThen) () afterElse)
    (helse : Reads (block finalLine place afterElse) elseRead rest) :
    Reads (conditional finalLine place line ts)
      (.conditional line condition thenRead elseRead) rest := by
  obtain ⟨hfits₁, hread₁⟩ := hcondition
  obtain ⟨hfits₂, hread₂⟩ := hcolon
  obtain ⟨hfits₃, hread₃⟩ := hthen
  obtain ⟨hfits₄, hread₄⟩ := hcolon'
  obtain ⟨hfits₅, hread₅⟩ := helse
  simp only [List.length_cons] at hfits₃
  refine ⟨by omega, ?_⟩
  rw [conditional]
  simp only [hread₁, hread₂, hread₃, bind, Except.bind]
  split
  · next h => cases h
  · next h =>
    cases h
    simp only [hread₄, hread₅, List.takeWhile_cons, TokenKind.isTrivia,
      Bool.false_eq_true, if_false, List.filterMap_nil, List.append_nil]
    rfl
  · next h => exact absurd rfl (h _ _)

/-- What follows `if` or `elif`. -/
theorem reads_conditional (line written : Nat) (hcondition : condition.Named)
    (hthen : AllowedAll place true thenBody) (helse : AllowedAll place true elseBody)
    (hthenParses : ∀ stmt ∈ thenBody, stmt.Allowed place → Parses place stmt)
    (helseParses : ∀ stmt ∈ elseBody, stmt.Allowed place → Parses place stmt)
    (hts : Starts ts (Stmt.conditional written condition thenBody elseBody).tokens.tail rest)
    (hrest : NoBranch (rest.map Token.kind)) :
    ReadsUpTo Stmt.unlined (conditional finalLine place line ts)
      (.conditional written condition thenBody elseBody)
      rest := by
  have hkinds : (Stmt.conditional written condition thenBody elseBody).tokens.tail =
      condition.tokens ++
      ([.symbol .colon] ++ ((lineEnd thenBody ++ .indent :: (blockTokens thenBody ++ [.dedent])) ++
        otherwise elseBody (blockTokens elseBody))) := by
    simp [Stmt.tokens, suite]
  rw [hkinds] at hts
  obtain ⟨afterCondition, hfront, hts⟩ := hts.split
  obtain ⟨afterColon, hcolon, hts⟩ := hts.split
  obtain ⟨afterThen, hbody, hotherwise⟩ := hts.split
  have hread := Expr.whole_tokens hcondition finalLine hfront (by rw [hcolon.kindOf]; rfl)
  have hread' := reads_expectSymbol finalLine hcolon
  obtain ⟨thenRead, hread'', hthenRead⟩ := reads_block finalLine hthen hthenParses hbody
  unfold otherwise at hotherwise
  split at hotherwise
  · next hchain =>
    obtain ⟨stmt, rfl⟩ : ∃ stmt, elseBody = [stmt] := by
      unfold Sketch.isChain at hchain
      split at hchain
      · exact ⟨_, rfl⟩
      · cases hchain
    have hall : blockTokens [stmt] = stmt.tokens := by
      cases stmt <;> first
        | exact absurd hchain Bool.false_ne_true
        | simp [blockTokens, Stmt.ending, Stmt.isSimple]
    rw [hall] at hotherwise
    obtain ⟨⟨_, span⟩, more, rfl, rfl, hmore⟩ := hotherwise.uncons
    have hstmt : stmt.Allowed place := by
      cases helse with
      | note => cases hchain
      | cons hstmt => exact hstmt
    have hparses := helseParses stmt (List.mem_singleton_self _) hstmt
    obtain ⟨branch, hread₃, hbranch⟩ := hparses.branch hchain finalLine span.line hmore hrest
    exact ⟨_, conditional_elif finalLine hread hread' hread'' hread₃, by
      simp [Stmt.unlined, unlinedAll, hthenRead, hbranch]⟩
  · split at hotherwise
    · next hempty =>
      obtain rfl := List.isEmpty_iff.mp hempty
      obtain rfl := starts_nil hotherwise
      exact ⟨_, conditional_end finalLine hread hread' hread''
        hrest, by simp [Stmt.unlined, hthenRead]⟩
    · obtain ⟨⟨_, span⟩, more, rfl, rfl, hmore⟩ := hotherwise.uncons
      obtain ⟨afterElse, hcolon', hsuite⟩ := Starts.first hmore
      obtain ⟨elseRead, hread₃, helseRead⟩ := reads_block finalLine helse helseParses hsuite
      have hcolon'' := reads_expectSymbol finalLine hcolon'
      exact ⟨_, conditional_else finalLine hread hread' hread'' hcolon'' hread₃,
        by simp [Stmt.unlined, hthenRead, helseRead]⟩

end Conditional

theorem parses_conditional {condition : Expr} {thenBody elseBody : List Stmt}
    (hcondition : condition.Named) (hthen : AllowedAll place true thenBody)
    (helse : AllowedAll place true elseBody)
    (hthenParses : ∀ stmt ∈ thenBody, stmt.Allowed place → Parses place stmt)
    (helseParses : ∀ stmt ∈ elseBody, stmt.Allowed place → Parses place stmt) :
    Parses place (.conditional line condition thenBody elseBody) where
  statement finalLine next t ts rest hts hrest := by
    have hending : Stmt.ending (.conditional line condition thenBody elseBody) next = [] := rfl
    rw [hending, List.append_nil] at hts
    obtain ⟨t, more, heq, ht, hmore⟩ := Starts.uncons hts
    cases heq
    obtain ⟨stmt, ⟨hfits, hread⟩, hstmt⟩ :=
      reads_conditional finalLine t.line line hcondition hthen helse hthenParses
      helseParses hmore hrest
    refine ⟨[stmt], ⟨by omega, ?_⟩, by simp [unlinedAll, Stmt.isSimple, hstmt]⟩
    unfold Program.statement
    simp only [ht, hread, bind, Except.bind]
    rfl
  branch _ finalLine line' ts rest hts hrest :=
    reads_conditional finalLine line' line hcondition hthen helse hthenParses helseParses hts hrest

/-- Every statement is read from its tokens. -/
theorem parses (stmt : Stmt) (place : Place) (h : stmt.Allowed place) : Parses place stmt := by
  induction stmt using Stmt.induct generalizing place with
  | function line head signature hoisted body ih =>
    cases h with
    | function hplace hhead hbody =>
      exact parses_function hplace hhead hbody fun stmt hstmt => ih stmt hstmt _
  | conditional line condition thenBody elseBody ihthen ihelse =>
    cases h with
    | conditional hcondition hthen helse =>
      exact parses_conditional hcondition hthen helse (fun stmt hstmt => ihthen stmt hstmt _)
        fun stmt hstmt => ihelse stmt hstmt _
  | loop line var bounds binding body ih =>
    cases h with
    | loop hbounds hbody => exact parses_loop hbounds hbody fun stmt hstmt => ih stmt hstmt _
  | plain stmt hplain =>
    cases h with
    | function | conditional | loop => cases hplain
    | line => exact parses_line
    | blank => exact parses_blank
    | assign htarget hvalue => exact parses_simple (.assign htarget hvalue) rfl
    | annotated hid hkind hvalue => exact parses_simple (.annotated hid hkind hvalue) rfl
    | expr hvalue htext => exact parses_simple (.expr hvalue htext) rfl
    | give hplace hvalue => exact parses_simple (.give hplace hvalue) rfl
    | global hplace hnames => exact parses_simple (.global hplace hnames) rfl
    | block => exact parses_simple .block rfl
    | pass => exact parses_simple .pass rfl
    | stop hplace => exact parses_simple (.stop hplace) rfl
    | skip hplace => exact parses_simple (.skip hplace) rfl

end Statements

section Whole

variable {stmts : List Stmt}

/-- The statements of a whole text are read from their tokens. -/
theorem reads_topLevel {noted : Bool} (h : AllowedAll .module noted stmts)
    (hts : Starts ts (blockTokens stmts) []) :
    ∃ read, topLevel finalLine ts = .ok read ∧ unlinedAll read = unlinedAll (afterNote stmts) := by
  induction stmts generalizing noted ts with
  | nil =>
    obtain rfl := starts_nil hts
    exact ⟨[], by unfold topLevel; rfl, rfl⟩
  | cons stmt stmts ih =>
    cases h with
    | note hstmts =>
      obtain ⟨read, hread, hall⟩ := ih hstmts hts
      exact ⟨read, hread, by rw [hall, afterNote_of_allowed hstmts, afterNote]⟩
    | cons hstmt hstmts =>
      rw [← List.append_nil (blockTokens _)] at hts
      have hend : NoBranch ([] ++ ([] : List Token).map Token.kind) := noBranch_nil
      obtain ⟨t, more, middle, rfl, hnewline, -, ⟨first, ⟨hfits, hread⟩, hfirst⟩, hmiddle⟩ :=
        (parses stmt .module hstmt).first finalLine hstmt hstmts hts hend
      rw [List.append_nil] at hmiddle
      obtain ⟨others, hread', hothers⟩ := ih hstmts hmiddle
      have hall : unlinedAll (first ++ others) = unlinedAll (afterNote (stmt :: stmts)) := by
        have hself : afterNote (stmt :: stmts) = stmt :: stmts := by cases hstmt <;> rfl
        rw [unlinedAll_append, hfirst, hothers, ← unlinedAll_append, List.cons_append,
          note_append hstmts, hself]
      refine ⟨first ++ others, ?_, hall⟩
      unfold topLevel
      simp only [hnewline, if_false, hread, hread', bind, Except.bind]
      rfl

theorem not_mem_of_operand {kinds : List TokenKind} (h : Expr.Operand kinds) : .eof ∉ kinds :=
  fun hmem => by cases h.parts _ hmem

theorem not_mem_listed {runs : List (List TokenKind)} (h : ∀ run ∈ runs, .eof ∉ run) :
    .eof ∉ Expr.listed runs := by
  induction runs with
  | nil => exact List.not_mem_nil
  | cons run runs ih =>
    obtain ⟨hrun, hruns⟩ := List.forall_mem_cons.mp h
    cases runs with
    | nil => rwa [Expr.listed_singleton]
    | cons next runs =>
      rw [Expr.listed_cons_cons]
      simp [hrun, ih hruns]

theorem not_mem_kindTokens (kind : Option Kind) : .eof ∉ kindTokens kind := by
  cases kind <;> simp [kindTokens]

theorem not_mem_head (head : FunctionHead) : .eof ∉ head.tokens := by
  have hparams : .eof ∉ Expr.listed (head.params.map Param.tokens) := by
    refine not_mem_listed fun run hrun => ?_
    obtain ⟨param, -, rfl⟩ := List.mem_map.mp hrun
    simp [Param.tokens, not_mem_kindTokens]
  have hreturns : .eof ∉ returnTokens head.returns := by
    unfold returnTokens
    split <;> simp
  simp [FunctionHead.tokens, hparams, hreturns]

theorem not_mem_lineEnd (stmts : List Stmt) : .eof ∉ lineEnd stmts := by
  unfold lineEnd
  split <;> simp

theorem not_mem_blockTokens {place : Place} {noted : Bool} (h : AllowedAll place noted stmts)
    (hstmts : ∀ stmt ∈ stmts, stmt.Allowed place → .eof ∉ stmt.tokens) :
    .eof ∉ blockTokens stmts := by
  induction stmts generalizing noted with
  | nil => exact List.not_mem_nil
  | cons stmt stmts ih =>
    obtain ⟨hfirst, hothers⟩ := List.forall_mem_cons.mp hstmts
    cases h with
    | note h =>
      rw [blockTokens_note]
      exact ih h hothers
    | cons hstmt h =>
      have hending : .eof ∉ stmt.ending stmts := by
        unfold Stmt.ending
        split
        · exact not_mem_lineEnd stmts
        · exact List.not_mem_nil
      simp [blockTokens, hfirst hstmt, hending, ih h hothers]

/-- No statement holds the end of the text. -/
theorem not_mem_tokens (stmt : Stmt) (place : Place)
    (h : stmt.Allowed place) : .eof ∉ stmt.tokens := by
  induction stmt using Stmt.induct generalizing place with
  | function line head signature hoisted body ih =>
    cases h with
    | function _ _ hbody =>
      have hinside := not_mem_blockTokens hbody fun stmt hstmt => ih stmt hstmt _
      simp [Stmt.tokens, suite, not_mem_head, not_mem_lineEnd, hinside]
  | conditional line condition thenBody elseBody ihthen ihelse =>
    cases h with
    | conditional hcondition hthen helse =>
      have hthen' := not_mem_blockTokens hthen fun stmt hstmt => ihthen stmt hstmt _
      have helse' := not_mem_blockTokens helse fun stmt hstmt => ihelse stmt hstmt _
      have hotherwise : .eof ∉ otherwise elseBody (blockTokens elseBody) := by
        unfold otherwise suite
        split
        · simpa using fun hmem => helse' (List.mem_of_mem_tail hmem)
        · split <;> simp [not_mem_lineEnd, helse']
      simp [Stmt.tokens, suite, not_mem_of_operand (Expr.operand_tokens hcondition),
        not_mem_lineEnd, hthen', hotherwise]
  | loop line var bounds binding body ih =>
    cases h with
    | loop hbounds hbody =>
      have hinside := not_mem_blockTokens hbody fun stmt hstmt => ih stmt hstmt _
      simp [Stmt.tokens, suite, not_mem_of_operand (Expr.operand_tokens (named_range hbounds)),
        not_mem_lineEnd, hinside]
  | plain stmt hplain =>
    cases h with
    | function | conditional | loop => cases hplain
    | line | blank | block | pass | stop | skip => simp [Stmt.tokens]
    | assign htarget hvalue =>
      simp [Stmt.tokens, kindTokens, not_mem_of_operand (Expr.operand_tokens htarget),
        not_mem_of_operand (Expr.operand_tokens hvalue)]
    | annotated hid hkind hvalue =>
      simp [Stmt.tokens, kindTokens, Target.expr, Expr.tokens,
        not_mem_of_operand (Expr.operand_tokens hvalue)]
    | expr hvalue => simp [Stmt.tokens, not_mem_of_operand (Expr.operand_tokens hvalue)]
    | @give _ _ value _ hvalue =>
      cases value with
      | none => simp [Stmt.tokens]
      | some value =>
        simp [Stmt.tokens, not_mem_of_operand (Expr.operand_tokens (hvalue value rfl))]
    | @global _ _ names =>
      have hnames : .eof ∉ Expr.listed (names.map fun name => [.identifier name]) :=
        not_mem_listed (by simp)
      simp [Stmt.tokens, hnames]

/-- A program splits into the statements that it is made of. -/
theorem ofStatements_append {p : Program} (h : p.Allowed) :
    ofStatements (p.header ++ p.statements) = p := by
  have hlast : ((p.header ++ p.statements).reverse.dropWhile Stmt.isBlank).reverse =
      p.header ++ p.statements := by
    rcases List.eq_nil_or_concat' (p.header ++ p.statements) with hnil | ⟨front, stmt, hconcat⟩
    · rw [hnil]
      rfl
    · have hblank := h.last stmt (by rw [hconcat, List.getLast?_concat]; rfl)
      rw [hconcat, List.reverse_concat, List.dropWhile_cons_of_neg (by simp [hblank]),
        List.reverse_cons, List.reverse_reverse]
  unfold ofStatements
  rw [hlast]
  dsimp only
  have hfirst : p.statements.takeWhile Stmt.isTrivia = [] ∧
      p.statements.dropWhile Stmt.isTrivia = p.statements := by
    cases hstmts : p.statements with
    | nil => exact ⟨rfl, rfl⟩
    | cons stmt stmts =>
      have htrivia := h.first stmt (by rw [hstmts]; rfl)
      exact ⟨List.takeWhile_cons_of_neg (by simp [htrivia]),
        List.dropWhile_cons_of_neg (by simp [htrivia])⟩
  rw [List.takeWhile_append_of_pos h.header, List.dropWhile_append_of_pos h.header,
    hfirst.1, hfirst.2, List.append_nil]

theorem Allowed.isModuleLevel {p : Program} (h : p.Allowed) {stmt : Stmt}
    (hstmt : stmt ∈ p.header ++ p.statements) : stmt.isModuleLevel = true := by
  rcases List.mem_append.mp hstmt with hstmt | hstmt
  · have htrivia := h.header stmt hstmt
    cases stmt <;> first | rfl | exact absurd htrivia Bool.false_ne_true
  · exact h.moduleLevel stmt hstmt

/-- The grammar reads the tokens of a program as that program, up to line numbers,
wherever the tokens stand. -/
theorem ofTokens_tokens {p : Program} (h : p.Allowed) {tokens : List Token}
    (htokens : tokens.map Token.kind = p.tokens) (source : String) :
    ∃ p', ofTokens tokens source = .ok p' ∧ p'.unlined = p.unlined := by
  have hnone : .eof ∉ blockTokens (p.header ++ p.statements) :=
    not_mem_blockTokens h.stmts fun stmt _ hstmt => not_mem_tokens stmt _ hstmt
  obtain ⟨code, ends, rfl, hcode, hends⟩ := List.map_eq_append_iff.mp htokens
  obtain ⟨eof, more, rfl, heof, hmore⟩ := List.map_eq_cons_iff.mp hends
  obtain rfl := List.map_eq_nil_iff.mp hmore
  have hnot : ∀ t ∈ code, (!isEnd t) = true := by
    intro t ht
    have hkind : t.kind ≠ .eof := fun h => hnone (hcode ▸ h ▸ List.mem_map_of_mem ht)
    simpa [isEnd] using hkind
  have htake : (code ++ [eof]).takeWhile (!isEnd ·) = code := by
    rw [List.takeWhile_append_of_pos hnot]
    simp [isEnd, heof]
  have hstarts : Starts code (blockTokens (p.header ++ p.statements)) [] :=
    ⟨code, (List.append_nil _).symm, hcode⟩
  obtain ⟨stmts, hread, hstmts⟩ :=
    reads_topLevel (lineOf 1 ((code ++ [eof]).dropWhile (!isEnd ·))) h.stmts hstarts
  rw [afterNote_of_allowed h.stmts] at hstmts
  have hlevel : ∀ stmt ∈ stmts, stmt.isModuleLevel = true := by
    intro stmt hstmt
    have hmem : stmt.unlined ∈ unlinedAll (p.header ++ p.statements) := by
      rw [← hstmts, unlinedAll_eq_map]
      exact List.mem_map_of_mem hstmt
    rw [unlinedAll_eq_map] at hmem
    obtain ⟨other, hother, heq⟩ := List.mem_map.mp hmem
    rw [← isModuleLevel_unlined, ← heq, isModuleLevel_unlined]
    exact h.isModuleLevel hother
  have hprogram : (ofStatements stmts).unlined = p.unlined := by
    rw [ofStatements_unlined, hstmts, ← ofStatements_unlined, ofStatements_append h]
  refine ⟨ofStatements stmts, ?_, hprogram⟩
  unfold ofTokens read
  simp only [htake, hread, checkModuleLevel_eq_ok stmts hlevel, bind, Except.bind]
  rfl

/-- A program with nested blocks, a chain of branches and comments on all kinds of lines. -/
def nested : Program where
  header := [.comment 1 .line " about", .blank 2]
  statements := [
    .assign 3 (.name "x") (.binary (.unary .minus (.name "y")) .pow
      (.unary .minus (.literal (.int 2)))) (some .int)
      .unresolved,
    .comment 3 .trailing " power",
    .function 4 ⟨"f", [⟨"a", some .float⟩, ⟨"b", none⟩], some .void, false⟩ none [] [
      .comment 4 .trailing " note",
      .comment 5 .block "text",
      .global 6 ["x", "y"],
      .conditional 7 (.binary (.name "a") .lt
        (.binary (.name "b") .sub (.binary (.name "a") .sub (.name "b"))))
        [.expr 8 (.call "led.write" [.name "a", .literal (.bool true)]), .comment 9 .line " next"]
        [.conditional 10 (.index "xs" (.name "b")) [.pass 11]
          [.comment 12 .trailing " last",
            .loop 13 "i" ⟨some (.name "b"), .literal (.int 0), -1⟩ .unresolved
            [.stop 14, .skip 15], .give 16 none]]]]

def nestedKinds : List TokenKind := [
  .comment " about", .blankLine,
  .identifier "x", .symbol .colon, .identifier "int", .symbol .equal, .symbol .leftParen,
  .symbol .minus, .identifier "y", .symbol .rightParen, .symbol .doubleStar, .symbol .minus,
  .integer 2, .comment " power", .newline, .keyword .define, .identifier "f", .symbol .leftParen,
  .identifier "a", .symbol .colon, .identifier "float", .symbol .comma, .identifier "b",
  .symbol .rightParen, .symbol .arrow, .keyword .noneValue, .symbol .colon, .comment " note",
  .newline, .indent, .string "text", .newline,
  .keyword .global, .identifier "x", .symbol .comma, .identifier "y", .newline,
  .keyword .ifBranch, .identifier "a", .symbol .less, .identifier "b", .symbol .minus,
  .symbol .leftParen, .identifier "a", .symbol .minus, .identifier "b", .symbol .rightParen,
  .symbol .colon, .newline, .indent, .identifier "led", .symbol .dot, .identifier "write",
  .symbol .leftParen, .identifier "a", .symbol .comma, .keyword .trueValue, .symbol .rightParen,
  .newline, .comment " next", .dedent, .keyword .elifBranch, .identifier "xs", .symbol .leftBracket,
  .identifier "b", .symbol .rightBracket, .symbol .colon, .newline, .indent, .keyword .pass,
  .newline, .dedent, .keyword .elseBranch, .symbol .colon, .comment " last", .newline, .indent,
  .keyword .forLoop, .identifier "i", .keyword .inRange, .identifier "range", .symbol .leftParen,
  .identifier "b", .symbol .comma, .integer 0, .symbol .comma, .symbol .minus, .integer 1,
  .symbol .rightParen, .symbol .colon, .newline, .indent, .keyword .breakLoop, .newline,
  .keyword .continueLoop, .newline, .dedent, .keyword .returnValue, .newline, .dedent, .dedent,
  .eof]

theorem nested_allowed : nested.Allowed := by
  have hx : (Expr.name "x").Named := .name ⟨'x', [], by decide⟩ (by decide)
  have hy : (Expr.name "y").Named := .name ⟨'y', [], by decide⟩ (by decide)
  have ha : (Expr.name "a").Named := .name ⟨'a', [], by decide⟩ (by decide)
  have hb : (Expr.name "b").Named := .name ⟨'b', [], by decide⟩ (by decide)
  have hled : Expr.Path ("led" ++ "." ++ "write") :=
    .dot (.word ⟨'l', ['e', 'd'], by decide⟩ (by decide)) ⟨'w', ['r', 'i', 't', 'e'], by decide⟩
  have hcall : (Expr.call "led.write" [.name "a", .literal (.bool true)]).Named :=
    .call hled (by simpa using ⟨ha, .literal⟩)
  have hhead : FunctionHead.Allowed ⟨"f", [⟨"a", some .float⟩, ⟨"b", none⟩], some .void, false⟩ :=
    ⟨by decide, by simp [Kind.Annotates, Kind.text, Kind.ofAnnotation?], by simp, by decide, nofun⟩
  have hbounds : Bounds.Allowed ⟨some (.name "b"), .literal (.int 0), -1⟩ :=
    ⟨by simpa using hb, .literal, by decide, nofun⟩
  have hstmts : AllowedAll .module false (nested.header ++ nested.statements) :=
    .cons .line (.cons .blank
      (.cons (.annotated hx rfl (.binary (.unary hy) (.unary .literal))) (.note
      (.cons (.function rfl hhead (.note (.cons .block (.cons (.global rfl nofun)
        (.cons (.conditional (.binary ha (.binary hb (.binary ha hb)))
          (.cons (.expr hcall rfl) (.cons .line .nil))
          (.cons (.conditional (.index ⟨'x', ['s'], by decide⟩ (by decide) hb)
            (.cons .pass .nil)
            (.note (.cons (.loop hbounds (.cons (.stop rfl) (.cons (.skip rfl) .nil)))
              (.cons (.give rfl nofun) .nil)))) .nil)) .nil))))) .nil))))
  exact ⟨hstmts, by simp [nested, Stmt.isModuleLevel], by simp [nested, Stmt.isTrivia],
    by simp [nested, Stmt.isTrivia], by simp [nested, Stmt.isBlank]⟩

theorem ofTokens_tokens_nested : nested.Allowed ∧ nestedKinds = nested.tokens ∧
    ∃ p', ofTokens (nestedKinds.map (⟨·, default⟩)) "" = .ok p' ∧ p'.unlined = nested.unlined := by
  refine ⟨nested_allowed, rfl, ofTokens_tokens nested_allowed ?_ ""⟩
  rw [List.map_map]
  rfl

end Whole

end Sketchwright.Program
