import Mathlib
import Sketchwright.Proofs.Cursor.Program

/-! Every walk over tokens with an end token comes to an end, at the program or the error of the
reader of the tokens. Each walk over statements follows the reader of the same part of the grammar;
a loop follows a reader that calls itself, and so each of its turns moves. -/

namespace Sketchwright.Cursor

open Reading Program

section Follows

variable {track : Track}

/-- The walk has the statements of the reader after others. -/
def Appended {α : Type} (before stmts stmts' : List α) : Prop := stmts' = before ++ stmts

theorem annotatedKind_follows {ts : List Token} :
    Follows track ts (fun _ => Cursor.annotatedKind track.tokens)
      (Program.annotatedKind track.stop.line ts)
      fun kind kind' => kind' = kind := by
  rw [Cursor.annotatedKind, Program.annotatedKind]
  refine .currentLine (.bind .expectIdentifier ?_)
  rintro _ name rest _ _ rfl
  dsimp only
  cases Kind.ofAnnotation? name with
  | some kind => exact .pure rfl
  | none => exact .fail

theorem isIncrement_eq (ts : List Token) :
    isIncrement ts =
    ((kindOf ts).isIdentifier &&
      (track.kindAt ts 1 == .symbol .plus || track.kindAt ts 1 == .symbol .minus) &&
      track.kindAt ts 1 == track.kindAt ts 2 && (track.kindAt ts 3).endsLine) := by
  rcases ts with - | ⟨x, - | ⟨a, - | ⟨b, - | ⟨c, rest⟩⟩⟩⟩
  · rfl
  · have hnext : track.kindAt [x] 1 = .eof := track.stops
    rw [hnext]
    simp [isIncrement]
  · have hsecond : track.kindAt [x, a] 2 = .eof := track.stops
    have hnext : track.kindAt [x, a] 1 = a.kind := rfl
    rw [hnext, hsecond]
    by_cases ha : a.kind = .eof <;> simp [isIncrement, ha]
  · have hthird : track.kindAt [x, a, b] 3 = .eof := track.stops
    rw [hthird]
    rfl
  · rfl

theorem assignmentOrExpr_follows {line : Nat} {ts : List Token} :
    Follows track ts (Cursor.assignmentOrExpr track.tokens line)
      (Program.assignmentOrExpr track.stop.line line ts)
      fun stmt stmt' => stmt' = stmt := by
  unfold Cursor.assignmentOrExpr
  rw [Program.assignmentOrExpr]
  refine .currentKind (.peek (.peek (.peek ?_)))
  rw [← isIncrement_eq]
  refine .check fun _ => .bind parse_follows ?_
  rintro _ left rest _ _ ⟨rfl, -⟩
  dsimp only
  split
  · next hequal =>
    refine .currentKind ?_
    simp only [hequal, Cursor.assigned]
    refine .advance (Follows.kind_ne hequal) ?_
    cases target? left with
    | none => exact .fail
    | some target =>
      refine .bind parse_follows ?_
      rintro _ value rest' _ _ ⟨rfl, -⟩
      exact .currentKind (.check fun _ => .pure rfl)
  · next hcolon =>
    refine .currentKind ?_
    simp only [hcolon, Cursor.annotated]
    cases left with
    | name id =>
      refine .advance (Follows.kind_ne hcolon) (.bind annotatedKind_follows ?_)
      rintro _ kind rest' _ _ rfl
      refine .currentKind (.check fun hequal => ?_)
      have hequal := Decidable.not_not.mp hequal
      refine .advance (Follows.kind_ne hequal) (.bind parse_follows ?_)
      rintro _ value rest'' _ _ ⟨rfl, -⟩
      exact .pure rfl
    | _ => exact .fail
  · next op hop =>
    refine .currentKind ?_
    simp only [hop]
    exact .fail
  · next hcomma =>
    refine .currentKind ?_
    simp only [hcomma]
    exact .fail
  · next hequal hcolon hop hcomma =>
    refine .currentKind ?_
    split
    · next heq => exact absurd heq hequal
    · next heq => exact absurd heq hcolon
    · next heq => exact absurd heq (hop _)
    · next heq => exact absurd heq hcomma
    · exact .pure rfl

/-- The names are read one by one, with the same steps after each. -/
theorem names_follows (before : List String) {ts : List Token}
    {next : Nat → String → Walk (List String)}
    (hnext : ∀ depth name rest, rest.length < ts.length →
      next depth name (track.place rest) =
        namesLoop track.tokens (before ++ [name]) depth (track.place rest)) :
    Follows track ts (fun depth => Cursor.expectIdentifier track.tokens >>= next depth)
      (Program.names track.stop.line ts) (Appended before) := by
  fun_induction Program.names track.stop.line ts generalizing before next with
  | case1 t span ts name hname ih =>
    refine .identifier hname
      (.congr_here (fun depth => hnext depth name _ (Nat.lt_succ_self _)) (.deeper ?_))
    simp only [namesLoop]
    refine .get fun hts =>
      .currentKind (.yes rfl (.advance (by simp [kindOf]) (.last (ih (before ++ [name]) ?_) ?_)))
    · intro depth more rest hrest
      exact bind_ok (Follows.run_turned hts (Nat.lt_succ_of_lt hrest))
    · rintro names _ rest _ _ rfl
      exact .pure (List.append_assoc ..)
  | case2 t span ts hname => exact .noIdentifier hname
  | case3 ts hts =>
    cases ts with
    | nil => exact .noIdentifier (by simp [kindOf])
    | cons t rest =>
      by_cases hname : ∃ name, t.kind = .identifier name
      · obtain ⟨name, hname⟩ := hname
        simp only [Reading.expectIdentifier, hname]
        refine .identifier hname
          (.congr_here (fun depth => hnext depth name rest (Nat.lt_succ_self _)) (.deeper ?_))
        simp only [namesLoop]
        refine .get fun _ => .currentKind (.no (fun hcomma => ?_) (.pure rfl))
        cases rest with
        | nil => cases hcomma
        | cons u rest =>
          obtain ⟨kind, span⟩ := u
          cases hcomma
          exact hts t span rest rfl
      · have hthrow : Reading.expectIdentifier track.stop.line (t :: rest) =
            throw (Reading.unexpected track.stop.line .identifier (t :: rest)) := by
          rw [Reading.expectIdentifier]
          split
          · next name heq => exact absurd ⟨name, heq⟩ hname
          · rfl
        rw [hthrow]
        exact .noIdentifier fun name heq => hname ⟨name, heq⟩

/-- No statement starts at the end. -/
theorem assignmentOrExpr_nil (finalLine line : Nat) : Program.assignmentOrExpr finalLine line [] =
    throw (Reading.unexpected finalLine .expression []) := by
  have hparse : Expr.parse finalLine [] = throw (Reading.unexpected finalLine .expression []) := by
    rw [Expr.parse, Expr.comparison, Expr.sum, Expr.product, Expr.signed]
    rfl
  rw [Program.assignmentOrExpr, hparse]
  rfl

theorem simpleForm_follows {place : Place} {ts : List Token} :
    Follows track ts (Cursor.simpleForm track.tokens place)
      (Program.simpleForm track.stop.line place ts)
      fun stmt stmt' => stmt' = stmt := by
  unfold Cursor.simpleForm
  refine .current ?_
  cases ts with
  | nil =>
    rw [Program.simpleForm, ← assignmentOrExpr_nil track.stop.line track.stop.line]
    simp only [simpleFormAt, List.headD_nil, track.stops]
    exact assignmentOrExpr_follows
  | cons t ts =>
    rw [Program.simpleForm, List.headD_cons]
    split
    · next hreturn =>
      simp only [simpleFormAt, hreturn]
      refine .check fun _ => .advance (Follows.kind_ne hreturn) (.currentKind ?_)
      refine .ite .rfl (fun _ => .pure rfl) fun _ => .bind parse_follows ?_
      rintro _ value rest _ _ ⟨rfl, -⟩
      exact .pure rfl
    · next hpass =>
      simp only [simpleFormAt, hpass]
      exact .advance (Follows.kind_ne hpass) (.pure rfl)
    · next hbreak =>
      simp only [simpleFormAt, hbreak]
      exact .check fun _ => .advance (Follows.kind_ne hbreak) (.pure rfl)
    · next hcontinue =>
      simp only [simpleFormAt, hcontinue]
      exact .check fun _ => .advance (Follows.kind_ne hcontinue) (.pure rfl)
    · next hglobal =>
      simp only [simpleFormAt, hglobal]
      refine .check fun _ => .advance (Follows.kind_ne hglobal) ?_
      simp only [← bind_assoc]
      refine .bind (names_follows [] fun _ _ _ _ => rfl) ?_
      rintro names _ rest _ _ rfl
      exact .pure rfl
    · next word hword =>
      simp only [simpleFormAt, hword]
      exact .ite .rfl (fun _ => .fail) fun _ => assignmentOrExpr_follows
    · next text htext =>
      simp only [simpleFormAt, htext]
      refine .peek ?_
      have hnext : track.kindAt (t :: ts) 1 = kindOf ts := by
        cases ts with
        | nil => exact track.stops
        | cons u ts => rfl
      rw [hnext]
      exact .ite .rfl (fun _ => .advance (Follows.kind_ne htext) (.pure rfl)) fun _ =>
        assignmentOrExpr_follows
    · simp only [simpleFormAt]
      exact assignmentOrExpr_follows

theorem endLine_follows {before : List Stmt} {ts : List Token} :
    Follows track ts (fun _ => Cursor.endLine track.tokens before)
      (Program.endLine track.stop.line ts)
      fun _ stmts => stmts = before := by
  rw [Cursor.endLine]
  cases ts with
  | nil => exact .currentKind (.no (by simp [kindOf]) (.yes rfl (.pure rfl)))
  | cons t ts =>
    refine .currentKind (.ite .rfl
      (fun hnewline => .advance (Follows.kind_ne hnewline) (.pure rfl)) ?_)
    intro _
    refine .assume fun hts => .no (fun heof => ?_) .unexpected
    exact track.running t (hts.subset List.mem_cons_self) heof

theorem finishLine_follows {before : List Stmt} {ts : List Token} :
    Follows track ts (fun _ => Cursor.finishLine track.tokens before)
      (Program.finishLine track.stop.line ts)
      (Appended before) := by
  rw [Cursor.finishLine, Program.finishLine.eq_def]
  split
  · next text span ts =>
    refine .current (.advance (by simp [kindOf]) (.last endLine_follows ?_))
    rintro _ _ rest _ _ rfl
    exact .pure rfl
  · next hcomment =>
    refine .current ?_
    have hkind : ∀ text, (ts.headD track.stop).kind ≠ .comment text := by
      intro text heq
      cases ts with
      | nil =>
        rw [List.headD_nil, track.stops] at heq
        cases heq
      | cons t ts =>
        obtain ⟨kind, span⟩ := t
        cases heq
        exact hcomment text span ts rfl
    split
    · next heq => exact absurd heq (hkind _)
    · refine .last endLine_follows ?_
      rintro _ _ rest _ _ rfl
      exact .pure (List.append_nil _).symm

theorem simpleStatement_follows {place : Place} {before : List Stmt} {ts : List Token} :
    Follows track ts (Cursor.simpleStatement track.tokens place before)
      (Program.simpleStatement track.stop.line place ts) (Appended before) := by
  unfold Cursor.simpleStatement
  rw [Program.simpleStatement]
  refine .bind simpleForm_follows ?_
  rintro _ stmt rest _ _ rfl
  refine .last finishLine_follows ?_
  rintro note _ rest' _ _ rfl
  exact .pure (List.append_assoc ..)

theorem parameterKind_follows {rest : List Token} {n : Nat} (h : rest.length < n)
    (hone : ∀ after : List Token, after.length < rest.tail.length → after.length < n) :
    Follows track rest (fun _ => Cursor.parameterKind track.tokens)
      (match kindOf rest with
        | .symbol .colon => do
          let ⟨kind, after, ha⟩ ← Program.annotatedKind track.stop.line rest.tail
          return ⟨some kind, after, hone after ha⟩
        | _ =>
          return ⟨none, rest, h⟩ : Reading (Option Kind) n) fun kind kind' => kind' = kind := by
  rw [Cursor.parameterKind]
  split
  · next hcolon =>
    refine .currentKind (.yes hcolon
      (.advance (Follows.kind_ne hcolon) (.bind annotatedKind_follows ?_)))
    rintro _ kind after _ _ rfl
    exact .pure rfl
  · next hcolon => exact .currentKind (.no hcolon (.pure rfl))

theorem parameters_follows {line : Nat} (params : List Param) {ts : List Token} :
    Follows track ts (fun depth => Cursor.parametersLoop track.tokens line params depth >>=
      closedParams track.tokens)
      (Program.parameters track.stop.line line params ts) (Appended params) := by
  refine .deeper ?_
  rw [Program.parameters]
  simp only [Cursor.parametersLoop, bind_assoc]
  refine .get fun hts => ?_
  split
  · next hclose =>
      exact .currentKind (.yes_bind hclose
        (.value (.symbol hclose (.pure (List.append_nil _).symm))))
  · next hstar =>
      exact .currentKind (.no_bind (Follows.kind_ne hstar) (.yes_bind (.inl hstar) .fail_bind))
  · next hstar =>
      exact .currentKind (.no_bind (Follows.kind_ne hstar) (.yes_bind (.inr hstar) .fail_bind))
  · next hclose hstar hdouble =>
    refine .currentKind (.no_bind hclose (.no_bind (not_or.mpr ⟨hstar, hdouble⟩) ?_))
    simp only [bind_assoc]
    refine .bind .expectIdentifier ?_
    rintro _ name rest hfits _ rfl
    have hlength := List.length_tail (l := rest)
    refine .check fun _ => .bind (parameterKind_follows hfits fun _ _ => by omega) ?_
    rintro _ kind rest' hfits' _ rfl
    have htail : rest'.tail.length < ts.length := by
      rw [List.length_tail]
      omega
    dsimp only
    split
    · next hequal => exact .currentKind (.yes_bind hequal .fail_bind)
    · next hcomma =>
      refine .currentKind (.no_bind (Follows.kind_ne hcomma) (.yes_bind hcomma ?_))
      simp only [bind_assoc]
      refine .advance (Follows.kind_ne hcomma) (.turned hts htail (.last (parameters_follows _) ?_))
      rintro more _ after _ _ rfl
      exact .pure (List.append_assoc ..)
    · next hequal hcomma =>
      refine .currentKind (.no_bind hequal (.no_bind hcomma ?_))
      simp only [bind_assoc]
      refine .turned hts hfits' (.value (.bind .expectSymbol ?_))
      intro _ _ after _ _ _
      exact .pure rfl
termination_by ts.length

theorem returnKind_follows {ts : List Token} :
    Follows track ts (fun _ => Cursor.returnKind track.tokens)
    (Program.returnKind track.stop.line ts) fun kind kind' => kind' = kind := by
  rw [Cursor.returnKind, Program.returnKind.eq_def]
  split
  · next span ts =>
    refine .currentKind (.yes rfl (.advance (by simp [kindOf]) (.currentKind ?_)))
    refine .ite .rfl (fun hnone => .advance (Follows.kind_ne hnone) (.pure rfl)) fun _ => ?_
    refine .bind annotatedKind_follows ?_
    rintro _ kind rest _ _ rfl
    exact .pure rfl
  · next harrow =>
    refine .currentKind (.no (fun hkind => ?_) (.pure rfl))
    cases ts with
    | nil => cases hkind
    | cons t ts =>
      obtain ⟨kind, span⟩ := t
      cases hkind
      exact harrow span ts rfl

theorem functionHead_follows {line : Nat} {ts : List Token} :
    Follows track ts (Cursor.functionHead track.tokens line)
    (Program.functionHead track.stop.line line ts) fun head head' => head' = head := by
  unfold Cursor.functionHead
  rw [Program.functionHead]
  refine .bind .expectIdentifier ?_
  rintro _ name rest _ _ rfl
  refine .bind .expectSymbol ?_
  intro _ _ rest _ _ _
  simp only [← bind_assoc]
  refine .bind (parameters_follows []) ?_
  rintro params _ rest _ _ rfl
  refine .bind returnKind_follows ?_
  rintro _ returns rest _ _ rfl
  simp only [bind_assoc]
  refine .check fun _ => .check fun _ => .bind .expectSymbol ?_
  intro _ _ rest _ _ _
  exact .pure rfl

theorem stepOf_agrees {line : Nat} {step : Expr} (hstep : Counts step) :
    Agrees (Cursor.stepOf line step) (Program.stepOf line step) := by
  have hvalue : ∀ value : Int,
      Agrees (refuse (value = 0) (.unsupported line .zeroStep) >>= fun _ => return value)
      (if value = 0 then (do
          let r ← throw (.unsupported line .zeroStep)
          (fun _ : PUnit => .ok value) r)
        else .ok value) := by
    intro value pos
    by_cases hzero : value = 0
    · rw [if_pos hzero, refuse, if_pos hzero]
      rfl
    · rw [if_neg hzero, refuse, if_neg hzero]
      rfl
  unfold Program.stepOf
  split
  · next value => exact hvalue value
  · next value =>
    have hnegated : negated value = return -value := by
      have := hstep value (List.mem_cons_of_mem _ List.mem_cons_self)
      rw [negated, if_neg (by omega)]
    rw [Cursor.stepOf, hnegated]
    exact hvalue (-value)
  · next hliteral hnegative =>
    unfold Cursor.stepOf
    split
    · next value => exact absurd rfl (hliteral value)
    · next value => exact absurd rfl (hnegative value)
    · exact fun _ => rfl

theorem boundsOf_agrees {line : Nat} {args : List Expr} (hargs : ∀ arg ∈ args, Counts arg) :
    Agrees (Cursor.boundsOf line args) (Program.boundsOf line args) := by
  rcases args with - | ⟨start, - | ⟨stop, - | ⟨step, - | ⟨more, rest⟩⟩⟩⟩
  · exact fun _ => rfl
  · exact fun _ => rfl
  · exact fun _ => rfl
  · intro pos
    have hagrees : Agrees (Cursor.stepOf line step) _ := stepOf_agrees (hargs step (by simp))
    have hstep := hagrees pos
    rw [Program.boundsOf]
    cases hresult : Program.stepOf line step with
    | ok value =>
      rw [hresult] at hstep
      exact bind_ok hstep
    | error fault =>
      rw [hresult] at hstep
      exact bind_error hstep
  · exact fun _ => rfl

theorem loopHead_follows {line : Nat} {ts : List Token} :
    Follows track ts (Cursor.loopHead track.tokens line)
    (Program.loopHead track.stop.line line ts) fun head head' => head' = head := by
  unfold Cursor.loopHead
  rw [Program.loopHead]
  refine .bind .expectIdentifier ?_
  rintro _ var rest _ _ rfl
  refine .currentKind (.check fun _ => .bind .expectKeyword ?_)
  intro _ _ rest _ _ _
  refine .bind parse_follows ?_
  rintro _ iterable rest _ _ ⟨rfl, hiterable⟩
  dsimp only
  cases iterable with
  | call callee args =>
    refine .check fun _ => .agrees (boundsOf_agrees hiterable.of_call) fun bounds _ =>
      .bind .expectSymbol ?_
    intro _ _ rest _ _ _
    exact .pure rfl
  | _ => exact .fail

theorem ends_lookahead {ts : List Token} (hts : ts <:+ track.body) (pos : Nat) :
    Ends (Cursor.lookahead track.tokens (track.place ts)) pos
      (.ok (track.place (afterTrivia ts), pos)) := by
  refine .deeper ?_
  simp only [Cursor.lookahead]
  refine .bind_ok (.of_eq fun _ => Follows.run_tokenAt hts pos) ?_
  cases ts with
  | nil =>
    simp only [List.headD_nil, track.stops]
    exact .of_eq fun _ => rfl
  | cons t ts =>
    rw [List.headD_cons]
    by_cases ht : t.kind.isTrivia = true
    · have hafter : afterTrivia (t :: ts) = afterTrivia ts := List.dropWhile_cons_of_pos ht
      rw [hafter, Track.place_cons hts]
      exact .congr (fun _ => by rw [if_pos ht])
        (ends_lookahead ((List.suffix_cons t ts).trans hts) pos)
    · have hafter : afterTrivia (t :: ts) = t :: ts := List.dropWhile_cons_of_neg ht
      rw [hafter]
      exact .of_eq fun _ => by
        rw [if_neg ht]
        rfl

/-- The token after comments and blank lines. -/
theorem Follows.lookahead {γ δ : Type} {m : Nat} {ts : List Token}
    {next : Nat → Nat → Token → Walk δ}
    {reader : Reading γ m} {S : γ → δ → Prop}
    (h : Follows track ts (fun depth =>
      next depth (track.place (afterTrivia ts)) ((afterTrivia ts).headD track.stop))
      reader S) :
    Follows track ts (fun depth => do
      let index ← Cursor.lookahead track.tokens (← MonadState.get) depth
      let t ← tokenAt track.tokens index
      next depth index t) reader S := by
  refine .get fun hts => .wait (ends_lookahead hts _) (.stay (fun hts => ?_) h)
  exact run_tokenAt ((List.dropWhile_suffix _).trans hts) _

/-- A comment or a blank line. -/
theorem trivia_follows {place : Place} {before : List Stmt} {t : Token} {ts : List Token}
    (ht : t.kind.isTrivia = true) :
    Follows track (t :: ts) (Cursor.statement track.tokens place before)
      (return ⟨(ofTrivia? t).toList, ts, length_lt ts⟩ : Reading (List Stmt) (ts.length + 1))
        (Appended before) := by
  refine .deeper ?_
  simp only [Cursor.statement]
  refine .current (.deeper ?_)
  rw [List.headD_cons]
  simp only [statementAt]
  cases hkind : t.kind with
  | comment text =>
    rw [ofTrivia?, hkind]
    exact .advance (Follows.kind_ne hkind) (.pure rfl)
  | blankLine =>
    rw [ofTrivia?, hkind]
    exact .advance (Follows.kind_ne hkind) (.pure rfl)
  | _ =>
    rw [hkind] at ht
    cases ht

theorem replay_follows {place : Place} (before : List Stmt) {ts : List Token} :
    Follows track ts (Cursor.replay track.tokens place (track.place (afterTrivia ts)) before)
      (return ⟨(ts.takeWhile (·.kind.isTrivia)).filterMap ofTrivia?, afterTrivia ts,
        Nat.lt_succ_of_le (afterTrivia_length ts)⟩ : Reading (List Stmt) (ts.length + 1))
          (Appended before) := by
  induction ts generalizing before with
  | nil =>
    refine .deeper ?_
    simp only [Cursor.replay]
    exact .get fun _ => .no (Nat.lt_irrefl _) (.pure (List.append_nil _).symm)
  | cons t ts ih =>
    refine .deeper ?_
    simp only [Cursor.replay]
    refine .get fun hts => ?_
    by_cases ht : t.kind.isTrivia = true
    · have hafter : afterTrivia (t :: ts) = afterTrivia ts := List.dropWhile_cons_of_pos ht
      have hlt : track.place (t :: ts) < track.place (afterTrivia (t :: ts)) :=
        Track.place_lt hts (hafter ▸ Nat.lt_succ_of_le (afterTrivia_length ts))
      refine .yes hlt (.move (trivia_follows ht) ?_)
      rintro _ rfl
      refine .turned hts (Nat.lt_succ_self _) ?_
      refine .congr (fun _ => by rw [hafter])
        (.returned (ih (before ++ (ofTrivia? t).toList)) hafter.symm ?_)
      rintro _ rfl
      have htake : (t :: ts).takeWhile (·.kind.isTrivia) = t :: ts.takeWhile (·.kind.isTrivia) :=
        List.takeWhile_cons_of_pos ht
      rw [htake, List.filterMap_cons]
      cases ofTrivia? t <;> simp [Appended]
    · have hafter : afterTrivia (t :: ts) = t :: ts := List.dropWhile_cons_of_neg ht
      refine .no (by rw [hafter]; exact Nat.lt_irrefl _) ?_
      have htake : (t :: ts).takeWhile (·.kind.isTrivia) = [] := List.takeWhile_cons_of_neg ht
      refine .returned (.pure (R := Appended before) (h := length_lt (t :: ts))
        (List.append_nil _).symm) hafter.symm ?_
      rintro _ rfl
      rw [htake]
      rfl

theorem lt_of_afterTrivia {t : Token} {ts after : List Token} (h : afterTrivia ts = t :: after) :
    after.length < ts.length := by
  have hlength := afterTrivia_length ts
  rw [h] at hlength
  exact hlength

-- By induction on the tokens that are left, which a reader that looks ahead over comments and blank
-- lines may pass on as a later part of what it was given.
mutual

theorem block_follows {place : Place} {ts : List Token} :
    Follows track ts (Cursor.block track.tokens place)
    (Program.block track.stop.line place ts) fun stmts stmts' => stmts' = stmts := by
  refine .deeper ?_
  simp only [Cursor.block]
  rw [Program.block]
  refine .currentKind (.ite .rfl (fun _ => .bind finishLine_follows ?_) fun _ =>
    simpleStatement_follows)
  rintro note _ rest hfits _ rfl
  refine .currentLine (.currentKind ?_)
  dsimp only
  cases rest with
  | nil => exact .refused (by simp [kindOf])
  | cons t rest =>
    dsimp only
    split
    · next hindent =>
      refine .passed (not_not_intro hindent)
        (.advance (Follows.kind_ne hindent) (.last blockBody_follows ?_))
      rintro body _ after _ _ rfl
      exact .pure rfl
    · next hindent => exact .refused hindent
termination_by (ts.length, 0)
decreasing_by
  simp only [List.length_cons] at hfits
  exact Prod.Lex.left _ _ (by simp only [List.tail_cons]; omega)

theorem blockBody_follows {place : Place} {before : List Stmt} {ts : List Token} :
    Follows track ts (fun depth => Cursor.blockLoop track.tokens place before depth >>=
      closedBlock track.tokens)
      (Program.blockBody track.stop.line place ts) (Appended before) := by
  refine .deeper ?_
  simp only [Cursor.blockLoop, bind_assoc]
  refine .get fun hts => ?_
  cases ts with
  | nil =>
    rw [Program.blockBody]
    refine .currentKind (.yes_bind (.inr rfl) (.value ?_))
    exact .currentKind (.no (by simp [kindOf]) (.pure (List.append_nil _).symm))
  | cons t ts =>
    rw [Program.blockBody]
    split
    · next hdedent =>
      refine .currentKind (.yes_bind (.inl hdedent) (.value (.currentKind (.yes hdedent ?_))))
      exact .advance (Follows.kind_ne hdedent) (.pure (List.append_nil _).symm)
    · next hnewline =>
      have hopen : ¬(kindOf (t :: ts) = .dedent ∨ kindOf (t :: ts) = .eof) := by
        rw [show kindOf (t :: ts) = _ from hnewline]
        simp
      refine .currentKind (.no_bind hopen (.yes_bind hnewline ?_))
      simp only [bind_assoc]
      refine .advance (Follows.kind_ne hnewline)
        (.turned hts (Nat.lt_succ_self _) (.last blockBody_follows ?_))
      rintro body _ rest _ _ rfl
      exact .pure rfl
    · next hdedent hnewline =>
      have heof : t.kind ≠ .eof := track.running t (hts.subset List.mem_cons_self)
      refine .currentKind (.no_bind (not_or.mpr ⟨hdedent, heof⟩) (.no_bind hnewline ?_))
      simp only [bind_assoc]
      refine .bind statement_follows ?_
      rintro first _ rest hfits _ rfl
      refine .turned hts hfits (.last blockBody_follows ?_)
      rintro more _ rest' _ _ rfl
      exact .pure (List.append_assoc ..)
termination_by (ts.length, 0)
decreasing_by
  all_goals
    subst_vars
    exact Prod.Lex.left _ _ (by simp only [List.length_cons, List.tail_cons]; omega)

theorem statement_follows {place : Place} {before : List Stmt} {t : Token} {ts : List Token} :
    Follows track (t :: ts) (Cursor.statement track.tokens place before)
      (Program.statement track.stop.line place t ts) (Appended before) := by
  refine .deeper ?_
  simp only [Cursor.statement]
  refine .current (.deeper ?_)
  rw [List.headD_cons, Program.statement]
  split
  · next text hkind =>
    simp only [statementAt, hkind]
    exact .advance (Follows.kind_ne hkind) (.pure rfl)
  · next hkind =>
    simp only [statementAt, hkind]
    exact .advance (Follows.kind_ne hkind) (.pure rfl)
  · next hkind =>
    simp only [statementAt, hkind]
    refine .check fun _ => .deeper ?_
    simp only [Cursor.function, bind_assoc, pure_bind]
    refine .currentLine (.keyword hkind (.bind functionHead_follows ?_))
    rintro _ head rest hfits _ rfl
    refine .bind block_follows ?_
    rintro _ body rest' _ _ rfl
    exact .pure rfl
  · next hkind =>
    simp only [statementAt, hkind]
    refine .bind conditional_follows ?_
    rintro _ stmt rest _ _ rfl
    exact .pure rfl
  · next hkind =>
    simp only [statementAt, hkind]
    refine .deeper ?_
    simp only [Cursor.loop, bind_assoc, pure_bind]
    refine .currentLine (.keyword hkind (.bind loopHead_follows ?_))
    rintro _ head rest hfits _ rfl
    refine .bind block_follows ?_
    rintro _ body rest' _ _ rfl
    refine .lookahead ?_
    rw [track.kind_headD, track.line_headD]
    exact .check fun _ => .pure rfl
  · next hkind =>
    simp only [statementAt, hkind]
    exact .fail
  · next hkind =>
    simp only [statementAt, hkind]
    exact .fail
  · next hkind =>
    simp only [statementAt, hkind]
    exact .fail
  · next hkind =>
    simp only [statementAt, hkind]
    exact .fail
  · next hkind =>
    simp only [statementAt, hkind]
    exact .fail
  · simp only [statementAt]
    exact simpleStatement_follows
termination_by (ts.length, 1)

theorem conditional_follows {place : Place} {t : Token} {ts : List Token} :
    Follows track (t :: ts) (Cursor.conditional track.tokens place)
      (Program.conditional track.stop.line place t.line ts) fun stmt stmt' => stmt' = stmt := by
  refine .assume fun hts => .deeper ?_
  simp only [Cursor.conditional]
  rw [Program.conditional]
  refine .currentLine (.advance (track.running t (hts.subset List.mem_cons_self))
    (.bind parse_follows ?_))
  rintro _ condition rest hfits _ ⟨rfl, -⟩
  refine .bind .expectSymbol ?_
  intro _ _ rest hfits _ _
  refine .bind block_follows ?_
  rintro _ body rest hfits _ rfl
  dsimp only
  split
  · next span after heq =>
    have hafter : after.length < rest.length := lt_of_afterTrivia heq
    refine .lookahead (.yes (.inl (by rw [heq]; rfl)) (.move (replay_follows body) ?_))
    rintro _ rfl
    refine .of_eq heq (.currentKind (.yes rfl (.bind conditional_follows ?_)))
    rintro _ stmt rest' _ _ rfl
    exact .pure rfl
  · next span after heq =>
    have hafter : after.length < rest.length := lt_of_afterTrivia heq
    refine .lookahead (.yes (.inr (by rw [heq]; rfl)) (.move (replay_follows body) ?_))
    rintro _ rfl
    refine .of_eq heq (.currentKind
      (.no (by simp [kindOf]) (.advance (by simp [kindOf]) (.bind .expectSymbol ?_))))
    intro _ _ rest' hfits' _ _
    refine .bind block_follows ?_
    rintro _ elseBody rest'' _ _ rfl
    exact .pure rfl
  · next helif helse =>
    refine .lookahead (.no ?_ (.pure rfl))
    rw [track.kind_headD]
    intro hkind
    cases hafter : afterTrivia rest with
    | nil =>
      rw [hafter] at hkind
      rcases hkind with hkind | hkind <;> cases hkind
    | cons t after =>
      obtain ⟨kind, span⟩ := t
      rw [hafter] at hkind
      rcases hkind with hkind | hkind
      · cases hkind
        exact helif span after hafter
      · cases hkind
        exact helse span after hafter
termination_by (ts.length, 0)
decreasing_by
  all_goals exact Prod.Lex.left _ _ (by omega)

end

theorem topLoop_follows {before : List Stmt} {ts : List Token} {n : Nat} (hn : 0 < n) :
    Follows track ts (Cursor.topLoop track.tokens before)
      (do let stmts ← topLevel track.stop.line ts; return ⟨stmts, [], hn⟩ : Reading (List Stmt) n)
      (Appended before) := by
  refine .deeper ?_
  simp only [Cursor.topLoop]
  refine .get fun hts => .currentKind ?_
  cases ts with
  | nil =>
    rw [topLevel]
    exact .yes rfl (.pure (List.append_nil _).symm)
  | cons t ts =>
    have heof : t.kind ≠ .eof := track.running t (hts.subset List.mem_cons_self)
    refine .no heof ?_
    rw [topLevel]
    by_cases hnewline : t.kind = .newline
    · rw [if_pos hnewline]
      exact .yes hnewline (.advance heof (.turned hts (Nat.lt_succ_self _) (topLoop_follows hn)))
    · rw [if_neg hnewline]
      simp only [bind_assoc]
      refine .no hnewline (.bind statement_follows ?_)
      rintro first _ rest hfits _ rfl
      refine .turned hts hfits ?_
      have hmore : Follows track rest (Cursor.topLoop track.tokens (before ++ first)) _ _ :=
        topLoop_follows hn
      dsimp only
      cases hresult : topLevel track.stop.line rest with
      | error fault =>
        rw [hresult] at hmore
        exact hmore
      | ok more =>
        rw [hresult] at hmore
        refine .returned hmore rfl ?_
        rintro _ rfl
        exact List.append_assoc ..
termination_by ts.length

/-- What a reader of all the tokens before the end token comes to, as the end of a walk. -/
def ended (track : Track) : Except Fault Program → Except Stop (Program × Nat)
  | .ok p => .ok (p, track.place [])
  | .error fault => .error (.fault fault)

/-- A walk over all tokens. -/
theorem ends_program (track : Track) :
    Ends (Cursor.program track.tokens) 0
      (ended track (Program.read track.stop.line track.body)) := by
  have hstart : track.place track.body = 0 := Nat.sub_self _
  have htop : Follows track track.body (Cursor.topLoop track.tokens []) _ _ :=
    topLoop_follows Nat.one_pos
  replace htop := htop List.suffix_rfl
  rw [hstart] at htop
  unfold Cursor.program
  rw [Program.read]
  cases hresult : topLevel track.stop.line track.body with
  | error fault =>
    rw [hresult] at htop
    exact htop.bind_error
  | ok stmts =>
    rw [hresult] at htop
    obtain ⟨-, out, hout, hwalk⟩ := htop
    rw [show out = stmts from hout] at hwalk
    refine hwalk.bind_ok ?_
    show Ends _ _ (ended track (checkModuleLevel stmts >>= fun _ => return ofStatements stmts))
    cases checkModuleLevel stmts with
    | error fault => exact .of_eq fun _ => rfl
    | ok _ => exact .of_eq fun _ => rfl

/-- Tokens that end with an end token have a first one. -/
theorem exists_track {tokens : List Token} (hlast : ∃ t ∈ tokens.getLast?, t.kind = .eof)
    (hcounts : ∀ t ∈ tokens, ∀ value, t.kind = .integer value → 0 ≤ value) :
    ∃ track : Track, track.tokens = tokens ∧ track.body = tokens.takeWhile (!isEnd ·) ∧
      lineOf 1 (tokens.dropWhile (!isEnd ·)) = track.stop.line := by
  obtain ⟨last, hlast, heof⟩ := hlast
  have happend : tokens.takeWhile (!isEnd ·) ++ tokens.dropWhile (!isEnd ·) = tokens :=
    List.takeWhile_append_dropWhile
  have hopen : ∀ t ∈ tokens.takeWhile (!isEnd ·), (!isEnd t) = true :=
    List.all_eq_true.mp List.all_takeWhile
  cases hrest : tokens.dropWhile (!isEnd ·) with
  | nil =>
    rw [hrest, List.append_nil] at happend
    have hend : (!isEnd last) = true := hopen last (happend.symm ▸ List.mem_of_getLast? hlast)
    simp [isEnd, heof] at hend
  | cons stop after =>
    have hstop : stop.kind = .eof := by
      have hhead := List.head?_dropWhile_not (!isEnd ·) tokens
      rw [hrest] at hhead
      simpa [isEnd] using hhead
    refine ⟨⟨tokens.takeWhile (!isEnd ·), stop, after, hstop, fun t ht => ?_,
      fun t ht => ?_⟩, ?_, rfl, rfl⟩
    · simpa [isEnd] using hopen t ht
    · exact hcounts t ((List.takeWhile_prefix _).subset ht)
    · rw [hrest] at happend
      exact happend

end Follows

/-- Every list of tokens that ends with an end token and has no negative numbers is read to a
program or an error by a walk, which has an end, asks for no token where there is none and moves in
every turn of every loop; and that program or error is the one of the reader. -/
theorem ofTokens_total {tokens : List Token} (source : String)
    (hlast : ∃ t ∈ tokens.getLast?, t.kind = .eof)
    (hcounts : ∀ t ∈ tokens, ∀ value, t.kind = .integer value → 0 ≤ value) :
    ofTokens tokens source = some (.ok (Program.ofTokens tokens source)) := by
  obtain ⟨track, rfl, hbody, hline⟩ := exists_track hlast hcounts
  rw [ofTokens, (ends_program track).result?_eq, Program.ofTokens, ← hbody, hline]
  cases Program.read track.stop.line track.body with
  | error fault => rfl
  | ok p => rfl

/-- Tokens that no text has: a list that is not closed before an end token, and
more tokens after it. -/
def unclosedTokens : List Token := [
  ⟨.identifier "x", ⟨0, 1, 1, 0⟩⟩, ⟨.symbol .equal, ⟨2, 3, 1, 2⟩⟩,
  ⟨.symbol .leftBracket, ⟨4, 5, 1, 4⟩⟩, ⟨.integer 1, ⟨5, 6, 1, 5⟩⟩, ⟨.symbol .comma, ⟨6, 7, 1, 6⟩⟩,
  ⟨.eof, ⟨7, 7, 2, 0⟩⟩, ⟨.indent, ⟨7, 7, 2, 0⟩⟩, ⟨.symbol .rightBracket, ⟨7, 8, 2, 0⟩⟩,
  ⟨.eof, ⟨8, 8, 2, 1⟩⟩]

theorem ofTokens_total_unclosed :
    (∃ t ∈ unclosedTokens.getLast?, t.kind = .eof) ∧
    (∀ t ∈ unclosedTokens, ∀ value, t.kind = .integer value → 0 ≤ value) ∧
    ofTokens unclosedTokens "x = [1,\n ]\n" =
      some (.ok (.error (.malformed 2 "]" (.expected .expression .eof)))) := by
  have hlast : ∃ t ∈ unclosedTokens.getLast?, t.kind = .eof := ⟨_, rfl, rfl⟩
  have hcounts : ∀ t ∈ unclosedTokens, ∀ value, t.kind = .integer value → 0 ≤ value := by
    simp [unclosedTokens]
  have hread : Program.ofTokens unclosedTokens "x = [1,\n ]\n" =
      .error (.malformed 2 "]" (.expected .expression .eof)) := by cbv
  exact ⟨hlast, hcounts, hread ▸ ofTokens_total _ hlast hcounts⟩

/-- Without an end token a loop can wait for it on the last token for ever. -/
example (source : String) (span : Span) :
    ofTokens [⟨.newline, span⟩] source = some (.error .stalled) := by
  have hends : Ends (program [⟨.newline, span⟩]) 0 (.error (.trap .stalled)) := by
    unfold program
    exact .bind_error (.deeper (.of_eq fun _ => rfl))
  rw [ofTokens, hends.result?_eq]

example (source : String) : ofTokens [] source = some (.error .outOfRange) := by
  have hends : Ends (program []) 0 (.error (.trap .outOfRange)) := by
    unfold program
    exact .bind_error (.deeper (.of_eq fun _ => rfl))
  rw [ofTokens, hends.result?_eq]

end Sketchwright.Cursor
