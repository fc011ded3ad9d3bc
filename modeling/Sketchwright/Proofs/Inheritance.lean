import Sketchwright.Proofs.Blocks
import Sketchwright.Proofs.Sources

/-! Properties that statements inherit from what they are read from. Where the readers of
simple statements and of headers establish a property, and lists and blocks hand it on, all
statements of a text have it. -/

namespace Sketchwright

/-- A reader that comes first, with its own equation. -/
theorem Yields.bind_eq {α β : Type} {reader : Except Fault α} {next : α → Except Fault β}
    {R : β → Prop} (h : ∀ a, reader = .ok a → Yields (next a) R) : Yields (reader >>= next) R :=
  .bind (fun _ ha => ha) h

theorem Within.suffix {p : TokenKind → Bool} {ts rest : List Token}
    (h : Within p ts rest) : rest <:+ ts := by
  obtain ⟨code, rfl, _⟩ := h
  exact List.suffix_append code rest

namespace Program

open Reading

theorem LineEnds.suffix {ts rest : List Token} (h : LineEnds ts rest) : rest <:+ ts := by
  rcases h with ⟨newline, _, hline⟩ | ⟨rfl, _⟩
  · exact (List.suffix_cons newline rest).trans hline.suffix
  · exact List.nil_suffix

/-- Statements that are read at a place from tokens for which `T` holds have the property `P`: their
readers establish it, and it goes from blocks to the statement that they belong to. -/
structure Inherits (finalLine : Nat) (T : List Token → Prop)
    (P : Place → List Stmt → Prop) : Prop where
  suffix : ∀ {ts rest}, T ts → rest <:+ ts → T rest
  nil : ∀ {place}, P place []
  append : ∀ {place stmts more}, P place stmts → P place more → P place (stmts ++ more)
  trivia : ∀ {place stmt}, stmt.isTrivia = true → P place [stmt]
  simple : ∀ {place ts r}, T ts → simpleForm finalLine place ts = .ok r → P place [r.value]
  function : ∀ {place line ts r body}, place.inFunction = false → T ts →
    functionHead finalLine line ts = .ok r → P .function body →
    P place [.function line r.value none [] body]
  conditional : ∀ {place line ts r thenBody elseBody}, T ts → Expr.parse finalLine ts = .ok r →
    P place thenBody → P place elseBody → P place [.conditional line r.value thenBody elseBody]
  loop : ∀ {place line ts r body}, T ts → loopHead finalLine line ts = .ok r →
    P { place with inLoop := true } body → P place [.loop line r.value.1 r.value.2 .unresolved body]

namespace Inherits

variable {finalLine : Nat} {T : List Token → Prop} {P : Place → List Stmt → Prop}

theorem finishLine_inherits (h : Inherits finalLine T P) (place : Place) (ts : List Token) :
    Yields (finishLine finalLine ts) fun r => r.rest <:+ ts ∧ P place r.value := by
  intro r hr
  refine ⟨(finishLine_settles.yields r hr).suffix, ?_⟩
  unfold finishLine at hr
  split at hr
  · obtain ⟨_, _, hr⟩ := Outcome.bind_eq_ok.mp hr
    cases hr
    exact h.trivia rfl
  · obtain ⟨_, _, hr⟩ := Outcome.bind_eq_ok.mp hr
    cases hr
    exact h.nil

theorem simpleStatement_inherits (h : Inherits finalLine T P) (place : Place) {ts : List Token}
    (hts : T ts) :
    Yields (simpleStatement finalLine place ts) fun r => r.rest <:+ ts ∧ P place r.value := by
  unfold simpleStatement
  refine Yields.bind_eq fun r hr => ?_
  have hrest := (simpleForm_settles.yields r hr).suffix
  refine Yields.bind (h.finishLine_inherits place r.rest) ?_
  rintro ⟨note, rest', _⟩ ⟨hnote, hP⟩
  exact .pure ⟨hnote.trans hrest, h.append (h.simple hts hr) hP⟩

theorem trivia_inherits (h : Inherits finalLine T P) (place : Place) (ts : List Token) :
    P place (ts.filterMap ofTrivia?) := by
  induction ts with
  | nil => exact h.nil
  | cons t ts ih =>
    rw [List.filterMap_cons]
    unfold ofTrivia?
    split
    · exact ih
    · next stmt hstmt =>
      have htrivia : stmt.isTrivia = true := by
        split at hstmt <;> cases hstmt <;> rfl
      exact h.append (h.trivia htrivia) ih

mutual

theorem block_inherits (h : Inherits finalLine T P) {place : Place} {ts : List Token} (hts : T ts) :
    Yields (block finalLine place ts) fun r => r.rest <:+ ts ∧ P place r.value := by
  unfold block
  split
  · refine Yields.bind (h.finishLine_inherits place ts) ?_
    rintro ⟨note, rest, hfits⟩ ⟨hsuffix, hnote⟩
    dsimp only at hfits hsuffix hnote ⊢
    cases rest with
    | nil => exact .fail
    | cons t rest =>
      dsimp only
      split
      · have hrest := (List.suffix_cons t rest).trans hsuffix
        refine Yields.bind (blockBody_inherits h (h.suffix hts hrest)) ?_
        rintro ⟨body, after, _⟩ ⟨hafter, hbody⟩
        exact .pure ⟨hafter.trans hrest, h.append hnote hbody⟩
      · exact .fail
  · exact h.simpleStatement_inherits place hts
termination_by (ts.length, 0)
decreasing_by
  simp only [List.length_cons] at hfits
  exact Prod.Lex.left _ _ (by omega)

theorem blockBody_inherits (h : Inherits finalLine T P) {place : Place} {ts : List Token}
    (hts : T ts) :
    Yields (blockBody finalLine place ts) fun r => r.rest <:+ ts ∧ P place r.value := by
  cases ts with
  | nil =>
    unfold blockBody
    exact .pure ⟨List.suffix_rfl, h.nil⟩
  | cons t ts =>
    have hcons := List.suffix_cons t ts
    unfold blockBody
    dsimp only
    split
    · exact .pure ⟨hcons, h.nil⟩
    · refine Yields.bind (blockBody_inherits h (h.suffix hts hcons)) ?_
      rintro ⟨body, rest, _⟩ ⟨hsuffix, hbody⟩
      exact .pure ⟨hsuffix.trans hcons, hbody⟩
    · refine Yields.bind (statement_inherits h hts) ?_
      rintro ⟨first, rest, hfits⟩ ⟨hsuffix, hfirst⟩
      refine Yields.bind (blockBody_inherits h (h.suffix hts hsuffix)) ?_
      rintro ⟨more, rest', _⟩ ⟨hsuffix', hmore⟩
      exact .pure ⟨hsuffix'.trans hsuffix, h.append hfirst hmore⟩
termination_by (ts.length, 0)
decreasing_by
  all_goals
    subst_vars
    exact Prod.Lex.left _ _ (by simp only [List.length_cons]; omega)

theorem statement_inherits (h : Inherits finalLine T P) {place : Place} {t : Token}
    {ts : List Token} (hts : T (t :: ts)) :
    Yields (statement finalLine place t ts) fun r => r.rest <:+ t :: ts ∧ P place r.value := by
  have hcons := List.suffix_cons t ts
  have hts' := h.suffix hts hcons
  unfold statement
  split
  · exact .pure ⟨hcons, h.trivia rfl⟩
  · exact .pure ⟨hcons, h.trivia rfl⟩
  · refine .check fun hplace => Yields.bind_eq fun head hhead => ?_
    have hrest := (functionHead_settles.yields head hhead).suffix
    have hfits := head.fits
    refine Yields.bind (block_inherits h (h.suffix hts' hrest)) ?_
    rintro ⟨body, rest', _⟩ ⟨hsuffix, hbody⟩
    exact .pure ⟨hsuffix.trans (hrest.trans hcons),
      h.function (by simpa using hplace) hts' hhead hbody⟩
  · refine Yields.bind (conditional_inherits h hts') ?_
    rintro ⟨stmt, rest, _⟩ ⟨hsuffix, hstmt⟩
    exact .pure ⟨hsuffix.trans hcons, hstmt⟩
  · refine Yields.bind_eq fun head hhead => ?_
    have hrest := (loopHead_settles.yields head hhead).suffix
    have hfits := head.fits
    refine Yields.bind (block_inherits h (h.suffix hts' hrest)) ?_
    rintro ⟨body, rest', _⟩ ⟨hsuffix, hbody⟩
    exact .check fun _ => .pure ⟨hsuffix.trans (hrest.trans hcons), h.loop hts' hhead hbody⟩
  · exact .fail
  · exact .fail
  · exact .fail
  · exact .fail
  · exact .fail
  · exact h.simpleStatement_inherits place hts
termination_by (ts.length, 1)

theorem conditional_inherits (h : Inherits finalLine T P) {place : Place} {line : Nat}
    {ts : List Token} (hts : T ts) :
    Yields (Program.conditional finalLine place line ts) fun r => r.rest <:+ ts ∧
      P place [r.value] := by
  unfold Program.conditional
  refine Yields.bind_eq fun condition hcondition => ?_
  have hfits := condition.fits
  have hsuffix := (Expr.parse_settles.yields condition hcondition).inline.suffix
  refine Yields.bind expectSymbol_yields ?_
  rintro ⟨_, rest, _⟩ hrest
  replace hsuffix := hrest.trans hsuffix
  refine Yields.bind (block_inherits h (h.suffix hts hsuffix)) ?_
  rintro ⟨body, rest, _⟩ ⟨hrest, hbody⟩
  replace hsuffix := hrest.trans hsuffix
  have hbody' := h.append hbody (h.trivia_inherits place (rest.takeWhile (·.kind.isTrivia)))
  have hafter : afterTrivia rest <:+ ts := (List.dropWhile_suffix _).trans hsuffix
  have hlength : (afterTrivia rest).length < ts.length := by
    have := afterTrivia_length rest
    omega
  dsimp only at hsuffix hbody hbody' ⊢
  split
  · next span after heq =>
    have hlength' : after.length + 1 < ts.length := by
      rw [heq] at hlength
      exact hlength
    replace hafter := (List.suffix_cons _ _).trans (heq ▸ hafter)
    refine Yields.bind (conditional_inherits h (h.suffix hts hafter)) ?_
    rintro ⟨stmt, rest', _⟩ ⟨hrest', hstmt⟩
    exact .pure ⟨hrest'.trans hafter, h.conditional hts hcondition hbody' hstmt⟩
  · next span after heq =>
    have hlength' : after.length + 1 < ts.length := by
      rw [heq] at hlength
      exact hlength
    replace hafter := (List.suffix_cons _ _).trans (heq ▸ hafter)
    refine Yields.bind expectSymbol_yields ?_
    rintro ⟨_, rest', _⟩ hrest'
    replace hafter := hrest'.trans hafter
    refine Yields.bind (block_inherits h (h.suffix hts hafter)) ?_
    rintro ⟨elseBody, rest'', _⟩ ⟨hrest'', helse⟩
    exact .pure ⟨hrest''.trans hafter, h.conditional hts hcondition hbody' helse⟩
  · exact .pure ⟨hsuffix, h.conditional hts hcondition hbody h.nil⟩
termination_by (ts.length, 0)
decreasing_by
  all_goals exact Prod.Lex.left _ _ (by omega)

end

/-- The statements of a whole text have the property at the level of the module. -/
theorem topLevel_inherits (h : Inherits finalLine T P) {ts : List Token} (hts : T ts) :
    Yields (topLevel finalLine ts) (P .module) := by
  cases ts with
  | nil =>
    unfold topLevel
    exact .pure h.nil
  | cons t ts =>
    unfold topLevel
    split
    · exact h.topLevel_inherits (h.suffix hts (List.suffix_cons t ts))
    · refine Yields.bind (h.statement_inherits hts) ?_
      rintro ⟨first, rest, hfits⟩ ⟨hsuffix, hfirst⟩
      exact Yields.bind (h.topLevel_inherits (h.suffix hts hsuffix)) fun more hmore =>
        .pure (h.append hfirst hmore)
termination_by ts.length

end Inherits

end Program

end Sketchwright
