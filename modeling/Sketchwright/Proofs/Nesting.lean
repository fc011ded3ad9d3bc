import Sketchwright.Proofs.Grammar
import Sketchwright.Proofs.Outcome

/-! Blocks as the grammar reads them. An indent is only read after the line of a block header, and
no reader but the one at the level of the module meets the end of a block that it has not opened. -/

namespace Sketchwright

/-- A token in a line: neither the end of a line nor the start or end of a block,
nor a line of its own. -/
def TokenKind.inLine : TokenKind → Bool
  | .newline | .indent | .dedent | .blankLine | .eof => false
  | _ => true

/-- A token of an expression. -/
def TokenKind.inExpr : TokenKind → Bool
  | .newline | .indent | .dedent | .blankLine | .eof | .comment _ | .symbol .colon => false
  | _ => true

/-- From `ts` to `rest` there are only tokens of these kinds. -/
def Within (p : TokenKind → Bool) (ts rest : List Token) : Prop :=
  ∃ code, ts = code ++ rest ∧ ∀ t ∈ code, p t.kind = true

/-- From `ts` to `rest` a reader stays in one line. -/
abbrev Inline (ts rest : List Token) : Prop := Within TokenKind.inLine ts rest

/-- From `ts` to `rest` a reader stays in one expression. -/
abbrev InExpr (ts rest : List Token) : Prop := Within TokenKind.inExpr ts rest

def Fault.isStrayEnd : Fault → Bool
  | .malformed _ .strayBlockEnd => true
  | _ => false

/-- What a reader makes sure of that does not fail at the end of a block. -/
def Settles {α : Type} (reader : Except Fault α) (Q : α → Prop) : Prop :=
  match reader with
  | .ok a => Q a
  | .error fault => fault.isStrayEnd = false

namespace Settles

variable {α β : Type} {P Q : α → Prop} {R : β → Prop}

theorem pure {a : α} (h : Q a) : Settles (.ok a) Q := h

theorem fail {fault : Fault} (h : fault.isStrayEnd = false) : Settles (.error fault) Q := h

theorem bind {reader : Except Fault α} {next : α → Except Fault β} (h : Settles reader P)
    (hnext : ∀ a, P a → Settles (next a) R) : Settles (reader >>= next) R := by
  cases reader with
  | error fault => exact h
  | ok a => exact hnext a h

/-- A reader that fails on a condition goes on where it does not hold. -/
theorem check {c : Prop} [Decidable c] {fault : Fault} {jump : β → Except Fault α}
    {next : Except Fault α} (hfault : fault.isStrayEnd = false) (h : ¬c → Settles next Q) :
    Settles (if c then (do let r ← throw fault; jump r) else next) Q := by
  split
  · exact hfault
  · next hc => exact h hc

theorem imp {reader : Except Fault α} (h : Settles reader P) (himp : ∀ a, P a → Q a) :
    Settles reader Q := by
  cases reader with
  | error fault => exact h
  | ok a => exact himp a h

theorem yields {reader : Except Fault α} (h : Settles reader Q) : Yields reader Q := by
  rintro a rfl
  exact h

end Settles

namespace Within

variable {p : TokenKind → Bool} {t : Token} {ts us rest : List Token}

theorem refl : Within p ts ts := ⟨[], rfl, fun _ h => (nomatch h)⟩

theorem trans (h : Within p ts us) (hmore : Within p us rest) : Within p ts rest := by
  obtain ⟨code, rfl, hcode⟩ := h
  obtain ⟨more, rfl, hmore⟩ := hmore
  exact ⟨code ++ more, (List.append_assoc ..).symm, List.forall_mem_append.mpr ⟨hcode, hmore⟩⟩

theorem one (ht : p t.kind = true) : Within p (t :: ts) ts :=
  ⟨[t], rfl, List.forall_mem_singleton.mpr ht⟩

theorem cons (ht : p t.kind = true) (h : Within p ts rest) : Within p (t :: ts) rest :=
  (one ht).trans h

/-- A token that is looked at is passed over. -/
theorem tail (heof : p .eof = false) (h : p (Reading.kindOf ts) = true) : Within p ts ts.tail := by
  cases ts with
  | nil =>
    rw [Reading.kindOf, heof] at h
    cases h
  | cons t ts => exact one h

end Within

theorem InExpr.inline {ts rest : List Token} (h : InExpr ts rest) : Inline ts rest := by
  obtain ⟨code, rfl, hcode⟩ := h
  refine ⟨code, rfl, fun t ht => ?_⟩
  have hkind := hcode t ht
  cases hkind' : t.kind <;> first | rfl | (rw [hkind'] at hkind; cases hkind)

namespace Reading

variable {finalLine : Nat} {ts : List Token}

theorem expectSymbol_settles {s : Symbol} :
    Settles (expectSymbol finalLine s ts) fun r => ∃ t, t.kind = .symbol s ∧ ts = t :: r.rest := by
  unfold expectSymbol
  split
  · exact .fail rfl
  · split
    · next hkind => exact .pure ⟨_, hkind, rfl⟩
    · exact .fail rfl

theorem expectSymbol_inline {s : Symbol} :
    Settles (expectSymbol finalLine s ts) fun r => Inline ts r.rest := by
  refine expectSymbol_settles.imp ?_
  rintro r ⟨t, hkind, heq⟩
  exact ⟨[t], heq, List.forall_mem_singleton.mpr (hkind ▸ rfl)⟩

theorem expectSymbol_inExpr {s : Symbol} (hs : s ≠ .colon) :
    Settles (expectSymbol finalLine s ts) fun r => InExpr ts r.rest := by
  refine expectSymbol_settles.imp ?_
  rintro r ⟨t, hkind, heq⟩
  refine ⟨[t], heq, List.forall_mem_singleton.mpr ?_⟩
  rw [hkind]
  cases s <;> first | rfl | exact absurd rfl hs

theorem expectKeyword_settles {k : Keyword} :
    Settles (expectKeyword finalLine k ts) fun r => InExpr ts r.rest := by
  unfold expectKeyword
  split
  · exact .fail rfl
  · split
    · next hkind => exact .pure (.one (hkind ▸ rfl))
    · exact .fail rfl

theorem expectIdentifier_settles :
    Settles (expectIdentifier finalLine ts) fun r => InExpr ts r.rest := by
  unfold expectIdentifier
  split
  · exact .fail rfl
  · split
    · next hkind => exact .pure (.one (hkind ▸ rfl))
    · exact .fail rfl

end Reading

namespace Expr

open Reading

theorem inExpr_of_comparisonOp? {kind : TokenKind} {op : BinOp} (h : comparisonOp? kind = some op) :
    kind.inExpr = true := by
  unfold comparisonOp? at h
  split at h <;> first | rfl | cases h

theorem inExpr_of_sumOp? {kind : TokenKind} {op : BinOp} (h : sumOp? kind = some op) :
    kind.inExpr = true := by
  unfold sumOp? at h
  split at h <;> first | rfl | cases h

theorem inExpr_of_productOp? {kind : TokenKind} {op : BinOp} (h : productOp? kind = some op) :
    kind.inExpr = true := by
  unfold productOp? at h
  split at h <;> first | rfl | cases h

theorem dotted_settles {finalLine : Nat} {path : String} {ts : List Token} :
    Settles (dotted finalLine path ts) fun r => InExpr ts r.rest := by
  fun_induction dotted finalLine path ts with
  | case1 path span t ts word hkind ih =>
    refine .bind ih ?_
    rintro ⟨path, rest, h⟩ hrest
    exact .pure (.cons rfl (.cons (hkind ▸ rfl) hrest))
  | case2 => exact .fail rfl
  | case3 => exact .fail rfl
  | case4 => exact .pure .refl

mutual

theorem parse_settles {finalLine : Nat} {ts : List Token} :
    Settles (parse finalLine ts) fun r => InExpr ts r.rest := by
  unfold parse
  refine .bind comparison_settles ?_
  rintro ⟨e, rest, h⟩ hrest
  dsimp only
  split
  · exact .fail rfl
  · exact .pure hrest
termination_by (ts.length, 5)

theorem comparison_settles {finalLine : Nat} {ts : List Token} :
    Settles (comparison finalLine ts) fun r => InExpr ts r.rest := by
  unfold comparison
  refine .bind sum_settles ?_
  rintro ⟨left, rest, h⟩ hrest
  dsimp only at hrest ⊢
  split
  · exact .pure hrest
  · next op hop =>
    refine .bind sum_settles ?_
    rintro ⟨right, rest', h'⟩ hrest'
    dsimp only
    split
    · exact .fail rfl
    · exact .pure (hrest.trans ((Within.tail rfl (inExpr_of_comparisonOp? hop)).trans hrest'))
termination_by (ts.length, 4)

theorem sum_settles {finalLine : Nat} {ts : List Token} :
    Settles (sum finalLine ts) fun r => InExpr ts r.rest := by
  unfold sum
  refine .bind product_settles ?_
  rintro ⟨left, rest, h⟩ hrest
  refine .bind sumTail_settles ?_
  rintro ⟨e, rest', h'⟩ hrest'
  exact .pure (hrest.trans hrest')
termination_by (ts.length, 3)

theorem sumTail_settles {finalLine : Nat} {left : Expr} {ts : List Token} :
    Settles (sumTail finalLine left ts) fun r => InExpr ts r.rest := by
  cases ts with
  | nil =>
    unfold sumTail
    exact .pure .refl
  | cons t ts =>
    unfold sumTail
    dsimp only
    split
    · exact .pure .refl
    · next op hop =>
      refine .bind product_settles ?_
      rintro ⟨right, rest, h⟩ hrest
      refine .bind sumTail_settles ?_
      rintro ⟨e, rest', h'⟩ hrest'
      exact .pure (.cons (inExpr_of_sumOp? hop) (hrest.trans hrest'))
termination_by (ts.length, 0)
decreasing_by
  all_goals
    subst_vars
    simp only [Prod.lex_def, List.length_cons]
    omega

theorem product_settles {finalLine : Nat} {ts : List Token} :
    Settles (product finalLine ts) fun r => InExpr ts r.rest := by
  unfold product
  refine .bind signed_settles ?_
  rintro ⟨left, rest, h⟩ hrest
  refine .bind productTail_settles ?_
  rintro ⟨e, rest', h'⟩ hrest'
  exact .pure (hrest.trans hrest')
termination_by (ts.length, 2)

theorem productTail_settles {finalLine : Nat} {left : Expr} {ts : List Token} :
    Settles (productTail finalLine left ts) fun r => InExpr ts r.rest := by
  cases ts with
  | nil =>
    unfold productTail
    exact .pure .refl
  | cons t ts =>
    unfold productTail
    dsimp only
    split
    · exact .pure .refl
    · next op hop =>
      refine .bind signed_settles ?_
      rintro ⟨right, rest, h⟩ hrest
      refine .bind productTail_settles ?_
      rintro ⟨e, rest', h'⟩ hrest'
      exact .pure (.cons (inExpr_of_productOp? hop) (hrest.trans hrest'))
termination_by (ts.length, 0)
decreasing_by
  all_goals
    subst_vars
    simp only [Prod.lex_def, List.length_cons]
    omega

theorem signed_settles {finalLine : Nat} {ts : List Token} :
    Settles (signed finalLine ts) fun r => InExpr ts r.rest := by
  cases ts with
  | nil =>
    unfold signed
    exact .fail rfl
  | cons t ts =>
    unfold signed
    dsimp only
    split
    · next hkind =>
      refine .bind signed_settles ?_
      rintro ⟨e, rest, h⟩ hrest
      exact .pure (.cons (hkind ▸ rfl) hrest)
    · next hkind =>
      refine .bind signed_settles ?_
      rintro ⟨e, rest, h⟩ hrest
      exact .pure (.cons (hkind ▸ rfl) hrest)
    · exact .fail rfl
    · refine .bind applied_settles ?_
      rintro ⟨base, rest, h⟩ hrest
      dsimp only at h hrest ⊢
      split
      · next hpower =>
        refine .bind signed_settles ?_
        rintro ⟨exponent, rest', h'⟩ hrest'
        exact .pure (hrest.trans ((Within.tail rfl (hpower ▸ rfl)).trans hrest'))
      · exact .pure hrest
termination_by (ts.length, 1)
decreasing_by
  all_goals
    subst_vars
    simp only [Prod.lex_def, List.length_tail, List.length_cons]
    omega

theorem applied_settles {finalLine : Nat} {t : Token} {ts : List Token} :
    Settles (applied finalLine t ts) fun r => InExpr (t :: ts) r.rest := by
  unfold applied
  split
  · next word hkind =>
    refine .check rfl fun _ => .check rfl fun _ => .bind dotted_settles ?_
    rintro ⟨path, rest, h⟩ hrest
    have hpath : InExpr (t :: ts) rest := .cons (hkind ▸ rfl) hrest
    dsimp only at h hpath ⊢
    refine .bind (P := fun r => InExpr (t :: ts) r.rest) ?_ ?_
    · split
      · next hopen =>
        refine .bind arguments_settles ?_
        rintro ⟨args, after, ha⟩ hafter
        exact .pure (hpath.trans ((Within.tail rfl (hopen ▸ rfl)).trans hafter))
      · refine .check rfl fun _ => ?_
        split
        · next hopen =>
          refine .bind parse_settles ?_
          rintro ⟨position, after, ha⟩ hafter
          refine .check rfl fun _ => .bind (expectSymbol_inExpr nofun) ?_
          rintro ⟨_, after', ha'⟩ hafter'
          exact .pure (hpath.trans ((Within.tail rfl (hopen ▸ rfl)).trans (hafter.trans hafter')))
        · exact .pure hpath
    · rintro ⟨e, rest', h'⟩ hrest'
      exact .check rfl fun _ => .pure hrest'
  · next hkind => exact .pure (.one (hkind ▸ rfl))
  · next hkind => exact .pure (.one (hkind ▸ rfl))
  · next hkind => exact .pure (.one (hkind ▸ rfl))
  · next hkind => exact .pure (.one (hkind ▸ rfl))
  · next hkind => exact .pure (.one (hkind ▸ rfl))
  · exact .fail rfl
  · next hkind =>
    refine .check rfl fun _ => .bind parse_settles ?_
    rintro ⟨e, rest, h⟩ hrest
    refine .check rfl fun _ => .bind (expectSymbol_inExpr nofun) ?_
    rintro ⟨_, rest', h'⟩ hrest'
    exact .pure (.cons (hkind ▸ rfl) (hrest.trans hrest'))
  · next hkind =>
    refine .bind listItems_settles ?_
    rintro ⟨items, rest, h⟩ hrest
    exact .pure (.cons (hkind ▸ rfl) hrest)
  · exact .fail rfl
  · exact .fail rfl
termination_by (ts.length, 7)
decreasing_by
  all_goals
    simp only [Prod.lex_def, List.length_tail, true_and]
    omega

theorem arguments_settles {finalLine : Nat} {ts : List Token} :
    Settles (arguments finalLine ts) fun r => InExpr ts r.rest := by
  unfold arguments
  split
  · next hclose => exact .pure (.tail rfl (hclose ▸ rfl))
  · split
    · exact .fail rfl
    · refine .bind parse_settles ?_
      rintro ⟨e, rest, h⟩ hrest
      dsimp only at h hrest ⊢
      split
      · next hcomma =>
        refine .bind arguments_settles ?_
        rintro ⟨es, rest', h'⟩ hrest'
        exact .pure (hrest.trans ((Within.tail rfl (hcomma ▸ rfl)).trans hrest'))
      · refine .bind (expectSymbol_inExpr nofun) ?_
        rintro ⟨_, rest', h'⟩ hrest'
        exact .pure (hrest.trans hrest')
termination_by (ts.length, 6)

theorem listItems_settles {finalLine line : Nat} {ts : List Token} :
    Settles (listItems finalLine line ts) fun r => InExpr ts r.rest := by
  unfold listItems
  split
  · next hclose => exact .pure (.tail rfl (hclose ▸ rfl))
  · refine .bind parse_settles ?_
    rintro ⟨e, rest, h⟩ hrest
    dsimp only at h hrest ⊢
    split
    · next hcomma =>
      refine .bind listItems_settles ?_
      rintro ⟨es, rest', h'⟩ hrest'
      exact .pure (hrest.trans ((Within.tail rfl (hcomma ▸ rfl)).trans hrest'))
    · exact .fail rfl
    · refine .bind (expectSymbol_inExpr nofun) ?_
      rintro ⟨_, rest', h'⟩ hrest'
      exact .pure (hrest.trans hrest')
termination_by (ts.length, 6)

end

end Expr

namespace Program

open Reading

/-- Keywords whose lines end with the colon before a block. -/
def opensBlock : TokenKind → Bool
  | .keyword .define | .keyword .ifBranch | .keyword .elifBranch | .keyword .elseBranch
  | .keyword .forLoop => true
  | _ => false

theorem inLine_of_opensBlock {kind : TokenKind}
    (h : opensBlock kind = true) : kind.inLine = true := by
  unfold opensBlock at h
  split at h <;> first | rfl | cases h

/-- From `ts` to `rest` there are whole lines and blocks. The last line and the last blocks may lack
their ends where the tokens end. -/
inductive Rows : List Token → List Token → Prop
  | nil {ts} : Rows ts ts
  | trivia {t ts rest} (ht : t.kind.isTrivia = true) (hmore : Rows ts rest) : Rows (t :: ts) rest
  | line {ts newline us rest} (hline : Inline ts (newline :: us))
    (hnewline : newline.kind = .newline)
      (hmore : Rows us rest) : Rows ts rest
  | last {ts} (hline : Inline ts []) : Rows ts []
  | block {header ts newline indent body dedent us rest} (hheader : opensBlock header.kind = true)
      (hline : Inline ts (newline :: indent :: body)) (hnewline : newline.kind = .newline)
      (hindent : indent.kind = .indent) (hbody : Rows body (dedent :: us))
      (hdedent : dedent.kind = .dedent) (hmore : Rows us rest) : Rows (header :: ts) rest
  | cut {header ts newline indent body} (hheader : opensBlock header.kind = true)
      (hline : Inline ts (newline :: indent :: body)) (hnewline : newline.kind = .newline)
      (hindent : indent.kind = .indent) (hbody : Rows body []) : Rows (header :: ts) []

namespace Rows

variable {ts us rest : List Token}

theorem eq_nil (h : Rows [] rest) : rest = [] := by
  cases h with
  | nil => rfl
  | line hline =>
    obtain ⟨code, hcode, -⟩ := hline
    simp at hcode
  | last => rfl

theorem trans (h : Rows ts us) (hmore : Rows us rest) : Rows ts rest := by
  induction h with
  | nil => exact hmore
  | trivia ht _ ih => exact .trivia ht (ih hmore)
  | line hline hnewline _ ih => exact .line hline hnewline (ih hmore)
  | last hline =>
    obtain rfl := hmore.eq_nil
    exact .last hline
  | block hheader hline hnewline hindent hbody hdedent _ _ ih =>
    exact .block hheader hline hnewline hindent hbody hdedent (ih hmore)
  | cut hheader hline hnewline hindent hbody =>
    obtain rfl := hmore.eq_nil
    exact .cut hheader hline hnewline hindent hbody

end Rows

/-- From `ts` to `rest` there is the rest of a line with its end. -/
def LineEnds (ts rest : List Token) : Prop :=
  (∃ newline, newline.kind = .newline ∧ Inline ts (newline :: rest)) ∨ rest = [] ∧ Inline ts []

/-- From `ts` to `rest` there is the rest of a block with its end. -/
def BlockEnds (ts rest : List Token) : Prop :=
  (∃ dedent, dedent.kind = .dedent ∧ Rows ts (dedent :: rest)) ∨ rest = [] ∧ Rows ts []

variable {finalLine line : Nat} {ts us rest : List Token}

theorem LineEnds.rows (h : LineEnds ts rest) : Rows ts rest := by
  rcases h with ⟨newline, hnewline, hline⟩ | ⟨rfl, hline⟩
  · exact .line hline hnewline .nil
  · exact .last hline

theorem LineEnds.of_inline (hline : Inline ts us) (h : LineEnds us rest) : LineEnds ts rest := by
  rcases h with ⟨newline, hnewline, hmore⟩ | ⟨rfl, hmore⟩
  · exact .inl ⟨newline, hnewline, hline.trans hmore⟩
  · exact .inr ⟨rfl, hline.trans hmore⟩

theorem BlockEnds.of_rows (hrows : Rows ts us) (h : BlockEnds us rest) : BlockEnds ts rest := by
  rcases h with ⟨dedent, hdedent, hmore⟩ | ⟨rfl, hmore⟩
  · exact .inl ⟨dedent, hdedent, hrows.trans hmore⟩
  · exact .inr ⟨rfl, hrows.trans hmore⟩

section Rows

theorem endLine_settles : Settles (endLine finalLine ts) fun r => LineEnds ts r.rest := by
  unfold endLine
  split
  · exact .pure (.inr ⟨rfl, .refl⟩)
  · split
    · next hnewline => exact .pure (.inl ⟨_, hnewline, .refl⟩)
    · exact .fail rfl

theorem finishLine_settles : Settles (finishLine finalLine ts) fun r => LineEnds ts r.rest := by
  unfold finishLine
  split
  · refine .bind endLine_settles ?_
    rintro ⟨_, rest, h⟩ hrest
    exact .pure (.of_inline (.one rfl) hrest)
  · refine .bind endLine_settles ?_
    rintro ⟨_, rest, h⟩ hrest
    exact .pure hrest

theorem names_settles : Settles (names finalLine ts) fun r => InExpr ts r.rest := by
  fun_induction names finalLine ts with
  | case1 t span ts name hkind ih =>
    refine .bind ih ?_
    rintro ⟨more, rest, h⟩ hrest
    exact .pure (.cons (hkind ▸ rfl) (.cons rfl hrest))
  | case2 => exact .fail rfl
  | case3 =>
    refine .bind expectIdentifier_settles ?_
    rintro ⟨name, rest, h⟩ hrest
    exact .pure hrest

theorem annotatedKind_settles : Settles (annotatedKind finalLine ts) fun r => InExpr ts r.rest := by
  unfold annotatedKind
  refine .bind expectIdentifier_settles ?_
  rintro ⟨name, rest, h⟩ hrest
  dsimp only
  split
  · exact .pure hrest
  · exact .fail rfl

theorem assignmentOrExpr_settles :
    Settles (assignmentOrExpr finalLine line ts) fun r => Inline ts r.rest := by
  unfold assignmentOrExpr
  refine .check rfl fun _ => .bind Expr.parse_settles ?_
  rintro ⟨left, rest, h⟩ hrest
  dsimp only at h hrest ⊢
  split
  · next hequal =>
    split
    · exact .fail rfl
    · refine .bind Expr.parse_settles ?_
      rintro ⟨value, rest', h'⟩ hrest'
      exact .check rfl fun _ =>
        .pure (hrest.inline.trans ((Within.tail rfl (hequal ▸ rfl)).trans hrest'.inline))
  · next hcolon =>
    split
    · refine .bind annotatedKind_settles ?_
      rintro ⟨kind, rest', h'⟩ hrest'
      have hkind : Inline ts rest' :=
        hrest.inline.trans ((Within.tail rfl (hcolon ▸ rfl)).trans hrest'.inline)
      refine .check rfl fun hequal => .bind Expr.parse_settles ?_
      rintro ⟨value, rest'', h''⟩ hrest''
      have htail : Inline rest' rest'.tail :=
        .tail rfl (by simp [TokenKind.inLine, Decidable.not_not.mp hequal])
      exact .pure (hkind.trans (htail.trans hrest''.inline))
    · exact .fail rfl
  · exact .fail rfl
  · exact .fail rfl
  · exact .pure hrest.inline

theorem simpleForm_settles {place : Place} :
    Settles (simpleForm finalLine place ts) fun r => Inline ts r.rest := by
  unfold simpleForm
  split
  · exact .fail rfl
  · next t ts =>
    split
    · next hkind =>
      refine .check rfl fun _ => ?_
      split
      · exact .pure (.one (hkind ▸ rfl))
      · refine .bind Expr.parse_settles ?_
        rintro ⟨value, rest, h⟩ hrest
        exact .pure (.cons (hkind ▸ rfl) hrest.inline)
    · next hkind => exact .pure (.one (hkind ▸ rfl))
    · next hkind => exact .check rfl fun _ => .pure (.one (hkind ▸ rfl))
    · next hkind => exact .check rfl fun _ => .pure (.one (hkind ▸ rfl))
    · next hkind =>
      refine .check rfl fun _ => .bind names_settles ?_
      rintro ⟨ids, rest, h⟩ hrest
      exact .pure (.cons (hkind ▸ rfl) hrest.inline)
    · split
      · exact .fail rfl
      · exact assignmentOrExpr_settles
    · next hkind =>
      split
      · exact .pure (.one (hkind ▸ rfl))
      · exact assignmentOrExpr_settles
    · exact assignmentOrExpr_settles

theorem simpleStatement_settles {place : Place} :
    Settles (simpleStatement finalLine place ts) fun r => LineEnds ts r.rest := by
  unfold simpleStatement
  refine .bind simpleForm_settles ?_
  rintro ⟨stmt, rest, h⟩ hrest
  refine .bind finishLine_settles ?_
  rintro ⟨note, rest', h'⟩ hrest'
  exact .pure (.of_inline hrest hrest')

end Rows

section Heads

theorem parameters_settles {seen : List Param} {ts : List Token} :
    Settles (parameters finalLine line seen ts) fun r => Inline ts r.rest := by
  unfold parameters
  split
  · next hclose => exact .pure (.tail rfl (hclose ▸ rfl))
  · exact .fail rfl
  · exact .fail rfl
  refine .bind expectIdentifier_settles ?_
  rintro ⟨name, rest, h⟩ hrest
  dsimp only at h hrest ⊢
  refine .check rfl fun _ => .bind (P := fun r => Inline ts r.rest) ?_ ?_
  · split
    · next hcolon =>
      refine .bind annotatedKind_settles ?_
      rintro ⟨kind, after, ha⟩ hafter
      exact .pure (hrest.inline.trans ((Within.tail rfl (hcolon ▸ rfl)).trans hafter.inline))
    · exact .pure hrest.inline
  rintro ⟨kind, rest', h'⟩ hrest'
  dsimp only at h' hrest' ⊢
  split
  · exact .fail rfl
  · next hcomma =>
    refine .bind parameters_settles ?_
    rintro ⟨more, after, ha⟩ hafter
    exact .pure (hrest'.trans ((Within.tail rfl (hcomma ▸ rfl)).trans hafter))
  · refine .bind expectSymbol_inline ?_
    rintro ⟨_, after, ha⟩ hafter
    exact .pure (hrest'.trans hafter)
termination_by ts.length

theorem returnKind_settles : Settles (returnKind finalLine ts) fun r => Inline ts r.rest := by
  unfold returnKind
  split
  · split
    · next hnone => exact .pure (.cons rfl (.tail rfl (hnone ▸ rfl)))
    · refine .bind annotatedKind_settles ?_
      rintro ⟨kind, rest, h⟩ hrest
      exact .pure (.cons rfl hrest.inline)
  · exact .pure .refl

theorem functionHead_settles :
    Settles (functionHead finalLine line ts) fun r => Inline ts r.rest := by
  unfold functionHead
  refine .bind expectIdentifier_settles ?_
  rintro ⟨name, rest, h⟩ hname
  refine .bind expectSymbol_inline ?_
  rintro ⟨_, rest, h⟩ hopen
  refine .bind parameters_settles ?_
  rintro ⟨params, rest, h⟩ hparams
  refine .bind returnKind_settles ?_
  rintro ⟨returns, rest, h⟩ hreturns
  refine .check rfl fun _ => .check rfl fun _ => .bind expectSymbol_inline ?_
  rintro ⟨_, rest, h⟩ hcolon
  exact .pure (hname.inline.trans (hopen.trans (hparams.trans (hreturns.trans hcolon))))

theorem stepOf_settles {step : Expr} : Settles (stepOf line step) fun _ => True := by
  unfold stepOf
  dsimp only
  split
  · exact .check rfl fun _ => trivial
  · exact .check rfl fun _ => trivial
  · exact .fail rfl

theorem boundsOf_settles {args : List Expr} : Settles (boundsOf line args) fun _ => True := by
  unfold boundsOf
  split
  · trivial
  · trivial
  · exact .bind stepOf_settles fun _ _ => trivial
  · exact .fail rfl

theorem loopHead_settles : Settles (loopHead finalLine line ts) fun r => Inline ts r.rest := by
  unfold loopHead
  refine .bind expectIdentifier_settles ?_
  rintro ⟨var, rest, h⟩ hvar
  refine .check rfl fun _ => .bind expectKeyword_settles ?_
  rintro ⟨_, rest, h⟩ hin
  refine .bind Expr.parse_settles ?_
  rintro ⟨iterable, rest, h⟩ hiterable
  dsimp only
  split
  · refine .check rfl fun _ => .bind boundsOf_settles fun _ _ => .bind expectSymbol_inline ?_
    rintro ⟨_, rest, h⟩ hcolon
    exact .pure (hvar.inline.trans (hin.inline.trans (hiterable.inline.trans hcolon)))
  · exact .fail rfl

end Heads

theorem rows_afterTrivia (ts : List Token) : Rows ts (afterTrivia ts) := by
  unfold afterTrivia
  induction ts with
  | nil => exact .nil
  | cons t ts ih =>
    rw [List.dropWhile_cons]
    split
    · next ht => exact .trivia ht ih
    · exact .nil

mutual

/-- A block after the header that its line starts with. -/
theorem block_settles {finalLine : Nat} {place : Place} {ts : List Token} :
    Settles (block finalLine place ts) fun r => ∀ header us, opensBlock header.kind = true →
      Inline us ts → Rows (header :: us) r.rest := by
  unfold block
  split
  · refine .bind finishLine_settles ?_
    rintro ⟨note, rest, h⟩ hrest
    dsimp only at h hrest ⊢
    cases rest with
    | nil => exact .fail rfl
    | cons t rest =>
      dsimp only
      split
      · next hindent =>
        obtain ⟨newline, hnewline, hline⟩ : ∃ newline, newline.kind = .newline ∧
            Inline ts (newline :: t :: rest) := hrest.resolve_right fun h => nomatch h.1
        refine .bind blockBody_settles ?_
        rintro ⟨body, after, h'⟩ hbody
        refine .pure fun header us hheader hus => ?_
        rcases hbody with ⟨dedent, hdedent, hbody⟩ | ⟨rfl, hbody⟩
        · exact .block hheader (hus.trans hline) hnewline hindent hbody hdedent .nil
        · exact .cut hheader (hus.trans hline) hnewline hindent hbody
      · exact .fail rfl
  · refine simpleStatement_settles.imp fun r hr header us hheader hus => ?_
    exact (LineEnds.of_inline (.cons (inLine_of_opensBlock hheader) hus) hr).rows
termination_by (ts.length, 0)
decreasing_by
  simp only [List.length_cons] at h
  exact Prod.Lex.left _ _ (by omega)

theorem blockBody_settles {finalLine : Nat} {place : Place} {ts : List Token} :
    Settles (blockBody finalLine place ts) fun r => BlockEnds ts r.rest := by
  cases ts with
  | nil =>
    unfold blockBody
    exact .pure (.inr ⟨rfl, .nil⟩)
  | cons t ts =>
    unfold blockBody
    dsimp only
    split
    · next hdedent => exact .pure (.inl ⟨t, hdedent, .nil⟩)
    · next hnewline =>
      refine .bind blockBody_settles ?_
      rintro ⟨body, rest, h⟩ hbody
      exact .pure (.of_rows (.line .refl hnewline .nil) hbody)
    · next hdedent _ =>
      refine .bind (statement_settles hdedent) ?_
      rintro ⟨first, rest, h⟩ hfirst
      refine .bind blockBody_settles ?_
      rintro ⟨more, rest', h'⟩ hmore
      exact .pure (.of_rows hfirst hmore)
termination_by (ts.length, 0)
decreasing_by
  all_goals
    subst_vars
    exact Prod.Lex.left _ _ (by simp only [List.length_cons]; omega)

theorem statement_settles {finalLine : Nat} {place : Place} {t : Token} {ts : List Token}
    (ht : t.kind ≠ .dedent) :
    Settles (statement finalLine place t ts) fun r => Rows (t :: ts) r.rest := by
  unfold statement
  split
  · next hkind => exact .pure (.trivia (hkind ▸ rfl) .nil)
  · next hkind => exact .pure (.trivia (hkind ▸ rfl) .nil)
  · next hkind =>
    refine .check rfl fun _ => .bind functionHead_settles ?_
    rintro ⟨head, rest, h⟩ hhead
    refine .bind block_settles ?_
    rintro ⟨body, rest', h'⟩ hbody
    exact .pure (hbody t ts (hkind ▸ rfl) hhead)
  · next hkind =>
    refine .bind conditional_settles ?_
    rintro ⟨stmt, rest, h⟩ hrest
    exact .pure (hrest t (hkind ▸ rfl))
  · next hkind =>
    refine .bind loopHead_settles ?_
    rintro ⟨⟨var, bounds⟩, rest, h⟩ hhead
    refine .bind block_settles ?_
    rintro ⟨body, rest', h'⟩ hbody
    exact .check rfl fun _ => .pure (hbody t ts (hkind ▸ rfl) hhead)
  · exact .fail rfl
  · exact .fail rfl
  · exact .fail rfl
  · exact .fail rfl
  · next hkind => exact absurd hkind ht
  · exact simpleStatement_settles.imp fun r hr => hr.rows
termination_by (ts.length, 1)

theorem conditional_settles {finalLine : Nat} {place : Place} {line : Nat} {ts : List Token} :
    Settles (conditional finalLine place line ts) fun r => ∀ header, opensBlock header.kind = true →
      Rows (header :: ts) r.rest := by
  unfold conditional
  refine .bind Expr.parse_settles ?_
  rintro ⟨condition, rest, h₁⟩ hcondition
  refine .bind expectSymbol_inline ?_
  rintro ⟨_, rest, h₂⟩ hcolon
  refine .bind block_settles ?_
  rintro ⟨body, rest, h₃⟩ hbody
  have hafter := rows_afterTrivia rest
  have hlength := afterTrivia_length rest
  dsimp only at hbody ⊢
  split
  · next span after heq =>
    rw [heq] at hafter
    have hlength' : after.length < rest.length := by
      rw [heq] at hlength
      exact hlength
    refine .bind conditional_settles ?_
    rintro ⟨stmt, rest', h'⟩ hrest'
    refine .pure fun header hheader => ?_
    exact (hbody header ts hheader (hcondition.inline.trans hcolon)).trans
      (hafter.trans (hrest' _ rfl))
  · next span after heq =>
    rw [heq] at hafter
    have hlength' : after.length < rest.length := by
      rw [heq] at hlength
      exact hlength
    refine .bind expectSymbol_inline ?_
    rintro ⟨_, rest', h'⟩ hcolon'
    refine .bind block_settles ?_
    rintro ⟨elseBody, rest'', h''⟩ helse
    refine .pure fun header hheader => ?_
    exact (hbody header ts hheader (hcondition.inline.trans hcolon)).trans
      (hafter.trans (helse _ _ rfl hcolon'))
  · exact .pure fun header hheader => hbody header ts hheader (hcondition.inline.trans hcolon)
termination_by (ts.length, 0)
decreasing_by
  all_goals exact Prod.Lex.left _ _ (by omega)

end

/-- A text is read as whole lines and blocks up to its end, or up to the end of a
block that is not open. -/
theorem topLevel_rows {finalLine : Nat} {ts : List Token} :
    (∀ stmts, topLevel finalLine ts = .ok stmts → Rows ts []) ∧
      ∀ fault, topLevel finalLine ts = .error fault → fault.isStrayEnd = true →
        ∃ dedent us, dedent.kind = .dedent ∧ Rows ts (dedent :: us) := by
  cases ts with
  | nil =>
    unfold topLevel
    exact ⟨fun _ _ => .nil, fun _ h => (nomatch h)⟩
  | cons t ts =>
    unfold topLevel
    split
    · next hnewline =>
      obtain ⟨hok, herror⟩ := @topLevel_rows finalLine ts
      have hline : Rows (t :: ts) ts := .line .refl hnewline .nil
      refine ⟨fun stmts h => hline.trans (hok stmts h), fun fault h hstray => ?_⟩
      obtain ⟨dedent, us, hdedent, hus⟩ := herror fault h hstray
      exact ⟨dedent, us, hdedent, hline.trans hus⟩
    by_cases hkind : t.kind = .dedent
    · refine ⟨fun stmts h => ?_, fun _ _ _ => ⟨t, ts, hkind, .nil⟩⟩
      unfold statement at h
      rw [hkind] at h
      cases h
    have hstatement : Settles (statement finalLine .module t ts) _ := statement_settles hkind
    cases hfirst : statement finalLine .module t ts with
    | error fault =>
      rw [hfirst] at hstatement
      refine ⟨fun _ h => (nomatch h), fun fault' h hstray => ?_⟩
      cases h
      rw [hstatement] at hstray
      cases hstray
    | ok r =>
      rw [hfirst] at hstatement
      obtain ⟨first, rest, hfits⟩ := r
      obtain ⟨hok, herror⟩ := @topLevel_rows finalLine rest
      have hrows : Rows (t :: ts) rest := hstatement
      refine ⟨fun stmts h => ?_, fun fault h hstray => ?_⟩
      · obtain ⟨_, hfirst', hbind⟩ := Outcome.bind_eq_ok.mp h
        cases hfirst'
        obtain ⟨more, hmore, -⟩ := Outcome.bind_eq_ok.mp hbind
        exact hrows.trans (hok more hmore)
      · rcases Outcome.bind_eq_error.mp h with hfirst' | ⟨_, hfirst', hbind⟩
        · cases hfirst'
        cases hfirst'
        rcases Outcome.bind_eq_error.mp hbind with hmore | ⟨_, _, hpure⟩
        · obtain ⟨dedent, us, hdedent, hus⟩ := herror fault hmore hstray
          exact ⟨dedent, us, hdedent, hrows.trans hus⟩
        · cases hpure
termination_by ts.length
decreasing_by
  all_goals
    subst_vars
    simp only [List.length_cons]
    omega

end Program

end Sketchwright
