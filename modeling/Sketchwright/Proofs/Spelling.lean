import Sketchwright.Expr.Parser
import Sketchwright.Token.Lexeme

/-! What readers of tokens make sure of. A reader returns what is left of its tokens, and the names
and literals of an expression are those of tokens. -/

namespace Sketchwright

/-- Whatever a reader returns has this property. -/
def Yields {α : Type} (reader : Except Fault α) (Q : α → Prop) : Prop := ∀ a, reader = .ok a → Q a

namespace Yields

variable {α β : Type} {P Q : α → Prop} {R : β → Prop}

theorem pure {a : α} (h : Q a) : Yields (.ok a) Q := by
  rintro _ ⟨⟩
  exact h

theorem fail {fault : Fault} : Yields (.error fault) Q := fun _ h => (nomatch h)

theorem bind {reader : Except Fault α} {next : α → Except Fault β} (h : Yields reader P)
    (hnext : ∀ a, P a → Yields (next a) R) : Yields (reader >>= next) R := by
  intro b hb
  cases reader with
  | error fault => cases hb
  | ok a => exact hnext a (h a rfl) b hb

/-- A reader that fails on a condition goes on where it does not hold. -/
theorem check {c : Prop} [Decidable c] {fault : Fault} {jump : β → Except Fault α}
    {next : Except Fault α} (h : ¬c → Yields next Q) :
    Yields (if c then (do let r ← throw fault; jump r) else next) Q := by
  split
  · exact .fail
  · next hc => exact h hc

theorem imp {reader : Except Fault α} (h : Yields reader P) (himp : ∀ a, P a → Q a) :
    Yields reader Q := fun a ha => himp a (h a ha)

end Yields

/-- A token that stands for itself in an expression is one that the lexer makes of characters. -/
def TokenKind.Spelled (kind : TokenKind) : Prop :=
  match kind with
  | .identifier _ | .integer _ | .float _ | .string _ =>
    ∃ c cs, (Token.Lexeme.read c cs).kind = .ok kind
  | _ => True

namespace Expr

/-- A plain or dotted name that may be called. -/
inductive Path : String → Prop
  | word {id} (hid : (TokenKind.identifier id).Spelled)
    (hsupported : id ∉ unsupportedWords) : Path id
  | dot {path id} (hpath : Path path) (hid : (TokenKind.identifier id).Spelled) :
      Path (path ++ "." ++ id)

/-- A called name without a point is the name of a variable. -/
theorem Path.plain {path : String} (hpath : Path path) (hplain : ¬path.toList.contains '.' = true) :
    (TokenKind.identifier path).Spelled ∧ path ∉ unsupportedWords := by
  cases hpath with
  | word hid hsupported => exact ⟨hid, hsupported⟩
  | dot _ _ => simp at hplain

/-- The names and the literals of an expression are those of tokens. -/
inductive Spelled : Expr → Prop
  | int {value} (h : (TokenKind.integer value).Spelled) : Spelled (.literal (.int value))
  | float {text} (h : (TokenKind.float text).Spelled) : Spelled (.literal (.float text))
  | str {text} (h : (TokenKind.string text).Spelled) : Spelled (.literal (.str text))
  | bool {value} : Spelled (.literal (.bool value))
  | name {id} (hid : (TokenKind.identifier id).Spelled) (hsupported : id ∉ unsupportedWords) :
      Spelled (.name id)
  | unary {sign operand} (hoperand : Spelled operand) : Spelled (.unary sign operand)
  | binary {left op right} (hleft : Spelled left) (hright : Spelled right) :
      Spelled (.binary left op right)
  | call {callee args} (hcallee : Path callee) (hargs : ∀ arg ∈ args, Spelled arg) :
      Spelled (.call callee args)
  | index {list position} (hid : (TokenKind.identifier list).Spelled)
      (hsupported : list ∉ unsupportedWords) (hposition : Spelled position) :
      Spelled (.index list position)
  | list {items} (hitems : ∀ item ∈ items, Spelled item) : Spelled (.list items)

end Expr

/-- Tokens whose names and literals are lexemes. -/
def AllSpelled (ts : List Token) : Prop := ∀ t ∈ ts, t.kind.Spelled

theorem AllSpelled.of_suffix {ts rest : List Token} (h : AllSpelled ts) (hrest : rest <:+ ts) :
    AllSpelled rest := fun t ht => h t (hrest.subset ht)

/-- Tokens that are neither comments nor blank lines stand in the order of their lines. -/
def Ordered (ts : List Token) : Prop :=
  (ts.filter (!·.kind.isTrivia)).Pairwise (·.line ≤ ·.line)

theorem Ordered.sublist {ts us : List Token} (h : Ordered ts) (hus : us.Sublist ts) : Ordered us :=
  List.Pairwise.sublist (hus.filter _) h

theorem Ordered.head {t u : Token} {ts : List Token} (h : Ordered (t :: ts))
    (ht : t.kind.isTrivia = false) (hu : u ∈ t :: ts)
    (hcode : u.kind.isTrivia = false) : t.line ≤ u.line := by
  rw [Ordered, List.filter_cons_of_pos (by simp [ht])] at h
  rcases List.mem_cons.mp hu with rfl | hu
  · exact Nat.le_refl _
  · exact (List.pairwise_cons.mp h).1 u (List.mem_filter.mpr ⟨hu, by simp [hcode]⟩)

namespace Reading

variable {finalLine : Nat} {ts : List Token}

theorem expectSymbol_yields {s : Symbol} :
    Yields (expectSymbol finalLine s ts) fun r => r.rest <:+ ts := by
  unfold expectSymbol
  split
  · exact .fail
  · split
    · exact .pure (List.suffix_cons ..)
    · exact .fail

theorem expectKeyword_yields {k : Keyword} :
    Yields (expectKeyword finalLine k ts) fun r => r.rest <:+ ts := by
  unfold expectKeyword
  split
  · exact .fail
  · split
    · exact .pure (List.suffix_cons ..)
    · exact .fail

theorem expectIdentifier_yields (hts : AllSpelled ts) :
    Yields (expectIdentifier finalLine ts) fun r =>
    r.rest <:+ ts ∧ (TokenKind.identifier r.value).Spelled := by
  unfold expectIdentifier
  split
  · exact .fail
  · split
    · next hkind => exact .pure ⟨List.suffix_cons .., hkind ▸ hts _ List.mem_cons_self⟩
    · exact .fail

end Reading

namespace Expr

open Reading

theorem dotted_yields {finalLine : Nat} {path : String} {ts : List Token} (hts : AllSpelled ts)
    (hpath : Path path) :
    Yields (dotted finalLine path ts) fun r => r.rest <:+ ts ∧ Path r.value := by
  fun_induction dotted finalLine path ts with
  | case1 path span t ts word hkind ih =>
    have hrest : ts <:+ ⟨.symbol .dot, span⟩ :: t :: ts :=
      (List.suffix_cons ..).trans (List.suffix_cons ..)
    have hword : (TokenKind.identifier word).Spelled := hkind ▸ hts t (by simp)
    refine .bind (ih (hts.of_suffix hrest) (.dot hpath hword)) ?_
    rintro ⟨path, rest, h⟩ ⟨hsuffix, hpath⟩
    exact .pure ⟨hsuffix.trans hrest, hpath⟩
  | case2 => exact .fail
  | case3 => exact .fail
  | case4 => exact .pure ⟨List.suffix_rfl, hpath⟩

/-- What readers of expressions make sure of. -/
abbrev Read (ts : List Token) {n : Nat} (r : Parsed Expr n) : Prop :=
  r.rest <:+ ts ∧ r.value.Spelled

mutual

theorem parse_yields {finalLine : Nat} {ts : List Token} (hts : AllSpelled ts) :
    Yields (parse finalLine ts) (Read ts) := by
  unfold parse
  refine .bind (comparison_yields hts) ?_
  rintro ⟨e, rest, h⟩ hread
  dsimp only
  split
  · exact .fail
  · exact .pure hread
termination_by (ts.length, 5)

theorem comparison_yields {finalLine : Nat} {ts : List Token} (hts : AllSpelled ts) :
    Yields (comparison finalLine ts) (Read ts) := by
  unfold comparison
  refine .bind (sum_yields hts) ?_
  rintro ⟨left, rest, h⟩ ⟨hsuffix, hleft⟩
  dsimp only at hsuffix hleft ⊢
  split
  · exact .pure ⟨hsuffix, hleft⟩
  · have htail := (List.tail_suffix rest).trans hsuffix
    refine .bind (sum_yields (hts.of_suffix htail)) ?_
    rintro ⟨right, rest', h'⟩ ⟨hsuffix', hright⟩
    dsimp only at hsuffix' hright ⊢
    split
    · exact .fail
    · exact .pure ⟨hsuffix'.trans htail, .binary hleft hright⟩
termination_by (ts.length, 4)

theorem sum_yields {finalLine : Nat} {ts : List Token} (hts : AllSpelled ts) :
    Yields (sum finalLine ts) (Read ts) := by
  unfold sum
  refine .bind (product_yields hts) ?_
  rintro ⟨left, rest, h⟩ ⟨hsuffix, hleft⟩
  refine .bind (sumTail_yields (hts.of_suffix hsuffix) hleft) ?_
  rintro ⟨e, rest', h'⟩ ⟨hsuffix', he⟩
  exact .pure ⟨hsuffix'.trans hsuffix, he⟩
termination_by (ts.length, 3)

theorem sumTail_yields {finalLine : Nat} {left : Expr} {ts : List Token} (hts : AllSpelled ts)
    (hleft : left.Spelled) : Yields (sumTail finalLine left ts) (Read ts) := by
  cases ts with
  | nil =>
    unfold sumTail
    exact .pure ⟨List.suffix_rfl, hleft⟩
  | cons t ts =>
    unfold sumTail
    dsimp only
    split
    · exact .pure ⟨List.suffix_rfl, hleft⟩
    · have hcons := List.suffix_cons t ts
      refine .bind (product_yields (hts.of_suffix hcons)) ?_
      rintro ⟨right, rest, h⟩ ⟨hsuffix, hright⟩
      have hrest := hsuffix.trans hcons
      refine .bind (sumTail_yields (hts.of_suffix hrest) (.binary hleft hright)) ?_
      rintro ⟨e, rest', h'⟩ ⟨hsuffix', he⟩
      exact .pure ⟨hsuffix'.trans hrest, he⟩
termination_by (ts.length, 0)
decreasing_by
  all_goals
    subst_vars
    simp only [Prod.lex_def, List.length_cons]
    omega

theorem product_yields {finalLine : Nat} {ts : List Token} (hts : AllSpelled ts) :
    Yields (product finalLine ts) (Read ts) := by
  unfold product
  refine .bind (signed_yields hts) ?_
  rintro ⟨left, rest, h⟩ ⟨hsuffix, hleft⟩
  refine .bind (productTail_yields (hts.of_suffix hsuffix) hleft) ?_
  rintro ⟨e, rest', h'⟩ ⟨hsuffix', he⟩
  exact .pure ⟨hsuffix'.trans hsuffix, he⟩
termination_by (ts.length, 2)

theorem productTail_yields {finalLine : Nat} {left : Expr} {ts : List Token} (hts : AllSpelled ts)
    (hleft : left.Spelled) : Yields (productTail finalLine left ts) (Read ts) := by
  cases ts with
  | nil =>
    unfold productTail
    exact .pure ⟨List.suffix_rfl, hleft⟩
  | cons t ts =>
    unfold productTail
    dsimp only
    split
    · exact .pure ⟨List.suffix_rfl, hleft⟩
    · have hcons := List.suffix_cons t ts
      refine .bind (signed_yields (hts.of_suffix hcons)) ?_
      rintro ⟨right, rest, h⟩ ⟨hsuffix, hright⟩
      have hrest := hsuffix.trans hcons
      refine .bind (productTail_yields (hts.of_suffix hrest) (.binary hleft hright)) ?_
      rintro ⟨e, rest', h'⟩ ⟨hsuffix', he⟩
      exact .pure ⟨hsuffix'.trans hrest, he⟩
termination_by (ts.length, 0)
decreasing_by
  all_goals
    subst_vars
    simp only [Prod.lex_def, List.length_cons]
    omega

theorem signed_yields {finalLine : Nat} {ts : List Token} (hts : AllSpelled ts) :
    Yields (signed finalLine ts) (Read ts) := by
  cases ts with
  | nil =>
    unfold signed
    exact .fail
  | cons t ts =>
    have hcons := List.suffix_cons t ts
    unfold signed
    dsimp only
    split
    · refine .bind (signed_yields (hts.of_suffix hcons)) ?_
      rintro ⟨e, rest, h⟩ ⟨hsuffix, he⟩
      exact .pure ⟨hsuffix.trans hcons, .unary he⟩
    · refine .bind (signed_yields (hts.of_suffix hcons)) ?_
      rintro ⟨e, rest, h⟩ ⟨hsuffix, he⟩
      exact .pure ⟨hsuffix.trans hcons, .unary he⟩
    · exact .fail
    · refine .bind (applied_yields hts) ?_
      rintro ⟨base, rest, h⟩ ⟨hsuffix, hbase⟩
      dsimp only at h hsuffix hbase ⊢
      split
      · have htail := (List.tail_suffix rest).trans (hsuffix.trans hcons)
        refine .bind (signed_yields (hts.of_suffix htail)) ?_
        rintro ⟨exponent, rest', h'⟩ ⟨hsuffix', hexponent⟩
        exact .pure ⟨hsuffix'.trans htail, .binary hbase hexponent⟩
      · exact .pure ⟨hsuffix.trans hcons, hbase⟩
termination_by (ts.length, 1)
decreasing_by
  all_goals
    subst_vars
    simp only [Prod.lex_def, List.length_tail, List.length_cons]
    omega

theorem applied_yields {finalLine : Nat} {t : Token} {ts : List Token}
    (hts : AllSpelled (t :: ts)) :
    Yields (applied finalLine t ts) (Read ts) := by
  have hts' := hts.of_suffix (List.suffix_cons t ts)
  have ht := hts t List.mem_cons_self
  unfold applied
  split
  · next word hkind =>
    rw [hkind] at ht
    refine .check fun hsupported => .check fun _ => ?_
    rw [List.contains_iff_mem] at hsupported
    refine .bind (dotted_yields hts' (.word ht hsupported)) ?_
    rintro ⟨path, rest, h⟩ ⟨hsuffix, hpath⟩
    dsimp only at h hsuffix hpath ⊢
    refine .bind (P := Read ts) ?_ ?_
    · split
      · have htail := (List.tail_suffix rest).trans hsuffix
        refine .bind (arguments_yields (hts'.of_suffix htail)) ?_
        rintro ⟨args, after, ha⟩ ⟨hafter, hargs⟩
        exact .pure ⟨hafter.trans htail, .call hpath hargs⟩
      · refine .check fun hplain => ?_
        obtain ⟨hid, hsupported⟩ := hpath.plain hplain
        split
        · have htail := (List.tail_suffix rest).trans hsuffix
          refine .bind (parse_yields (hts'.of_suffix htail)) ?_
          rintro ⟨position, after, ha⟩ ⟨hafter, hposition⟩
          refine .check fun _ => .bind expectSymbol_yields ?_
          rintro ⟨_, after', ha'⟩ hafter'
          exact .pure ⟨hafter'.trans (hafter.trans htail), .index hid hsupported hposition⟩
        · exact .pure ⟨hsuffix, .name hid hsupported⟩
    · rintro ⟨e, rest', h'⟩ hread
      exact .check fun _ => .pure hread
  · next hkind => exact .pure ⟨List.suffix_rfl, .int (hkind ▸ ht)⟩
  · next hkind => exact .pure ⟨List.suffix_rfl, .float (hkind ▸ ht)⟩
  · next hkind => exact .pure ⟨List.suffix_rfl, .str (hkind ▸ ht)⟩
  · exact .pure ⟨List.suffix_rfl, .bool⟩
  · exact .pure ⟨List.suffix_rfl, .bool⟩
  · exact .fail
  · refine .check fun _ => .bind (parse_yields hts') ?_
    rintro ⟨e, rest, h⟩ ⟨hsuffix, he⟩
    refine .check fun _ => .bind expectSymbol_yields ?_
    rintro ⟨_, rest', h'⟩ hsuffix'
    exact .pure ⟨hsuffix'.trans hsuffix, he⟩
  · refine .bind (listItems_yields hts') ?_
    rintro ⟨items, rest, h⟩ ⟨hsuffix, hitems⟩
    exact .pure ⟨hsuffix, .list hitems⟩
  · exact .fail
  · exact .fail
termination_by (ts.length, 7)
decreasing_by
  all_goals
    simp only [Prod.lex_def, List.length_tail, true_and]
    omega

theorem arguments_yields {finalLine : Nat} {ts : List Token} (hts : AllSpelled ts) :
    Yields (arguments finalLine ts) fun r => r.rest <:+ ts ∧ ∀ arg ∈ r.value, arg.Spelled := by
  unfold arguments
  split
  · exact .pure ⟨List.tail_suffix ts, fun _ h => (nomatch h)⟩
  · split
    · exact .fail
    · refine .bind (parse_yields hts) ?_
      rintro ⟨e, rest, h⟩ ⟨hsuffix, he⟩
      dsimp only at h hsuffix he ⊢
      split
      · have htail := (List.tail_suffix rest).trans hsuffix
        refine .bind (arguments_yields (hts.of_suffix htail)) ?_
        rintro ⟨es, rest', h'⟩ ⟨hsuffix', hes⟩
        exact .pure ⟨hsuffix'.trans htail, List.forall_mem_cons.mpr ⟨he, hes⟩⟩
      · refine .bind expectSymbol_yields ?_
        rintro ⟨_, rest', h'⟩ hsuffix'
        exact .pure ⟨hsuffix'.trans hsuffix, List.forall_mem_singleton.mpr he⟩
termination_by (ts.length, 6)

theorem listItems_yields {finalLine line : Nat} {ts : List Token} (hts : AllSpelled ts) :
    Yields (listItems finalLine line ts) fun r =>
      r.rest <:+ ts ∧ ∀ item ∈ r.value, item.Spelled := by
  unfold listItems
  split
  · exact .pure ⟨List.tail_suffix ts, fun _ h => (nomatch h)⟩
  · refine .bind (parse_yields hts) ?_
    rintro ⟨e, rest, h⟩ ⟨hsuffix, he⟩
    dsimp only at h hsuffix he ⊢
    split
    · have htail := (List.tail_suffix rest).trans hsuffix
      refine .bind (listItems_yields (hts.of_suffix htail)) ?_
      rintro ⟨es, rest', h'⟩ ⟨hsuffix', hes⟩
      exact .pure ⟨hsuffix'.trans htail, List.forall_mem_cons.mpr ⟨he, hes⟩⟩
    · exact .fail
    · refine .bind expectSymbol_yields ?_
      rintro ⟨_, rest', h'⟩ hsuffix'
      exact .pure ⟨hsuffix'.trans hsuffix, List.forall_mem_singleton.mpr he⟩
termination_by (ts.length, 6)

end

end Expr

end Sketchwright
