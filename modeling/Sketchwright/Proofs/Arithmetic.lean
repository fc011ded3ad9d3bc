import Sketchwright.Proofs.Calculation
import Sketchwright.Proofs.Outcome
import Sketchwright.Proofs.Trees
import Sketchwright.Inference.Worklist

/-! Integer expressions. A sketch writes `//` and `%` with operators that round towards zero, where
the source rounds down. The text of an expression has the value of the expression with rounding
towards zero, and that is the value with rounding down as long as both agree at every division. -/

namespace Sketchwright

open Calculation

/-- The direction in which a quotient of integers is rounded; the remainder goes with it. -/
inductive Rounding where
  | down
  | zero
  deriving DecidableEq, Repr

def Rounding.div : Rounding → Int → Int → Int
  | .down => Int.fdiv
  | .zero => Int.tdiv

def Rounding.mod : Rounding → Int → Int → Int
  | .down => Int.fmod
  | .zero => Int.tmod

/-- The integer that `a op b` gives. There is none of a division by zero, of a
fraction or of a power. -/
def BinOp.result? (r : Rounding) : BinOp → Int → Int → Option Int
  | .add, a, b => some (a + b)
  | .sub, a, b => some (a - b)
  | .mul, a, b => some (a * b)
  | .floorDiv, a, b => if b = 0 then none else some (r.div a b)
  | .mod, a, b => if b = 0 then none else some (r.mod a b)
  | .eq, a, b => some (truth (a = b))
  | .ne, a, b => some (truth (a ≠ b))
  | .lt, a, b => some (truth (a < b))
  | .le, a, b => some (truth (a ≤ b))
  | .gt, a, b => some (truth (a > b))
  | .ge, a, b => some (truth (a ≥ b))
  | .div, _, _ | .pow, _, _ => none

namespace Expr

/-- Integer literals and variables under signs, integer operations and comparisons. -/
def isIntegral : Expr → Bool
  | .literal (.int _) | .name _ => true
  | .unary _ operand => operand.isIntegral
  | .binary left op right => op != .div && op != .pow && left.isIntegral && right.isIntegral
  | _ => false

/-- The value under an assignment of integers to the variables, unless a divisor is zero. -/
def value? (r : Rounding) (vars : String → Int) : Expr → Option Int
  | .literal (.int value) => some value
  | .name id => some (vars id)
  | .unary sign operand => (operand.value? r vars).map (Sign.apply sign)
  | .binary left op right =>
    (left.value? r vars).bind fun a => (right.value? r vars).bind (op.result? r a)
  | _ => none

/-- At every division the divisor has the sign of the dividend, or the remainder is zero. -/
def RoundsAlike (vars : String → Int) : Expr → Prop
  | .unary _ operand => operand.RoundsAlike vars
  | .binary left op right => left.RoundsAlike vars ∧ right.RoundsAlike vars ∧
    (op = .floorDiv ∨ op = .mod → ∀ a ∈ left.value? .down vars, ∀ b ∈ right.value? .down vars,
      0 ≤ a * b ∨ b ∣ a)
  | _ => True

end Expr

section Rounding

variable {a b : Int}

/-- Where a quotient is positive, or there is no remainder, both directions of rounding agree. -/
theorem Rounding.agree (hb : b ≠ 0) (h : 0 ≤ a * b ∨ b ∣ a) :
    a.fdiv b = a.tdiv b ∧ a.fmod b = a.tmod b := by
  rw [Int.fdiv_eq_tdiv, Int.fmod_eq_tmod]
  by_cases hdvd : b ∣ a
  · simp [hdvd]
  · have hsign := h.resolve_right hdvd
    have ha : a ≠ 0 := by
      rintro rfl
      exact hdvd (Int.dvd_zero b)
    rcases Int.lt_or_gt_of_ne hb with hneg | hpos
    · have hlt : a < 0 := by
        refine Int.not_le.mp fun hle => ?_
        have := Int.mul_neg_of_pos_of_neg (show 0 < a by omega) hneg
        omega
      simp [hdvd, show ¬0 ≤ a by omega, show ¬0 ≤ b by omega, Int.sign_eq_neg_one_of_neg hneg,
        Int.toNat_of_nonpos (Int.le_of_lt hneg)]
    · have hle : 0 ≤ a := by
        refine Int.not_lt.mp fun hlt => ?_
        have := Int.mul_neg_of_neg_of_pos (show a < 0 by omega) hpos
        omega
      simp [hdvd, hle, Int.le_of_lt hpos]

theorem BinOp.result?_agree {op : BinOp} (h : op = .floorDiv ∨ op = .mod → 0 ≤ a * b ∨ b ∣ a) :
    op.result? .down a b = op.result? .zero a b := by
  cases op with
  | floorDiv =>
    by_cases hb : b = 0
    · simp [result?, hb]
    · simp [result?, hb, Rounding.div, (Rounding.agree hb (h (.inl rfl))).1]
  | mod =>
    by_cases hb : b = 0
    · simp [result?, hb]
    · simp [result?, hb, Rounding.mod, (Rounding.agree hb (h (.inr rfl))).2]
  | _ => rfl

/-- An expression whose divisions round alike has one value. -/
theorem Expr.value?_agree {vars : String → Int} {e : Expr} (h : e.RoundsAlike vars) :
    e.value? .down vars = e.value? .zero vars := by
  induction e with
  | unary sign operand ih => rw [value?, value?, ih h]
  | binary left op right ihleft ihright =>
    obtain ⟨hleft, hright, hdivision⟩ := h
    rw [value?, value?, ← ihleft hleft, ← ihright hright]
    apply Option.bind_congr
    intro a ha
    apply Option.bind_congr
    intro b hb
    exact BinOp.result?_agree fun hop => hdivision hop a ha b hb
  | literal value => cases value <;> rfl
  | _ => rfl

end Rounding

section Texts

variable {text first second : String} {j k : Nat} {value left right : (String → Int) → Option Int}

/-- The text is an operand that holds together as tightly as `k`, with this
value where there is one. -/
def Carries (text : String) (k : Nat) (value : (String → Int) → Option Int) : Prop :=
  ∃ found items, Cuts text.toList found ∧ found.mapM item? = some items ∧
    ∀ vars, ∀ v ∈ value vars, Reads vars items k v

namespace Carries

theorem mono (h : Carries text k value) (hle : j ≤ k) : Carries text j value := by
  obtain ⟨found, items, hcuts, hitems, hreads⟩ := h
  exact ⟨found, items, hcuts, hitems, fun vars v hv => (hreads vars v hv).mono hle⟩

theorem paren (h : Carries text k value) (hk : 0 < k) (j : Nat) :
    Carries ("(" ++ text ++ ")") j value := by
  obtain ⟨found, items, hcuts, hitems, hreads⟩ := h
  refine ⟨['('] :: found ++ [[')']], .opening :: items ++ [.closing], ?_, ?_,
    fun vars v hv => (hreads vars v hv).paren hk j⟩
  · have htext : ("(" ++ text ++ ")").toList = '(' :: text.toList ++ [')'] := by simp
    rw [htext]
    exact hcuts.paren
  · have hopening : item? ['('] = some .opening := by decide +kernel
    have hclosing : item? [')'] = some .closing := by decide +kernel
    simp [List.mapM_append, hitems, hopening, hclosing]

theorem sign (h : Carries text 7 value) {c : Char} (hstart : text.toList.head? = some c)
    (hc : Apart c) (s : Sign) :
    Carries (s.text ++ text) 6 fun vars => (value vars).map (Sign.apply s) := by
  obtain ⟨found, items, hcuts, hitems, hreads⟩ := h
  refine ⟨s.text.toList :: found, .op (if s = .minus then .sub else .add) :: items, ?_, ?_, ?_⟩
  · rw [String.toList_append]
    exact hcuts.sign s hstart hc
  · have hsign : item? s.text.toList = some (.op (if s = .minus then .sub else .add)) := by
      cases s <;> decide +kernel
    simp [hitems, hsign]
  · intro vars v hv
    obtain ⟨a, ha, rfl⟩ := Option.map_eq_some_iff.mp hv
    exact (hreads vars a ha).sign s

end Carries

/-- The operator that a sketch writes for one between integers. -/
def operator? : BinOp → Option Operator
  | .add => some .add
  | .sub => some .sub
  | .mul => some .mul
  | .floorDiv => some .div
  | .mod => some .mod
  | .eq => some .eq
  | .ne => some .ne
  | .lt => some .lt
  | .le => some .le
  | .gt => some .gt
  | .ge => some .ge
  | .div | .pow => none

theorem operator_apply {op : BinOp} {o : Operator} (ho : operator? op = some o) (a b : Int) :
    o.apply a b = op.result? .zero a b := by
  cases op <;> cases ho <;> rfl

theorem item?_symbol {op : BinOp} {o : Operator} (ho : operator? op = some o) :
    item? (Sketch.symbol op).toList = some (.op o) := by
  cases op <;> cases ho <;> decide +kernel

theorem Carries.binary {op : BinOp} {o : Operator} (ho : operator? op = some o)
    (hleft : Carries first j left) (hj : o.strength ≤ j) (hright : Carries second k right)
    (hk : o.strength < k) :
    Carries (first ++ " " ++ Sketch.symbol op ++ " " ++ second) o.strength fun vars =>
      (left vars).bind fun a => (right vars).bind (op.result? .zero a) := by
  obtain ⟨found, items, hcuts, hitems, hreads⟩ := hleft
  obtain ⟨found', items', hcuts', hitems', hreads'⟩ := hright
  have hop : op ≠ .pow := by
    rintro rfl
    cases ho
  refine ⟨found ++ (Sketch.symbol op).toList :: found', items ++ .op o :: items', ?_, ?_, ?_⟩
  · have htext : (first ++ " " ++ Sketch.symbol op ++ " " ++ second).toList = first.toList ++
        ' ' :: ((Sketch.symbol op).toList ++ ' ' :: second.toList) := by simp
    rw [htext]
    exact hcuts.binary hcuts' op hop
  · simp [List.mapM_append, hitems, hitems', item?_symbol ho]
  · intro vars v hv
    obtain ⟨a, ha, hv⟩ := Option.bind_eq_some_iff.mp hv
    obtain ⟨b, hb, hv⟩ := Option.bind_eq_some_iff.mp hv
    exact (hreads vars a ha).binary hj (hreads' vars b hb) hk ((operator_apply ho a b).trans hv)

/-- A word or a number is an operand that nothing takes apart. -/
theorem Carries.word {c : Char} {cs : List Char} {item : Item} (htext : text.toList = c :: cs)
    (hchars : ∀ d ∈ text.toList, Text.isWordChar d = true) (hitem : item? text.toList = some item)
    (hreads : ∀ vars, ∀ v ∈ value vars, Reads vars [item] k v) : Carries text k value := by
  refine ⟨[text.toList], [item], ?_, by simp [hitem], hreads⟩
  rw [htext] at hchars ⊢
  exact .word hchars

end Texts

section Strengths

/-- How tightly a text holds together in C++ that holds together so tightly for the sketch. -/
def grade (k : Nat) : Nat := if k ≤ 1 then 2 else min (k + 2) 7

theorem grade_pos (k : Nat) : 0 < grade k := by
  unfold grade
  split <;> omega

theorem operator_strength {op : BinOp} {o : Operator} (ho : operator? op = some o) :
    grade op.strength ≤ o.strength ∧ o.strength < grade (op.strength + 1) ∧
      (op.strength ≠ 1 → o.strength = grade op.strength) := by
  cases op <;> cases ho <;> decide

theorem grade_mono {j k : Nat} (h : j ≤ k) : grade j ≤ grade k := by
  unfold grade
  split <;> split <;> omega

variable {e : Expr} {op : BinOp} {o : Operator}

/-- What stands on the left of an operator without parentheses is taken whole. -/
theorem le_grade_left (ho : operator? op = some o) (h : Sketch.needsParens e op false = false) :
    o.strength ≤ grade (Sketch.strength e) := by
  obtain ⟨_, hlt, hexact⟩ := operator_strength ho
  simp only [Sketch.needsParens, Bool.or_eq_false_iff, decide_eq_false_iff_not, Bool.false_or,
    Bool.and_eq_false_iff, beq_eq_false_iff_ne] at h
  rcases h.2 with hne | hne
  · have hmono := grade_mono (show op.strength + 1 ≤ Sketch.strength e by omega)
    omega
  · rw [hexact hne]
    exact grade_mono (by omega)

theorem lt_grade_right (ho : operator? op = some o) (h : Sketch.needsParens e op true = false) :
    o.strength < grade (Sketch.strength e) := by
  obtain ⟨_, hlt, _⟩ := operator_strength ho
  simp only [Sketch.needsParens, Bool.or_eq_false_iff, decide_eq_false_iff_not, Bool.true_or,
    Bool.and_true, beq_eq_false_iff_ne] at h
  exact Nat.lt_of_lt_of_le hlt (grade_mono (by omega))

/-- Parentheses stand around an operand wherever it does not hold together tightly enough. -/
theorem Carries.operand {text : String} {k : Nat} {value : (String → Int) → Option Int}
    (h : Carries text (grade (Sketch.strength e)) value) {needed : Bool}
    (hneeded : needed = false → k ≤ grade (Sketch.strength e)) :
    Carries (Sketch.parenthesized needed text) k value := by
  cases needed with
  | true => exact h.paren (grade_pos _) k
  | false => exact h.mono (hneeded rfl)

end Strengths

section Expressions

variable {style : Sketch.Style} {line : Nat}

/-- The text of an integer literal is that of a number, and digits are characters of words. -/
theorem digits_of_spelled {value : Int} (h : (TokenKind.integer value).Spelled) :
    ∃ n : Nat, value = n ∧ item? (toString value).toList = some (.number n) ∧
      ∃ c cs, (toString value).toList = c :: cs ∧ ∀ d ∈ c :: cs, Text.isWordChar d = true := by
  obtain ⟨n, rfl, _⟩ := Token.Lexeme.le_largest_of_spelled h
  have htext := Token.Lexeme.toList_toString n
  obtain ⟨c, cs, hdigits⟩ := List.exists_cons_of_ne_nil (Nat.toDigits_ne_nil (n := n) (b := 10))
  refine ⟨n, rfl, htext ▸ item?_toDigits n, c, cs, htext.trans hdigits, ?_⟩
  rw [← hdigits]
  exact fun d hd => Text.isWordChar_of_isDigit (Token.Lexeme.isDigit_of_toDigits d hd)

theorem carries_integer {value : Int} (h : (TokenKind.integer value).Spelled) {k : Nat} :
    Carries (toString value) k (fun _ => some value) := by
  obtain ⟨n, rfl, hitem, c, cs, htext, hchars⟩ := digits_of_spelled h
  refine .word htext (htext ▸ hchars) hitem ?_
  rintro vars _ ⟨⟩
  exact .number n

theorem carries_name {id : String} (h : (TokenKind.identifier id).Spelled) {k : Nat} :
    Carries id k (fun vars => some (vars id)) := by
  have hword := Token.Lexeme.isWord_of_spelled h
  obtain ⟨c, cs, htext, _⟩ := hword.start
  refine .word htext hword.chars (item?_of_isWord hword) ?_
  rintro vars _ ⟨⟩
  exact .name id

/-- The text of a name or a number begins with a character that no sign takes up. -/
theorem apart_of_atom {e : Expr} (hspelled : e.Spelled) (hintegral : e.isIntegral = true)
    (hatom : ¬Sketch.strength e ≤ Sketch.signStrength) {text : String}
    (htext : Sketch.expression style line e = .ok text) :
    ∃ c, text.toList.head? = some c ∧ Apart c := by
  cases hspelled with
  | int h =>
    obtain ⟨_, _, _, c, cs, hcons, hchars⟩ := digits_of_spelled h
    rw [Sketch.expression] at htext
    cases htext
    refine ⟨c, ?_, apart_of_isWordChar (hchars c List.mem_cons_self)⟩
    rw [Sketch.literal, hcons]
    rfl
  | name hid _ =>
    obtain ⟨c, cs, hcons, hstart⟩ := (Token.Lexeme.isWord_of_spelled hid).start
    rw [Sketch.expression] at htext
    cases htext
    exact ⟨c, by rw [hcons]; rfl, apart_of_isWordChar (Text.isWordChar_of_isWordStart hstart)⟩
  | unary => exact absurd (Nat.le_refl _) hatom
  | @binary left op right =>
    simp only [Expr.isIntegral, Bool.and_eq_true, bne_iff_ne] at hintegral
    have hop : op.strength ≤ Sketch.signStrength := by
      cases op <;> first | decide | exact absurd rfl hintegral.1.1.2
    rw [Sketch.strength, if_neg hintegral.1.1.2] at hatom
    exact absurd hop hatom
  | _ => cases hintegral

/-- The text of an integer expression has the value of the expression with division
that rounds towards zero. -/
theorem expression_carries {e : Expr} (hspelled : e.Spelled) (hintegral : e.isIntegral = true) :
    ∃ text, Sketch.expression style line e = .ok text ∧
      Carries text (grade (Sketch.strength e)) fun vars => e.value? .zero vars := by
  induction e with
  | literal value =>
    cases hspelled with
    | int h => exact ⟨_, by rw [Sketch.expression]; rfl, carries_integer h⟩
    | _ => cases hintegral
  | name id =>
    cases hspelled with
    | name hid _ => exact ⟨_, by rw [Sketch.expression], carries_name hid⟩
  | unary sign operand ih =>
    cases hspelled with
    | unary hoperand =>
      obtain ⟨text, htext, hcarries⟩ := ih hoperand hintegral
      refine ⟨_, by rw [Sketch.expression, htext]; rfl, ?_⟩
      by_cases hneeded : Sketch.strength operand ≤ Sketch.signStrength
      · have hparen := hcarries.paren (grade_pos _) 7
        have hstart : ("(" ++ text ++ ")").toList.head? = some '(' := by simp
        rw [decide_eq_true hneeded]
        exact hparen.sign hstart (apart_of_mem (by decide)) sign
      · obtain ⟨c, hstart, hc⟩ := apart_of_atom hoperand hintegral hneeded htext
        rw [decide_eq_false hneeded]
        refine Carries.sign (hcarries.mono ?_) hstart hc sign
        exact grade_mono (show 5 ≤ _ from Nat.lt_of_not_le hneeded)
  | binary left op right ihleft ihright =>
    simp only [Expr.isIntegral, Bool.and_eq_true, bne_iff_ne] at hintegral
    obtain ⟨⟨⟨hdiv, hpow⟩, hleft⟩, hright⟩ := hintegral
    cases hspelled with
    | binary hspelledLeft hspelledRight =>
      obtain ⟨first, hfirst, hcarriesLeft⟩ := ihleft hspelledLeft hleft
      obtain ⟨second, hsecond, hcarriesRight⟩ := ihright hspelledRight hright
      obtain ⟨o, ho⟩ : ∃ o, operator? op = some o := by
        cases op <;> first | exact ⟨_, rfl⟩ | exact absurd rfl hdiv | exact absurd rfl hpow
      have hplain : Sketch.wrapsLeft left op = false := by
        cases left with
        | literal value => cases value <;> first | rfl | cases hleft
        | _ => rfl
      refine ⟨Sketch.parenthesized (Sketch.needsParens left op false) first ++ " " ++
          Sketch.symbol op ++ " " ++ Sketch.parenthesized (Sketch.needsParens right op true) second,
        ?_, ?_⟩
      · simp only [Sketch.expression, hfirst, hsecond, Sketch.leftText, hplain]
        simp [hpow, bind, Except.bind, pure, Except.pure]
      · have hoperandLeft := hcarriesLeft.operand (le_grade_left ho)
        have hoperandRight := hcarriesRight.operand (k := o.strength + 1) (lt_grade_right ho)
        have hbinary := Carries.binary ho hoperandLeft (Nat.le_refl _) hoperandRight
          (Nat.lt_succ_self _)
        rw [Sketch.strength, if_neg hpow]
        exact hbinary.mono (operator_strength ho).1
  | call | index | list => cases hintegral

/-- An integer expression has a text, and that text has the value of the expression in C++: the
value with division that rounds towards zero, and so the value with division that rounds down
wherever the two agree at every division. -/
theorem expression_value {e : Expr} (hspelled : e.Spelled) (hintegral : e.isIntegral = true) :
    ∃ text, Sketch.expression style line e = .ok text ∧ ∀ vars v,
      (e.value? .zero vars = some v → Calculation.value? vars text = some v) ∧
      (e.RoundsAlike vars → e.value? .down vars = some v →
        Calculation.value? vars text = some v) := by
  obtain ⟨text, htext, found, items, hcuts, hitems, hreads⟩ : ∃ text,
      Sketch.expression style line e = .ok text ∧
        Carries text (grade (Sketch.strength e)) fun vars => e.value? .zero vars :=
    expression_carries hspelled hintegral
  have hvalue : ∀ vars v, e.value? .zero vars = some v → Calculation.value? vars text = some v :=
    fun vars v hv => (hreads vars v hv).value? (grade_pos _) hcuts hitems
  refine ⟨text, htext, fun vars v => ⟨hvalue vars v, fun halike hv => ?_⟩⟩
  exact hvalue vars v ((Expr.value?_agree halike).symm.trans hv)

end Expressions

/-- A remainder of a quotient, compared with a product of a sum. -/
def comparison : Expr :=
  .binary
    (.binary (.binary (.binary (.name "a") .sub (.unary .minus (.name "b"))) .floorDiv
      (.literal (.int 2))) .mod (.literal (.int 5)))
    .lt (.binary (.literal (.int 3)) .mul (.binary (.literal (.int 4)) .add (.name "a")))

theorem expression_value_comparison : ∃ text,
    Sketch.expression ⟨.builtin, .float⟩ 1 comparison = .ok text ∧
      comparison.value? .down (fun _ => 7) = some 1 ∧
      Calculation.value? (fun _ => 7) text = some 1 := by
  have ha : (Expr.name "a").Spelled := .name ⟨'a', [], rfl⟩ (by decide)
  have hb : (Expr.name "b").Spelled := .name ⟨'b', [], rfl⟩ (by decide)
  have hspelled : comparison.Spelled := by
    refine .binary (.binary (.binary (.binary ha (.unary hb)) (.int ?_)) (.int ?_))
      (.binary (.int ?_) (.binary (.int ?_) ha))
    · exact ⟨'2', [], rfl⟩
    · exact ⟨'5', [], rfl⟩
    · exact ⟨'3', [], rfl⟩
    · exact ⟨'4', [], rfl⟩
  have halike : comparison.RoundsAlike fun _ => 7 := by
    simp [comparison, Expr.RoundsAlike, Expr.value?, BinOp.result?, Rounding.div,
      Rounding.mod, Sign.apply]
  obtain ⟨text, htext, hvalue⟩ := expression_value hspelled (by decide)
  have hdown : comparison.value? .down (fun _ => 7) = some 1 := by decide
  exact ⟨text, htext, hdown, (hvalue _ 1).2 halike hdown⟩

/-- A negative quotient with a remainder. -/
def negativeQuotient : Expr :=
  .binary (.unary .minus (.literal (.int 7))) .floorDiv (.literal (.int 2))

/-- It is accepted, and its text has another value than the expression. -/
theorem expression_value_negativeQuotient :
    (∃ p', (Inference.infer .builtin ⟨[], [.assign 1 (.name "x") negativeQuotient none
      .unresolved]⟩).1 = .ok p') ∧
    Sketch.expression ⟨.builtin, .float⟩ 1 negativeQuotient = .ok "-7 / 2" ∧
    negativeQuotient.value? .down (fun _ => 0) = some (-4) ∧
    Calculation.value? (fun _ => 0) "-7 / 2" = some (-3) := by
  refine ⟨Outcome.exists_of_isOk (by decide +kernel), ?_, ?_, ?_⟩
  · exact Outcome.eq_ok_of_toOption (by decide +kernel)
  · decide
  · decide +kernel

end Sketchwright
