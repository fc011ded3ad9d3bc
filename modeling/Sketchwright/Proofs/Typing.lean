import Sketchwright.Inference.Expr
import Sketchwright.Proofs.Slots
import Sketchwright.Proofs.Tables
import Sketchwright.Proofs.Trees

/-! The kind rules of expressions. The kind of an expression follows from the kinds of the names in
scope, the table of the runtime and the complete signatures of the program's functions; there is at
most one, and it is scalar. -/

namespace Sketchwright

open Inference (Signatures)

/-- What the calls of a program refer to. -/
structure Callees where
  table : CallTable
  signatures : Signatures

/-- The kinds of the names in scope, constants of the runtime included. -/
abbrev Names := String → Option Kind

/-- The kind of an operation, from the kinds of its operands. -/
inductive OpKind : BinOp → Kind → Kind → Kind → Prop
  | compareSame {op k} (hop : op.isComparison = true) (hk : k.isScalar = true) : OpKind op k k .bool
  | compareNumbers {op a b} (hop : op.isComparison = true) (ha : a.isNumeric = true)
      (hb : b.isNumeric = true) : OpKind op a b .bool
  | join : OpKind .add .str .str .str
  | power {a b} (ha : a.isNumeric = true) (hb : b.isNumeric = true) : OpKind .pow a b .float
  | arithmetic {op a b k} (hop : op = .add ∨ op = .sub ∨ op = .mul)
      (hk : Kind.Widest [a, b] k) : OpKind op a b k
  | quotient {a b k} (hinteger : ¬(a.isInteger = true ∧ b.isInteger = true))
      (hk : Kind.Widest [a, b] k) : OpKind .div a b k
  | whole {op a b k} (hop : op = .floorDiv ∨ op = .mod) (ha : a.isInteger = true)
      (hb : b.isInteger = true) (hk : Kind.Widest [a, b] k) : OpKind op a b k

/-- A runtime call that reads its arguments as values takes arguments of these kinds. -/
structure CallRule.Takes (rule : CallRule) (kinds : List Kind) : Prop where
  arity : ∀ n, rule.arity = some n → kinds.length = n
  notRange : rule.form ≠ .loopRange
  notLength : rule.form ≠ .listLength
  /-- No number is made of a string. -/
  notString : rule.form = .cast → rule.returns = .fixed .int ∨ rule.returns = .fixed .float →
    kinds.head? ≠ some .str

/-- The kind of the result of a call, from the kinds of its arguments. -/
inductive CallGives (c : Callees) : String → List Kind → Kind → Prop
  | user {callee kinds signature} (hsig : c.signatures callee = some signature)
      (hargs : List.Forall₂ (fun param kind => param.accepts kind = true) signature.params kinds) :
      CallGives c callee kinds signature.returns
  | nothing {callee kinds rule} (hsig : c.signatures callee = none)
      (hrule : c.table.call? callee = some rule) (hargs : rule.Takes kinds)
      (hreturns : rule.returns = .void) : CallGives c callee kinds .void
  | fixed {callee kinds rule kind} (hsig : c.signatures callee = none)
      (hrule : c.table.call? callee = some rule) (hargs : rule.Takes kinds)
      (hreturns : rule.returns = .fixed kind) : CallGives c callee kinds kind
  | promoted {callee kinds rule kind} (hsig : c.signatures callee = none)
      (hrule : c.table.call? callee = some rule) (hargs : rule.Takes kinds)
      (hreturns : rule.returns = .promoted) (hkind : Kind.Widest kinds kind) :
      CallGives c callee kinds kind

/-- The kind of an expression that is a value. -/
inductive HasKind (c : Callees) (names : Names) : Expr → Kind → Prop
  | literal (value) : HasKind c names (.literal value) value.kind
  | name {id kind} (hname : names id = some kind) (hkind : kind.isScalar = true) :
      HasKind c names (.name id) kind
  | unary {sign operand kind} (hoperand : HasKind c names operand kind)
      (hkind : kind.isNumeric = true) : HasKind c names (.unary sign operand) kind
  | binary {left op right a b kind} (hleft : HasKind c names left a)
      (hright : HasKind c names right b) (hop : OpKind op a b kind) :
      HasKind c names (.binary left op right) kind
  | call {callee args kinds kind} (hargs : List.Forall₂ (HasKind c names) args kinds)
      (hcall : CallGives c callee kinds kind) (hkind : kind.isScalar = true) :
      HasKind c names (.call callee args) kind
  | length {callee list element n rule kind} (hsig : c.signatures callee = none)
      (hrule : c.table.call? callee = some rule) (hform : rule.form = .listLength)
      (hreturns : rule.returns = .fixed kind) (hkind : kind.isScalar = true)
      (hlist : names list = some (.list element n)) :
      HasKind c names (.call callee [.name list]) kind
  | index {list position element n kind} (hlist : names list = some (.list element n))
      (helement : element.isScalar = true) (hposition : HasKind c names position kind)
      (hkind : kind.isInteger = true) : HasKind c names (.index list position) element

/-- A call that is a statement: its result is dropped, and a name that neither the program nor the
runtime defines may be called as well. -/
inductive CallStands (c : Callees) (names : Names) : String → List Expr → Prop
  | known {callee args kinds kind} (hargs : List.Forall₂ (HasKind c names) args kinds)
      (hcall : CallGives c callee kinds kind) : CallStands c names callee args
  | value {callee args kind} (hcall : HasKind c names (.call callee args) kind) :
      CallStands c names callee args
  | unknown {callee args kinds} (hargs : List.Forall₂ (HasKind c names) args kinds)
      (hsig : c.signatures callee = none) (hrule : c.table.call? callee = none) :
      CallStands c names callee args

section Operations

variable {op : BinOp} {a b k j : Kind}

theorem OpKind.isScalar (h : OpKind op a b k) : k.isScalar = true := by
  cases h with
  | compareSame | compareNumbers | join | power => rfl
  | arithmetic _ hk | quotient _ hk | whole _ _ _ hk => exact hk.isScalar

theorem isNumeric_of_widest_pair (h : Kind.Widest [a, b] k) :
    a.isNumeric = true ∧ b.isNumeric = true :=
  ⟨(h.2 a (by simp)).1, (h.2 b (by simp)).1⟩

theorem promote_eq_of_widest (h : Kind.Widest [a, b] k) : a.promote b = some k := by
  obtain ⟨ha, hb⟩ := isNumeric_of_widest_pair h
  obtain ⟨j, hj, hw⟩ := Kind.promote_widest ha hb
  rw [hj, hw.unique h]

/-- The inferencer gives an operation its kind. -/
theorem binaryKind_of_opKind (line : Nat) (h : OpKind op a b k) :
    Inference.binaryKind op a b line = .ok k := by
  have hstr : ∀ {kind : Kind}, kind.isNumeric = true → (kind == .str) = false := by
    intro kind hk
    cases kind <;> first | rfl | cases hk
  cases h with
  | compareSame hop hk => simp [Inference.binaryKind, hop, hk]
  | compareNumbers hop ha hb => simp [Inference.binaryKind, hop, ha, hb]
  | join => rfl
  | power ha hb => simp [Inference.binaryKind, BinOp.isComparison, ha, hb]
  | arithmetic hop hk =>
    obtain ⟨ha, hb⟩ := isNumeric_of_widest_pair hk
    rcases hop with rfl | rfl | rfl <;>
      simp [Inference.binaryKind, BinOp.isComparison, hstr, ha, hb, promote_eq_of_widest hk]
  | quotient hinteger hk =>
    obtain ⟨ha, hb⟩ := isNumeric_of_widest_pair hk
    have hnot : (a.isInteger && b.isInteger) = false := by simpa using hinteger
    simp [Inference.binaryKind, BinOp.isComparison, ha, hb, hnot, promote_eq_of_widest hk]
  | whole hop hia hib hk =>
    obtain ⟨ha, hb⟩ := isNumeric_of_widest_pair hk
    rcases hop with rfl | rfl <;>
      simp [Inference.binaryKind, BinOp.isComparison, ha, hb, hia, hib, promote_eq_of_widest hk]

/-- An operation has no result, or one result. -/
theorem OpKind.unique (h₁ : OpKind op a b k) (h₂ : OpKind op a b j) : k = j :=
  Except.ok.inj ((binaryKind_of_opKind 0 h₁).symm.trans (binaryKind_of_opKind 0 h₂))

/-- What the inferencer says of an operation: its kind, or an error that is no broken condition. -/
theorem binaryKind_cases (op : BinOp) (a b : Kind) (line : Nat) :
    (∃ k, Inference.binaryKind op a b line = .ok k ∧ OpKind op a b k) ∨
      ∃ e, Inference.binaryKind op a b line = .error e ∧ e.isInternal = false := by
  unfold Inference.binaryKind
  split
  · next hop =>
    split
    · next hk =>
      left
      simp only [Bool.or_eq_true, Bool.and_eq_true, beq_iff_eq] at hk
      rcases hk with ⟨rfl, hk⟩ | ⟨ha, hb⟩
      · exact ⟨_, rfl, .compareSame hop hk⟩
      · exact ⟨_, rfl, .compareNumbers hop ha hb⟩
    · exact .inr ⟨_, rfl, rfl⟩
  split
  · next hjoin =>
    simp only [Bool.and_eq_true, Bool.or_eq_true, beq_iff_eq] at hjoin
    split
    · next heq =>
      left
      simp only [beq_iff_eq] at heq
      obtain ⟨rfl, hstr⟩ := hjoin
      subst heq
      obtain rfl : a = .str := hstr.elim id id
      exact ⟨_, rfl, .join⟩
    · exact .inr ⟨_, rfl, rfl⟩
  split
  · exact .inr ⟨_, rfl, rfl⟩
  split
  · exact .inr ⟨_, rfl, rfl⟩
  · next hcomparison _ ha hb =>
    simp only [Bool.not_eq_true', Bool.not_eq_false] at ha hb
    obtain ⟨k, hk, hw⟩ := Kind.promote_widest ha hb
    simp only [hk]
    split
    · exact .inl ⟨_, rfl, .power ha hb⟩
    split
    · exact .inr ⟨_, rfl, rfl⟩
    split
    · exact .inr ⟨_, rfl, rfl⟩
    · next hpow hdiv hwhole =>
      refine .inl ⟨k, rfl, ?_⟩
      cases op with
      | add | sub | mul => exact .arithmetic (by simp) hw
      | div => exact .quotient (by simpa using hdiv) hw
      | floorDiv | mod =>
        have hint : a.isInteger = true ∧ b.isInteger = true := by simpa using hwhole
        exact .whole (by simp) hint.1 hint.2 hw
      | pow => exact absurd rfl hpow
      | _ => exact absurd rfl hcomparison

end Operations

section Lists

variable {α β : Type} {R S : α → β → Prop} {as : List α} {bs cs : List β}

/-- A relation that holds along two lists holds along them in any form that it implies for the items
of the first one. -/
theorem forall₂_imp (h : List.Forall₂ R as bs) (himp : ∀ a ∈ as, ∀ b, R a b → S a b) :
    List.Forall₂ S as bs := by
  induction h with
  | nil => exact .nil
  | cons hab _ ih =>
    obtain ⟨hhead, htail⟩ := List.forall_mem_cons.mp himp
    exact .cons (hhead _ hab) (ih htail)

theorem forall₂_unique (h₁ : List.Forall₂ R as bs) (h₂ : List.Forall₂ R as cs)
    (h : ∀ a ∈ as, ∀ b c, R a b → R a c → b = c) : bs = cs := by
  induction h₁ generalizing cs with
  | nil =>
    cases h₂
    rfl
  | cons hab _ ih =>
    obtain ⟨hhead, htail⟩ := List.forall_mem_cons.mp h
    cases h₂ with
    | cons hac hcs => rw [hhead _ _ hab hac, ih hcs htail]

end Lists

theorem CallGives.unique {c : Callees} {callee : String} {kinds : List Kind} {k j : Kind}
    (h₁ : CallGives c callee kinds k) (h₂ : CallGives c callee kinds j) : k = j := by
  cases h₁ with
  | user hsig _ =>
    cases h₂ with
    | user hsig' _ =>
      cases hsig.symm.trans hsig'
      rfl
    | nothing hsig' | fixed hsig' | promoted hsig' => cases hsig.symm.trans hsig'
  | nothing hsig hrule _ hreturns =>
    cases h₂ with
    | user hsig' => cases hsig.symm.trans hsig'
    | nothing => rfl
    | fixed _ hrule' _ hreturns' | promoted _ hrule' _ hreturns' =>
      cases hrule.symm.trans hrule'
      cases hreturns.symm.trans hreturns'
  | fixed hsig hrule _ hreturns =>
    cases h₂ with
    | user hsig' => cases hsig.symm.trans hsig'
    | nothing _ hrule' _ hreturns' | promoted _ hrule' _ hreturns' =>
      cases hrule.symm.trans hrule'
      cases hreturns.symm.trans hreturns'
    | fixed _ hrule' _ hreturns' =>
      cases hrule.symm.trans hrule'
      cases hreturns.symm.trans hreturns'
      rfl
  | promoted hsig hrule _ hreturns hkind =>
    cases h₂ with
    | user hsig' => cases hsig.symm.trans hsig'
    | nothing _ hrule' _ hreturns' | fixed _ hrule' _ hreturns' =>
      cases hrule.symm.trans hrule'
      cases hreturns.symm.trans hreturns'
    | promoted _ _ _ _ hkind' => exact hkind.unique hkind'

/-- The number of items of a list is asked for by its name alone, never by its value. -/
theorem CallGives.ne_listLength {c : Callees} {callee : String} {kinds : List Kind} {k : Kind}
    {rule : CallRule} (h : CallGives c callee kinds k) (hsig : c.signatures callee = none)
    (hrule : c.table.call? callee = some rule) : rule.form ≠ .listLength := by
  cases h with
  | user hsig' => cases hsig.symm.trans hsig'
  | nothing _ hrule' hargs | fixed _ hrule' hargs | promoted _ hrule' hargs =>
    cases hrule.symm.trans hrule'
    exact hargs.notLength

namespace HasKind

variable {c : Callees} {names : Names} {e : Expr} {k j : Kind}

theorem isScalar (h : HasKind c names e k) : k.isScalar = true := by
  cases h with
  | literal value => cases value <;> rfl
  | name _ hkind | call _ _ hkind | length _ _ _ _ hkind => exact hkind
  | unary _ hkind => exact Kind.isScalar_of_isNumeric hkind
  | binary _ _ hop => exact hop.isScalar
  | index _ helement => exact helement

/-- An expression has at most one kind. -/
theorem unique (h₁ : HasKind c names e k) (h₂ : HasKind c names e j) : k = j := by
  induction e generalizing k j with
  | literal value =>
    cases h₁
    cases h₂
    rfl
  | name id =>
    cases h₁ with
    | name hk =>
      cases h₂ with
      | name hj => exact Option.some.inj (hk.symm.trans hj)
  | unary sign operand ih =>
    cases h₁ with
    | unary hk =>
      cases h₂ with
      | unary hj => exact ih hk hj
  | binary left op right ihl ihr =>
    cases h₁ with
    | binary hl hr hop =>
      cases h₂ with
      | binary hl' hr' hop' =>
        cases ihl hl hl'
        cases ihr hr hr'
        exact hop.unique hop'
  | call callee args ih =>
    cases h₁ with
    | call hargs hcall =>
      cases h₂ with
      | call hargs' hcall' =>
        cases forall₂_unique hargs hargs' fun a ha _ _ => ih a ha
        exact hcall.unique hcall'
      | length hsig hrule hform => exact absurd hform (hcall.ne_listLength hsig hrule)
    | length hsig hrule hform hreturns =>
      cases h₂ with
      | call _ hcall => exact absurd hform (hcall.ne_listLength hsig hrule)
      | length _ hrule' _ hreturns' =>
        cases hrule.symm.trans hrule'
        cases hreturns.symm.trans hreturns'
        rfl
  | index list position ih =>
    cases h₁ with
    | index hk =>
      cases h₂ with
      | index hj =>
        cases hk.symm.trans hj
        rfl
  | list items ih => cases h₁

/-- The kind of an expression depends on the names that it reads alone. -/
theorem congr {names' : Names} (h : HasKind c names e k)
    (heq : ∀ x ∈ e.vars, names x = names' x) : HasKind c names' e k := by
  induction e generalizing k with
  | literal value =>
    cases h
    exact .literal value
  | name id =>
    cases h with
    | name hname hkind => exact .name (heq id (by simp [Expr.vars]) ▸ hname) hkind
  | unary sign operand ih =>
    cases h with
    | unary hoperand hkind => exact .unary (ih hoperand heq) hkind
  | binary left op right ihl ihr =>
    cases h with
    | binary hl hr hop =>
      simp only [Expr.vars, List.mem_append] at heq
      exact .binary (ihl hl fun x hx => heq x (.inl hx)) (ihr hr fun x hx => heq x (.inr hx)) hop
  | call callee args ih =>
    simp only [Expr.vars, Expr.mem_varsAll] at heq
    cases h with
    | call hargs hcall hkind =>
      refine .call (forall₂_imp hargs fun a ha _ hk => ih a ha hk fun x hx => ?_) hcall hkind
      exact heq x ⟨a, ha, hx⟩
    | length hsig hrule hform hreturns hkind hlist =>
      rw [heq _ ⟨_, List.mem_singleton_self _, List.mem_singleton_self _⟩] at hlist
      exact .length hsig hrule hform hreturns hkind hlist
  | index list position ih =>
    simp only [Expr.vars, List.mem_cons] at heq
    cases h with
    | index hlist helement hposition hkind =>
      rw [heq list (.inl rfl)] at hlist
      exact .index hlist helement (ih hposition fun x hx => heq x (.inr hx)) hkind
  | list items ih => cases h

/-- Every name that a typed expression reads has a kind. -/
theorem known (h : HasKind c names e k) {x : String} (hx : x ∈ e.vars) :
    ∃ kind, names x = some kind := by
  induction e generalizing k with
  | literal value => cases hx
  | name id =>
    cases h with
    | name hname => exact ⟨k, (List.mem_singleton.mp hx) ▸ hname⟩
  | unary sign operand ih =>
    cases h with
    | unary hoperand => exact ih hoperand hx
  | binary left op right ihl ihr =>
    cases h with
    | binary hl hr =>
      rcases List.mem_append.mp hx with hx | hx
      · exact ihl hl hx
      · exact ihr hr hx
  | call callee args ih =>
    cases h with
    | call hargs =>
      obtain ⟨a, ha, hx⟩ := Expr.mem_varsAll.mp hx
      obtain ⟨i, hi, rfl⟩ := List.mem_iff_getElem.mp ha
      exact ih _ ha (hargs.get hi (hargs.length_eq ▸ hi)) hx
    | length _ _ _ _ _ hlist =>
      simp only [Expr.vars, Expr.varsAll, List.append_nil, List.mem_singleton] at hx
      exact ⟨_, hx ▸ hlist⟩
  | index list position ih =>
    cases h with
    | index hlist _ hposition =>
      rcases List.mem_cons.mp hx with rfl | hx
      · exact ⟨_, hlist⟩
      · exact ih hposition hx
  | list items ih => cases h

/-- The kind of an expression stays under names that know the kinds of all that it reads. -/
theorem mono {names' : Names} (h : HasKind c names e k)
    (hle : ∀ x ∈ e.vars, ∀ kind, names x = some kind → names' x = some kind) :
    HasKind c names' e k := by
  refine h.congr fun x hx => ?_
  obtain ⟨kind, hkind⟩ := h.known hx
  rw [hkind, hle x hx kind hkind]

theorem known_all {args : List Expr} {kinds : List Kind}
    (h : List.Forall₂ (HasKind c names) args kinds) {x : String}
    (hx : x ∈ Expr.varsAll args) : ∃ kind, names x = some kind := by
  induction h with
  | nil => cases hx
  | cons hkind _ ih =>
    rcases List.mem_append.mp hx with hx | hx
    · exact hkind.known hx
    · exact ih hx

theorem mono_all {names' : Names} {args : List Expr} {kinds : List Kind}
    (h : List.Forall₂ (HasKind c names) args kinds)
    (hle : ∀ x ∈ Expr.varsAll args, ∀ kind, names x = some kind → names' x = some kind) :
    List.Forall₂ (HasKind c names') args kinds :=
  forall₂_imp h fun a ha _ hk => hk.mono fun x hx =>
    hle x (Expr.mem_varsAll.mpr ⟨a, ha, hx⟩)

end HasKind

namespace CallStands

variable {c : Callees} {names : Names} {callee : String} {args : List Expr}

theorem known_all (h : CallStands c names callee args) {x : String}
    (hx : x ∈ Expr.varsAll args) : ∃ kind, names x = some kind := by
  cases h with
  | known hargs | unknown hargs => exact HasKind.known_all hargs hx
  | value hcall => exact hcall.known hx

theorem mono {names' : Names} (h : CallStands c names callee args)
    (hle : ∀ x ∈ Expr.varsAll args, ∀ kind, names x = some kind → names' x = some kind) :
    CallStands c names' callee args := by
  cases h with
  | known hargs hcall => exact .known (HasKind.mono_all hargs hle) hcall
  | value hcall => exact .value (hcall.mono hle)
  | unknown hargs hsig hrule => exact .unknown (HasKind.mono_all hargs hle) hsig hrule

end CallStands

end Sketchwright
