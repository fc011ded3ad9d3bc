import Sketchwright.Proofs.Bare
import Sketchwright.Proofs.Declarations
import Sketchwright.Proofs.Emission
import Sketchwright.Proofs.Findings
import Sketchwright.Proofs.Rereading

/-! Strings that are joined or compared. C++ adds and compares two of its own string literals as
pointers, so that the left operand of `+` and of a comparison has to be an object of the class
`String` where it is a string. -/

namespace Sketchwright

/-- An operation takes two strings or none. -/
theorem OpKind.strings {op : BinOp} {a b kind : Kind} (h : OpKind op a b kind)
    (hstr : a = .str ∨ b = .str) :
    a = .str ∧ b = .str ∧ (op = .add ∨ op.isComparison = true) := by
  cases h with
  | compareSame hop =>
    obtain rfl := hstr.elim id id
    exact ⟨rfl, rfl, .inr hop⟩
  | join => exact ⟨rfl, rfl, .inl rfl⟩
  | compareNumbers _ ha hb | power ha hb =>
    rcases hstr with rfl | rfl
    · cases ha
    · cases hb
  | arithmetic _ hwidest | quotient _ hwidest | whole _ _ _ hwidest =>
    obtain ⟨ha, hb⟩ := isNumeric_of_widest_pair hwidest
    rcases hstr with rfl | rfl
    · cases ha
    · cases hb

namespace Inference

/-- What is known in an outlook is what a resolved program says: names that are no constants of the
runtime are declared with the kinds that they have, and results are those in the signatures. -/
structure Outlook.Stated (o : Outlook) (signatures : Signatures)
    (declared : String → Kind → Prop) : Prop where
  table : o.table = .builtin
  names : ∀ {x kind}, o.names x = some kind → declared x kind ∨
    CallTable.builtin.constant? x = some kind
  results : ∀ {callee kind}, o.results callee = some (some kind) →
    ∃ signature, signatures callee = some signature ∧ signature.returns = kind
  apart : ∀ {callee result}, o.results callee = some result → CallTable.builtin.call? callee = none

end Inference

open Inference

namespace Sketch

open Sketchwright.Expr (written)

/-- A text of C++ and the expression that it stands for, which is an object of the class `String` by
its form: one that is made from a value, a variable or an item of a list that is declared as one,
the result of a function that returns one, or such an object with something joined to it. -/
inductive IsObject (signatures : Signatures) (declared : String → Kind → Prop) :
    String → Expr → Prop
  | made {texts args} : IsObject signatures declared (callText "String" texts) (.call "String" args)
  | variable {id} (h : declared id .str) : IsObject signatures declared id (.name id)
  | item {list n text position} (h : declared list (.list .str n)) :
      IsObject signatures declared (list ++ "[" ++ text ++ "]") (.index list position)
  | returned {callee texts args signature} (h : signatures callee = some signature)
      (hreturns : signature.returns = .str) :
      IsObject signatures declared (callText callee texts) (.call callee args)
  | joined {first left second right} (h : IsObject signatures declared first left) :
      IsObject signatures declared (first ++ " " ++ symbol .add ++ " " ++ second)
      (.binary left .add right)

/-- An operation as a sketch writes it whose left operand is an object of the class `String`, and no
literal. Where the expression is made of lexemes, the text of the operand is read as that object,
and the text as a whole as the operation on it. -/
def JoinsObject (style : Style) (signatures : Signatures) (declared : String → Kind → Prop)
    (line : Nat) (left : Expr) (op : BinOp) (right : Expr) : Prop :=
  ∃ first second object,
    expression style line (.binary left op right) =
    .ok (first ++ " " ++ symbol op ++ " " ++ second) ∧
    IsObject signatures declared first object ∧ (∀ value, object ≠ .literal value) ∧
    ((Expr.binary left op right).Spelled →
      ReadsBack (max 2 op.strength) first.toList object ∧
      ReadsBack op.strength (first ++ " " ++ symbol op ++ " " ++ second).toList
        (.binary object op (written style.floatType right)))

theorem IsObject.ne_literal {signatures : Signatures} {declared : String → Kind → Prop}
    {text : String} {e : Expr} (h : IsObject signatures declared text e)
    (value : Literal) : e ≠ .literal value := by
  rintro rfl
  cases h

/-- The constants of the runtime are integers. -/
theorem builtin_constant {name : String} {kind : Kind}
    (h : CallTable.builtin.constant? name = some kind) :
    kind = .int := by
  obtain ⟨_, _, heq⟩ := List.mem_map.mp (CallTable.constant?_mem h)
  exact (Prod.mk.inj heq).2.symm

/-- Of the calls of the runtime only a conversion gives a string. -/
theorem builtin_call_string {callee : String} {rule : CallRule}
    (h : CallTable.builtin.call? callee = some rule)
    (hreturns : rule.returns = .fixed .str) : callee = "str" := by
  have hall : ∀ rule ∈ CallTable.builtinCalls, rule.returns = .fixed .str → rule.name = "str" := by
    decide
  have hname : rule.name = callee := by simpa using List.find?_some h
  exact hname ▸ hall rule (CallTable.call?_mem h) hreturns

theorem not_widest_str {kinds : List Kind} : ¬Kind.Widest kinds .str :=
  fun h => nomatch (h.2 .str h.1).1

section Strings

variable {o : Outlook} {signatures : Signatures} {declared : String → Kind → Prop}
  {floatType : FloatType} {line : Nat}

/-- A rule that gives a string is that of the conversion. -/
theorem ruleGives_str (hstated : o.Stated signatures declared) {callee : String} {rule : CallRule}
    {kinds : List Kind} (hrule : o.table.call? callee = some rule)
    (hgives : RuleGives rule kinds .str) : callee = "str" := by
  cases hgives with
  | fixed hreturns => exact builtin_call_string (hstated.table ▸ hrule) hreturns
  | promoted _ hwidest => exact absurd hwidest not_widest_str

/-- What joins or is a string has no operator that a comparison or `+`
around it would take apart. -/
theorem strength_of_str {e : Expr} (h : Finds o e .str) : 2 ≤ strength e := by
  cases e with
  | binary left op right =>
    cases h with
    | binary _ _ hop =>
      cases hop with
      | join => exact Nat.le_refl 2
      | arithmetic _ hwidest | quotient _ hwidest | whole _ _ _ hwidest =>
        exact absurd hwidest not_widest_str
  | unary sign operand =>
    cases h with
    | unary _ hnumeric => cases hnumeric
  | _ => exact (by decide : 2 ≤ atomStrength)

theorem wrapsLeft_of_joins {left : Expr} {op : BinOp} (hop : op = .add ∨ op.isComparison = true) :
    wrapsLeft left op = isStringLiteral left := by
  rcases hop with rfl | hop
  · simp [wrapsLeft]
  · simp [wrapsLeft, hop]

/-- A string on the left of `+` or of a comparison is set apart only where it is a literal. -/
theorem leftText_of_str {left : Expr} {op : BinOp} (hop : op = .add ∨ op.isComparison = true)
    (h : Finds o left .str) (text : String) :
    leftText left op text = if isStringLiteral left then callText "String" [text] else text := by
  have hparens : needsParens left op false = false := by
    have hstrength := strength_of_str h
    have hle : op.strength = 2 ∨ op.strength = 1 := by
      rcases hop with rfl | hop
      · exact .inl rfl
      · cases op <;> first | exact .inr rfl | cases hop
    simp [needsParens]
    omega
  rw [leftText, wrapsLeft_of_joins hop, hparens]
  split
  · simp [callText]
  · rfl

/-- What has a kind has a text. -/
theorem finds_writes (hstated : o.Stated signatures declared) {e : Expr} {kind : Kind}
    (h : Finds o e kind) :
    Writes (expression ⟨.builtin, floatType⟩ line e) := by
  have hsound : CallTable.builtin.Sound := CallTable.Built.builtin.sound
  induction e generalizing kind with
  | literal value => exact .pure
  | name id => exact .pure
  | unary sign operand ih =>
    cases h with
    | unary hoperand => exact .bind (ih hoperand) fun _ => .pure
  | binary left op right ihl ihr =>
    cases h with
    | binary hleft hright =>
      refine .bind (ihl hleft) fun _ => .bind (ihr hright) fun _ => ?_
      exact .ite (fun _ => .pure) fun _ => .pure
  | call callee args ih =>
    have htexts : ∀ {kinds}, List.Forall₂ (Finds o) args kinds →
        Writes (expressions ⟨.builtin, floatType⟩ line args) := by
      intro kinds hargs
      refine expressions_of_forall fun arg harg => ?_
      obtain ⟨_, _, hkind⟩ := exists_of_forall₂ hargs harg
      exact ih arg harg hkind
    cases h with
    | user hargs hresult => exact freeCall_writes (hstated.apart hresult) (htexts hargs)
    | @runtime _ _ _ rule _ _ hrule hrange hlength hargs hgives =>
      rw [hstated.table] at hrule
      have hprint : rule.form ≠ .print := by
        intro hform
        have hvoid := (hsound.call hrule).print hform
        cases hgives with
        | fixed hreturns | promoted hreturns => cases hvoid.symm.trans hreturns
      exact ruledCall_writes (hsound.call hrule) hrule hrange hlength hprint (htexts hargs)
    | length _ hrule hform =>
      rw [hstated.table] at hrule
      unfold expression call
      simp only [hrule, hform]
      exact .pure
  | index list position ih =>
    cases h with
    | index _ hposition => exact .bind (ih hposition) fun _ => .pure
  | list items ih => cases h

/-- A call that gives a string is written as a call of a function that returns
one, or as a conversion. -/
theorem isObject_call (hstated : o.Stated signatures declared) {callee : String} {args : List Expr}
    (h : Finds o (.call callee args) .str) {text : String}
    (htext : expression ⟨.builtin, floatType⟩ line (.call callee args) = .ok text) :
    IsObject signatures declared text (written floatType (.call callee args)) := by
  have hstr : CallTable.builtin.call? "str" = some ⟨"str", .cast, .fixed .str, some 1⟩ := rfl
  unfold expression call at htext
  dsimp only at htext
  cases h with
  | user _ hresult =>
    have hfree := hstated.apart hresult
    obtain ⟨signature, hsignature, hreturns⟩ := hstated.results hresult
    rw [hfree] at htext
    obtain ⟨texts, _, heq⟩ := Outcome.bind_eq_ok.mp htext
    cases heq
    have hnot := not_builtin_of_call?_eq_none hfree
    have hlength : callee ≠ "len" := fun h => hnot (by simp [h])
    rw [written, if_neg hlength, lookup_conversions hnot]
    exact .returned hsignature hreturns
  | runtime _ hrule _ _ _ hgives =>
    obtain rfl := ruleGives_str hstated hrule hgives
    rw [hstr] at htext
    obtain ⟨texts, _, heq⟩ :=
      Outcome.bind_eq_ok.mp (show expressions _ line args >>= _ = _ from htext)
    cases heq
    exact .made
  | length _ hrule hform _ hgives =>
    obtain rfl := ruleGives_str hstated hrule hgives
    rw [hstated.table, hstr] at hrule
    cases hrule
    cases hform

theorem declared_of_str (hstated : o.Stated signatures declared) {x : String} {kind : Kind}
    (h : o.names x = some kind) (hkind : kind ≠ .int) : declared x kind :=
  (hstated.names h).resolve_right fun hconstant => hkind (builtin_constant hconstant)

/-- A string, a literal apart, is written as an object; and so is a literal on the left of an
operator that would take it for a pointer. -/
theorem isObject_written (hstated : o.Stated signatures declared) {e : Expr} (h : Finds o e .str)
    {text : String} (htext : expression ⟨.builtin, floatType⟩ line e = .ok text) :
    IsObject signatures declared (if isStringLiteral e then callText "String" [text] else text)
      (if isStringLiteral e then .call "String" [written floatType e]
        else written floatType e) := by
  induction e generalizing text with
  | literal value =>
    cases value with
    | str text => exact .made
    | int | float | bool => cases h
  | name id =>
    cases htext
    cases h with
    | name hname => exact .variable (declared_of_str hstated hname nofun)
  | unary sign operand ih =>
    cases h with
    | unary _ hnumeric => cases hnumeric
  | binary left op right ihl ihr =>
    cases h with
    | binary hleft hright hop =>
      cases hop with
      | join =>
        obtain ⟨first, hfirst, htext⟩ := Outcome.bind_eq_ok.mp htext
        obtain ⟨second, hsecond, htext⟩ := Outcome.bind_eq_ok.mp htext
        rw [if_neg (by decide)] at htext
        cases htext
        -- An operand that is a literal is wrapped by this very operator.
        have hwritten : written floatType (.binary left .add right) =
            .binary (if wrapsLeft left .add then .call "String" [written floatType left]
              else written floatType left)
              .add (written floatType right) := written_binary (by decide)
        rw [wrapsLeft_of_joins (.inl rfl)] at hwritten
        rw [leftText_of_str (.inl rfl) hleft, hwritten]
        exact .joined (ihl hleft hfirst)
      | arithmetic _ hwidest | quotient _ hwidest | whole _ _ _ hwidest =>
        exact absurd hwidest not_widest_str
  | call callee args ih => exact isObject_call hstated h htext
  | index list position ih =>
    cases h with
    | index hlist =>
      obtain ⟨inner, _, heq⟩ := Outcome.bind_eq_ok.mp htext
      cases heq
      exact .item (declared_of_str hstated hlist nofun)
  | list items ih => cases h

/-- The text of an operation on strings names an object on the left, and is read as
that operation on it. -/
theorem operation_joins (hstated : o.Stated signatures declared) {left right : Expr} {op : BinOp}
    (hop : op = .add ∨ op.isComparison = true) (hleft : Finds o left .str)
    (hright : Finds o right .str) (floatType : FloatType) (line : Nat) :
    JoinsObject ⟨.builtin, floatType⟩ signatures declared line left op right := by
  have hpow : op ≠ .pow := by
    rintro rfl
    exact hop.elim nofun nofun
  have hdivision : op ≠ .floorDiv := by
    rintro rfl
    exact hop.elim nofun nofun
  obtain ⟨first, hfirst⟩ : Writes (expression ⟨.builtin, floatType⟩ line left) :=
    finds_writes hstated hleft
  obtain ⟨second, hsecond⟩ : Writes (expression ⟨.builtin, floatType⟩ line right) :=
    finds_writes hstated hright
  have hobject := isObject_written hstated hleft hfirst
  rw [← leftText_of_str hop hleft] at hobject
  refine ⟨leftText left op first, parenthesized (needsParens right op true) second, _, ?_,
    hobject, ?_, ?_⟩
  · unfold expression
    rw [hfirst, hsecond]
    exact if_neg hpow
  · exact hobject.ne_literal
  · intro hspelled
    cases hspelled with
    | binary hspelledLeft hspelledRight =>
      have htable : (⟨.builtin, floatType⟩ : Style).table = .builtin := rfl
      have hoperand := (expression_readsBack htable hspelledLeft hfirst).leftText hpow
      have hother := (expression_readsBack htable hspelledRight hsecond).rightText hpow
      have hwhole := ReadsBack.operator hpow hoperand hother
      rw [wrapsLeft_of_joins hop] at hoperand hwhole
      rw [if_neg hdivision] at hwhole
      exact ⟨hoperand, by simpa using hwhole⟩

end Strings

end Sketch

namespace Inference

/-- The name means a variable that is declared with this kind: an own one of the
body, or an outer one. -/
inductive Meaning.Declared (own outer : Context) (x : String) (kind : Kind) : Meaning → Prop
  | own (h : (x, kind) ∈ own) : Declared own outer x kind (.own kind)
  | outer (h : (x, kind) ∈ outer) : Declared own outer x kind (.outer kind)

/-- All operations of the expression have kinds. An operation with a string takes another string,
which it joins or compares, and has an object on the left. -/
structure Visit.JoinsObjects (signatures : Signatures) (own outer : Context)
    (visit : Visit) : Prop where
  operates : Operates (visit.state.outlook .builtin) visit.expr
  joins : ∀ left op right, .binary left op right ∈ visit.expr.parts →
    Finds (visit.state.outlook .builtin) left .str ∨
    Finds (visit.state.outlook .builtin) right .str →
      Finds (visit.state.outlook .builtin) left .str ∧
      Finds (visit.state.outlook .builtin) right .str ∧
      (op = .add ∨ op.isComparison = true) ∧ ∀ floatType line,
      Sketch.JoinsObject ⟨.builtin, floatType⟩ signatures
        (fun x kind => (visit.state.frame.scope.meaning x).Declared own outer x kind)
        line left op right

section Programs

variable {p p' : Program} {task : Task} {s : State} {own outer : Context}

/-- What is known at a visit is what the resolved program says. -/
theorem Visit.Passes.stated (h : (infer .builtin p).1 = .ok p') {visit : Visit}
    (hpasses : visit.Passes .builtin s) (hkept : s.functions.Evolves (lastFunctions .builtin p))
    (hrefers : Refers visit.state.frame.scope.meaning own outer) :
    (visit.state.outlook .builtin).Stated p'.signatures
      fun x kind => (visit.state.frame.scope.meaning x).Declared own outer x kind where
  table := rfl
  names {x kind} hname := by
    have hkind : visit.state.frame.scope.kind? .builtin x = some kind := hname
    unfold Scope.kind? at hkind
    split at hkind
    · next found hmeaning =>
      cases hkind
      exact .inl (hmeaning ▸ .own (hrefers.own x _ hmeaning))
    · next found hmeaning =>
      cases hkind
      exact .inl (hmeaning ▸ .outer (hrefers.outer x _ hmeaning))
    · cases hkind
    · exact .inr hkind
  results {callee kind} hresult := by
    have hstart : s.functions.result? callee = some (some kind) := hpasses.fills.results ▸ hresult
    exact signature_of_result CallTable.Built.builtin.sound h hkept hstart
  apart {callee result} hresult := by
    have hstart : s.functions.result? callee = some result := hpasses.fills.results ▸ hresult
    exact (CallTable.call?_of_not_known
      (unknown_of_result CallTable.Built.builtin.sound h hkept hstart)).1

theorem Visit.Passes.joinsObjects (h : (infer .builtin p).1 = .ok p') {visit : Visit}
    (hpasses : visit.Passes .builtin s) (hkept : s.functions.Evolves (lastFunctions .builtin p))
    (hrefers : Refers visit.state.frame.scope.meaning own outer) :
    visit.JoinsObjects p'.signatures own outer where
  operates := hpasses.examined.operates CallTable.Built.builtin.sound
  joins left op right hpart hstr := by
    obtain ⟨_, hkind⟩ := hpasses.examined.operates CallTable.Built.builtin.sound left op right hpart
    cases hkind with
    | binary hleft hright hop =>
      obtain ⟨rfl, rfl, hjoins⟩ := hop.strings (hstr.imp hleft.unique hright.unique)
      exact ⟨hleft, hright, hjoins,
        Sketch.operation_joins (hpasses.stated h hkept hrefers) hjoins hleft hright⟩

theorem Settles.exprs_eq (htable : CallTable.builtin.Sound) (h : (infer .builtin p).1 = .ok p')
    (htask : task ∈ tasksOf p.statements) {stmt : Stmt}
    (hsettles : Settles .builtin p p' task s stmt) :
    stmt.exprs = exprsIn task.body := by
  obtain ⟨_, _, body, _, _, _, rfl, hbinds, _⟩ := hsettles.walks htable h htask
  rw [Stmt.exprs, ← exprsIn_bareAll, hbinds.bare_eq, exprsIn_bareAll]

/-- In an accepted program every `+` and every comparison of strings has an object on the left, in
the assignments of the module and in the functions, at any depth. -/
theorem infer_joins_objects (h : (infer .builtin p).1 = .ok p') :
    ((∀ stmt ∈ p'.statements, stmt.isAssign = true → ∀ e ∈ stmt.exprs,
        ∃ visit ∈ moduleVisits .builtin (start p) p.statements, visit.expr = e) ∧
      ∀ visit ∈ moduleVisits .builtin (start p) p.statements,
        visit.JoinsObjects p'.signatures (declaredIn p'.statements) []) ∧
    ∀ stmt ∈ p'.statements, stmt.isFunction = true →
      (∃ task ∈ tasksOf p.statements, ∃ s, Settles .builtin p p' task s stmt) ∧
      ∀ task ∈ tasksOf p.statements, ∀ s, Settles .builtin p p' task s stmt →
        (∀ e ∈ stmt.exprs, ∃ visit ∈ task.visits .builtin (globals .builtin p) s, visit.expr = e) ∧
        ∀ visit ∈ task.visits .builtin (globals .builtin p) s,
          visit.JoinsObjects p'.signatures stmt.declarations (declaredIn p'.statements) := by
  have htable := CallTable.Built.builtin.sound
  have haccepts := infer_accepts htable h
  obtain ⟨_, _, _, _, _, hglobals, _⟩ := infer_ok h
  refine ⟨⟨fun stmt hstmt hassign e he => ?_, fun visit hvisit => ?_⟩,
    fun stmt hstmt hfunction => ⟨?_, ?_⟩⟩
  · rcases haccepts.tops stmt hstmt with ⟨task, htask, s, hsettles⟩ | ⟨_, source, hsource, htop⟩
    · obtain ⟨_, _, _, _, rfl, _⟩ := hsettles.kept h
      cases hassign
    · cases htop with
      | assign => exact moduleVisits_cover _ _ _ hsource rfl e he
      | other => exact moduleVisits_cover _ _ _ hsource hassign e he
  · exact (moduleVisits_pass hglobals visit hvisit).joinsObjects h (start_evolves h)
      ((module_refers htable h).1 visit hvisit)
  · rcases haccepts.tops stmt hstmt with hsettled | ⟨hother, _⟩
    · exact hsettled
    · cases hother.symm.trans hfunction
  · intro task htask s hsettles
    refine ⟨fun e he => ?_, fun visit hvisit => ?_⟩
    · rw [hsettles.exprs_eq htable h htask] at he
      exact hsettles.covers htable h htask e he
    · exact (hsettles.passes htable h htask visit hvisit).joinsObjects h (hsettles.kept h).1
        (hsettles.refers htable h htask visit hvisit)

/-- A literal that is joined with a parameter and then compared with a result. -/
def compared : Expr := .binary (.binary (.literal (.str "a")) .add (.name "s")) .eq (.call "tag" [])

/-- A function that compares with the result of another one. -/
def comparer : Task :=
  ⟨3, ⟨"same", [⟨"s", some .str⟩], some .bool, false⟩, [.give 4 (some compared)]⟩

def comparing : Program where
  header := []
  statements := [
    .function 1 ⟨"tag", [], some .str, false⟩ none [] [.give 2 (some (.literal (.str "#")))],
    .function comparer.line comparer.head none [] comparer.body]

/-- What is compared is a string. -/
theorem finds_compared {o : Outlook} {kind : Kind} (h : Finds o compared kind) :
    Finds o (.binary (.literal (.str "a")) .add (.name "s")) .str := by
  cases h with
  | binary hleft =>
    cases hleft with
    | binary hliteral hname hjoin =>
      cases hliteral
      obtain ⟨_, rfl, _⟩ := hjoin.strings (.inl rfl)
      exact .binary (.literal _) hname .join

/-- In the text of the comparison the literal is made an object. -/
theorem infer_joins_objects_compared :
    Sketch.expression ⟨.builtin, .float⟩ 4 compared = .ok "String(\"a\") + s == tag()" ∧
    ∃ p', (infer .builtin comparing).1 = .ok p' ∧
      ∃ s stmt, Settles .builtin comparing p' comparer s stmt ∧
      ∃ visit ∈ comparer.visits .builtin (globals .builtin comparing) s, visit.expr = compared ∧
        ∀ floatType line, Sketch.JoinsObject ⟨.builtin, floatType⟩ p'.signatures
          (fun x kind => (visit.state.frame.scope.meaning x).Declared stmt.declarations
            (declaredIn p'.statements) x kind)
          line (.binary (.literal (.str "a")) .add (.name "s")) .eq (.call "tag" []) := by
  refine ⟨by decide +kernel, ?_⟩
  obtain ⟨p', h⟩ : ∃ p', (infer .builtin comparing).1 = .ok p' :=
    Outcome.exists_of_isOk (by decide +kernel)
  have htable := CallTable.Built.builtin.sound
  have htask : comparer ∈ tasksOf comparing.statements := List.mem_cons_of_mem _ List.mem_cons_self
  obtain ⟨s, stmt, hsettles⟩ := (infer_accepts htable h).settled comparer htask
  have hfunction : stmt.isFunction = true := by
    obtain ⟨_, _, _, _, rfl, _⟩ := hsettles.kept h
    rfl
  obtain ⟨hcovered, hjoins⟩ :=
    ((infer_joins_objects h).2 stmt hsettles.placed hfunction).2 _ htask s hsettles
  obtain ⟨visit, hvisit, hexpr⟩ :=
    hcovered compared (hsettles.exprs_eq htable h htask ▸ List.mem_cons_self)
  have hobjects := hjoins visit hvisit
  have hpart : compared ∈ visit.expr.parts := by
    rw [hexpr]
    exact List.mem_cons_self
  obtain ⟨kind, hkind⟩ := hobjects.operates _ _ _ hpart
  obtain ⟨-, -, -, hobject⟩ := hobjects.joins _ _ _ hpart (.inl (finds_compared hkind))
  exact ⟨p', h, s, stmt, hsettles, visit, hvisit, hexpr, hobject⟩

end Programs

end Inference

end Sketchwright
