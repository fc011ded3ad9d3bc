import Sketchwright.Proofs.Bare
import Sketchwright.Proofs.CodeLines
import Sketchwright.Proofs.Rereading

/-! The text of code in a sketch: plain characters, the sign of a division between blanks,
and string literals. Nothing in it but a literal takes a character that could start a
literal or a comment. -/

namespace Sketchwright

namespace Sketch

open Sketchwright.Expr Token.Lexeme

/-- What a character of C++ belongs to. -/
inductive Region where
  | code
  | literal
  /-- A comment up to the end of the line. -/
  | line
  | block
  deriving DecidableEq, Repr

abbrev Marks := List (Region × Char)

def Region.mark (region : Region) (text : List Char) : Marks := text.map fun c => (region, c)

/-- Joins each line that ends in a backslash and the next one. -/
def splice : List Char → List Char
  | '\\' :: '\n' :: cs => splice cs
  | c :: cs => c :: splice cs
  | [] => []

/-- Characters that start no literal, no comment and no escape, and that do not end a line. -/
def isPlain (c : Char) : Bool := c != '"' && c != '/' && c != '\\' && c != '\n'

def Plain (text : String) : Prop := text.toList.all isPlain = true

instance (text : String) : Decidable (Plain text) := inferInstanceAs (Decidable (_ = _))

theorem plain_iff {text : String} : Plain text ↔ ∀ c ∈ text.toList, isPlain c = true :=
  List.all_eq_true

/-- A text that does not start with a blank. -/
def Visible (text : String) : Prop := ∃ c cs, text.toList = c :: cs ∧ c ≠ ' '

/-- Text of code and what its characters belong to. The configured names of
calls satisfy `isTarget`. -/
inductive Marked (isTarget : String → Prop) : String → Marks → Prop
  | plain {text} (hstart : Visible text) (htext : Plain text) :
    Marked isTarget text (Region.code.mark text.toList)
  | literal {text} (h : (TokenKind.string text).Spelled) :
      Marked isTarget (stringLiteral text)
      (Region.literal.mark (splice (stringLiteral text).toList))
  | target {name} (h : isTarget name) :
    Marked isTarget (name ++ "(") (Region.code.mark (name ++ "(").toList)
  | more {text rest marks} (h : Marked isTarget text marks) (hrest : Plain rest) :
      Marked isTarget (text ++ rest) (marks ++ Region.code.mark rest.toList)
  | append {first second marks more} (hfirst : Marked isTarget first marks)
    (hsecond : Marked isTarget second more) :
      Marked isTarget (first ++ second) (marks ++ more)
  | quotient {first second marks more} (hfirst : Marked isTarget first marks)
    (hsecond : Marked isTarget second more) :
      Marked isTarget (first ++ " / " ++ second) (marks ++ Region.code.mark [' ', '/', ' '] ++ more)

/-- Text that is the text of code. -/
def Written (isTarget : String → Prop) (text : String) : Prop := ∃ marks, Marked isTarget text marks

namespace Written

variable {isTarget : String → Prop} {first second text rest : String}

theorem plain (hstart : Visible text) (htext : Plain text) : Written isTarget text :=
  ⟨_, .plain hstart htext⟩

theorem literal (h : (TokenKind.string text).Spelled) : Written isTarget (stringLiteral text) :=
  ⟨_, .literal h⟩

theorem more (h : Written isTarget text) (hrest : Plain rest) :
    Written isTarget (text ++ rest) := by
  obtain ⟨_, h⟩ := h
  exact ⟨_, .more h hrest⟩

theorem append (hfirst : Written isTarget first) (hsecond : Written isTarget second) :
    Written isTarget (first ++ second) := by
  obtain ⟨_, hfirst⟩ := hfirst
  obtain ⟨_, hsecond⟩ := hsecond
  exact ⟨_, .append hfirst hsecond⟩

theorem quotient (hfirst : Written isTarget first) (hsecond : Written isTarget second) :
    Written isTarget (first ++ " / " ++ second) := by
  obtain ⟨_, hfirst⟩ := hfirst
  obtain ⟨_, hsecond⟩ := hsecond
  exact ⟨_, .quotient hfirst hsecond⟩

/-- Text set between two plain ones, the first of which is visible. -/
theorem between {front back : String} (hstart : Visible front) (hfront : Plain front)
    (h : Written isTarget text) (hback : Plain back) : Written isTarget (front ++ text ++ back) :=
  ((plain hstart hfront).append h).more hback

/-- Texts in a list after some other text. -/
theorem listed (htext : Written isTarget text) {texts : List String}
    (h : ∀ item ∈ texts, Written isTarget item) :
    Written isTarget (text ++ ", ".intercalate texts) := by
  induction texts generalizing text with
  | nil =>
    have hnil : ", ".intercalate [] = "" := rfl
    rwa [hnil, String.append_empty]
  | cons item texts ih =>
    obtain ⟨hitem, htexts⟩ := List.forall_mem_cons.mp h
    cases texts with
    | nil =>
      rw [String.intercalate_singleton]
      exact htext.append hitem
    | cons next texts =>
      have hsplit : text ++ ", ".intercalate (item :: next :: texts) =
          text ++ item ++ ", " ++ ", ".intercalate (next :: texts) := by
        rw [String.intercalate_cons_cons]
        simp only [String.append_assoc]
      rw [hsplit]
      exact ih ((htext.append hitem).more (by decide)) htexts

end Written

section Words

variable {isTarget : String → Prop}

theorem isPlain_of_holds {p : Char → Bool} {c : Char} (hc : p c = true)
    (hp : ['"', '/', '\\', '\n'].any p = false) : isPlain c = true := by
  simp only [List.any_cons, Bool.or_eq_false_iff] at hp
  obtain ⟨hquote, hslash, hbackslash, hnewline, -⟩ := hp
  simp [isPlain, ne_of_holds hc hquote, ne_of_holds hc hslash, ne_of_holds hc hbackslash,
    ne_of_holds hc hnewline]

theorem visible_of_opens {text : String}
    (h : ∃ c cs, text.toList = c :: cs ∧ opensText c = true) : Visible text := by
  obtain ⟨c, cs, hcs, hc⟩ := h
  exact ⟨c, cs, hcs, ne_of_holds hc (by decide)⟩

theorem plain_of_isWord {text : String} (h : IsWord text.toList) : Plain text :=
  plain_iff.mpr fun c hc => isPlain_of_holds (h.chars c hc) (by decide)

theorem Plain.append {first second : String} (hfirst : Plain first) (hsecond : Plain second) :
    Plain (first ++ second) := by
  rw [Plain, String.toList_append, List.all_append, hfirst, hsecond, Bool.and_self]

theorem written_word {id : String} (h : (TokenKind.identifier id).Spelled) : Written isTarget id :=
  .plain (visible_of_opens (opensText_of_isWord (isWord_of_spelled h)))
  (plain_of_isWord (isWord_of_spelled h))

theorem plain_path {path : String} (h : Path path) : Plain path := by
  induction h with
  | word hid _ => exact plain_of_isWord (isWord_of_spelled hid)
  | dot _ hid ih =>
    have hdot : Plain "." := by decide
    exact (ih.append hdot).append (plain_of_isWord (isWord_of_spelled hid))

theorem written_path {path : String} (h : Path path) : Written isTarget path := by
  obtain ⟨_, hdotted⟩ := h.dotted
  exact .plain (visible_of_opens (opensText_of_path hdotted)) (plain_path h)

theorem plain_nat (n : Nat) : Plain (toString n) := by
  have htext : (toString n).toList = Nat.toDigits 10 n := by
    rw [show toString n = Nat.repr n from rfl, Nat.repr, String.toList_ofList]
  refine plain_iff.mpr fun c hc => ?_
  rw [htext] at hc
  have hdigit : c.isDigit = true := Nat.isDigit_of_mem_toDigits (by decide) (by decide) hc
  exact isPlain_of_holds hdigit (by decide)

theorem written_integer {value : Int} (h : (TokenKind.integer value).Spelled) :
    Written isTarget (toString value) := by
  refine .plain (visible_of_opens (lexes_integer h).start) ?_
  obtain ⟨n, rfl, -⟩ := le_largest_of_spelled h
  exact plain_nat n

theorem written_float {text : String} (h : (TokenKind.float text).Spelled) :
    Written isTarget (floatLiteral text) := by
  refine .plain (visible_of_opens (lexes_float h).start) ?_
  obtain ⟨front, point, power, htext, hdecimal, -⟩ := isDecimal_of_spelled h
  have hdigit : ∀ {c : Char}, c.isDigit = true → isPlain c = true :=
    fun hc => isPlain_of_holds hc (by decide)
  have hpoint : ∀ c ∈ point, isPlain c = true := by
    rcases hdecimal.fraction with rfl | ⟨ds, rfl, hds⟩
    · exact List.forall_mem_nil _
    · exact List.forall_mem_cons.mpr ⟨by decide, fun c hc => hdigit (hds c hc)⟩
  have hpower : ∀ c ∈ power, isPlain c = true := by
    rcases hdecimal.exponent with rfl | ⟨mark, sign, ds, rfl, hmark, hsign, -, hds⟩
    · exact List.forall_mem_nil _
    · have hmark' : ['e', 'E'].all isPlain = true := by decide
      have hsign' : [[], ['+'], ['-']].all (·.all isPlain) = true := by decide
      exact List.forall_mem_cons.mpr ⟨List.all_eq_true.mp hmark' mark hmark,
        List.forall_mem_append.mpr
        ⟨List.all_eq_true.mp (List.all_eq_true.mp hsign' sign hsign),
          fun c hc => hdigit (hds c hc)⟩⟩
  refine plain_iff.mpr fun c hc => ?_
  have hlist : (floatLiteral text).toList = front ++ (point ++ power) := by
    rw [floatLiteral, String.toList_ofList]
    exact htext
  rw [hlist] at hc
  exact List.forall_mem_append.mpr ⟨fun c hc => hdigit (hdecimal.digits c hc),
    List.forall_mem_append.mpr ⟨hpoint, hpower⟩⟩ c hc

end Words

section Expressions

variable {isTarget : String → Prop} {style : Style} {line : Nat}

theorem written_literal {value : Literal} (h : (Expr.literal value).Spelled) :
    Written isTarget (literal value) := by
  cases h with
  | int h => exact written_integer h
  | float h => exact written_float h
  | str h => exact .literal h
  | @bool value =>
    cases value with
    | true => exact .plain ⟨'t', _, rfl, by decide⟩ (by decide)
    | false => exact .plain ⟨'f', _, rfl, by decide⟩ (by decide)

theorem typeName_start {kind : Kind} {name : String} (h : typeName style kind line = .ok name) :
    ∃ c cs, name.toList = c :: cs ∧ c.isAlpha = true := by
  cases kind with
  | list => cases h
  | float =>
    cases h
    cases style.floatType <;> exact ⟨_, _, rfl, rfl⟩
  | _ =>
    cases h
    exact ⟨_, _, rfl, rfl⟩

theorem typeName_written {kind : Kind} {name : String} (h : typeName style kind line = .ok name) :
    Written isTarget name := by
  obtain ⟨c, cs, hcs, hc⟩ := typeName_start h
  refine .plain ⟨c, cs, hcs, ne_of_holds hc (by decide)⟩ ?_
  cases kind with
  | list => cases h
  | float =>
    cases h
    cases style.floatType <;> decide
  | _ =>
    cases h
    decide

theorem Written.call {callee : String} (hcallee : Written isTarget (callee ++ "("))
    {args : List String}
    (hargs : ∀ arg ∈ args, Written isTarget arg) : Written isTarget (callText callee args) :=
  (hcallee.listed hargs).more (by decide)

theorem Written.parenthesized {text : String} (h : Written isTarget text) (needed : Bool) :
    Written isTarget (parenthesized needed text) := by
  cases needed with
  | false => exact h
  | true => exact .between ⟨'(', _, rfl, by decide⟩ (by decide) h (by decide)

theorem Written.leftText {text : String} (h : Written isTarget text) (left : Expr) (op : BinOp) :
    Written isTarget (leftText left op text) := by
  unfold Sketch.leftText
  split
  · exact .between ⟨'S', _, rfl, by decide⟩ (by decide) h (by decide)
  · exact h.parenthesized _

theorem Written.operator {first second : String} (hfirst : Written isTarget first)
    (hsecond : Written isTarget second) (op : BinOp) :
    Written isTarget (first ++ " " ++ symbol op ++ " " ++ second) := by
  have hsymbol : Plain (symbol op) ∨ symbol op = "/" := by
    cases op <;> first | exact .inl (by decide) | exact .inr rfl
  rcases hsymbol with hsymbol | hsymbol
  · exact (((hfirst.more (by decide)).more hsymbol).more (by decide)).append hsecond
  · have hsplit : first ++ " " ++ "/" ++ " " ++ second = first ++ " / " ++ second := by
      simp [← String.toList_inj]
    rw [hsymbol, hsplit]
    exact hfirst.quotient hsecond

theorem written_lengthText {list : String} (h : Written isTarget list) :
    Written isTarget (lengthText list) := by
  have hsplit : lengthText list =
      "(sizeof(" ++ list ++ ")" ++ " / " ++ ("sizeof(" ++ list ++ "[0]))") := by
    simp [lengthText, ← String.toList_inj]
  rw [hsplit]
  exact .quotient (.between ⟨'(', _, rfl, by decide⟩ (by decide) h (by decide))
    (.between ⟨'s', _, rfl, by decide⟩ (by decide) h (by decide))

theorem expressions_written {args : List Expr}
    (ih : ∀ arg ∈ args, arg.Spelled → ∀ {text}, expression style line arg = .ok text →
      Written isTarget text)
    (hspelled : ∀ arg ∈ args, arg.Spelled) {texts : List String}
    (h : expressions style line args = .ok texts) :
    ∀ text ∈ texts, Written isTarget text := by
  induction args generalizing texts with
  | nil =>
    cases h
    exact List.forall_mem_nil _
  | cons arg args ihArgs =>
    obtain ⟨text, htext, h⟩ := Outcome.bind_eq_ok.mp h
    obtain ⟨more, hmore, h⟩ := Outcome.bind_eq_ok.mp h
    cases h
    obtain ⟨hfirst, hrest⟩ := List.forall_mem_cons.mp hspelled
    obtain ⟨ihFirst, ihRest⟩ := List.forall_mem_cons.mp ih
    exact List.forall_mem_cons.mpr ⟨ihFirst hfirst htext, ihArgs ihRest hrest hmore⟩

/-- The configured names that a table has for calls. -/
def Renames (table : CallTable) (isTarget : String → Prop) : Prop :=
  ∀ rule ∈ table.calls, ∀ target, rule.form = .rename target → isTarget target

/-- A name that a table has for a call. -/
def IsTarget (table : CallTable) (name : String) : Prop :=
  ∃ rule ∈ table.calls, rule.form = .rename name

theorem renames_isTarget (table : CallTable) : Renames table (IsTarget table) :=
  fun rule hrule _ hform => ⟨rule, hrule, hform⟩

/-- The built-in calls keep their names. -/
theorem renames_builtin : Renames .builtin isTarget := by
  intro rule hrule target hform
  have hrule' := builtinCalls_written rule hrule
  rw [hform] at hrule'
  exact hrule'.elim

variable (htargets : Renames style.table isTarget)

include htargets

theorem call_written {callee : String} {args : List Expr} (hcallee : Path callee)
    (hspelled : ∀ arg ∈ args, arg.Spelled) {texts : Writing (List String)}
    (hargs : ∀ {all}, texts = .ok all → ∀ arg ∈ all, Written isTarget arg) {text : String}
    (h : call style line callee args texts = .ok text) : Written isTarget text := by
  have hplain : ∀ {name}, Written isTarget name → Written isTarget (name ++ "(") :=
    fun h => h.more (by decide)
  unfold call at h
  split at h
  · obtain ⟨all, hall, h⟩ := Outcome.bind_eq_ok.mp h
    cases h
    exact .call (hplain (written_path hcallee)) (hargs hall)
  · next rule hrule =>
    split at h
    · obtain ⟨all, hall, h⟩ := Outcome.bind_eq_ok.mp h
      cases h
      exact .call (hplain (written_path hcallee)) (hargs hall)
    · next target hform =>
      obtain ⟨all, hall, h⟩ := Outcome.bind_eq_ok.mp h
      cases h
      exact .call ⟨_, .target
        (htargets rule (List.mem_of_find?_eq_some hrule) target hform)⟩ (hargs hall)
    · split at h
      · cases h
        cases hspelled _ List.mem_cons_self with
        | name hid _ => exact written_lengthText (written_word hid)
      · cases h
    · split at h
      · obtain ⟨name, hname, h⟩ := Outcome.bind_eq_ok.mp h
        obtain ⟨all, hall, h⟩ := Outcome.bind_eq_ok.mp h
        cases h
        exact .call (hplain (typeName_written hname)) (hargs hall)
      · cases h
    · cases h
    · cases h

theorem expression_written {e : Expr} (hspelled : e.Spelled) {text : String}
    (h : expression style line e = .ok text) :
    Written isTarget text := by
  induction e generalizing text with
  | literal value =>
    cases h
    exact written_literal hspelled
  | name id =>
    cases h
    cases hspelled with
    | name hid _ => exact written_word hid
  | unary sign operand ih =>
    obtain ⟨inner, hinner, h⟩ := Outcome.bind_eq_ok.mp h
    cases h
    cases hspelled with
    | unary hoperand =>
      have hsign : Written isTarget sign.text := by
        cases sign <;> exact .plain ⟨_, _, rfl, by decide⟩ (by decide)
      exact hsign.append ((ih hoperand hinner).parenthesized _)
  | binary left op right ihl ihr =>
    obtain ⟨first, hfirst, h⟩ := Outcome.bind_eq_ok.mp h
    obtain ⟨second, hsecond, h⟩ := Outcome.bind_eq_ok.mp h
    cases hspelled with
    | binary hleft hright =>
      have hfirst' := ihl hleft hfirst
      have hsecond' := ihr hright hsecond
      split at h
      · cases h
        have hpow : Written isTarget ("pow" ++ "(") := .plain ⟨'p', _, rfl, by decide⟩ (by decide)
        exact hpow.call (List.forall_mem_cons.mpr ⟨hfirst', List.forall_mem_singleton.mpr hsecond'⟩)
      · cases h
        exact (hfirst'.leftText left op).operator (hsecond'.parenthesized _) op
  | call callee args ih =>
    cases hspelled with
    | call hcallee hargs =>
      exact call_written htargets hcallee hargs
        (fun hall => expressions_written
          (fun arg harg hspelled _ => ih arg harg hspelled) hargs hall) h
  | index list position ih =>
    obtain ⟨inner, hinner, h⟩ := Outcome.bind_eq_ok.mp h
    cases h
    cases hspelled with
    | index hid _ hposition =>
      exact (((written_word hid).more (by decide)).append (ih hposition hinner)).more (by decide)
  | list items ih => cases h

end Expressions

section Statements

variable {isTarget : String → Prop} {style : Style} {line : Nat}

/-- What the header of a function is made of. -/
theorem functionHeader_cases {head : FunctionHead} {signature : Signature} {text : String}
    (h : functionHeader style line head signature = .ok text) : ∃ returns params,
      (returns = "void" ∨ typeName style signature.returns line = .ok returns) ∧
      parameterTexts style line head.params signature.params = .ok params ∧
      text = returns ++ " " ++ head.name ++ "(" ++ ", ".intercalate params ++ ") \x7b" := by
  cases hentry : head.isEntry <;>
    simp only [functionHeader, hentry, Bool.false_eq_true, if_true, if_false, Outcome.bind_eq_ok,
      Outcome.pure_eq_ok] at h
  · obtain ⟨returns, hreturns, params, hparams, rfl⟩ := h
    exact ⟨returns, params, .inr hreturns, hparams, rfl⟩
  · obtain ⟨_, rfl, params, hparams, rfl⟩ := h
    exact ⟨"void", params, .inl rfl, hparams, rfl⟩

/-- What the header of a loop is made of. -/
theorem loopHeader_cases {var : String} {bounds : Bounds} {binding : Binding} {text : String}
    (h : loopHeader style line var bounds binding = .ok text) :
    ∃ start stop first,
      (bounds.start = none ∧ start = "0" ∨
        ∃ e, bounds.start = some e ∧ expression style line e = .ok start) ∧
      expression style line bounds.stop = .ok stop ∧
      (first = "" ∨ ∃ kind name, typeName style kind line = .ok name ∧ first = name ++ " ") ∧
      text = "for (" ++ (first ++ var ++ " = " ++ start) ++ "; " ++ var ++ " " ++
        (advanceText var bounds.step).1 ++
        " " ++ stop ++ "; " ++ (advanceText var bounds.step).2 ++ ") \x7b" := by
  obtain ⟨_ | start, stop, step⟩ := bounds <;> cases binding <;>
    simp only [loopHeader, Outcome.bind_eq_ok, Outcome.pure_eq_ok, Outcome.throw_ne_ok,
      false_and, and_false, exists_false] at h
  · obtain ⟨_, rfl, stop', hstop, name, hname, _, rfl, rfl⟩ := h
    exact ⟨"0", stop', name ++ " ", .inl ⟨rfl, rfl⟩, hstop, .inr ⟨_, name, hname, rfl⟩, rfl⟩
  · obtain ⟨_, rfl, stop', hstop, _, rfl, rfl⟩ := h
    exact ⟨"0", stop', "", .inl ⟨rfl, rfl⟩, hstop, .inl rfl, by rw [String.empty_append]⟩
  · obtain ⟨start', hstart, stop', hstop, name, hname, _, rfl, rfl⟩ := h
    exact ⟨start', stop', name ++ " ", .inr ⟨start, rfl, hstart⟩, hstop,
      .inr ⟨_, name, hname, rfl⟩, rfl⟩
  · obtain ⟨start', hstart, stop', hstop, _, rfl, rfl⟩ := h
    exact ⟨start', stop', "", .inr ⟨start, rfl, hstart⟩, hstop,
      .inl rfl, by rw [String.empty_append]⟩

/-- The names and the literals of a statement are those of tokens. -/
structure Lexical (stmt : Stmt) : Prop where
  exprs : ∀ e ∈ stmt.exprs, e.Spelled
  names : ∀ id ∈ stmt.names, (TokenKind.identifier id).Spelled

theorem lexical_of_isTrivia {stmt : Stmt} (h : stmt.isTrivia = true) : Lexical stmt := by
  cases stmt with
  | comment | blank => exact ⟨List.forall_mem_nil _, List.forall_mem_nil _⟩
  | _ => cases h

theorem Lexical.of_inner {stmt inner : Stmt} (h : Lexical stmt)
    (hinner : inner ∈ stmt.inner) : Lexical inner := by
  cases stmt with
  | function line head signature hoisted body =>
    refine ⟨fun e he => h.exprs e (Program.mem_exprsIn.mpr ⟨inner, hinner, he⟩),
      fun id hid => h.names id ?_⟩
    exact List.mem_cons_of_mem _ (List.mem_append_right _ (List.mem_append_right _
      (Program.mem_namesIn.mpr ⟨inner, hinner, hid⟩)))
  | conditional line condition thenBody elseBody =>
    refine ⟨fun e he => h.exprs e (List.mem_cons_of_mem _ ?_), fun id hid => h.names id ?_⟩
    · rw [← exprsIn_append]
      exact Program.mem_exprsIn.mpr ⟨inner, hinner, he⟩
    · rw [Stmt.names, ← namesIn_append]
      exact Program.mem_namesIn.mpr ⟨inner, hinner, hid⟩
  | loop line var bounds binding body =>
    refine ⟨fun e he => h.exprs e ?_, fun id hid => h.names id ?_⟩
    · exact List.mem_append_right _ (Program.mem_exprsIn.mpr ⟨inner, hinner, he⟩)
    · exact List.mem_cons_of_mem _ (Program.mem_namesIn.mpr ⟨inner, hinner, hid⟩)
  | _ => cases hinner

theorem declarations_written {hoisted : List (String × Kind)}
    (hnames : ∀ v ∈ hoisted, (TokenKind.identifier v.1).Spelled) {texts : List String}
    (h : declarations style line hoisted = .ok texts) : ∀ text ∈ texts, Written isTarget text := by
  induction hoisted generalizing texts with
  | nil =>
    cases h
    exact List.forall_mem_nil _
  | cons v hoisted ih =>
    obtain ⟨hname, hnames⟩ := List.forall_mem_cons.mp hnames
    obtain ⟨type, htype, h⟩ := Outcome.bind_eq_ok.mp h
    obtain ⟨more, hmore, h⟩ := Outcome.bind_eq_ok.mp h
    cases h
    have htext : Written isTarget (type ++ " " ++ v.1 ++ ";") :=
      (((typeName_written htype).more (by decide)).append (written_word hname)).more (by decide)
    exact List.forall_mem_cons.mpr ⟨htext, ih hnames hmore⟩

theorem parameterTexts_written {params : List Param} {kinds : List Kind}
    (hnames : ∀ id ∈ params.map Param.name, (TokenKind.identifier id).Spelled) {texts : List String}
    (h : parameterTexts style line params kinds = .ok texts) :
    ∀ text ∈ texts, Written isTarget text := by
  induction params generalizing kinds texts with
  | nil =>
    cases h
    exact List.forall_mem_nil _
  | cons param params ih =>
    cases kinds with
    | nil =>
      cases h
      exact List.forall_mem_nil _
    | cons kind kinds =>
      obtain ⟨hname, hnames⟩ := List.forall_mem_cons.mp hnames
      obtain ⟨type, htype, h⟩ := Outcome.bind_eq_ok.mp h
      obtain ⟨more, hmore, h⟩ := Outcome.bind_eq_ok.mp h
      cases h
      have htext : Written isTarget (type ++ " " ++ param.name) :=
        ((typeName_written htype).more (by decide)).append (written_word hname)
      exact List.forall_mem_cons.mpr ⟨htext, ih hnames hmore⟩

theorem functionHeader_written {head : FunctionHead} {signature : Signature} {text : String}
    (hnames : ∀ id ∈ head.name :: head.params.map Param.name, (TokenKind.identifier id).Spelled)
    (h : functionHeader style line head signature = .ok text) : Written isTarget text := by
  obtain ⟨hname, hparams⟩ := List.forall_mem_cons.mp hnames
  obtain ⟨returns, params, hreturns, hparams', rfl⟩ := functionHeader_cases h
  have hreturns' : Written isTarget returns := by
    rcases hreturns with rfl | hreturns
    · exact .plain ⟨'v', _, rfl, by decide⟩ (by decide)
    · exact typeName_written hreturns
  have hopen : Written isTarget (returns ++ " " ++ head.name ++ "(") :=
    ((hreturns'.more (by decide)).append (written_word hname)).more (by decide)
  exact (hopen.listed (parameterTexts_written hparams hparams')).more (by decide)

/-- The test and the update of a loop are plain but for its variable. -/
theorem advanceText_plain (var : String) (step : Int) : Plain (advanceText var step).1 ∧
    ∃ rest, (advanceText var step).2 = var ++ rest ∧ Plain rest := by
  have hless : Plain "<" := by decide
  have hgreater : Plain ">" := by decide
  unfold advanceText
  split
  · exact ⟨hless, _, rfl, by decide⟩
  split
  · exact ⟨hgreater, _, rfl, by decide⟩
  split
  · next hstep =>
    obtain ⟨n, rfl⟩ := Int.eq_ofNat_of_zero_le (Int.le_of_lt hstep)
    have hplain : Plain (" += " ++ toString (n : Int)) := Plain.append (by decide) (plain_nat n)
    exact ⟨hless, _, String.append_assoc, hplain⟩
  · have hplain : Plain (" -= " ++ toString step.natAbs) := Plain.append (by decide) (plain_nat _)
    exact ⟨hgreater, _, String.append_assoc, hplain⟩

variable (htargets : Renames style.table isTarget)

include htargets

theorem arguments_written {args : List Expr} (hspelled : ∀ arg ∈ args, arg.Spelled)
    {texts : List String} (h : expressions style line args = .ok texts) :
    ∀ text ∈ texts, Written isTarget text :=
  expressions_written (fun _ _ hspelled _ => expression_written htargets hspelled) hspelled h

theorem loopHeader_written {var : String} {bounds : Bounds} {binding : Binding} {text : String}
    (hvar : (TokenKind.identifier var).Spelled) (hbounds : ∀ e ∈ bounds.exprs, e.Spelled)
    (h : loopHeader style line var bounds binding = .ok text) : Written isTarget text := by
  obtain ⟨start, stop, first, hstart, hstop, hfirst, rfl⟩ := loopHeader_cases h
  obtain ⟨htest, rest, hupdate, hrest⟩ := advanceText_plain var bounds.step
  have hvar' : Written isTarget var := written_word hvar
  have hstart' : Written isTarget start := by
    rcases hstart with ⟨_, rfl⟩ | ⟨e, he, hstart⟩
    · exact .plain ⟨'0', _, rfl, by decide⟩ (by decide)
    · exact expression_written htargets (hbounds e (by simp [Bounds.exprs, he])) hstart
  have hstop' : Written isTarget stop :=
    expression_written htargets (hbounds _ (by simp [Bounds.exprs])) hstop
  have hfirst' : Written isTarget (first ++ var ++ " = " ++ start) := by
    refine Written.append (.more ?_ (by decide)) hstart'
    rcases hfirst with rfl | ⟨kind, name, hname, rfl⟩
    · rwa [String.empty_append]
    · exact ((typeName_written hname).more (by decide)).append hvar'
  have hopen : Written isTarget ("for (" ++ (first ++ var ++ " = " ++ start) ++ "; ") :=
    .between ⟨'f', _, rfl, by decide⟩ (by decide) hfirst' (by decide)
  have hblank : Plain " " := by decide
  have hsemicolon : Plain "; " := by decide
  have htest' := (((hopen.append hvar').more hblank).more htest).more hblank
  have hstop'' := (htest'.append hstop').more hsemicolon
  rw [hupdate]
  exact (hstop''.append (hvar'.more hrest)).more (by decide)

theorem targetText_written {target : Target} (hexprs : ∀ e ∈ target.exprs, e.Spelled)
    (hnames : ∀ id ∈ target.names, (TokenKind.identifier id).Spelled) {text : String}
    (h : targetText style line target = .ok text) : Written isTarget text := by
  cases target with
  | name id =>
    cases h
    exact written_word (hnames _ List.mem_cons_self)
  | element list position =>
    obtain ⟨inner, hinner, h⟩ := Outcome.bind_eq_ok.mp h
    cases h
    cases hexprs _ List.mem_cons_self with
    | index hid _ hposition =>
      exact (((written_word hid).more (by decide)).append
        (expression_written htargets hposition hinner)).more (by decide)

theorem assignment_written {target : Target} {value : Expr} {binding : Binding}
    (hexprs : ∀ e ∈ target.exprs ++ [value], e.Spelled)
    (hnames : ∀ id ∈ target.names, (TokenKind.identifier id).Spelled) {text : String}
    (h : assignment style line target value binding = .ok text) : Written isTarget text := by
  obtain ⟨htargetExprs, hvalue⟩ := List.forall_mem_append.mp hexprs
  have hvalue := List.forall_mem_singleton.mp hvalue
  obtain ⟨name, hname, h⟩ := Outcome.bind_eq_ok.mp h
  have hname' := targetText_written htargets htargetExprs hnames hname
  split at h
  · next length _ =>
    split at h
    · obtain ⟨texts, htexts, h⟩ := Outcome.bind_eq_ok.mp h
      obtain ⟨type, htype, h⟩ := Outcome.bind_eq_ok.mp h
      cases h
      cases hvalue with
      | list hitems =>
        have hopen : Written isTarget
            (type ++ " " ++ name ++ "[" ++ toString length ++ "] = \x7b") :=
          (((((typeName_written htype).more (by decide)).append hname').more (by decide)).more
            (plain_nat _)).more
            (by decide)
        exact (hopen.listed (arguments_written htargets hitems htexts)).more (by decide)
    · cases h
  · obtain ⟨type, htype, h⟩ := Outcome.bind_eq_ok.mp h
    obtain ⟨inner, hinner, h⟩ := Outcome.bind_eq_ok.mp h
    cases h
    exact (((((typeName_written htype).more (by decide)).append hname').more (by decide)).append
      (expression_written htargets hvalue hinner)).more (by decide)
  · obtain ⟨inner, hinner, h⟩ := Outcome.bind_eq_ok.mp h
    cases h
    exact ((hname'.more (by decide)).append
      (expression_written htargets hvalue hinner)).more (by decide)
  · cases h

omit htargets in
theorem printLines_written {texts : List String} (h : ∀ text ∈ texts, Written isTarget text) :
    ∀ text ∈ printLines texts, Written isTarget text := by
  fun_induction printLines texts with
  | case1 => exact List.forall_mem_singleton.mpr (.plain ⟨'S', _, rfl, by decide⟩ (by decide))
  | case2 text =>
    have htext := List.forall_mem_singleton.mp h
    exact List.forall_mem_singleton.mpr
      (.between ⟨'S', _, rfl, by decide⟩ (by decide) htext (by decide))
  | case3 text texts _ ih =>
    obtain ⟨htext, htexts⟩ := List.forall_mem_cons.mp h
    have hblank : Written isTarget ("Serial.print(" ++ stringLiteral " " ++ ");") :=
      .between ⟨'S', _, rfl, by decide⟩ (by decide)
      (.literal ⟨'"', [' ', '"'], by decide⟩) (by decide)
    refine List.forall_mem_cons.mpr ⟨?_, List.forall_mem_cons.mpr ⟨hblank, ih htexts⟩⟩
    exact .between ⟨'S', _, rfl, by decide⟩ (by decide) htext (by decide)

theorem exprLines_written {value : Expr} (hvalue : value.Spelled) {texts : List String}
    (h : exprLines style line value = .ok texts) : ∀ text ∈ texts, Written isTarget text := by
  have hsingle : ∀ {text}, expression style line value = .ok text →
      ∀ line ∈ [text ++ ";"], Written isTarget line := fun htext =>
    List.forall_mem_singleton.mpr ((expression_written htargets hvalue htext).more (by decide))
  unfold exprLines at h
  split at h
  · split at h
    · obtain ⟨args, hargs, h⟩ := Outcome.bind_eq_ok.mp h
      cases h
      cases hvalue with
      | call _ hspelled => exact printLines_written (arguments_written htargets hspelled hargs)
    · obtain ⟨text, htext, h⟩ := Outcome.bind_eq_ok.mp h
      cases h
      exact hsingle htext
  · obtain ⟨text, htext, h⟩ := Outcome.bind_eq_ok.mp h
    cases h
    exact hsingle htext

theorem CodeLine.written {stmt : Stmt} (hstmt : Lexical stmt) {text : String}
    (h : CodeLine style stmt text) :
    Written isTarget text := by
  cases h with
  | assign h => exact assignment_written htargets hstmt.exprs hstmt.names h
  | expr h hmem => exact exprLines_written htargets (hstmt.exprs _ List.mem_cons_self) h _ hmem
  | give h =>
    have hvalue := expression_written htargets (hstmt.exprs _ List.mem_cons_self) h
    exact .between ⟨'r', _, rfl, by decide⟩ (by decide) hvalue (by decide)
  | bare => exact .plain ⟨'r', _, rfl, by decide⟩ (by decide)
  | stop => exact .plain ⟨'b', _, rfl, by decide⟩ (by decide)
  | skip => exact .plain ⟨'c', _, rfl, by decide⟩ (by decide)

/-- All code of a statement, and of the statements in its blocks, is written. -/
theorem CodeOf.written {stmt : Stmt} (hstmt : Lexical stmt) {text : String}
    (h : CodeOf style stmt text) :
    Written isTarget text := by
  induction h with
  | plain h => exact h.written htargets hstmt
  | header h =>
    refine functionHeader_written (fun id hid => hstmt.names id ?_) h
    exact List.cons_subset_cons _ (List.subset_append_left ..) hid
  | declaration h hmem =>
    refine declarations_written (fun v hv => hstmt.names v.1 ?_) h _ hmem
    exact List.mem_cons_of_mem _
      (List.mem_append_right _ (List.mem_append_left _ (List.mem_map_of_mem hv)))
  | branch chained h =>
    have hcondition := expression_written htargets (hstmt.exprs _ List.mem_cons_self) h
    cases chained with
    | false => exact .between ⟨'i', _, rfl, by decide⟩ (by decide) hcondition (by decide)
    | true => exact .between ⟨'\x7d', _, rfl, by decide⟩ (by decide) hcondition (by decide)
  | other => exact .plain ⟨'\x7d', _, rfl, by decide⟩ (by decide)
  | loop h =>
    refine loopHeader_written htargets (hstmt.names _ List.mem_cons_self)
      (fun e he => hstmt.exprs e ?_) h
    exact List.mem_append_left _ he
  | inner hinner _ ih => exact ih (hstmt.of_inner hinner)

end Statements

end Sketch

namespace Inference

open Sketch

variable {table : CallTable} {source : String} {p p' : Program}

/-- The statements of a resolved program are made of lexemes. -/
theorem infer_lexical (htable : table.Sound) (hsource : Program.ofSource source = .ok p)
    (h : (infer table p).1 = .ok p') : ∀ stmt ∈ p'.header ++ p'.statements, Lexical stmt := by
  obtain ⟨hp, hexprs, hnames⟩ := Program.ofSource_yields hsource
  rcases infer_cases htable hp with ⟨e, herror, -⟩ | ⟨p'', _, _, _, hok, hinferred⟩
  · cases herror.symm.trans h
  obtain rfl := Except.ok.inj (hok.symm.trans h)
  have hsame : exprsIn p''.statements = p.exprs := by
    rw [← exprsIn_bareAll, Program.statements_bare (hinferred.bare_eq htable hp), exprsIn_bareAll]
    rfl
  refine List.forall_mem_append.mpr
    ⟨fun stmt hstmt => ?_, fun stmt hstmt => ⟨fun e he => hexprs e ?_, fun id hid => hnames id ?_⟩⟩
  · rw [Program.header_bare (hinferred.bare_eq htable hp)] at hstmt
    exact lexical_of_isTrivia (hp.header stmt hstmt)
  · exact hsame ▸ Program.mem_exprsIn.mpr ⟨stmt, hstmt, he⟩
  · exact hinferred.names_subset htable hp (Program.mem_namesIn.mpr ⟨stmt, hstmt, hid⟩)

end Inference

end Sketchwright
