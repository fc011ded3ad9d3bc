import Sketchwright.Proofs.Soundness
import Sketchwright.Translator

/-! Sketches of resolved programs. What inference makes sure of is all that code generation
relies on: lists stand where they are declared, calls have the form that their rule asks for,
and every slot is filled. -/

namespace Sketchwright

open Inference

namespace Sketch

/-- The text is written. -/
def Writes {α : Type} (x : Writing α) : Prop := ∃ a, x = .ok a

namespace Writes

variable {α β : Type}

theorem pure {a : α} : Writes (.ok a) := ⟨a, rfl⟩

theorem bind {x : Writing α} {f : α → Writing β} (h : Writes x) (hf : ∀ a, Writes (f a)) :
    Writes (x >>= f) := by
  obtain ⟨a, rfl⟩ := h
  exact hf a

theorem ite {c : Prop} [Decidable c] {x y : Writing α} (hx : c → Writes x) (hy : ¬c → Writes y) :
    Writes (if c then x else y) := by
  split
  · next hc => exact hx hc
  · next hc => exact hy hc

end Writes

/-- A style for the sketch of a program: it has the table of the program, and the functions of the
program have names that the table leaves free. -/
structure Style.Serves (style : Style) (c : Callees) : Prop where
  table : style.table = c.table
  sound : c.table.Sound
  apart : ∀ {callee signature}, c.signatures callee = some signature →
    c.table.call? callee = none

variable {style : Style} {line : Nat} {c : Callees} {names : Names}

theorem typeName_writes {kind : Kind} (h : kind.isList = false) :
    Writes (typeName style kind line) := by
  cases kind with
  | list => cases h
  | _ => exact .pure

theorem typeName_of_isScalar {kind : Kind} (h : kind.isScalar = true) :
    Writes (typeName style kind line) :=
  typeName_writes (by cases kind <;> first | rfl | cases h)

section Calls

variable {callee : String} {args : List Expr} {texts : Writing (List String)}

/-- A call of a name that the table leaves free is written as it is. -/
theorem freeCall_writes (hfree : style.table.call? callee = none) (htexts : Writes texts) :
    Writes (call style line callee args texts) := by
  unfold call
  rw [hfree]
  exact .bind htexts fun _ => .pure

/-- A call of the runtime whose arguments are values is written as its rule
says, unless it prints. -/
theorem ruledCall_writes {rule : CallRule} (hsound : rule.Sound)
    (hrule : style.table.call? callee = some rule) (hrange : rule.form ≠ .loopRange)
    (hlength : rule.form ≠ .listLength) (hprint : rule.form ≠ .print) (htexts : Writes texts) :
    Writes (call style line callee args texts) := by
  unfold call
  rw [hrule]
  dsimp only
  cases hform : rule.form with
  | same | rename => exact .bind htexts fun _ => .pure
  | listLength => exact absurd hform hlength
  | loopRange => exact absurd hform hrange
  | print => exact absurd hform hprint
  | cast =>
    obtain ⟨kind, hkind⟩ := hsound.cast hform
    simp only [hkind]
    exact .bind (typeName_of_isScalar (hsound.fixed hkind)) fun _ => .bind htexts fun _ => .pure

/-- A call whose arguments are values is written as a call, unless it prints. -/
theorem call_writes (hstyle : style.Serves c) {kinds : List Kind} {kind : Kind}
    (h : CallGives c callee kinds kind)
    (hprint : ∀ {rule}, c.table.call? callee = some rule → rule.form ≠ .print)
    (htexts : Writes texts) :
    Writes (call style line callee args texts) := by
  cases h with
  | user hsig _ => exact freeCall_writes (hstyle.table ▸ hstyle.apart hsig) htexts
  | nothing _ hrule htakes | fixed _ hrule htakes | promoted _ hrule htakes =>
    exact ruledCall_writes (hstyle.sound.call hrule)
      (hstyle.table ▸ hrule) htakes.notRange htakes.notLength
      (hprint hrule) htexts

end Calls

/-- A call that prints has no value. -/
theorem print_no_value (hstyle : style.Serves c) {callee : String} {kinds : List Kind} {kind : Kind}
    (h : CallGives c callee kinds kind) (hkind : kind.isScalar = true) {rule : CallRule}
    (hrule : c.table.call? callee = some rule) : rule.form ≠ .print := by
  intro hform
  have hvoid := (hstyle.sound.call hrule).print hform
  cases h with
  | user hsig _ => cases (hstyle.apart hsig).symm.trans hrule
  | nothing => cases hkind
  | fixed _ hrule' _ hreturns | promoted _ hrule' _ hreturns =>
    cases hrule.symm.trans hrule'
    cases hvoid.symm.trans hreturns

theorem expressions_of_forall {args : List Expr}
    (h : ∀ arg ∈ args, Writes (expression style line arg)) :
    Writes (expressions style line args) := by
  induction args with
  | nil => exact .pure
  | cons arg args ih =>
    obtain ⟨hhead, htail⟩ := List.forall_mem_cons.mp h
    exact .bind hhead fun _ => .bind (ih htail) fun _ => .pure

/-- What has a kind has a text. -/
theorem expression_writes (hstyle : style.Serves c) {e : Expr} {kind : Kind}
    (h : HasKind c names e kind) : Writes (expression style line e) := by
  induction e generalizing kind with
  | literal value => exact .pure
  | name id => exact .pure
  | unary sign operand ih =>
    cases h with
    | unary hoperand => exact .bind (ih hoperand) fun _ => .pure
  | binary left op right ihl ihr =>
    cases h with
    | binary hleft hright =>
      refine .bind (ihl hleft) fun _ => .bind (ihr hright) fun _ => ?_
      exact .ite (fun _ => .pure) fun _ => .pure
  | call callee args ih =>
    unfold expression
    cases h with
    | call hargs hcall hkind =>
      refine call_writes hstyle hcall (print_no_value hstyle hcall hkind)
        (expressions_of_forall fun arg harg => ?_)
      obtain ⟨_, _, hkind⟩ := exists_of_forall₂ hargs harg
      exact ih arg harg hkind
    | length _ hrule hform =>
      unfold call
      rw [hstyle.table, hrule]
      simp only [hform]
      exact .pure
  | index list position ih =>
    cases h with
    | index _ _ hposition => exact .bind (ih hposition) fun _ => .pure
  | list items ih => cases h

theorem expressions_writes (hstyle : style.Serves c) {args : List Expr} {kinds : List Kind}
    (h : List.Forall₂ (HasKind c names) args kinds) : Writes (expressions style line args) := by
  refine expressions_of_forall fun arg harg => ?_
  obtain ⟨_, _, hkind⟩ := exists_of_forall₂ h harg
  exact expression_writes hstyle hkind

/-- A list is written where a list is declared, any other value where its kind is declared. -/
theorem declaration_writes (hstyle : style.Serves c) {name : String} {value : Expr}
    {found kind : Kind} (hvalue : Assigned c names value found)
    (haccepts : kind.accepts found = true) :
    Writes (assignment style line (.name name) value (.declare kind)) := by
  cases hvalue with
  | value hkind =>
    have hscalar := Kind.isScalar_of_accepted haccepts hkind.isScalar
    refine .bind .pure fun _ => ?_
    cases kind with
    | list => cases hscalar
    | _ => exact .bind .pure fun _ => .bind (expression_writes hstyle hkind) fun _ => .pure
  | @list items element hne hitems =>
    obtain ⟨item, hitem⟩ := List.exists_mem_of_ne_nil _ hne
    have hscalar := (hitems item hitem).isScalar
    obtain rfl : kind = .list element items.length := by
      cases kind with
      | list => simpa [Kind.accepts, Kind.rank?] using haccepts
      | _ => simp [Kind.accepts, Kind.rank?] at haccepts
    refine .bind .pure fun _ => .bind (expressions_of_forall fun item hitem => ?_) fun _ =>
      .bind (typeName_of_isScalar hscalar) fun _ => .pure
    exact expression_writes hstyle (hitems item hitem)

theorem reassignment_writes (hstyle : style.Serves c) {target : Target} {value : Expr} {kind : Kind}
    (htarget : Writes (targetText style line target)) (hvalue : HasKind c names value kind) :
    Writes (assignment style line target value .reassign) :=
  .bind htarget fun _ => .bind (expression_writes hstyle hvalue) fun _ => .pure

/-- A call that is a statement prints, or is written as a call. -/
theorem exprLines_writes (hstyle : style.Serves c) {callee : String} {args : List Expr}
    (h : CallStands c names callee args) : Writes (exprLines style line (.call callee args)) := by
  have hargs : Writes (expressions style line args) := by
    cases h with
    | known hargs | unknown hargs => exact expressions_writes hstyle hargs
    | value hcall =>
      cases hcall with
      | call hargs => exact expressions_writes hstyle hargs
      | length => exact .pure
  unfold exprLines
  refine .ite (fun _ => .bind hargs fun _ => .pure) fun hprint => .bind ?_ fun _ => .pure
  cases h with
  | known _ hcall =>
    refine call_writes hstyle hcall (fun {rule} hrule hform => hprint ?_) hargs
    simp [isPrint, hstyle.table, hrule, hform]
  | value hcall => exact expression_writes hstyle hcall
  | unknown _ _ hrule =>
    unfold expression call
    rw [hstyle.table, hrule]
    exact .bind hargs fun _ => .pure

theorem loopHeader_writes (hstyle : style.Serves c) {var : String} {bounds : Bounds}
    {binding : Binding} {kind : Kind} (hkind : kind.isList = false)
    (hbinding : binding = .declare kind ∨ binding = .reassign)
    (hbounds : ∀ e ∈ bounds.exprs, ∃ kind, HasKind c names e kind) :
    Writes (loopHeader style line var bounds binding) := by
  obtain ⟨start, stop, step⟩ := bounds
  have hstop : Writes (expression style line stop) := by
    obtain ⟨_, hkind⟩ := hbounds stop (by simp [Bounds.exprs])
    exact expression_writes hstyle hkind
  cases start with
  | none =>
    rcases hbinding with rfl | rfl
    · exact .bind .pure fun _ => .bind hstop fun _ => .bind (typeName_writes hkind) fun _ => .pure
    · exact .bind .pure fun _ => .bind hstop fun _ => .pure
  | some start =>
    obtain ⟨_, hvalue⟩ := hbounds start (by simp [Bounds.exprs])
    have hstart : Writes (expression style line start) := expression_writes hstyle hvalue
    rcases hbinding with rfl | rfl
    · exact .bind hstart fun _ => .bind hstop fun _ => .bind (typeName_writes hkind) fun _ => .pure
    · exact .bind hstart fun _ => .bind hstop fun _ => .pure

theorem parameterTexts_writes (params : List Param) {kinds : List Kind}
    (h : ∀ kind ∈ kinds, kind.isList = false) :
    Writes (parameterTexts style line params kinds) := by
  induction params generalizing kinds with
  | nil => exact .pure
  | cons param params ih =>
    cases kinds with
    | nil => exact .pure
    | cons kind kinds =>
      obtain ⟨hhead, htail⟩ := List.forall_mem_cons.mp h
      exact .bind (typeName_writes hhead) fun _ => .bind (ih htail) fun _ => .pure

theorem functionHeader_writes (head : FunctionHead) {signature : Signature}
    (hparams : ∀ kind ∈ signature.params, kind.isList = false)
    (hreturns : signature.returns.isList = false) :
    Writes (functionHeader style line head signature) := by
  unfold functionHeader
  split
  · exact .bind .pure fun _ => .bind (parameterTexts_writes _ hparams) fun _ => .pure
  · exact .bind (typeName_writes hreturns) fun _ =>
      .bind (parameterTexts_writes _ hparams) fun _ => .pure

theorem declarations_writes {hoisted : List (String × Kind)}
    (h : ∀ v ∈ hoisted, v.2.isList = false) : Writes (declarations style line hoisted) := by
  induction hoisted with
  | nil => exact .pure
  | cons v hoisted ih =>
    obtain ⟨hhead, htail⟩ := List.forall_mem_cons.mp h
    exact .bind (typeName_writes hhead) fun _ => .bind (ih htail) fun _ => .pure

/-- A statement that has lines wherever it stands. -/
def Emits (style : Style) (stmt : Stmt) : Prop :=
  ∀ depth opening page, Writes (emitStmt style depth opening stmt page)

theorem emitBlock_writes {stmts : List Stmt} (h : ∀ stmt ∈ stmts, Emits style stmt) (depth : Nat)
    (opening : String) (joins : Bool) (page : Page) :
    Writes (emitBlock style depth opening joins stmts page) := by
  induction stmts generalizing joins page with
  | nil => exact .pure
  | cons stmt stmts ih =>
    obtain ⟨hhead, htail⟩ := List.forall_mem_cons.mp h
    have hrest : Writes (do
        let next ← emitStmt style depth opening stmt page
        emitBlock style depth opening (page.length < next.length) stmts next) :=
      .bind (hhead depth opening page) fun _ => ih htail _ _
    unfold emitBlock
    split
    · next heq => cases heq
    · next heq =>
      cases heq
      exact .ite (fun _ => ih htail _ _) fun _ => ih htail _ _
    · next heq =>
      cases heq
      exact hrest

mutual

/-- A statement that is typed at its place, with the statements in its blocks, has lines. -/
theorem emits_of_typed (hstyle : style.Serves c) (result : Result) (stmt : Stmt) (context : Context)
    (h : ∀ o ∈ stmt.occurrences context, o.stmt.Typed c result o.context) : Emits style stmt := by
  intro depth opening page
  cases stmt with
  | function =>
    cases h _ (List.mem_singleton_self _) with
    | inert hstmt => cases hstmt
  | assign =>
    unfold emitStmt
    refine .bind ?_ fun _ => .pure
    cases h _ (List.mem_singleton_self _) with
    | declare hvalue haccepts => exact declaration_writes hstyle hvalue haccepts
    | assign hvalue => exact reassignment_writes hstyle .pure hvalue
    | element _ hposition _ hvalue =>
      exact reassignment_writes hstyle (.bind (expression_writes hstyle hposition) fun _ => .pure)
        hvalue
    | inert hstmt => cases hstmt
  | conditional line condition thenBody elseBody =>
    obtain ⟨hself, hblocks⟩ := List.forall_mem_cons.mp h
    obtain ⟨hthen, helse⟩ := List.forall_mem_append.mp hblocks
    have hthen' := emitBlock_writes (block_of_typed hstyle result thenBody context hthen)
    have helse' := emitBlock_writes (block_of_typed hstyle result elseBody context helse)
    unfold emitStmt
    cases hself with
    | conditional hcondition =>
      refine .bind (expression_writes hstyle hcondition) fun _ => .bind (hthen' ..) fun _ => ?_
      refine .ite (fun _ => helse' ..) fun _ => .ite (fun _ => .pure) fun _ => ?_
      exact .bind (helse' ..) fun _ => .pure
    | inert hstmt => cases hstmt
  | loop line var bounds binding body =>
    obtain ⟨hself, hblock⟩ := List.forall_mem_cons.mp h
    have hbody := emitBlock_writes (block_of_typed hstyle result body _ hblock)
    unfold emitStmt
    cases hself with
    | loop hbounds hvar =>
      have hvalues : ∀ e ∈ bounds.exprs, ∃ kind, HasKind c (context.kind? c.table) e kind :=
        fun e he => (hbounds e he).imp fun _ => And.left
      have hint : Kind.int.isList = false := rfl
      exact .bind (loopHeader_writes hstyle hint (hvar.imp_right And.left) hvalues) fun _ =>
        .bind (hbody ..) fun _ => .pure
    | inert hstmt => cases hstmt
  | expr line value =>
    unfold emitStmt
    refine .bind ?_ fun _ => .pure
    cases h _ (List.mem_singleton_self _) with
    | call hcall => exact exprLines_writes hstyle hcall
    | expr hvalue =>
      cases value with
      | call => exact exprLines_writes hstyle (.value hvalue)
      | _ => exact .bind (expression_writes hstyle hvalue) fun _ => .pure
    | inert hstmt => cases hstmt
  | give line value =>
    unfold emitStmt
    cases h _ (List.mem_singleton_self _) with
    | give hvalue => exact .bind (expression_writes hstyle hvalue) fun _ => .pure
    | bare => exact .pure
    | inert hstmt => cases hstmt
  | comment line commentStyle text =>
    unfold emitStmt
    cases commentStyle <;> exact .pure
  | blank | stop | skip | global | pass =>
    unfold emitStmt
    exact .pure

theorem block_of_typed (hstyle : style.Serves c) (result : Result) (stmts : List Stmt)
    (context : Context)
    (h : ∀ o ∈ occurrencesIn context stmts, o.stmt.Typed c result o.context) :
    ∀ stmt ∈ stmts, Emits style stmt := by
  cases stmts with
  | nil => exact fun _ h => (nomatch h)
  | cons stmt stmts =>
    obtain ⟨hhead, htail⟩ := List.forall_mem_append.mp h
    exact List.forall_mem_cons.mpr
      ⟨emits_of_typed hstyle result stmt context hhead,
        block_of_typed hstyle result stmts _ htail⟩

end

/-- A function definition with lines for its header and for its body. -/
theorem emits_definition (hstyle : style.Serves c) {d : Definition} (hsigned : d.Signed)
    (hhoisted : ∀ v ∈ d.hoisted, v.2.isScalar = true)
    (hbody : ∀ o ∈ d.occurrences, o.stmt.Typed c d.result o.context) : Emits style d.stmt := by
  obtain ⟨context, line, head, signature, hoisted, body⟩ := d
  have hblock : ∀ stmt ∈ body, Emits style stmt := block_of_typed hstyle _ body _ hbody
  have hparams : ∀ kind ∈ signature.params, kind.isList = false := by
    intro kind hkind
    obtain ⟨_, _, hscalar, _⟩ := exists_of_forall₂ hsigned.params.flip hkind
    exact Kind.not_list_of_isScalar hscalar
  have hreturns : signature.returns.isList = false := by
    rcases hsigned.returns with hvoid | hscalar
    · exact congrArg Kind.isList hvoid
    · exact Kind.not_list_of_isScalar hscalar
  have hnames : ∀ v ∈ hoisted, v.2.isList = false := fun v hv =>
    Kind.not_list_of_isScalar (hhoisted v hv)
  intro depth opening page
  unfold Definition.stmt emitStmt
  refine .bind (functionHeader_writes head hparams hreturns) fun _ =>
    .bind (declarations_writes hnames) fun _ => ?_
  split
  · next hbody =>
    obtain rfl : body = _ := hbody
    obtain ⟨_, hrest⟩ := List.forall_mem_cons.mp hblock
    exact .bind (emitBlock_writes hrest ..) fun _ => .pure
  · exact .bind (emitBlock_writes hblock ..) fun _ => .pure

end Sketch

namespace Inference

variable {table : CallTable} {p p' : Program} {stmts : List Stmt}
  {finished : List (String × Stmt)} {last : Functions}

/-- The functions of a program have names that the runtime leaves free. -/
theorem Inferred.apart (htable : table.Sound) (hp : p.WellFormed)
    (h : Inferred table p p' stmts finished last) {callee : String} {signature : Signature}
    (hsig : (p'.callees table).signatures callee = some signature) : table.call? callee = none := by
  rw [Program.callees, h.signatures_eq htable hp] at hsig
  obtain ⟨slots, hslots, _⟩ := Option.map_eq_some_iff.mp hsig
  cases hstart : (heads (tasksOf p.statements)).find? callee with
  | none => cases (h.grows.none hstart).symm.trans hslots
  | some head =>
    obtain ⟨task, htask, rfl, _⟩ := mem_of_find?_heads hstart
    exact (CallTable.call?_of_not_known (h.unknown task htask)).1

theorem Inferred.serves (htable : table.Sound) (hp : p.WellFormed)
    (h : Inferred table p p' stmts finished last) (floatType : FloatType) :
    Sketch.Style.Serves ⟨table, floatType⟩ (p'.callees table) :=
  ⟨rfl, htable, h.apart htable hp⟩

/-- Hoisted names have kinds of values. -/
theorem Inferred.hoisted (htable : table.Sound) (hp : p.WellFormed)
    (h : Inferred table p p' stmts finished last) {d : Definition} (hd : d ∈ p'.definitions) :
    ∀ v ∈ d.hoisted, v.2.isScalar = true := by
  obtain ⟨task, htask, _, _, _, _, _, s, s', _, _, _, _, _, hfinishes⟩ := h.reads htable hp hd
  obtain ⟨slots, hslots, hreturns⟩ := hfinishes.awaits
  obtain ⟨body, s₁, hrun, hstmt, _⟩ := ends_inferFunction_ok hslots hfinishes.ends
  obtain ⟨_, hbody, _⟩ := hrun.runs htable h.module.proper.scope.locals
    (wellFormed_of_task hp htask).2 hfinishes.proper hslots hreturns
  obtain ⟨context, line, head, signature, hoisted, inner⟩ := d
  cases hstmt
  exact (hbody _ rfl).1.hoisted

/-- A resolved program has a sketch. -/
theorem Inferred.generates (htable : table.Sound) (hp : p.WellFormed)
    (h : Inferred table p p' stmts finished last) (floatType : FloatType) (width : Nat) :
    ∃ output, Sketch.generate ⟨table, floatType⟩ width p' = .ok output := by
  have hserves := h.serves htable hp floatType
  have htyped := h.typed htable hp
  have hheader : ∀ stmt ∈ p'.header, Sketch.Emits ⟨table, floatType⟩ stmt := by
    rw [h.program]
    intro stmt hstmt
    refine Sketch.emits_of_typed hserves moduleResult stmt [] fun o ho => ?_
    have htrivia := hp.header stmt hstmt
    cases stmt with
    | comment | blank =>
      obtain rfl := List.mem_singleton.mp ho
      exact .inert rfl
    | _ => cases htrivia
  have hstatements : ∀ stmt ∈ p'.statements, Sketch.Emits ⟨table, floatType⟩ stmt := by
    intro stmt hstmt
    obtain ⟨inner, hinner⟩ := exists_place [] hstmt
    have hlevel : stmt.isModuleLevel = true := by
      rw [h.program] at hstmt
      obtain ⟨source, hsource, rfl⟩ := List.mem_map.mp hstmt
      exact (h.place_eq htable hp hsource).2.2.2.2
    have hsingle := occurrences_of_moduleLevel hlevel inner
    rw [hsingle] at hinner
    have ho := hinner (List.mem_singleton_self _)
    cases hfunction : stmt.isFunction with
    | true =>
      obtain ⟨d, hd⟩ := Option.isSome_iff_exists.mp (htyped.resolved _ ho hfunction)
      have hmem : d ∈ p'.definitions := List.mem_filterMap.mpr ⟨_, ho, hd⟩
      obtain ⟨_, rfl⟩ := Occurrence.definition?_eq_some.mp hd
      exact Sketch.emits_definition hserves (htyped.signed d hmem) (h.hoisted htable hp hmem)
        (htyped.bodies d hmem)
    | false =>
      refine Sketch.emits_of_typed hserves moduleResult stmt inner fun o hmem => ?_
      rw [hsingle] at hmem
      obtain rfl := List.mem_singleton.mp hmem
      exact htyped.module _ ho hfunction
  obtain ⟨page, hpage⟩ : Sketch.Writes (Sketch.page ⟨table, floatType⟩ p') :=
    .bind (Sketch.emitBlock_writes hheader ..) fun _ => Sketch.emitBlock_writes hstatements ..
  exact ⟨page.render width, by rw [Sketch.generate, hpage]; rfl⟩

end Inference

/-- Texts that are refused are refused for a reason in the text. -/
theorem Program.ofSource_error {source : String} {e : Error} (h : ofSource source = .error e) :
    e.isInternal = false := by
  unfold ofSource at h
  split at h
  · unfold ofTokens at h
    dsimp only at h
    split at h
    · cases h
    · next fault _ =>
      cases h
      cases fault <;> rfl
  · cases h
    rfl

namespace Translator

variable {config : Config} {t : Translator}

theorem built_of_ofConfig (h : ofConfig config = .ok t) : t.table.Built := by
  simp only [ofConfig, Outcome.bind_eq_ok, Outcome.pure_eq_ok] at h
  obtain ⟨_, _, table, htable, rfl⟩ := h
  exact CallTable.built_of_ofConfig htable

/-- The sketch of a text is that of its program. -/
theorem translate_eq (t : Translator) (source : String) : t.translate source =
    (Program.ofSource source).bind fun p => (infer t.table p).1.bind t.generate := by
  unfold translate report Program.ofSource Token.tokenize
  rcases (Token.Lexer.start source.toList).run with ⟨_ | tokens, lexer⟩
  · rfl
  simp only [translateTokens]
  cases Program.ofTokens tokens source with
  | error e => rfl
  | ok p =>
    simp only [translateProgram, Except.bind]
    rcases infer t.table p with ⟨_ | p', events⟩
    · rfl
    · dsimp only
      cases t.generate p' <;> rfl

/-- No translator that a configuration leads to comes upon a broken condition: neither inference
does, whatever the text, nor code generation, which has a sketch for all that inference accepts. -/
theorem translate_calm (h : ofConfig config = .ok t) (source : String) :
    (∀ e, t.translate source = .error e → e.isInternal = false) ∧
      ∀ p, Program.ofSource source = .ok p →
        (∀ e, (infer t.table p).1 = .error e → e.isInternal = false) ∧
          ∀ p', (infer t.table p).1 = .ok p' → ∃ output, t.generate p' = .ok output := by
  have htable := (built_of_ofConfig h).sound
  have hcalm : ∀ p, Program.ofSource source = .ok p →
      (∀ e, (infer t.table p).1 = .error e → e.isInternal = false) ∧
        ∀ p', (infer t.table p).1 = .ok p' → ∃ output, t.generate p' = .ok output := by
    intro p hsource
    have hp := Program.wellFormed_of_source hsource
    rcases infer_cases htable hp with ⟨e, herror, hcalm⟩ | ⟨p', _, _, _, hok, h⟩
    · rw [herror]
      exact ⟨fun _ he => Except.error.inj he ▸ hcalm, fun _ hp' => (nomatch hp')⟩
    · rw [hok]
      refine ⟨fun _ he => (nomatch he), fun _ hp' => ?_⟩
      cases hp'
      exact h.generates htable hp t.config.floatType t.config.indentWidth
  refine ⟨fun e he => ?_, hcalm⟩
  rw [translate_eq] at he
  cases hsource : Program.ofSource source with
  | error e' =>
    rw [hsource] at he
    exact Except.error.inj he ▸ Program.ofSource_error hsource
  | ok p =>
    rw [hsource] at he
    obtain ⟨herrors, hsketches⟩ := hcalm p hsource
    cases hinfer : (infer t.table p).1 with
    | error e' =>
      simp only [Except.bind, hinfer] at he
      exact Except.error.inj he ▸ herrors e' hinfer
    | ok p' =>
      obtain ⟨output, houtput⟩ := hsketches p' hinfer
      simp only [Except.bind, hinfer, houtput] at he
      cases he

/-- The default configuration leads to a translator that has a sketch for the sample. -/
theorem translate_calm_sample : ofConfig default = .ok standard ∧ ∃ p' output,
    (infer standard.table Program.sample).1 = .ok p' ∧ standard.generate p' = .ok output := by
  have hconfig : ofConfig default = .ok standard := by decide
  obtain ⟨p', hinfer⟩ := Program.exists_infer_sample
  obtain ⟨_, hcalm⟩ := translate_calm hconfig Program.sampleText
  obtain ⟨output, houtput⟩ := (hcalm _ Program.ofSource_sample).2 p' hinfer
  exact ⟨hconfig, p', output, hinfer, houtput⟩

end Translator

end Sketchwright
