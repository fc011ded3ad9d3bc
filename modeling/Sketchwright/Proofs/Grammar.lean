import Sketchwright.Program.Parser
import Sketchwright.Proofs.Shape
import Sketchwright.Proofs.Spelling

/-! What the grammar makes sure of. Function definitions stand outside all blocks and are well
formed, and the statements of a module that are no comments have the lines of their first tokens. -/

namespace Sketchwright

def Target.exprs : Target → List Expr
  | .name _ => []
  | .element list position => [.index list position]

mutual

/-- The expressions of a statement and of the statements in its blocks. -/
def Stmt.exprs : Stmt → List Expr
  | .function _ _ _ _ body => exprsIn body
  | .assign _ target value _ _ => target.exprs ++ [value]
  | .conditional _ condition thenBody elseBody =>
    condition :: (exprsIn thenBody ++ exprsIn elseBody)
  | .loop _ _ bounds _ body => bounds.exprs ++ exprsIn body
  | .expr _ value => [value]
  | .give _ (some value) => [value]
  | _ => []

def exprsIn : List Stmt → List Expr
  | [] => []
  | stmt :: stmts => stmt.exprs ++ exprsIn stmts

end

def Target.names : Target → List String
  | .name id => [id]
  | .element _ _ => []

mutual

/-- The names that a statement and those in its blocks give to functions,
parameters and variables. -/
def Stmt.names : Stmt → List String
  | .function _ head _ hoisted body =>
    head.name :: (head.params.map Param.name ++ (hoisted.map Prod.fst ++ namesIn body))
  | .assign _ target _ _ _ => target.names
  | .conditional _ _ thenBody elseBody => namesIn thenBody ++ namesIn elseBody
  | .loop _ var _ _ body => var :: namesIn body
  | _ => []

def namesIn : List Stmt → List String
  | [] => []
  | stmt :: stmts => stmt.names ++ namesIn stmts

end

theorem namesIn_append (as bs : List Stmt) : namesIn (as ++ bs) = namesIn as ++ namesIn bs := by
  induction as with
  | nil => rfl
  | cons stmt as ih => rw [List.cons_append, namesIn, namesIn, ih, List.append_assoc]

theorem exprsIn_append (as bs : List Stmt) : exprsIn (as ++ bs) = exprsIn as ++ exprsIn bs := by
  induction as with
  | nil => rfl
  | cons stmt as ih => rw [List.cons_append, exprsIn, exprsIn, ih, List.append_assoc]

theorem arePlain_append (as bs : List Stmt) :
    arePlain (as ++ bs) = (arePlain as && arePlain bs) := by
  induction as with
  | nil => rfl
  | cons stmt as ih => rw [List.cons_append, arePlain, arePlain, ih, Bool.and_assoc]

namespace Program

open Reading

/-- What the grammar makes sure of for the statements that it reads at a place. -/
structure Placed (place : Place) (stmts : List Stmt) : Prop where
  plain : place.inFunction = true → arePlain stmts = true
  spelled : ∀ e ∈ exprsIn stmts, e.Spelled
  named : ∀ id ∈ namesIn stmts, (TokenKind.identifier id).Spelled
  function : ∀ {line head signature hoisted body},
    Stmt.function line head signature hoisted body ∈ stmts → head.WellFormed ∧ arePlain body = true

/-- A statement without a block, in line `line`. -/
structure Simple (line : Nat) (stmt : Stmt) : Prop where
  plain : stmt.isPlain = true
  isFunction : stmt.isFunction = false
  line : stmt.line = line
  spelled : ∀ e ∈ stmt.exprs, e.Spelled
  named : ∀ id ∈ stmt.names, (TokenKind.identifier id).Spelled

namespace Placed

variable {place : Place} {stmts more : List Stmt}

theorem nil : Placed place [] :=
  ⟨fun _ => rfl, fun _ h => (nomatch h), fun _ h => (nomatch h), fun h => (nomatch h)⟩

theorem append (h₁ : Placed place stmts) (h₂ : Placed place more) :
    Placed place (stmts ++ more) where
  plain hplace := by
    rw [arePlain_append, h₁.plain hplace, h₂.plain hplace]
    rfl
  spelled := by
    rw [exprsIn_append]
    exact List.forall_mem_append.mpr ⟨h₁.spelled, h₂.spelled⟩
  named := by
    rw [namesIn_append]
    exact List.forall_mem_append.mpr ⟨h₁.named, h₂.named⟩
  function hmem := (List.mem_append.mp hmem).elim h₁.function h₂.function

/-- A statement that is no function definition stands where its blocks may stand. -/
theorem single {stmt : Stmt} (hplain : place.inFunction = true → stmt.isPlain = true)
    (hfunction : stmt.isFunction = false) (hspelled : ∀ e ∈ stmt.exprs, e.Spelled)
    (hnamed : ∀ id ∈ stmt.names, (TokenKind.identifier id).Spelled) : Placed place [stmt] where
  plain hplace := by rw [arePlain, hplain hplace, arePlain, Bool.and_true]
  spelled := by rwa [exprsIn, exprsIn, List.append_nil]
  named := by rwa [namesIn, namesIn, List.append_nil]
  function hmem := by
    rw [← List.mem_singleton.mp hmem] at hfunction
    cases hfunction

theorem of_simple {line : Nat} {stmt : Stmt} (h : Simple line stmt) : Placed place [stmt] :=
  .single (fun _ => h.plain) h.isFunction h.spelled h.named

end Placed

section Simple

variable {finalLine : Nat} {ts : List Token}

theorem endLine_yields : Yields (endLine finalLine ts) fun r => r.rest <:+ ts := by
  unfold endLine
  split
  · exact .pure List.suffix_rfl
  · split
    · exact .pure (List.suffix_cons ..)
    · exact .fail

/-- After a statement nothing but a comment stands in its line. -/
theorem finishLine_yields (place : Place) : Yields (finishLine finalLine ts) fun r =>
    r.rest <:+ ts ∧ Placed place r.value ∧ ∀ stmt ∈ r.value, stmt.isTrivia = true := by
  unfold finishLine
  split
  · refine .bind endLine_yields ?_
    rintro ⟨_, rest, h⟩ hsuffix
    exact .pure ⟨hsuffix.trans (List.suffix_cons ..),
      .single (fun _ => rfl) rfl (fun _ h => (nomatch h)) fun _ h => (nomatch h),
      List.forall_mem_singleton.mpr rfl⟩
  · refine .bind endLine_yields ?_
    rintro ⟨_, rest, h⟩ hsuffix
    exact .pure ⟨hsuffix, .nil, fun _ h => (nomatch h)⟩

theorem names_yields (hts : AllSpelled ts) :
    Yields (names finalLine ts) fun r => r.rest <:+ ts := by
  fun_induction names finalLine ts with
  | case1 t span ts name hkind ih =>
    have hrest : ts <:+ t :: ⟨.symbol .comma, span⟩ :: ts :=
      (List.suffix_cons ..).trans (List.suffix_cons ..)
    refine .bind (ih (hts.of_suffix hrest)) ?_
    rintro ⟨more, rest, h⟩ hsuffix
    exact .pure (hsuffix.trans hrest)
  | case2 => exact .fail
  | case3 =>
    refine .bind (expectIdentifier_yields hts) ?_
    rintro ⟨name, rest, h⟩ ⟨hsuffix, _⟩
    exact .pure hsuffix

theorem isScalar_of_ofAnnotation? {name : String} {kind : Kind}
    (h : Kind.ofAnnotation? name = some kind) : kind.isScalar = true := by
  unfold Kind.ofAnnotation? at h
  split at h <;> cases h <;> rfl

theorem annotatedKind_yields (hts : AllSpelled ts) : Yields (annotatedKind finalLine ts) fun r =>
    r.rest <:+ ts ∧ r.value.isScalar = true := by
  unfold annotatedKind
  refine .bind (expectIdentifier_yields hts) ?_
  rintro ⟨name, rest, h⟩ ⟨hsuffix, _⟩
  dsimp only
  split
  · next hkind => exact .pure ⟨hsuffix, isScalar_of_ofAnnotation? hkind⟩
  · exact .fail

theorem spelled_of_target? {e : Expr} {target : Target} (he : e.Spelled)
    (h : target? e = some target) :
    ∀ part ∈ target.exprs, part.Spelled := by
  cases e with
  | name => cases h; exact fun _ h => (nomatch h)
  | index => cases h; exact List.forall_mem_singleton.mpr he
  | _ => cases h

theorem named_of_target? {e : Expr} {target : Target} (he : e.Spelled)
    (h : target? e = some target) :
    ∀ id ∈ target.names, (TokenKind.identifier id).Spelled := by
  cases e with
  | name =>
    cases h
    cases he with
    | name hid _ => exact List.forall_mem_singleton.mpr hid
  | index => cases h; exact fun _ h => (nomatch h)
  | _ => cases h

theorem assignmentOrExpr_yields {line : Nat} (hts : AllSpelled ts) :
    Yields (assignmentOrExpr finalLine line ts) fun r => r.rest <:+ ts ∧ Simple line r.value := by
  unfold assignmentOrExpr
  refine .check fun _ => .bind (Expr.parse_yields hts) ?_
  rintro ⟨left, rest, h⟩ ⟨hsuffix, hleft⟩
  dsimp only at h hsuffix hleft ⊢
  have htail := (List.tail_suffix rest).trans hsuffix
  split
  · split
    · exact .fail
    · next htarget =>
      refine .bind (Expr.parse_yields (hts.of_suffix htail)) ?_
      rintro ⟨value, rest', h'⟩ ⟨hsuffix', hvalue⟩
      refine .check fun _ =>
        .pure ⟨hsuffix'.trans htail, rfl, rfl, rfl, ?_, named_of_target? hleft htarget⟩
      exact List.forall_mem_append.mpr
        ⟨spelled_of_target? hleft htarget, List.forall_mem_singleton.mpr hvalue⟩
  · split
    · refine .bind (annotatedKind_yields (hts.of_suffix htail)) ?_
      rintro ⟨kind, rest', h'⟩ ⟨hsuffix', _⟩
      have htail' := (List.tail_suffix rest').trans (hsuffix'.trans htail)
      refine .check fun _ => .bind (Expr.parse_yields (hts.of_suffix htail')) ?_
      rintro ⟨value, rest'', h''⟩ ⟨hsuffix'', hvalue⟩
      cases hleft with
      | name hid _ =>
        exact .pure ⟨hsuffix''.trans htail', rfl, rfl, rfl, List.forall_mem_singleton.mpr hvalue,
          List.forall_mem_singleton.mpr hid⟩
    · exact .fail
  · exact .fail
  · exact .fail
  · exact .pure ⟨hsuffix, rfl, rfl, rfl, List.forall_mem_singleton.mpr hleft,
      fun _ h => (nomatch h)⟩

theorem simpleForm_yields {place : Place} (hts : AllSpelled ts) :
    Yields (simpleForm finalLine place ts) fun r =>
      r.rest <:+ ts ∧ Simple (lineOf finalLine ts) r.value := by
  have hnone : ∀ e ∈ ([] : List Expr), e.Spelled := fun _ h => (nomatch h)
  have hnames : ∀ id ∈ ([] : List String), (TokenKind.identifier id).Spelled :=
    fun _ h => (nomatch h)
  unfold simpleForm
  split
  · exact .fail
  · next t ts =>
    have hcons := List.suffix_cons t ts
    split
    · refine .check fun _ => ?_
      split
      · exact .pure ⟨hcons, rfl, rfl, rfl, hnone, hnames⟩
      · refine .bind (Expr.parse_yields (hts.of_suffix hcons)) ?_
        rintro ⟨value, rest, h⟩ ⟨hsuffix, hvalue⟩
        exact .pure ⟨hsuffix.trans hcons, rfl, rfl, rfl,
          List.forall_mem_singleton.mpr hvalue, hnames⟩
    · exact .pure ⟨hcons, rfl, rfl, rfl, hnone, hnames⟩
    · exact .check fun _ => .pure ⟨hcons, rfl, rfl, rfl, hnone, hnames⟩
    · exact .check fun _ => .pure ⟨hcons, rfl, rfl, rfl, hnone, hnames⟩
    · refine .check fun _ => .bind (names_yields (hts.of_suffix hcons)) ?_
      rintro ⟨ids, rest, h⟩ hsuffix
      exact .pure ⟨hsuffix.trans hcons, rfl, rfl, rfl, hnone, hnames⟩
    · split
      · exact .fail
      · exact assignmentOrExpr_yields hts
    · split
      · exact .pure ⟨hcons, rfl, rfl, rfl, hnone, hnames⟩
      · exact assignmentOrExpr_yields hts
    · exact assignmentOrExpr_yields hts

/-- What a reader of the statements that start with the first of these tokens makes sure of. -/
structure Lines (finalLine : Nat) (place : Place) (ts rest : List Token) (stmts : List Stmt) :
    Prop where
  suffix : rest <:+ ts
  placed : Placed place stmts
  lines : ∀ stmt ∈ stmts, stmt.isTrivia = false → stmt.line = lineOf finalLine ts

theorem simpleStatement_yields {place : Place} (hts : AllSpelled ts) :
    Yields (simpleStatement finalLine place ts) fun r =>
      Lines finalLine place ts r.rest r.value := by
  unfold simpleStatement
  refine .bind (simpleForm_yields hts) ?_
  rintro ⟨stmt, rest, h⟩ ⟨hsuffix, hsimple⟩
  refine .bind (finishLine_yields place) ?_
  rintro ⟨note, rest', h'⟩ ⟨hsuffix', hplaced, htrivia⟩
  refine .pure ⟨hsuffix'.trans hsuffix, (Placed.of_simple hsimple).append hplaced, ?_⟩
  refine List.forall_mem_cons.mpr ⟨fun _ => hsimple.line, fun other hother hcode => ?_⟩
  rw [htrivia other hother] at hcode
  cases hcode

end Simple

section Heads

variable {finalLine line : Nat}

theorem parameters_yields {seen : List Param} {ts : List Token} (hts : AllSpelled ts) :
    Yields (parameters finalLine line seen ts) fun r => r.rest <:+ ts ∧
      (∀ param ∈ r.value, ∀ other ∈ seen, other.name ≠ param.name) ∧
      (r.value.map Param.name).Nodup ∧
      (∀ param ∈ r.value, ∀ kind, param.kind = some kind → kind.isScalar = true) ∧
      ∀ id ∈ r.value.map Param.name, (TokenKind.identifier id).Spelled := by
  unfold parameters
  split
  · exact .pure ⟨List.tail_suffix ts, List.forall_mem_nil _, List.nodup_nil, List.forall_mem_nil _,
      List.forall_mem_nil _⟩
  · exact .fail
  · exact .fail
  refine .bind (expectIdentifier_yields hts) ?_
  rintro ⟨name, rest, h⟩ ⟨hsuffix, hname⟩
  dsimp only at h hsuffix hname ⊢
  refine .check fun hnew => ?_
  have hseen : ∀ other ∈ seen, other.name ≠ name := by simpa using hnew
  have htail := (List.tail_suffix rest).trans hsuffix
  refine .bind (P := fun r => r.rest <:+ ts ∧ ∀ kind, r.value = some kind → kind.isScalar = true)
    ?_ ?_
  · split
    · refine .bind (annotatedKind_yields (hts.of_suffix htail)) ?_
      rintro ⟨kind, after, ha⟩ ⟨hafter, hkind⟩
      exact .pure ⟨hafter.trans htail, fun _ h => Option.some.inj h ▸ hkind⟩
    · exact .pure ⟨hsuffix, fun _ h => by cases h⟩
  rintro ⟨kind, rest', h'⟩ ⟨hsuffix', hkind⟩
  dsimp only at h' hsuffix' hkind ⊢
  split
  · exact .fail
  · have htail' := (List.tail_suffix rest').trans hsuffix'
    refine .bind (parameters_yields (hts.of_suffix htail')) ?_
    rintro ⟨more, after, ha⟩ ⟨hafter, hmore, hnodup, hscalar, hnamed⟩
    refine .pure ⟨hafter.trans htail', ?_, ?_, List.forall_mem_cons.mpr ⟨hkind, hscalar⟩,
      List.forall_mem_cons.mpr ⟨hname, hnamed⟩⟩
    · refine List.forall_mem_cons.mpr ⟨hseen, fun param hparam other hother => ?_⟩
      exact hmore param hparam other (List.mem_append_left _ hother)
    · refine List.nodup_cons.mpr ⟨fun hmem => ?_, hnodup⟩
      obtain ⟨param, hparam, hname⟩ := List.mem_map.mp hmem
      exact hmore param hparam ⟨name, kind⟩ (by simp) hname.symm
  · refine .bind expectSymbol_yields ?_
    rintro ⟨_, after, ha⟩ hafter
    exact .pure ⟨hafter.trans hsuffix', List.forall_mem_singleton.mpr hseen,
      List.nodup_cons.mpr ⟨List.not_mem_nil, List.nodup_nil⟩, List.forall_mem_singleton.mpr hkind,
      List.forall_mem_singleton.mpr hname⟩
termination_by ts.length

variable {ts : List Token}

theorem returnKind_yields (hts : AllSpelled ts) : Yields (returnKind finalLine ts) fun r =>
    r.rest <:+ ts ∧ ∀ kind, r.value = some kind → Inference.Returnable kind := by
  unfold returnKind
  split
  · next span ts =>
    have hcons := List.suffix_cons ⟨.symbol .arrow, span⟩ ts
    split
    · exact .pure ⟨(List.tail_suffix ts).trans hcons, fun _ h => .inl (Option.some.inj h).symm⟩
    · refine .bind (annotatedKind_yields (hts.of_suffix hcons)) ?_
      rintro ⟨kind, rest, h⟩ ⟨hsuffix, hkind⟩
      exact .pure ⟨hsuffix.trans hcons, fun _ h => .inr (Option.some.inj h ▸ hkind)⟩
  · exact .pure ⟨List.suffix_rfl, fun _ h => by cases h⟩

theorem functionHead_yields (hts : AllSpelled ts) : Yields (functionHead finalLine line ts) fun r =>
    r.rest <:+ ts ∧ r.value.WellFormed ∧
      ∀ id ∈ r.value.name :: r.value.params.map Param.name, (TokenKind.identifier id).Spelled := by
  unfold functionHead
  refine .bind (expectIdentifier_yields hts) ?_
  rintro ⟨name, rest, h⟩ ⟨hsuffix, hname⟩
  refine .bind expectSymbol_yields ?_
  rintro ⟨_, rest, h⟩ hrest
  replace hsuffix := hrest.trans hsuffix
  refine .bind (parameters_yields (hts.of_suffix hsuffix)) ?_
  rintro ⟨params, rest, h⟩ ⟨hrest, _, hnodup, hparams, hnamed⟩
  replace hsuffix := hrest.trans hsuffix
  refine .bind (returnKind_yields (hts.of_suffix hsuffix)) ?_
  rintro ⟨returns, rest, h⟩ ⟨hrest, hreturns⟩
  replace hsuffix := hrest.trans hsuffix
  refine .check fun hnone => .check fun hvoid => .bind expectSymbol_yields ?_
  rintro ⟨_, rest, h⟩ hrest
  refine .pure ⟨hrest.trans hsuffix, ⟨hnodup, hparams, hreturns, fun hentry => ?_⟩,
    List.forall_mem_cons.mpr ⟨hname, hnamed⟩⟩
  dsimp only at hentry hnone hvoid
  simp only [hentry, Bool.true_and, Bool.not_eq_true', Bool.not_eq_false, List.isEmpty_iff,
    Option.any_eq_true, not_exists, not_and] at hnone hvoid
  exact ⟨hnone, fun kind hkind => by simpa using hvoid kind hkind⟩

theorem boundsOf_yields {args : List Expr} (hargs : ∀ arg ∈ args, arg.Spelled) :
    Yields (boundsOf line args) fun bounds => ∀ e ∈ bounds.exprs, e.Spelled := by
  unfold boundsOf
  split
  · exact .pure hargs
  · exact .pure hargs
  · refine .bind (P := fun _ => True) (fun _ _ => trivial) fun _ _ => .pure fun e he => hargs e ?_
    simp only [Bounds.exprs, Option.toList_some, List.singleton_append, List.mem_cons,
      List.not_mem_nil, or_false] at he ⊢
    exact he.imp_right .inl
  · exact .fail

theorem loopHead_yields (hts : AllSpelled ts) : Yields (loopHead finalLine line ts) fun r =>
    r.rest <:+ ts ∧ (∀ e ∈ r.value.2.exprs, e.Spelled) ∧
      (TokenKind.identifier r.value.1).Spelled := by
  unfold loopHead
  refine .bind (expectIdentifier_yields hts) ?_
  rintro ⟨var, rest, h⟩ ⟨hsuffix, hvar⟩
  refine .check fun _ => .bind expectKeyword_yields ?_
  rintro ⟨_, rest, h⟩ hrest
  replace hsuffix := hrest.trans hsuffix
  refine .bind (Expr.parse_yields (hts.of_suffix hsuffix)) ?_
  rintro ⟨iterable, rest, h⟩ ⟨hrest, hspelled⟩
  replace hsuffix := hrest.trans hsuffix
  dsimp only at hspelled ⊢
  split
  · cases hspelled with
    | call _ hargs =>
      refine .check fun _ => .bind (boundsOf_yields hargs) fun bounds hbounds => ?_
      refine .bind expectSymbol_yields ?_
      rintro ⟨_, rest, h⟩ hrest
      exact .pure ⟨hrest.trans hsuffix, hbounds, hvar⟩
  · exact .fail

end Heads

theorem placed_trivia {place : Place} (ts : List Token) :
    Placed place (ts.filterMap ofTrivia?) := by
  induction ts with
  | nil => exact .nil
  | cons t ts ih =>
    rw [List.filterMap_cons]
    unfold ofTrivia?
    split
    · exact ih
    · next stmt hstmt =>
      have hsimple : Simple stmt.line stmt := by
        split at hstmt <;> cases hstmt <;>
          exact ⟨rfl, rfl, rfl, fun _ h => (nomatch h), fun _ h => (nomatch h)⟩
      exact (Placed.of_simple hsimple).append ih

mutual

theorem block_yields {finalLine : Nat} {place : Place} {ts : List Token} (hts : AllSpelled ts) :
    Yields (block finalLine place ts) fun r => r.rest <:+ ts ∧ Placed place r.value := by
  unfold block
  split
  · refine .bind (finishLine_yields place) ?_
    rintro ⟨note, rest, h⟩ ⟨hsuffix, hnote, _⟩
    dsimp only at h hsuffix hnote ⊢
    cases rest with
    | nil => exact .fail
    | cons t rest =>
      dsimp only
      split
      · have hrest := (List.suffix_cons t rest).trans hsuffix
        refine .bind (blockBody_yields (hts.of_suffix hrest)) ?_
        rintro ⟨body, after, h'⟩ ⟨hafter, hbody⟩
        exact .pure ⟨hafter.trans hrest, hnote.append hbody⟩
      · exact .fail
  · exact (simpleStatement_yields hts).imp fun _ h => ⟨h.suffix, h.placed⟩
termination_by (ts.length, 0)
decreasing_by
  simp only [List.length_cons] at h
  exact Prod.Lex.left _ _ (by omega)

theorem blockBody_yields {finalLine : Nat} {place : Place} {ts : List Token} (hts : AllSpelled ts) :
    Yields (blockBody finalLine place ts) fun r => r.rest <:+ ts ∧ Placed place r.value := by
  cases ts with
  | nil =>
    unfold blockBody
    exact .pure ⟨List.suffix_rfl, .nil⟩
  | cons t ts =>
    have hcons := List.suffix_cons t ts
    unfold blockBody
    dsimp only
    split
    · exact .pure ⟨hcons, .nil⟩
    · refine .bind (blockBody_yields (hts.of_suffix hcons)) ?_
      rintro ⟨body, rest, h⟩ ⟨hsuffix, hbody⟩
      exact .pure ⟨hsuffix.trans hcons, hbody⟩
    · refine .bind (statement_yields hts) ?_
      rintro ⟨first, rest, h⟩ ⟨hfirst, _⟩
      refine .bind (blockBody_yields (hts.of_suffix hfirst.suffix)) ?_
      rintro ⟨more, rest', h'⟩ ⟨hsuffix', hmore⟩
      exact .pure ⟨hsuffix'.trans hfirst.suffix, hfirst.placed.append hmore⟩
termination_by (ts.length, 0)
decreasing_by
  all_goals
    subst_vars
    exact Prod.Lex.left _ _ (by simp only [List.length_cons]; omega)

theorem statement_yields {finalLine : Nat} {place : Place} {t : Token} {ts : List Token}
    (hts : AllSpelled (t :: ts)) : Yields (statement finalLine place t ts) fun r =>
      Lines finalLine place (t :: ts) r.rest r.value ∧
        (t.kind.isTrivia = true → ∀ stmt ∈ r.value, stmt.isTrivia = true) := by
  have hcons := List.suffix_cons t ts
  have hts' := hts.of_suffix hcons
  unfold statement
  split
  · exact .pure ⟨⟨hcons, .single (fun _ => rfl) rfl (fun _ h => (nomatch h)) fun _ h => (nomatch h),
      List.forall_mem_singleton.mpr fun h => (nomatch h)⟩,
      fun _ => List.forall_mem_singleton.mpr rfl⟩
  · exact .pure ⟨⟨hcons, .single (fun _ => rfl) rfl (fun _ h => (nomatch h)) fun _ h => (nomatch h),
      List.forall_mem_singleton.mpr fun h => (nomatch h)⟩,
      fun _ => List.forall_mem_singleton.mpr rfl⟩
  · next hkind =>
    have hcode : t.kind.isTrivia = true → False := by
      rw [hkind]
      exact fun h => (nomatch h)
    refine .check fun hplace => .bind (functionHead_yields hts') ?_
    rintro ⟨head, rest, h⟩ ⟨hsuffix, hhead, hnamed⟩
    refine .bind (block_yields (hts'.of_suffix hsuffix)) ?_
    rintro ⟨body, rest', h'⟩ ⟨hsuffix', hbody⟩
    refine .pure ⟨⟨hsuffix'.trans (hsuffix.trans hcons), ⟨fun h => absurd h hplace, ?_, ?_, ?_⟩,
      List.forall_mem_singleton.mpr fun _ => rfl⟩, fun h => (hcode h).elim⟩
    · rw [exprsIn, exprsIn, List.append_nil]
      exact hbody.spelled
    · rw [namesIn, namesIn, List.append_nil, Stmt.names, List.map_nil, List.nil_append,
        ← List.cons_append]
      exact List.forall_mem_append.mpr ⟨hnamed, hbody.named⟩
    · intro _ _ _ _ _ hmem
      cases List.mem_singleton.mp hmem
      exact ⟨hhead, hbody.plain rfl⟩
  · next hkind =>
    have hcode : t.kind.isTrivia = true → False := by
      rw [hkind]
      exact fun h => (nomatch h)
    refine .bind (conditional_yields hts') ?_
    rintro ⟨stmt, rest, h⟩ ⟨hsuffix, hstmt, hline⟩
    exact .pure ⟨⟨hsuffix.trans hcons, hstmt, List.forall_mem_singleton.mpr fun _ => hline⟩,
      fun h => (hcode h).elim⟩
  · next hkind =>
    have hcode : t.kind.isTrivia = true → False := by
      rw [hkind]
      exact fun h => (nomatch h)
    refine .bind (loopHead_yields hts') ?_
    rintro ⟨⟨var, bounds⟩, rest, h⟩ ⟨hsuffix, hbounds, hvar⟩
    refine .bind (block_yields (hts'.of_suffix hsuffix)) ?_
    rintro ⟨body, rest', h'⟩ ⟨hsuffix', hbody⟩
    refine .check fun _ => .pure ⟨⟨hsuffix'.trans (hsuffix.trans hcons),
      .single hbody.plain rfl ?_ (List.forall_mem_cons.mpr ⟨hvar, hbody.named⟩),
      List.forall_mem_singleton.mpr fun _ => rfl⟩,
      fun h => (hcode h).elim⟩
    exact List.forall_mem_append.mpr ⟨hbounds, hbody.spelled⟩
  · exact .fail
  · exact .fail
  · exact .fail
  · exact .fail
  · exact .fail
  · next hcomment hblank _ _ _ _ _ _ _ _ =>
    refine (simpleStatement_yields hts).imp fun _ h => ⟨h, fun htrivia => ?_⟩
    unfold TokenKind.isTrivia at htrivia
    split at htrivia
    · next htext => exact absurd htext (hcomment _)
    · next htext => exact absurd htext hblank
    · cases htrivia
termination_by (ts.length, 1)

theorem conditional_yields {finalLine : Nat} {place : Place} {line : Nat} {ts : List Token}
    (hts : AllSpelled ts) : Yields (conditional finalLine place line ts) fun r =>
      r.rest <:+ ts ∧ Placed place [r.value] ∧ r.value.line = line := by
  -- a conditional whose blocks stand at this place
  have hplaced : ∀ {condition : Expr} {thenBody elseBody : List Stmt}, condition.Spelled →
      Placed place thenBody → Placed place elseBody →
      Placed place [.conditional line condition thenBody elseBody] := by
    intro condition thenBody elseBody hcondition hthen helse
    refine .single (fun hplace => ?_) rfl ?_ ?_
    · rw [Stmt.isPlain, hthen.plain hplace, helse.plain hplace, Bool.and_true]
    · exact List.forall_mem_cons.mpr
        ⟨hcondition, List.forall_mem_append.mpr ⟨hthen.spelled, helse.spelled⟩⟩
    · exact List.forall_mem_append.mpr ⟨hthen.named, helse.named⟩
  unfold conditional
  refine .bind (Expr.parse_yields hts) ?_
  rintro ⟨condition, rest, h₁⟩ ⟨hsuffix, hcondition⟩
  refine .bind expectSymbol_yields ?_
  rintro ⟨_, rest, h₂⟩ hrest
  replace hsuffix := hrest.trans hsuffix
  refine .bind (block_yields (hts.of_suffix hsuffix)) ?_
  rintro ⟨body, rest, h₃⟩ ⟨hrest, hbody⟩
  replace hsuffix := hrest.trans hsuffix
  have htrivia : Placed place _ := placed_trivia (rest.takeWhile (·.kind.isTrivia))
  have hbody' := hbody.append htrivia
  have hafter : afterTrivia rest <:+ ts := (List.dropWhile_suffix _).trans hsuffix
  have hlength : (afterTrivia rest).length < ts.length := by
    have := afterTrivia_length rest
    omega
  dsimp only at hsuffix hcondition hbody hbody' ⊢
  split
  · next span after heq =>
    have hlength' : after.length + 1 < ts.length := by
      rw [heq] at hlength
      exact hlength
    replace hafter := (List.suffix_cons _ _).trans (heq ▸ hafter)
    refine .bind (conditional_yields (hts.of_suffix hafter)) ?_
    rintro ⟨stmt, rest', h'⟩ ⟨hrest', hstmt, _⟩
    exact .pure ⟨hrest'.trans hafter, hplaced hcondition hbody' hstmt, rfl⟩
  · next span after heq =>
    have hlength' : after.length + 1 < ts.length := by
      rw [heq] at hlength
      exact hlength
    replace hafter := (List.suffix_cons _ _).trans (heq ▸ hafter)
    refine .bind expectSymbol_yields ?_
    rintro ⟨_, rest', h'⟩ hrest'
    replace hafter := hrest'.trans hafter
    refine .bind (block_yields (hts.of_suffix hafter)) ?_
    rintro ⟨elseBody, rest'', h''⟩ ⟨hrest'', helse⟩
    exact .pure ⟨hrest''.trans hafter, hplaced hcondition hbody' helse, rfl⟩
  · exact .pure ⟨hsuffix, hplaced hcondition hbody .nil, rfl⟩
termination_by (ts.length, 0)
decreasing_by
  all_goals exact Prod.Lex.left _ _ (by omega)

end

section Texts

variable {finalLine : Nat} {ts : List Token}

/-- What the grammar makes sure of for the statements of a module. -/
structure TopLevel (ts : List Token) (stmts : List Stmt) : Prop where
  placed : Placed .module stmts
  ordered : (stmts.filter (!·.isTrivia)).Pairwise (·.line ≤ ·.line)
  lines : ∀ stmt ∈ stmts, stmt.isTrivia = false →
    ∃ t ∈ ts, t.kind.isTrivia = false ∧ stmt.line = t.line

theorem topLevel_yields {finalLine : Nat} {ts : List Token} (hts : AllSpelled ts)
    (hordered : Ordered ts) : Yields (topLevel finalLine ts) (TopLevel ts) := by
  cases ts with
  | nil =>
    unfold topLevel
    exact .pure ⟨.nil, .nil, fun _ h => (nomatch h)⟩
  | cons t ts =>
    have hcons := List.suffix_cons t ts
    unfold topLevel
    dsimp only
    split
    · refine (topLevel_yields (hts.of_suffix hcons) (hordered.sublist hcons.sublist)).imp
        fun stmts h =>
        ⟨h.placed, h.ordered, fun stmt hstmt hcode => ?_⟩
      obtain ⟨u, hu, hline⟩ := h.lines stmt hstmt hcode
      exact ⟨u, List.mem_cons_of_mem _ hu, hline⟩
    · refine .bind (statement_yields hts) ?_
      rintro ⟨first, rest, h⟩ ⟨hfirst, htrivia⟩
      refine .bind (topLevel_yields (hts.of_suffix hfirst.suffix)
        (hordered.sublist hfirst.suffix.sublist)) fun more hmore => .pure ?_
      dsimp only at hfirst htrivia
      have hcode : ∀ stmt ∈ first, stmt.isTrivia = false → t.kind.isTrivia = false ∧
          stmt.line = t.line := by
        intro stmt hstmt hcode
        refine ⟨Bool.eq_false_iff.mpr fun h => ?_, hfirst.lines stmt hstmt hcode⟩
        rw [htrivia h stmt hstmt] at hcode
        cases hcode
      have hfilter : ∀ {stmts : List Stmt} {stmt}, stmt ∈ stmts.filter (!·.isTrivia) →
          stmt ∈ stmts ∧ stmt.isTrivia = false := by
        intro stmts stmt h
        simpa using List.mem_filter.mp h
      refine ⟨hfirst.placed.append hmore.placed, ?_, fun stmt hstmt hstmt' => ?_⟩
      · rw [List.filter_append, List.pairwise_append]
        refine ⟨List.pairwise_of_forall_mem_list fun a ha b hb => ?_, hmore.ordered,
          fun a ha b hb => ?_⟩
        · obtain ⟨_, hline⟩ := hcode a (hfilter ha).1 (hfilter ha).2
          obtain ⟨_, hline'⟩ := hcode b (hfilter hb).1 (hfilter hb).2
          exact Nat.le_of_eq (hline.trans hline'.symm)
        · obtain ⟨ht, hline⟩ := hcode a (hfilter ha).1 (hfilter ha).2
          obtain ⟨u, hu, hcode', hline'⟩ := hmore.lines b (hfilter hb).1 (hfilter hb).2
          rw [hline, hline']
          exact hordered.head ht (hfirst.suffix.subset hu) hcode'
      · rcases List.mem_append.mp hstmt with hstmt | hstmt
        · exact ⟨t, List.mem_cons_self, hcode stmt hstmt hstmt'⟩
        · obtain ⟨u, hu, hline⟩ := hmore.lines stmt hstmt hstmt'
          exact ⟨u, hfirst.suffix.subset hu, hline⟩
termination_by ts.length
decreasing_by
  all_goals
    subst_vars
    simp only [List.length_cons]
    omega

/-- The expressions of a program. -/
def exprs (p : Program) : List Expr := exprsIn p.statements

theorem mem_namesIn {stmts : List Stmt} {id : String} :
    id ∈ namesIn stmts ↔ ∃ stmt ∈ stmts, id ∈ stmt.names := by
  induction stmts with
  | nil => simp [namesIn]
  | cons stmt stmts ih => simp [namesIn, ih]

theorem mem_exprsIn {stmts : List Stmt} {e : Expr} :
    e ∈ exprsIn stmts ↔ ∃ stmt ∈ stmts, e ∈ stmt.exprs := by
  induction stmts with
  | nil => simp [exprsIn]
  | cons stmt stmts ih => simp [exprsIn, ih]

theorem wellFormed_of_placed {stmts : List Stmt} {stmt : Stmt} (h : Placed .module stmts)
    (hstmt : stmt ∈ stmts) (hlevel : stmt.isModuleLevel = true) : stmt.WellFormed := by
  cases stmt with
  | function => exact .function (h.function hstmt).1 (h.function hstmt).2
  | assign => exact .assign
  | comment | blank | pass => exact .inert rfl rfl
  | _ => cases hlevel

theorem read_yields (hts : AllSpelled ts) (hordered : Ordered ts) :
    Yields (read finalLine ts) fun p => p.WellFormed ∧ (∀ e ∈ p.exprs, e.Spelled) ∧
      ∀ id ∈ namesIn p.statements, (TokenKind.identifier id).Spelled := by
  unfold read
  refine .bind (topLevel_yields hts hordered) fun stmts h => ?_
  refine .bind (P := fun _ => ∀ stmt ∈ stmts, stmt.isModuleLevel = true) ?_ fun _ hlevel => .pure ?_
  · unfold checkModuleLevel
    split
    · exact .fail
    · next hnone => exact .pure (by simpa using hnone)
  have hkept : ((stmts.reverse.dropWhile Stmt.isBlank).reverse).Sublist stmts := by
    have := (List.dropWhile_suffix (l := stmts.reverse) Stmt.isBlank).sublist.reverse
    rwa [List.reverse_reverse] at this
  have hstatements : (ofStatements stmts).statements.Sublist stmts :=
    (List.dropWhile_suffix _).sublist.trans hkept
  refine ⟨⟨fun stmt hstmt => ?_, fun stmt hstmt => ?_, h.ordered.sublist (hstatements.filter _)⟩,
    fun e he => ?_, fun id hid => ?_⟩
  · exact (List.all_eq_true.mp List.all_takeWhile) stmt hstmt
  · have hmem := hstatements.subset hstmt
    exact wellFormed_of_placed h.placed hmem (hlevel stmt hmem)
  · obtain ⟨stmt, hstmt, he⟩ := mem_exprsIn.mp he
    exact h.placed.spelled e (mem_exprsIn.mpr ⟨stmt, hstatements.subset hstmt, he⟩)
  · obtain ⟨stmt, hstmt, hid⟩ := mem_namesIn.mp hid
    exact h.placed.named id (mem_namesIn.mpr ⟨stmt, hstatements.subset hstmt, hid⟩)

end Texts

end Program

end Sketchwright
