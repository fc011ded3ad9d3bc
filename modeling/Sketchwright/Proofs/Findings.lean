import Sketchwright.Proofs.Examination

/-! What inference finds out about the expressions that it visits, in any tree. The kind of an
expression follows from what is known where inference turns to it, of names and of the results of
functions. Unlike the kind rules these do not ask what a function takes, nor that kinds are scalar,
which a tree that comes from no text need not respect. -/

namespace Sketchwright.Inference

/-- What inference knows where it turns to an expression. -/
structure Outlook where
  table : CallTable
  results : String → Option (Option Kind)
  names : Names

def State.outlook (table : CallTable) (s : State) : Outlook :=
  ⟨table, s.functions.result?, s.frame.scope.kind? table⟩

/-- A runtime call with arguments of these kinds has a value. -/
inductive RuleGives (rule : CallRule) (kinds : List Kind) : Kind → Prop
  | fixed {kind} (hreturns : rule.returns = .fixed kind) : RuleGives rule kinds kind
  | promoted {kind} (hreturns : rule.returns = .promoted) (hkind : Kind.Widest kinds kind) :
      RuleGives rule kinds kind

/-- The kind that inference finds for an expression. -/
inductive Finds (o : Outlook) : Expr → Kind → Prop
  | literal (value) : Finds o (.literal value) value.kind
  | name {id kind} (hname : o.names id = some kind) : Finds o (.name id) kind
  | unary {sign operand kind} (hoperand : Finds o operand kind) (hkind : kind.isNumeric = true) :
      Finds o (.unary sign operand) kind
  | binary {left op right a b kind} (hleft : Finds o left a) (hright : Finds o right b)
    (hop : OpKind op a b kind) :
      Finds o (.binary left op right) kind
  | user {callee args kinds kind} (hargs : List.Forall₂ (Finds o) args kinds)
      (hresult : o.results callee = some (some kind)) : Finds o (.call callee args) kind
  | runtime {callee args kinds rule kind} (hfree : o.results callee = none)
      (hrule : o.table.call? callee = some rule) (hrange : rule.form ≠ .loopRange)
      (hlength : rule.form ≠ .listLength) (hargs : List.Forall₂ (Finds o) args kinds)
      (hgives : RuleGives rule kinds kind) : Finds o (.call callee args) kind
  | length {callee list element n rule kind} (hfree : o.results callee = none)
      (hrule : o.table.call? callee = some rule) (hform : rule.form = .listLength)
      (hlist : o.names list = some (.list element n)) (hgives : RuleGives rule [] kind) :
      Finds o (.call callee [.name list]) kind
  | index {list position element n kind} (hlist : o.names list = some (.list element n))
      (hposition : Finds o position kind) (hkind : kind.isInteger = true) :
      Finds o (.index list position) element

section Unique

variable {o : Outlook} {rule : CallRule} {kinds : List Kind} {e : Expr} {k j : Kind}

theorem RuleGives.unique (h₁ : RuleGives rule kinds k) (h₂ : RuleGives rule kinds j) : k = j := by
  cases h₁ with
  | fixed hreturns =>
    cases h₂ with
    | fixed hreturns' =>
      cases hreturns.symm.trans hreturns'
      rfl
    | promoted hreturns' => cases hreturns.symm.trans hreturns'
  | promoted hreturns hkind =>
    cases h₂ with
    | fixed hreturns' => cases hreturns.symm.trans hreturns'
    | promoted _ hkind' => exact hkind.unique hkind'

/-- At most one kind is found for an expression. -/
theorem Finds.unique (h₁ : Finds o e k) (h₂ : Finds o e j) : k = j := by
  induction e generalizing k j with
  | literal value =>
    cases h₁
    cases h₂
    rfl
  | name id =>
    cases h₁ with
    | name hk =>
      cases h₂ with
      | name hj => exact Option.some.inj (hk.symm.trans hj)
  | unary sign operand ih =>
    cases h₁ with
    | unary hk =>
      cases h₂ with
      | unary hj => exact ih hk hj
  | binary left op right ihl ihr =>
    cases h₁ with
    | binary hl hr hop =>
      cases h₂ with
      | binary hl' hr' hop' =>
        cases ihl hl hl'
        cases ihr hr hr'
        exact hop.unique hop'
  | call callee args ih =>
    cases h₁ with
    | user _ hresult =>
      cases h₂ with
      | user _ hresult' =>
        cases hresult.symm.trans hresult'
        rfl
      | runtime hfree | length hfree => cases hfree.symm.trans hresult
    | runtime hfree hrule hrange hlength hargs hgives =>
      cases h₂ with
      | user _ hresult => cases hfree.symm.trans hresult
      | runtime _ hrule' _ _ hargs' hgives' =>
        cases hrule.symm.trans hrule'
        cases forall₂_unique hargs hargs' fun a ha _ _ => ih a ha
        exact hgives.unique hgives'
      | length _ hrule' hform =>
        cases hrule.symm.trans hrule'
        exact absurd hform hlength
    | length hfree hrule hform hlist hgives =>
      cases h₂ with
      | user _ hresult => cases hfree.symm.trans hresult
      | runtime _ hrule' _ hlength =>
        cases hrule.symm.trans hrule'
        exact absurd hform hlength
      | length _ hrule' _ _ hgives' =>
        cases hrule.symm.trans hrule'
        exact hgives.unique hgives'
  | index list position ih =>
    cases h₁ with
    | index hk =>
      cases h₂ with
      | index hj =>
        cases hk.symm.trans hj
        rfl
  | list items ih => cases h₁

end Unique

/-- The operations in an expression have kinds. -/
def Operates (o : Outlook) (e : Expr) : Prop :=
  ∀ left op right, .binary left op right ∈ e.parts → ∃ kind, Finds o (.binary left op right) kind

section Operations

variable {o : Outlook}

theorem operates_name (id : String) : Operates o (.name id) := by
  intro left op right hpart
  cases List.mem_singleton.mp hpart

theorem operates_call {callee : String} {args : List Expr} (h : ∀ arg ∈ args, Operates o arg) :
    Operates o (.call callee args) := by
  intro left op right hpart
  obtain ⟨arg, harg, hpart⟩ := Expr.mem_partsAll.mp ((List.mem_cons.mp hpart).resolve_left nofun)
  exact h arg harg left op right hpart

theorem operates_list {items : List Expr} (h : ∀ item ∈ items, Operates o item) :
    Operates o (.list items) := by
  intro left op right hpart
  obtain ⟨item, hitem, hpart⟩ := Expr.mem_partsAll.mp ((List.mem_cons.mp hpart).resolve_left nofun)
  exact h item hitem left op right hpart

/-- Every part of what has a kind has one, but for lists that are used whole. -/
theorem Finds.parts {e : Expr} {kind : Kind} (h : Finds o e kind) :
    ∀ part ∈ e.parts, (∃ list, part = .name list) ∨ ∃ kind, Finds o part kind := by
  induction e generalizing kind with
  | literal | name => exact List.forall_mem_singleton.mpr (.inr ⟨kind, h⟩)
  | unary sign operand ih =>
    refine List.forall_mem_cons.mpr ⟨.inr ⟨kind, h⟩, ?_⟩
    cases h with
    | unary hoperand => exact ih hoperand
  | binary left op right ihl ihr =>
    refine List.forall_mem_cons.mpr ⟨.inr ⟨kind, h⟩, ?_⟩
    cases h with
    | binary hleft hright => exact List.forall_mem_append.mpr ⟨ihl hleft, ihr hright⟩
  | call callee args ih =>
    refine List.forall_mem_cons.mpr ⟨.inr ⟨kind, h⟩, fun part hpart => ?_⟩
    obtain ⟨arg, harg, hpart⟩ := Expr.mem_partsAll.mp hpart
    cases h with
    | user hargs | runtime _ _ _ _ hargs =>
      obtain ⟨_, _, hkind⟩ := exists_of_forall₂ hargs harg
      exact ih arg harg hkind part hpart
    | length =>
      obtain rfl := List.mem_singleton.mp harg
      exact .inl ⟨_, List.mem_singleton.mp hpart⟩
  | index list position ih =>
    refine List.forall_mem_cons.mpr ⟨.inr ⟨kind, h⟩, ?_⟩
    cases h with
    | index _ hposition => exact ih hposition
  | list items ih => cases h

/-- In what has a kind every operation has one. -/
theorem Finds.operates {e : Expr} {kind : Kind} (h : Finds o e kind) : Operates o e :=
  fun _ _ _ hpart => (h.parts _ hpart).resolve_left nofun

theorem operates_arguments {callee : String} {args : List Expr} {kinds : List Kind}
    (h : List.Forall₂ (Finds o) args kinds) : Operates o (.call callee args) := by
  refine operates_call fun arg harg => ?_
  obtain ⟨_, _, hkind⟩ := exists_of_forall₂ h harg
  exact hkind.operates

end Operations

section Expressions

variable {env : Env} {line : Nat} {s s' : State} {callee : String} {asStatement : Bool}
  {args : List Expr}
  {argKinds : Infer (List Kind)} {kind : Kind}

/-- What only reads names and fills parameters leaves what is known. -/
theorem Reads.outlook {α : Type} {table : CallTable} {x : Infer α} {names : List String}
    (h : Reads table x names) (hfills : Relates Functions.Fills x) {a : α}
    (hends : Ends x s (.ok a) s') :
    s'.outlook table = s.outlook table := by
  rw [State.outlook, (hfills hends).results, h.frame hends]
  simp [State.outlook, Frame.readAll]

theorem exprKind_outlook (htable : env.table.Sound) {e : Expr}
    (h : Ends (exprKind env line e) s (.ok kind) s') :
    s'.outlook env.table = s.outlook env.table :=
  (exprKind_reads htable e).outlook (inherited_fills.exprKind e) h

theorem elementKind_finds {list : String} (h : Ends (elementKind env list line) s (.ok kind) s') :
    s'.outlook env.table = s.outlook env.table ∧
      ∃ n, s.frame.scope.kind? env.table list = some (.list kind n) := by
  have hruns : Runs NoReason (elementKind env list line) s _ := elementKind_runs env list line
  obtain ⟨-, -, n, hkind⟩ := hruns.ok h
  exact ⟨(elementKind_reads list).outlook inherited_fills.elementKind h, n, hkind⟩

/-- What a call has come to that stands: what it calls, and of what kind its value is
if it is to have one. -/
inductive CallEnds (env : Env) (s : State) (callee : String) (asStatement : Bool) (args : List Expr)
    (argKinds : Infer (List Kind)) (kind : Kind) : Prop
  | user {kinds s₁ result} (hargs : Ends argKinds s (.ok kinds) s₁)
      (hresult : s₁.functions.result? callee = some result)
      (hvalue : asStatement = false → result = some kind)
  | unknown {kinds s₁} (hrule : env.table.call? callee = none)
      (hargs : Ends argKinds s (.ok kinds) s₁) (hstatement : asStatement = true)
  | runtime {rule kinds s₁} (hfree : s.functions.result? callee = none)
      (hrule : env.table.call? callee = some rule) (hrange : rule.form ≠ .loopRange)
      (hlength : rule.form ≠ .listLength) (hargs : Ends argKinds s (.ok kinds) s₁)
      (hvalue : asStatement = false → RuleGives rule kinds kind)
  | length {rule list element n} (hfree : s.functions.result? callee = none)
      (hrule : env.table.call? callee = some rule) (hform : rule.form = .listLength)
      (hargs : args = [.name list])
      (hlist : s.frame.scope.kind? env.table list = some (.list element n))
      (hvalue : asStatement = false → RuleGives rule [] kind)

theorem userCall_ends (h : Ends (userCall callee line asStatement argKinds) s (.ok kind) s') :
    CallEnds env s callee asStatement args argKinds kind := by
  obtain ⟨kinds, s₁, hargs, hrest⟩ := ends_bind_ok.mp h
  rw [ends_get_bind] at hrest
  cases hslots : s₁.functions.find? callee with
  | none =>
    rw [hslots] at hrest
    cases (ends_fail.mp hrest).1
  | some slots =>
    rw [hslots] at hrest
    have hknown : s₁.functions.result? callee = some slots.returns := by
      simp [Functions.result?, hslots]
    refine .user hargs hknown fun hvalue => ?_
    obtain ⟨_, hrest⟩ := ends_check.mp hrest
    obtain ⟨filled, s₂, _, hrest⟩ := ends_bind_ok.mp hrest
    obtain ⟨_, s₃, _, hresult⟩ := ends_bind_ok.mp hrest
    have hruns : Runs NoReason (callResult callee line asStatement slots.returns) s₃ _ :=
      callResult_runs callee line asStatement slots.returns
    exact ((hruns.ok hresult).2 hvalue).1

theorem unknownCall_ends (hrule : env.table.call? callee = none)
    (h : Ends (unknownCall callee line asStatement argKinds) s (.ok kind) s') :
    CallEnds env s callee asStatement args argKinds kind := by
  obtain ⟨kinds, s₁, hargs, hrest⟩ := ends_bind_ok.mp h
  refine .unknown hrule hargs ?_
  obtain ⟨scope, s₂, _, hrest⟩ := ends_bind_ok.mp hrest
  obtain ⟨_, hrest⟩ := ends_check.mp hrest
  rcases ends_ite.mp hrest with ⟨hstatement, _⟩ | ⟨_, hfail⟩
  · exact hstatement
  · cases (ends_fail.mp hfail).1

theorem ruleResult_gives {rule : CallRule} {kinds : List Kind}
    (h : Ends (ruleResult rule callee line asStatement kinds) s (.ok kind) s')
    (hvalue : asStatement = false) :
    RuleGives rule kinds kind := by
  unfold ruleResult at h
  split at h
  · rw [hvalue] at h
    cases (ends_fail.mp h).1
  · next hreturns =>
    cases (ends_pure.mp h).1
    exact .fixed hreturns
  · next hreturns =>
    have hne : (none : Option Kind).toList ++ kinds ≠ [] := by
      rintro rfl
      cases (ends_fail.mp h).1
    rcases promoteAll_cases callee line kinds none nofun hne with ⟨widest, heq,
      hwidest⟩ | ⟨e, heq, _⟩
    · rw [heq] at h
      cases (ends_pure.mp h).1
      exact .promoted hreturns hwidest
    · rw [heq] at h
      cases (ends_fail.mp h).1

/-- A rule reads its arguments as values, unless it asks for the length of a list. -/
theorem ruleArguments_ends {rule : CallRule} (hrule : rule.Sound)
    (harity : ∀ arity, rule.arity = some arity → arity = args.length) {kinds : List Kind}
    (h : Ends (ruleArguments env rule line args argKinds) s (.ok kinds) s') :
    rule.form ≠ .loopRange ∧ rule.form ≠ .listLength ∧ Ends argKinds s (.ok kinds) s' ∨
      rule.form = .listLength ∧ kinds = [] ∧ ∃ list element n, args = [.name list] ∧
        s.frame.scope.kind? env.table list = some (.list element n) := by
  unfold ruleArguments at h
  split at h
  · cases (ends_fail.mp h).1
  · next hform =>
    have hlength := harity 1 (hrule.listLength hform).1
    split at h
    · cases hlength
    · next list rest =>
      obtain rfl : rest = [] := by simpa using hlength
      obtain ⟨element, s₁, helement, hrest⟩ := ends_bind_ok.mp h
      cases (ends_pure.mp hrest).1
      obtain ⟨-, n, hlist⟩ := elementKind_finds helement
      exact .inr ⟨hform, rfl, list, element, n, rfl, hlist⟩
    · obtain ⟨_, _, _, hfail⟩ := ends_bind_ok.mp h
      cases (ends_fail.mp hfail).1
  · next hrange hlength => exact .inl ⟨hrange, hlength, h⟩

theorem runtimeCall_ends {rule : CallRule} (hsound : rule.Sound)
    (hfree : s.functions.result? callee = none) (hrule : env.table.call? callee = some rule)
    (h : Ends (runtimeCall env rule callee line asStatement args argKinds) s (.ok kind) s') :
    CallEnds env s callee asStatement args argKinds kind := by
  obtain ⟨_, s₁, hcheck, hrest⟩ := ends_bind_ok.mp h
  have hruns : Runs NoReason (checkArity callee line args.length rule.arity) s _ := checkArity_runs
  obtain ⟨rfl, harity⟩ := hruns.ok hcheck
  obtain ⟨kinds, s₂, harguments, hrest⟩ := ends_bind_ok.mp hrest
  have hgives : asStatement = false → RuleGives rule kinds kind :=
    ruleResult_gives (ends_check.mp hrest).2
  rcases ruleArguments_ends hsound (fun n hn => (harity n hn).symm) harguments with
    ⟨hrange, hlength, hargs⟩ | ⟨hform, rfl, list, element, n, hargs, hlist⟩
  · exact .runtime hfree hrule hrange hlength hargs hgives
  · exact .length hfree hrule hform hargs hlist hgives

theorem callKind_ends (htable : env.table.Sound)
    (h : Ends (callKind env callee line asStatement args argKinds) s (.ok kind) s') :
    CallEnds env s callee asStatement args argKinds kind := by
  unfold callKind at h
  rw [ends_get_bind] at h
  rcases ends_ite.mp h with ⟨_, huser⟩ | ⟨hfunction, hother⟩
  · obtain ⟨scope, s₁, hscope, huser⟩ := ends_bind_ok.mp huser
    obtain ⟨-, rfl⟩ := ends_getScope.mp hscope
    exact userCall_ends (ends_check.mp huser).2
  · split at hother
    · next hrule => exact unknownCall_ends hrule hother
    · next rule hrule =>
      have hfree : s.functions.result? callee = none := by
        simpa [Functions.result?, Functions.contains] using hfunction
      exact runtimeCall_ends (htable.call hrule) hfree hrule hother

theorem exprKinds_finds (htable : env.table.Sound)
    (hargs : ∀ arg ∈ args, ∀ {s s' kind}, Ends (exprKind env line arg) s (.ok kind) s' →
      Finds (s.outlook env.table) arg kind)
    {kinds : List Kind} (h : Ends (exprKinds env line args) s (.ok kinds) s') :
    List.Forall₂ (Finds (s.outlook env.table)) args kinds := by
  induction args generalizing s kinds with
  | nil =>
    cases (ends_pure.mp h).1
    exact .nil
  | cons arg args ih =>
    obtain ⟨harg, hargs⟩ := List.forall_mem_cons.mp hargs
    obtain ⟨kind, s₁, hhead, hrest⟩ := ends_bind_ok.mp h
    obtain ⟨kinds, s₂, htail, hlast⟩ := ends_bind_ok.mp hrest
    obtain ⟨heq, rfl⟩ := ends_pure.mp hlast
    cases heq
    exact .cons (harg hhead) (exprKind_outlook htable hhead ▸ ih hargs htail)

/-- The kind that an expression is given follows from what is known where inference turns to it. -/
theorem exprKind_finds (htable : env.table.Sound) (e : Expr) {s s' : State} {kind : Kind}
    (h : Ends (exprKind env line e) s (.ok kind) s') : Finds (s.outlook env.table) e kind := by
  induction e generalizing s s' kind with
  | literal value =>
    cases (ends_pure.mp h).1
    exact .literal value
  | name id =>
    obtain ⟨found, s₁, hresolve, hrest⟩ := ends_bind_ok.mp h
    have hruns : Runs NoReason (resolve env id line) s _ := resolve_runs env id line
    obtain ⟨-, -, hkind⟩ := hruns.ok hresolve
    cases (ends_pure.mp (ends_check.mp hrest).2).1
    exact .name hkind
  | unary sign operand ih =>
    obtain ⟨found, s₁, hoperand, hrest⟩ := ends_bind_ok.mp h
    obtain ⟨hnumeric, hrest⟩ := ends_check.mp hrest
    cases (ends_pure.mp hrest).1
    exact .unary (ih hoperand) (by simpa using hnumeric)
  | binary left op right ihl ihr =>
    obtain ⟨a, s₁, hleft, hrest⟩ := ends_bind_ok.mp h
    obtain ⟨b, s₂, hright, hrest⟩ := ends_bind_ok.mp hrest
    rcases binaryKind_cases op a b line with ⟨k, heq, hop⟩ | ⟨e, heq, _⟩
    · rw [heq] at hrest
      cases (ends_pure.mp hrest).1
      exact .binary (ihl hleft) (exprKind_outlook htable hleft ▸ ihr hright) hop
    · rw [heq] at hrest
      cases (ends_fail.mp hrest).1
  | call callee args ih =>
    have hfound : ∀ {kinds s₁}, Ends (exprKinds env line args) s (.ok kinds) s₁ →
        List.Forall₂ (Finds (s.outlook env.table)) args kinds := exprKinds_finds htable ih
    cases callKind_ends htable h with
    | user hargs hresult hvalue =>
      have hresults :=
        (inherited_fills.exprKinds fun e _ => inherited_fills.exprKind e : Relates _ _) hargs
      refine .user (hfound hargs) ?_
      rw [← hvalue rfl, ← hresult, hresults.results]
      rfl
    | unknown _ _ hstatement => cases hstatement
    | runtime hfree hrule hrange hlength hargs hvalue =>
      exact .runtime hfree hrule hrange hlength (hfound hargs) (hvalue rfl)
    | length hfree hrule hform hargs hlist hvalue =>
      subst hargs
      exact .length hfree hrule hform hlist (hvalue rfl)
  | index list position ih =>
    obtain ⟨element, s₁, helement, hrest⟩ := ends_bind_ok.mp h
    obtain ⟨found, s₂, hposition, hrest⟩ := ends_bind_ok.mp hrest
    obtain ⟨houtlook, n, hlist⟩ := elementKind_finds helement
    obtain ⟨hinteger, hrest⟩ := ends_check.mp hrest
    cases (ends_pure.mp hrest).1
    exact .index hlist (houtlook ▸ ih hposition) (by simpa using hinteger)
  | list items ih => cases (ends_fail.mp h).1

/-- Every item of a list that is assigned has a kind. -/
theorem itemsKind_finds (htable : env.table.Sound) {first : Option Kind} {items : List Expr}
    (h : Ends (itemsKind env line first items) s (.ok kind) s') :
    ∀ item ∈ items, ∃ kind, Finds (s.outlook env.table) item kind := by
  induction items generalizing s first with
  | nil => exact List.forall_mem_nil _
  | cons item items ih =>
    obtain ⟨found, s₁, hitem, hrest⟩ := ends_bind_ok.mp (ends_check.mp h).2
    refine List.forall_mem_cons.mpr ⟨⟨found, exprKind_finds htable item hitem⟩, ?_⟩
    rw [← exprKind_outlook htable hitem]
    cases first with
    | none => exact ih hrest
    | some expected => exact ih (ends_check.mp hrest).2

end Expressions

/-- The operations in what has been examined have kinds. -/
theorem Examined.operates {table : CallTable} (htable : table.Sound) {s : State} {e : Expr}
    (h : Examined table s e) :
    Operates (s.outlook table) e := by
  cases h with
  | value henv h =>
    subst henv
    exact (exprKind_finds htable e h).operates
  | items henv h =>
    subst henv
    refine operates_list fun item hitem => ?_
    obtain ⟨kind, hkind⟩ := itemsKind_finds htable h item hitem
    exact hkind.operates
  | stands henv h =>
    subst henv
    cases callKind_ends htable h with
    | user hargs | unknown _ hargs | runtime _ _ _ _ hargs =>
      exact operates_arguments
        (exprKinds_finds htable (fun arg _ => exprKind_finds htable arg) hargs)
    | length _ _ _ hargs =>
      subst hargs
      exact operates_call (List.forall_mem_singleton.mpr (operates_name _))
  | bound => exact operates_name _

section Lists

/-- The expression is the element of a list, or the length of one. -/
inductive AsksList (table : CallTable) (x : String) : Expr → Prop
  | element {position} : AsksList table x (.index x position)
  | length {callee rule} (hrule : table.call? callee = some rule)
    (hform : rule.form = .listLength) :
      AsksList table x (.call callee [.name x])

variable {o : Outlook} {x : String} {e : Expr}

/-- The name has the kind of a list. -/
def Outlook.IsList (o : Outlook) (x : String) : Prop :=
  ∃ element n, o.names x = some (.list element n)

/-- The functions of the program have no names of the runtime. -/
def Outlook.Apart (o : Outlook) : Prop :=
  ∀ {callee result}, o.results callee = some result → o.table.call? callee = none

theorem AsksList.isList_of_finds (hapart : o.Apart) (h : AsksList o.table x e) {kind : Kind}
    (hkind : Finds o e kind) : o.IsList x := by
  cases h with
  | element =>
    cases hkind with
    | index hlist => exact ⟨_, _, hlist⟩
  | length hrule hform =>
    cases hkind with
    | user _ hresult => cases (hapart hresult).symm.trans hrule
    | runtime _ hrule' _ hlength =>
      cases hrule.symm.trans hrule'
      exact absurd hform hlength
    | length _ _ _ hlist => exact ⟨_, _, hlist⟩

/-- What an expression with a kind uses as a list has the kind of one. -/
theorem Finds.isList (hapart : o.Apart) {kind : Kind} (h : Finds o e kind) :
    ∀ part ∈ e.parts, AsksList o.table x part → o.IsList x := by
  intro part hpart hasks
  rcases h.parts part hpart with ⟨list, rfl⟩ | ⟨_, hkind⟩
  · cases hasks
  · exact hasks.isList_of_finds hapart hkind

theorem isList_of_args (hapart : o.Apart) {args : List Expr} {kinds : List Kind}
    (h : List.Forall₂ (Finds o) args kinds) :
    ∀ part ∈ Expr.partsAll args, AsksList o.table x part → o.IsList x := by
  intro part hpart
  obtain ⟨arg, harg, hpart⟩ := Expr.mem_partsAll.mp hpart
  obtain ⟨_, _, hkind⟩ := exists_of_forall₂ h harg
  exact hkind.isList hapart part hpart

theorem isList_of_callKind {env : Env} {line : Nat} {callee : String} {args : List Expr}
    {asStatement : Bool} {s s' : State} {kind : Kind} (htable : env.table.Sound)
    (hapart : (s.outlook env.table).Apart)
    (h : Ends (callKind env callee line asStatement args (exprKinds env line args)) s
      (.ok kind) s') :
    ∀ part ∈ (Expr.call callee args).parts, AsksList env.table x part →
      (s.outlook env.table).IsList x := by
  have hargs : ∀ {kinds s₁}, Ends (exprKinds env line args) s (.ok kinds) s₁ →
      ∀ part ∈ Expr.partsAll args, AsksList env.table x part → (s.outlook env.table).IsList x :=
    fun h => isList_of_args hapart
      (exprKinds_finds htable (fun arg _ => exprKind_finds htable arg) h)
  cases callKind_ends htable h with
  | @user kinds s₁ result hkinds hresult =>
    have hresults :=
      (inherited_fills.exprKinds fun e _ => inherited_fills.exprKind e : Relates _ _) hkinds
    have hstart : s.functions.result? callee = some result := hresults.results ▸ hresult
    refine List.forall_mem_cons.mpr ⟨fun hasks => ?_, hargs hkinds⟩
    cases hasks with
    | length hrule => cases (hapart hstart).symm.trans hrule
  | unknown hnone hkinds =>
    refine List.forall_mem_cons.mpr ⟨fun hasks => ?_, hargs hkinds⟩
    cases hasks with
    | length hrule => cases hnone.symm.trans hrule
  | runtime _ hrule' _ hlength hkinds =>
    refine List.forall_mem_cons.mpr ⟨fun hasks => ?_, hargs hkinds⟩
    cases hasks with
    | length hrule hform =>
      cases hrule.symm.trans hrule'
      exact absurd hform hlength
  | length _ _ _ hlist hkind =>
    subst hlist
    refine List.forall_mem_cons.mpr ⟨fun hasks => ?_, List.forall_mem_singleton.mpr nofun⟩
    cases hasks
    exact ⟨_, _, hkind⟩

/-- The same of what has been examined. -/
theorem Examined.isList {table : CallTable} (htable : table.Sound) {s : State}
    (hapart : (s.outlook table).Apart) (h : Examined table s e) :
    ∀ part ∈ e.parts, AsksList table x part → (s.outlook table).IsList x := by
  cases h with
  | value henv h =>
    subst henv
    exact (exprKind_finds htable e h).isList hapart
  | items henv h =>
    subst henv
    refine List.forall_mem_cons.mpr ⟨nofun, fun part hpart => ?_⟩
    obtain ⟨item, hitem, hpart⟩ := Expr.mem_partsAll.mp hpart
    obtain ⟨_, hkind⟩ := itemsKind_finds htable h item hitem
    exact hkind.isList hapart part hpart
  | stands henv h =>
    subst henv
    exact isList_of_callKind htable hapart h
  | bound => exact List.forall_mem_singleton.mpr nofun

end Lists

end Sketchwright.Inference
