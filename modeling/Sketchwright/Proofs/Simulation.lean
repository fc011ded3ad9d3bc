import Sketchwright.Proofs.Contexts
import Sketchwright.Proofs.Extension

/-! The two readings of names agree. The inferencer decides what a name is in the order of the text;
the sketch looks it up in block scopes, where hoisted names stand at the top of the function. What
makes them agree is that no global that was read is hoisted over later, and that no name of the
runtime is hoisted at all. -/

namespace Sketchwright.Inference

/-- A frame and the declarations in scope at its place, in a function that hoists the names `top` in
all: what is bound is declared, and behind it stand the names that are still to be hoisted. -/
structure Agrees (top : Context) (fr : Frame) (context : Context) : Prop where
  own : ∀ {x kind}, fr.scope.meaning x = .own kind → context.lookup x = some kind
  hoisted : ∀ {x kind}, (∀ k, fr.scope.meaning x ≠ .own k) → top.lookup x = some kind →
    context.lookup x = some kind
  outer : ∀ {x kind}, fr.scope.meaning x = .outer kind → top.lookup x = none →
    context.lookup x = some kind
  missing : ∀ {x}, fr.scope.meaning x = .missing → top.lookup x = none → context.lookup x = none

/-- What the frames of a function are on the way to: the names that it hoists
in all, and its result. -/
structure Ahead (table : CallTable) (returns : Option Kind) (top : Context) (result : Result)
    (fr : Frame) : Prop where
  hoisted : fr.hoisted ⊆ top
  nodup : (top.map Prod.fst).Nodup
  unseen : ∀ x ∈ fr.scope.seen, top.lookup x = none
  unshared : ∀ x ∈ fr.scope.shared, top.lookup x = none
  unknown : ∀ x kind, top.lookup x = some kind → table.isKnown x = false
  annotated : result.annotated = returns.isSome
  known : ∀ kind, returns = some kind → result.kind = kind
  returned : returns = none → ∀ kind, fr.returned = some kind → result.kind = kind

/-- A reading of the inferencer and the same site in the resolved text. -/
structure Matches (table : CallTable) (reading : Reading) (site : Site) : Prop where
  expr : site.expr = reading.expr
  kinds : ∀ x ∈ reading.expr.vars, ∃ kind, reading.scope.kind? table x = some kind ∧
    site.context.kind? table x = some kind
  declaring : ∀ x ∈ reading.expr.vars, site.declaring = some x → (table.constant? x).isSome

section Names

variable {table : CallTable} {returns : Option Kind} {top context : Context} {result : Result}
  {fr later : Frame}

theorem Ahead.of_extends (hahead : Ahead table returns top result later)
    (hextends : fr.Extends later) : Ahead table returns top result fr := by
  obtain ⟨added, hadded, _⟩ := hextends.hoisted
  refine ⟨fun v hv => hahead.hoisted ?_, hahead.nodup,
    fun x hx => hahead.unseen x (hextends.seen hx),
    fun x hx => hahead.unshared x (hextends.shared hx), hahead.unknown,
    hahead.annotated, hahead.known,
    fun hnone kind hk => hahead.returned hnone kind (hextends.returned hk)⟩
  rw [hadded]
  exact List.mem_append_left _ hv

theorem Ahead.of_leave {fr : Frame} (h : Ahead table returns top result fr.leave) :
    Ahead table returns top result fr :=
  ⟨h.hoisted, h.nodup, h.unseen, h.unshared, h.unknown, h.annotated, h.known, h.returned⟩

theorem Ahead.of_afterLoop {fr : Frame} {var : String} {binding : Binding}
    (h : Ahead table returns top result (fr.afterLoop var binding)) :
    Ahead table returns top result fr := by
  cases binding <;>
    exact ⟨h.hoisted, h.nodup, h.unseen, h.unshared, h.unknown, h.annotated, h.known, h.returned⟩

/-- A name that is read has the same kind in both readings. -/
theorem Agrees.kind? (h : Agrees top fr context) {names : List String}
    (hextends : (fr.readAll names).Extends later)
    (hahead : Ahead table returns top result later) {x : String} (hx : x ∈ names) {kind : Kind}
    (hk : fr.scope.kind? table x = some kind) : context.kind? table x = some kind := by
  unfold Scope.kind? at hk
  unfold Context.kind?
  cases hm : fr.scope.meaning x with
  | own k =>
    simp only [hm] at hk
    rw [h.own hm, Option.some_or, hk]
  | outer k =>
    simp only [hm] at hk
    have hnone := hahead.unseen x (hextends.seen (Frame.seen_readAll hx hm))
    rw [h.outer hm hnone, Option.some_or, hk]
  | later defined => simp [hm] at hk
  | missing =>
    simp only [hm] at hk
    have hnone : top.lookup x = none := by
      cases hh : top.lookup x with
      | none => rfl
      | some k =>
        have hunknown := (CallTable.call?_of_not_known (hahead.unknown x k hh)).2
        rw [hunknown] at hk
        cases hk
    rw [h.missing hm hnone, Option.none_or, hk]

/-- An expression that is read has the same kind in both readings. -/
theorem Agrees.le (h : Agrees top fr context) {names : List String}
    (hextends : (fr.readAll names).Extends later)
    (hahead : Ahead table returns top result later) {read : List String} (hread : read ⊆ names) :
    ∀ x ∈ read, ∀ kind, fr.scope.kind? table x = some kind → context.kind? table x = some kind :=
  fun _ hx _ hk => h.kind? hextends hahead (hread hx) hk

theorem Matches.of_le {scope : Scope} {e : Expr} {declaring : Option String}
    (hknown : ∀ x ∈ e.vars, ∃ kind, scope.kind? table x = some kind)
    (hle : ∀ x ∈ e.vars, ∀ kind, scope.kind? table x = some kind →
      context.kind? table x = some kind)
    (hdeclaring : ∀ x ∈ e.vars, declaring = some x → (table.constant? x).isSome) :
    Matches table ⟨scope, e⟩ ⟨context, declaring, e⟩ := by
  refine ⟨rfl, fun x hx => ?_, hdeclaring⟩
  obtain ⟨kind, hkind⟩ := hknown x hx
  exact ⟨kind, hkind, hle x hx kind hkind⟩

/-- A name that is bound for the first time is not read in its own declaration, unless it is a
constant of the runtime. -/
theorem constant_of_free {names : List String} {x : String}
    (hfree : (fr.readAll names).scope.Free x) (hx : x ∈ names) {kind : Kind}
    (hk : fr.scope.kind? table x = some kind) :
    (table.constant? x).isSome := by
  have hm : (fr.readAll names).scope.meaning x = fr.scope.meaning x := Scope.meaning_readAll _ _ _
  unfold Scope.kind? at hk
  cases hmeaning : fr.scope.meaning x with
  | own k => exact absurd (hm.trans hmeaning) (hfree.not_own k)
  | outer k =>
    have hseen := Frame.seen_readAll hx hmeaning
    have hunseen := hfree.unseen (by rw [hm, hmeaning]; exact nofun)
    simp [Scope.isSeen, hseen] at hunseen
  | later defined => simp [hmeaning] at hk
  | missing =>
    simp only [hmeaning] at hk
    rw [hk]
    rfl

/-- A name that is bound has one kind in both readings. -/
theorem Agrees.bound (h : Agrees top fr context) (hahead : Ahead table returns top result fr)
    {x : String} {kind : Kind} (hbound : fr.scope.bound? x = some kind) :
    context.lookup x = some kind ∧ fr.scope.kind? table x = some kind := by
  unfold Scope.bound? at hbound
  unfold Scope.kind?
  cases hm : fr.scope.meaning x with
  | own k =>
    simp only [hm, Option.some.injEq] at hbound
    subst hbound
    exact ⟨h.own hm, rfl⟩
  | outer k =>
    simp only [hm, Option.ite_none_right_eq_some, Option.some.injEq] at hbound
    obtain ⟨hshared, rfl⟩ := hbound
    exact ⟨h.outer hm (hahead.unshared x (by simpa [Scope.isShared] using hshared)), rfl⟩
  | later | missing => simp [hm] at hbound

theorem Scope.kind?_of_own {scope : Scope} {x : String} {kind : Kind}
    (h : scope.meaning x = .own kind) : scope.kind? table x = some kind := by
  simp [Scope.kind?, h]

theorem Matches.name {scope : Scope} {x : String} {kind : Kind}
    (hscope : scope.kind? table x = some kind) (hcontext : context.lookup x = some kind) :
    Matches table ⟨scope, .name x⟩ ⟨context, none, .name x⟩ := by
  refine ⟨rfl, fun y hy => ⟨kind, ?_, ?_⟩, fun _ _ h => nomatch h⟩
  · rw [List.mem_singleton.mp hy, hscope]
  · rw [List.mem_singleton.mp hy, Context.kind?, hcontext, Option.some_or]

/-- A name that is bound in a frame and declared in a context at once. -/
theorem Agrees.bind {fr' : Frame} {context' : Context} {x : String} {kind : Kind}
    (h : Agrees top fr context)
    (hm : ∀ y, fr'.scope.meaning y = if y = x then .own kind else fr.scope.meaning y)
    (hx : context'.lookup x = some kind)
    (hother : ∀ y, y ≠ x → context'.lookup y = context.lookup y) : Agrees top fr' context' := by
  have hne : ∀ {y}, (∀ k, fr'.scope.meaning y ≠ .own k) →
      y ≠ x ∧ fr'.scope.meaning y = fr.scope.meaning y := by
    intro y hy
    have hyx : y ≠ x := by
      rintro rfl
      exact hy kind ((hm y).trans (if_pos rfl))
    exact ⟨hyx, (hm y).trans (if_neg hyx)⟩
  refine ⟨fun {y k} hy => ?_, fun {y k} hy htop => ?_, fun {y k} hy htop => ?_,
    fun {y} hy htop => ?_⟩
  · by_cases hyx : y = x
    · subst hyx
      rw [hm, if_pos rfl] at hy
      cases hy
      exact hx
    · rw [hm, if_neg hyx] at hy
      rw [hother y hyx, h.own hy]
  · obtain ⟨hyx, hsame⟩ := hne hy
    rw [hother y hyx]
    exact h.hoisted (fun j => hsame ▸ hy j) htop
  · obtain ⟨hyx, hsame⟩ := hne (Scope.not_own_of_outer hy)
    rw [hother y hyx, h.outer (hsame ▸ hy) htop]
  · obtain ⟨hyx, hsame⟩ := hne (fun k hk => by rw [hy] at hk; cases hk)
    rw [hother y hyx, h.missing (hsame ▸ hy) htop]

theorem Agrees.declare (h : Agrees top fr context) (hwf : fr.Wf table) {x : String}
    (hfree : fr.scope.Free x) (kind : Kind) (line : Nat) :
    Agrees top (fr.declare x kind line) ((x, kind) :: context) := by
  refine h.bind (hwf.meaning_declare kind line hfree) List.lookup_cons_self fun y hy => ?_
  have hbeq : (y == x) = false := by simpa using hy
  rw [List.lookup_cons, hbeq]

/-- A name that is hoisted is declared already, at the top of its function. -/
theorem Agrees.hoist (h : Agrees top fr context) (hwf : fr.Wf table) {x : String}
    (hfree : fr.scope.Free x) {kind : Kind} (line : Nat) (htop : top.lookup x = some kind) :
    Agrees top (fr.hoist x kind line) context :=
  h.bind (hwf.meaning_declare kind line hfree) (h.hoisted hfree.not_own htop) fun _ _ => rfl

/-- After a loop the declarations before it are in scope again. -/
theorem Agrees.afterLoop {last fr' : Frame} {x : String} {kind : Kind} (h : Agrees top fr context)
    (hlast : Agrees top last ((x, kind) :: context)) (hfree : ∀ k, fr.scope.meaning x ≠ .own k)
    (hm : ∀ y, fr'.scope.meaning y = if y = x then fr.scope.meaning x else last.scope.meaning y) :
    Agrees top fr' context := by
  have hx : fr'.scope.meaning x = fr.scope.meaning x := (hm x).trans (if_pos rfl)
  have hother : ∀ {y}, y ≠ x → fr'.scope.meaning y = last.scope.meaning y ∧
      ((x, kind) :: context).lookup y = context.lookup y := by
    intro y hy
    have hbeq : (y == x) = false := by simpa using hy
    exact ⟨(hm y).trans (if_neg hy), by rw [List.lookup_cons, hbeq]⟩
  refine ⟨fun {y k} hy => ?_, fun {y k} hy htop => ?_, fun {y k} hy htop => ?_,
    fun {y} hy htop => ?_⟩
  all_goals by_cases hyx : y = x
  · subst hyx
    exact absurd (hx ▸ hy) (hfree k)
  · obtain ⟨hsame, hlookup⟩ := hother hyx
    rw [← hlookup, hlast.own (hsame ▸ hy)]
  · subst hyx
    exact h.hoisted hfree htop
  · obtain ⟨hsame, hlookup⟩ := hother hyx
    rw [← hlookup, hlast.hoisted (fun j => hsame ▸ hy j) htop]
  · subst hyx
    exact h.outer (hx ▸ hy) htop
  · obtain ⟨hsame, hlookup⟩ := hother hyx
    rw [← hlookup, hlast.outer (hsame ▸ hy) htop]
  · subst hyx
    exact h.missing (hx ▸ hy) htop
  · obtain ⟨hsame, hlookup⟩ := hother hyx
    rw [← hlookup, hlast.missing (hsame ▸ hy) htop]

/-- Frames in which every name means the same agree with the same declarations. -/
theorem Agrees.of_meaning {fr' : Frame} (h : Agrees top fr context)
    (hm : ∀ y, fr'.scope.meaning y = fr.scope.meaning y) : Agrees top fr' context := by
  refine ⟨fun {y _} hy => h.own (hm y ▸ hy), fun {y _} hy => h.hoisted fun k => hm y ▸ hy k,
    fun {y _} hy => h.outer (hm y ▸ hy), fun {y} hy => h.missing (hm y ▸ hy)⟩

theorem lookup_of_mem {α : Type} {entries : List (String × α)}
    (hnodup : (entries.map Prod.fst).Nodup) {x : String} {a : α} (hx : (x, a) ∈ entries) :
    entries.lookup x = some a := by
  induction entries with
  | nil => cases hx
  | cons entry entries ih =>
    obtain ⟨y, b⟩ := entry
    rw [List.map_cons, List.nodup_cons] at hnodup
    rcases List.mem_cons.mp hx with heq | hx
    · cases heq
      exact List.lookup_cons_self
    · have hbeq : (x == y) = false := by
        refine beq_eq_false_iff_ne.mpr fun heq => hnodup.1 ?_
        exact heq ▸ List.mem_map.mpr ⟨_, hx, rfl⟩
      rw [List.lookup_cons, hbeq]
      exact ih hnodup.2 hx

end Names

section Statements

variable {c : Callees} {returns : Option Kind} {top : Context} {result : Result}

/-- Inside a block no statement declares a name for the statements after it. -/
theorem Resolves.after_eq {fr fr' : Frame} {stmt stmt' : Stmt} {readings : List Reading}
    (h : Resolves c returns fr stmt stmt' fr' readings) (hdepth : fr.depth ≠ 0)
    (context : Context) : context.after stmt' = context := by
  cases h with
  | first _ _ _ _ hzero => exact absurd hzero hdepth
  | inert hstmt => cases stmt <;> first | rfl | cases hstmt
  | _ => rfl

theorem ResolvesAll.afterAll_eq {fr fr' : Frame} {stmts stmts' : List Stmt}
    {readings : List Reading} (h : ResolvesAll c returns fr stmts stmts' fr' readings)
    (hwf : fr.Wf c.table) (hdepth : fr.depth ≠ 0) (context : Context) :
    context.afterAll stmts' = context := by
  induction stmts generalizing fr stmts' readings with
  | nil =>
    cases h
    rfl
  | cons stmt stmts ih =>
    cases h with
    | cons hhead htail =>
      obtain ⟨hwf₁, hextends⟩ := hhead.extends stmt hwf
      show Context.afterAll (context.after _) _ = context
      rw [hhead.after_eq hdepth]
      exact ih htail hwf₁ (hextends.depth ▸ hdepth)

theorem Declares.accepts {declared : Option Kind} {found kind : Kind}
    (h : Declares declared found kind) : kind.accepts found = true := by
  cases h with
  | inferred => exact Kind.accepts_self _
  | annotated _ haccepts => exact haccepts

theorem Assigned.known {names : Names} {e : Expr} {kind : Kind} (h : Assigned c names e kind)
    {x : String} (hx : x ∈ e.vars) : ∃ kind, names x = some kind := by
  cases h with
  | value hkind => exact hkind.known hx
  | list _ hitems =>
    obtain ⟨item, hitem, hx⟩ := Expr.mem_varsAll.mp hx
    exact (hitems item hitem).known hx

theorem Assigned.mono {names names' : Names} {e : Expr} {kind : Kind}
    (h : Assigned c names e kind)
    (hle : ∀ x ∈ e.vars, ∀ k, names x = some k → names' x = some k) :
    Assigned c names' e kind := by
  cases h with
  | value hkind => exact .value (hkind.mono hle)
  | list hne hitems =>
    exact .list hne fun item hitem => (hitems item hitem).mono fun x hx =>
      hle x (Expr.mem_varsAll.mpr ⟨item, hitem, hx⟩)

/-- A resolved statement in a context: each reading has its site, the kinds fit, and the frame and
the context agree again after it. -/
structure Simulated (c : Callees) (top : Context) (result : Result) (after : Context)
    (occurrences : List Occurrence) (last : Frame) (readings : List Reading) : Prop where
  sites : List.Forall₂ (Matches c.table) readings (occurrences.flatMap Occurrence.sites)
  typed : ∀ o ∈ occurrences, o.stmt.Typed c result o.context
  agrees : Agrees top last after

theorem forall₂_flatMap_append {R : Reading → Site → Prop} {r₁ r₂ : List Reading}
    {os₁ os₂ : List Occurrence} (h₁ : List.Forall₂ R r₁ (os₁.flatMap Occurrence.sites))
    (h₂ : List.Forall₂ R r₂ (os₂.flatMap Occurrence.sites)) :
    List.Forall₂ R (r₁ ++ r₂) ((os₁ ++ os₂).flatMap Occurrence.sites) := by
  rw [List.flatMap_append]
  exact List.rel_append h₁ h₂

/-- The bounds of a loop are read one after the other. -/
theorem Matches.of_map {table : CallTable} {scope : Scope} {context : Context}
    {declaring : Option String} {es : List Expr}
    (h : ∀ e ∈ es, Matches table ⟨scope, e⟩ ⟨context, declaring, e⟩) :
    List.Forall₂ (Matches table) (es.map (⟨scope, ·⟩)) (es.map (⟨context, declaring, ·⟩)) := by
  induction es with
  | nil => exact .nil
  | cons e es ih =>
    obtain ⟨he, hes⟩ := List.forall_mem_cons.mp h
    exact .cons he (ih hes)

/-- The header of a loop is read before its body. -/
theorem forall₂_loop {R : Reading → Site → Prop} {header : List Reading} {var : Reading}
    {body : List Reading} {headerSites : List Site} {varSite : Site} {bodySites : List Site}
    (hheader : List.Forall₂ R header headerSites) (hvar : R var varSite)
    (hbody : List.Forall₂ R body bodySites) :
    List.Forall₂ R (header ++ var :: body) ((headerSites ++ [varSite]) ++ bodySites) := by
  rw [List.append_assoc]
  exact List.rel_append hheader (.cons hvar hbody)

/-- What a `return` gives agrees with the final result of its function. -/
theorem Returned.agrees {before after : Option Kind} {kind : Kind}
    (h : Returned returns before kind after) (hannotated : result.annotated = returns.isSome)
    (hknown : ∀ k, returns = some k → result.kind = k)
    (hreturned : returns = none → ∀ k, after = some k → result.kind = k) :
    (kind = .void → result.kind = .void) ∧ (kind.isScalar = true → result.kind ≠ .void ∧
      if result.annotated then result.kind.accepts kind = true else kind = result.kind) := by
  cases h with
  | annotated hkind =>
    rw [hannotated, hknown _ rfl]
    split at hkind
    · next hvoid =>
      subst hkind
      exact ⟨fun _ => hvoid, nofun⟩
    · next hvoid =>
      refine ⟨fun hk => ?_, fun _ => ⟨hvoid, hkind⟩⟩
      subst hk
      exact Kind.eq_void_of_accepts hkind
  | first | again =>
    have hresult := hreturned rfl kind rfl
    rw [hannotated, hresult]
    exact ⟨id, fun hscalar => ⟨Kind.ne_void_of_isScalar hscalar, rfl⟩⟩

mutual

/-- The inferencer and the sketch read a resolved statement alike. -/
theorem Resolves.simulated {fr fr' : Frame} (stmt : Stmt) {stmt' : Stmt} {readings : List Reading}
    {context : Context} (h : Resolves c returns fr stmt stmt' fr' readings) (hwf : fr.Wf c.table)
    (hahead : Ahead c.table returns top result fr') (hagrees : Agrees top fr context) :
    Simulated c top result (context.after stmt') (stmt'.occurrences context) fr' readings := by
  cases stmt with
  | function =>
    cases h with
    | inert h => cases h
  | assign line target value declared b =>
    cases h with
    | again hvalue _ _ hbound =>
      have hle := hagrees.le (.refl (fr.readAll value.vars)) hahead (List.Subset.refl _)
      obtain ⟨hlookup, hkind⟩ := hagrees.bound
        (hahead.of_extends (hwf.readAll value.vars).2) hbound
      refine ⟨.cons (.of_le (fun _ => hvalue.known) hle nofun) (.cons (.name ?_ hlookup) .nil),
        fun o ho => ?_, hagrees.of_meaning fun y => Scope.meaning_readAll _ _ y⟩
      · exact (congrFun (Scope.kind?_readAll _ _ _) _).trans hkind
      · rw [List.mem_singleton.mp ho]
        exact .assign (hvalue.mono hle) hlookup (Kind.accepts_self _)
    | @first _ _ name _ _ _ found kind hvalue hname hfree hkind hdepth =>
      obtain ⟨hwf₁, _⟩ := hwf.readAll value.vars
      obtain ⟨_, hextends⟩ := hwf₁.declare kind line hfree
      have hle := hagrees.le hextends hahead (List.Subset.refl _)
      have hagrees₁ : Agrees top (fr.readAll value.vars) context :=
        hagrees.of_meaning fun y => Scope.meaning_readAll _ _ y
      have hagrees₂ := hagrees₁.declare hwf₁ hfree kind line
      have hown := (hwf₁.meaning_declare kind line hfree name).trans (if_pos rfl)
      refine ⟨.cons (.of_le (fun _ => hvalue.known) hle fun x hx hd => ?_)
        (.cons (.name (Scope.kind?_of_own hown) (hagrees₂.own hown)) .nil),
        fun o ho => ?_, hagrees₂⟩
      · cases hd
        obtain ⟨_, hk⟩ := hvalue.known hx
        exact constant_of_free hfree hx hk
      · rw [List.mem_singleton.mp ho]
        exact .declare (hvalue.mono hle) hkind.accepts hname.unknown
    | @hoist _ _ name _ _ _ found kind hvalue hname hfree hkind hdepth =>
      obtain ⟨hwf₁, _⟩ := hwf.readAll value.vars
      obtain ⟨_, hextends⟩ := hwf₁.hoist kind line hfree hname.unknown
      have hle := hagrees.le hextends hahead (List.Subset.refl _)
      have hagrees₁ : Agrees top (fr.readAll value.vars) context :=
        hagrees.of_meaning fun y => Scope.meaning_readAll _ _ y
      have htop : top.lookup name = some kind :=
        lookup_of_mem hahead.nodup (hahead.hoisted (List.mem_append_right _ (.head _)))
      have hagrees₂ := hagrees₁.hoist hwf₁ hfree line htop
      have hown := (hwf₁.meaning_declare kind line hfree name).trans (if_pos rfl)
      refine ⟨.cons (.of_le (fun _ => hvalue.known) hle nofun)
        (.cons (.name (Scope.kind?_of_own hown) (hagrees₂.own hown)) .nil),
        fun o ho => ?_, hagrees₂⟩
      rw [List.mem_singleton.mp ho]
      exact .assign (hvalue.mono hle) (hagrees₂.own hown) hkind.accepts
    | @element _ _ list position _ _ _ element n _ _ _ hlist hposition hindex hvalue haccepts =>
      have hread : (fr.read (.index list position)).read value =
          fr.readAll (list :: position.vars ++ value.vars) :=
        (Frame.readAll_append _ _ _).symm
      rw [hread] at hahead ⊢
      have hle := hagrees.le (.refl _) hahead (List.Subset.refl _)
      have hindexKnown : ∀ x ∈ list :: position.vars, ∃ kind,
          fr.scope.kind? c.table x = some kind :=
        List.forall_mem_cons.mpr ⟨⟨_, hlist⟩, fun _ => hposition.known⟩
      have hle₁ := fun x (hx : x ∈ list :: position.vars) => hle x (List.mem_append_left _ hx)
      have hle₂ := fun x (hx : x ∈ value.vars) => hle x (List.mem_append_right _ hx)
      have hkinds : (fr.read (.index list position)).scope.kind? c.table = fr.scope.kind? c.table :=
        Scope.kind?_readAll _ _ _
      refine ⟨.cons (.of_le hindexKnown hle₁ nofun) (.cons (.of_le ?_ ?_ nofun) .nil),
        fun o ho => ?_, hagrees.of_meaning fun y => Scope.meaning_readAll _ _ y⟩
      · rw [hkinds]
        exact fun _ => hvalue.known
      · rw [hkinds]
        exact hle₂
      · rw [List.mem_singleton.mp ho]
        exact .element (hle₁ list (List.mem_cons_self ..) _ hlist)
          (hposition.mono fun x hx => hle₁ x (List.mem_cons_of_mem _ hx)) hindex (hvalue.mono hle₂)
          haccepts
    | inert h => cases h
  | conditional line condition thenBody elseBody =>
    cases h with
    | conditional hcondition hkind hthen helse =>
      obtain ⟨hwf₁, hextends₁⟩ := hwf.readAll condition.vars
      have hwf₁' : (fr.read condition).enter.Wf c.table :=
        ⟨hwf₁.shared, hwf₁.seen, hwf₁.hoisted, hwf₁.unknown, hwf₁.nodup⟩
      obtain ⟨hwf₂, hextends₂⟩ := hthen.extends thenBody hwf₁'
      obtain ⟨_, hextends₃⟩ := helse.extends elseBody hwf₂
      have hle := hagrees.le (hextends₂.trans hextends₃).leave hahead (List.Subset.refl _)
      have hahead₃ := hahead.of_leave
      have hagrees₁ : Agrees top (fr.read condition).enter context :=
        hagrees.of_meaning fun y => Scope.meaning_readAll _ _ y
      have hdepth : (fr.read condition).enter.depth ≠ 0 := Nat.succ_ne_zero _
      have hfirst := hthen.simulated thenBody hwf₁' (hahead₃.of_extends hextends₃) hagrees₁
      rw [hthen.afterAll_eq hwf₁' hdepth] at hfirst
      have hsecond := helse.simulated elseBody hwf₂ hahead₃ hfirst.agrees
      rw [helse.afterAll_eq hwf₂ (hextends₂.depth ▸ hdepth)] at hsecond
      refine ⟨.cons (.of_le (fun _ => hcondition.known) hle nofun) ?_, fun o ho => ?_,
        hsecond.agrees.of_meaning fun _ => rfl⟩
      · exact forall₂_flatMap_append hfirst.sites hsecond.sites
      · rcases List.mem_cons.mp ho with rfl | ho
        · exact .conditional (hcondition.mono hle) hkind
        · rcases List.mem_append.mp ho with ho | ho
          · exact hfirst.typed o ho
          · exact hsecond.typed o ho
    | inert h => cases h
  | loop line var bounds b body =>
    cases h with
    | loopAgain hbounds hvar hbound hbody =>
      obtain ⟨hwf₁, hextends₁⟩ := hwf.readAll (Expr.varsAll bounds.exprs)
      obtain ⟨hwf₂, hextends₂⟩ := hbody.extends body (hwf₁.enterLoop var)
      obtain ⟨_, hextends₃⟩ := hwf₂.afterLoop hextends₂
      have hle := hagrees.le hextends₃ hahead (List.Subset.refl _)
      have hagrees₁ : Agrees top ((fr.readAll (Expr.varsAll bounds.exprs)).enterLoop var)
          context := hagrees.of_meaning fun y => Scope.meaning_readAll _ _ y
      have hrest := hbody.simulated body (hwf₁.enterLoop var) hahead.of_afterLoop hagrees₁
      rw [hbody.afterAll_eq (hwf₁.enterLoop var) (Nat.succ_ne_zero _)] at hrest
      obtain ⟨hlookup, hkind⟩ := hagrees.bound
        (hahead.of_extends (hextends₁.trans hextends₃)) hbound
      have hle' : ∀ e ∈ bounds.exprs, ∀ x ∈ e.vars, _ :=
        fun e he x hx => hle x (Expr.mem_varsAll.mpr ⟨e, he, hx⟩)
      refine ⟨?_, fun o ho => ?_, hrest.agrees.of_meaning fun _ => rfl⟩
      · have hheader : List.Forall₂ (Matches c.table) (bounds.exprs.map (⟨fr.scope, ·⟩))
            (bounds.exprs.map (⟨context, none, ·⟩)) := Matches.of_map fun e he => by
          obtain ⟨_, hk, _⟩ := hbounds e he
          exact .of_le (fun _ => hk.known) (hle' e he) nofun
        exact forall₂_loop hheader
          (.name ((congrFun (Scope.kind?_readAll _ _ _) _).trans hkind) hlookup) hrest.sites
      · rcases List.mem_cons.mp ho with rfl | ho
        · refine .loop (fun e he => ?_) (.inr ⟨rfl, hlookup⟩)
          obtain ⟨k, hk, hinteger⟩ := hbounds e he
          exact ⟨k, hk.mono (hle' e he), hinteger⟩
        · exact hrest.typed o ho
    | loopFirst hbounds hvar hfree hbody =>
      obtain ⟨hwf₁, hextends₁⟩ := hwf.readAll (Expr.varsAll bounds.exprs)
      obtain ⟨hwf₂, _⟩ := hwf₁.declare .int line hfree
      obtain ⟨hwf₃, hextends₃⟩ := hbody.extends body (hwf₂.enterLoop var)
      obtain ⟨_, hextends₄, hm⟩ := hwf₁.afterDeclaringLoop hfree hwf₃ hextends₃
      have hle := hagrees.le hextends₄ hahead (List.Subset.refl _)
      have hle' : ∀ e ∈ bounds.exprs, ∀ x ∈ e.vars, _ :=
        fun e he x hx => hle x (Expr.mem_varsAll.mpr ⟨e, he, hx⟩)
      have hagrees₁ : Agrees top (fr.readAll (Expr.varsAll bounds.exprs)) context :=
        hagrees.of_meaning fun y => Scope.meaning_readAll _ _ y
      have hagrees₂ := hagrees₁.declare hwf₁ hfree .int line
      have hown := (hwf₁.meaning_declare .int line hfree var).trans (if_pos rfl)
      have hrest := hbody.simulated body (hwf₂.enterLoop var) hahead.of_afterLoop
        (hagrees₂.of_meaning fun _ => rfl)
      rw [hbody.afterAll_eq (hwf₂.enterLoop var) (Nat.succ_ne_zero _)] at hrest
      refine ⟨?_, fun o ho => ?_, hagrees₁.afterLoop hrest.agrees hfree.not_own hm⟩
      · have hheader : List.Forall₂ (Matches c.table) (bounds.exprs.map (⟨fr.scope, ·⟩))
            (bounds.exprs.map (⟨context, some var, ·⟩)) := Matches.of_map fun e he => by
          obtain ⟨_, hk, _⟩ := hbounds e he
          refine .of_le (fun _ => hk.known) (hle' e he) fun x hx hd => ?_
          cases hd
          obtain ⟨_, hkind⟩ := hk.known hx
          exact constant_of_free hfree (Expr.mem_varsAll.mpr ⟨e, he, hx⟩) hkind
        exact forall₂_loop hheader (.name (Scope.kind?_of_own hown) (hagrees₂.own hown)) hrest.sites
      · rcases List.mem_cons.mp ho with rfl | ho
        · refine .loop (fun e he => ?_) (.inl rfl)
          obtain ⟨k, hk, hinteger⟩ := hbounds e he
          exact ⟨k, hk.mono (hle' e he), hinteger⟩
        · exact hrest.typed o ho
    | inert h => cases h
  | expr line value =>
    cases h with
    | call hcall =>
      have hle := hagrees.le (.refl (fr.readAll (Expr.vars (.call _ _)))) hahead
        (List.Subset.refl _)
      refine ⟨.cons (.of_le (fun _ => hcall.known_all) hle nofun) .nil, fun o ho => ?_,
        hagrees.of_meaning fun y => Scope.meaning_readAll _ _ y⟩
      rw [List.mem_singleton.mp ho]
      exact .call (hcall.mono hle)
    | expr hvalue =>
      have hle := hagrees.le (.refl (fr.readAll value.vars)) hahead (List.Subset.refl _)
      refine ⟨.cons (.of_le (fun _ => hvalue.known) hle nofun) .nil, fun o ho => ?_,
        hagrees.of_meaning fun y => Scope.meaning_readAll _ _ y⟩
      rw [List.mem_singleton.mp ho]
      exact .expr (hvalue.mono hle)
    | inert h => cases h
  | give line value =>
    cases h with
    | @give _ _ value kind after hvalue hreturned =>
      have hextends : (fr.readAll value.vars).Extends { fr.read value with returned := after } :=
        { Frame.Extends.refl _ with returned := hreturned.keeps }
      have hle := hagrees.le hextends hahead (List.Subset.refl _)
      refine ⟨.cons (.of_le (fun _ => hvalue.known) hle nofun) .nil, fun o ho => ?_,
        hagrees.of_meaning fun y => Scope.meaning_readAll _ _ y⟩
      rw [List.mem_singleton.mp ho]
      obtain ⟨_, hresult⟩ := hreturned.agrees hahead.annotated hahead.known hahead.returned
      obtain ⟨hvoid, hfits⟩ := hresult hvalue.isScalar
      exact .give (hvalue.mono hle) hfits hvoid
    | bare hreturned =>
      refine ⟨.nil, fun o ho => ?_, hagrees.of_meaning fun _ => rfl⟩
      rw [List.mem_singleton.mp ho]
      exact .bare ((hreturned.agrees hahead.annotated hahead.known hahead.returned).1 rfl)
    | inert h => cases h
  | global line names =>
    cases h with
    | share hnames =>
      refine ⟨.nil, fun o ho => ?_,
        hagrees.of_meaning (Frame.meaning_share fun name hname => (hnames name hname).1)⟩
      rw [List.mem_singleton.mp ho]
      exact .share
    | inert h => cases h
  | comment | blank | pass | stop | skip =>
    cases h with
    | inert hstmt =>
      refine ⟨.nil, fun o ho => ?_, hagrees⟩
      rw [List.mem_singleton.mp ho]
      exact .inert rfl

theorem ResolvesAll.simulated {fr fr' : Frame} (stmts : List Stmt) {stmts' : List Stmt}
    {readings : List Reading} {context : Context}
    (h : ResolvesAll c returns fr stmts stmts' fr' readings) (hwf : fr.Wf c.table)
    (hahead : Ahead c.table returns top result fr') (hagrees : Agrees top fr context) :
    Simulated c top result (context.afterAll stmts') (occurrencesIn context stmts') fr'
      readings := by
  cases stmts with
  | nil =>
    cases h
    exact ⟨.nil, nofun, hagrees⟩
  | cons stmt stmts =>
    cases h with
    | cons hhead htail =>
      obtain ⟨hwf₁, _⟩ := hhead.extends stmt hwf
      obtain ⟨_, hextends₂⟩ := htail.extends stmts hwf₁
      have hfirst := hhead.simulated stmt hwf (hahead.of_extends hextends₂) hagrees
      have hrest := htail.simulated stmts hwf₁ hahead hfirst.agrees
      refine ⟨?_, fun o ho => ?_, hrest.agrees⟩
      · exact forall₂_flatMap_append hfirst.sites hrest.sites
      · rcases List.mem_append.mp ho with ho | ho
        · exact hfirst.typed o ho
        · exact hrest.typed o ho

end

end Statements

end Sketchwright.Inference
