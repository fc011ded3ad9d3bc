import Sketchwright.Proofs.Binding

/-! What the statements of a body keep. A name that is bound stays bound with its kind, a name that
was read as a global stays one, and hoisted names are bound, each for the first time. -/

namespace Sketchwright.Inference

namespace Scope

variable {s : Scope} {x y : String} {kind : Kind} {line : Nat}

/-- What a name means behind the local names. -/
def outward (s : Scope) (name : String) : Meaning :=
  match s.global? name with
  | some v => if v.line < s.line then .outer v.kind else .later v.line
  | none => .missing

theorem outward_ne_own (s : Scope) (x : String) (kind : Kind) : s.outward x ≠ .own kind := by
  unfold outward
  split
  · split <;> exact nofun
  · exact nofun

theorem meaning_eq (s : Scope) (x : String) :
    s.meaning x = match s.local? x with
      | some v => .own v.kind
      | none => s.outward x := rfl

theorem meaning_of_not_own (h : ∀ kind, s.meaning x ≠ .own kind) : s.meaning x = s.outward x := by
  rw [meaning_eq] at h ⊢
  split
  · next v hv =>
    rw [hv] at h
    exact absurd rfl (h v.kind)
  · rfl

@[simp] theorem remove_shared (s : Scope) (x : String) : (s.remove x).shared = s.shared := rfl

theorem lookup_remove (s : Scope) (x y : String) :
    (s.remove x).locals.lookup y = if y = x then none else s.locals.lookup y := by
  simp only [remove]
  induction s.locals with
  | nil => simp
  | cons v vs ih =>
    obtain ⟨name, v⟩ := v
    by_cases hname : name = x
    · rw [List.filter_cons_of_neg (by simp [hname]), ih]
      by_cases hy : y = x
      · simp [hy]
      · have hbeq : (y == name) = false := by simpa [hname] using hy
        simp only [hy, if_false, List.lookup_cons, hbeq]
    · rw [List.filter_cons_of_pos (by simp [hname]), List.lookup_cons, List.lookup_cons, ih]
      by_cases hy : y = x
      · subst hy
        have hbeq : (y == name) = false := beq_eq_false_iff_ne.mpr (Ne.symm hname)
        simp only [hbeq, if_true]
      · simp only [hy, if_false]

/-- A name that is removed means again what it means outside. -/
theorem meaning_remove (s : Scope) (x y : String) :
    (s.remove x).meaning y = if y = x then s.outward x else s.meaning y := by
  have hlocal : (s.remove x).local? y = if y = x then none else s.local? y := by
    by_cases hy : y = x <;> simp [local?, isShared, remove_shared, lookup_remove, hy]
  rw [meaning_eq, hlocal]
  by_cases hy : y = x
  · simp only [hy, if_true]
    rfl
  · simp only [hy, if_false]
    rfl

theorem not_own_of_outer (h : s.meaning x = .outer kind) : ∀ kind, s.meaning x ≠ .own kind := by
  intro k hk
  rw [h] at hk
  cases hk

theorem Free.not_own (h : s.Free x) : ∀ kind, s.meaning x ≠ .own kind := by
  intro kind hm
  have hbound := h.unbound
  simp [bound?, hm] at hbound

end Scope

/-- The names of a body that is well under way: shared and seen names are globals, and hoisted names
are bound and no names of the runtime. -/
structure Frame.Wf (table : CallTable) (fr : Frame) : Prop where
  shared : ∀ x ∈ fr.scope.shared, fr.scope.locals.lookup x = none ∧
    ∃ kind, fr.scope.meaning x = .outer kind
  seen : ∀ x ∈ fr.scope.seen, ∃ kind, fr.scope.meaning x = .outer kind
  hoisted : ∀ v ∈ fr.hoisted, fr.scope.meaning v.1 = .own v.2
  unknown : ∀ v ∈ fr.hoisted, table.isKnown v.1 = false
  nodup : (fr.hoisted.map Prod.fst).Nodup

/-- What a later frame of a body keeps of an earlier one. -/
structure Frame.Extends (old new : Frame) : Prop where
  globals : new.scope.globals = old.scope.globals
  line : new.scope.line = old.scope.line
  depth : new.depth = old.depth
  loopVars : new.loopVars = old.loopVars
  own : ∀ {x kind}, old.scope.meaning x = .own kind → new.scope.meaning x = .own kind
  shared : old.scope.shared ⊆ new.scope.shared
  seen : old.scope.seen ⊆ new.scope.seen
  hoisted : ∃ added, new.hoisted = old.hoisted ++ added ∧
    ∀ v ∈ added, ∀ kind, old.scope.meaning v.1 ≠ .own kind
  returned : ∀ {kind}, old.returned = some kind → new.returned = some kind

namespace Frame.Extends

theorem refl (fr : Frame) : fr.Extends fr :=
  ⟨rfl, rfl, rfl, rfl, id, List.Subset.refl _, List.Subset.refl _, ⟨[], by simp, nofun⟩, id⟩

theorem trans {a b c : Frame} (h₁ : a.Extends b) (h₂ : b.Extends c) : a.Extends c where
  globals := h₂.globals.trans h₁.globals
  line := h₂.line.trans h₁.line
  depth := h₂.depth.trans h₁.depth
  loopVars := h₂.loopVars.trans h₁.loopVars
  own := h₂.own ∘ h₁.own
  shared := List.Subset.trans h₁.shared h₂.shared
  seen := List.Subset.trans h₁.seen h₂.seen
  hoisted := by
    obtain ⟨first, hfirst, hnew₁⟩ := h₁.hoisted
    obtain ⟨second, hsecond, hnew₂⟩ := h₂.hoisted
    refine ⟨first ++ second, by rw [hsecond, hfirst, List.append_assoc], fun v hv kind hm => ?_⟩
    rcases List.mem_append.mp hv with hv | hv
    · exact hnew₁ v hv kind hm
    · exact hnew₂ v hv kind (h₁.own hm)
  returned := h₂.returned ∘ h₁.returned

end Frame.Extends

section Steps

variable {table : CallTable} {fr : Frame} {x : String} {kind : Kind} {line : Nat}

theorem Frame.Wf.isShared_of_free (h : fr.Wf table) (hfree : fr.scope.Free x) :
    fr.scope.isShared x = false := by
  cases hshared : fr.scope.isShared x with
  | false => rfl
  | true =>
    obtain ⟨_, kind, hm⟩ := h.shared x (by simpa [Scope.isShared] using hshared)
    have hbound := hfree.unbound
    simp [Scope.bound?, hm, hshared] at hbound

/-- A free name that is declared is bound, and other names mean what they meant. -/
theorem Frame.Wf.meaning_declare (h : fr.Wf table) (kind : Kind) (line : Nat)
    (hfree : fr.scope.Free x) (y : String) :
    (fr.declare x kind line).scope.meaning y = if y = x then .own kind else fr.scope.meaning y := by
  have hshared := h.isShared_of_free hfree
  have hlocal : (fr.declare x kind line).scope.local? y =
      if y = x then some ⟨kind, line⟩ else fr.scope.local? y := by
    by_cases hy : y = x
    · subst hy
      simpa [Scope.local?, Frame.declare, Scope.declare, Scope.isShared] using hshared
    · have hbeq : (y == x) = false := by simpa using hy
      simp [Scope.local?, Frame.declare, Scope.declare, List.lookup_cons, hbeq, hy, Scope.isShared]
  rw [Scope.meaning_eq, hlocal]
  by_cases hy : y = x
  · simp [hy]
  · simp only [hy, if_false]
    rfl

theorem Frame.Wf.declare (h : fr.Wf table) (kind : Kind) (line : Nat) (hfree : fr.scope.Free x) :
    (fr.declare x kind line).Wf table ∧ fr.Extends (fr.declare x kind line) := by
  have hm := fun y => h.meaning_declare kind line hfree y
  have hother : ∀ {y k}, fr.scope.meaning y = .own k → y ≠ x := by
    rintro y k hy rfl
    exact hfree.not_own k hy
  have houter : ∀ {y k}, fr.scope.meaning y = .outer k →
      y ∈ fr.scope.shared ∨ y ∈ fr.scope.seen → y ≠ x := by
    rintro y k hy hmem rfl
    rcases hmem with hmem | hmem
    · have := h.isShared_of_free hfree
      simp [Scope.isShared, hmem] at this
    · have := hfree.unseen (by simp [hy])
      simp [Scope.isSeen, hmem] at this
  refine ⟨⟨fun y hy => ?_, fun y hy => ?_, fun v hv => ?_, h.unknown, h.nodup⟩,
    rfl, rfl, rfl, rfl, fun hy => ?_, List.Subset.refl _, List.Subset.refl _,
    ⟨[], by simp [Frame.declare], List.forall_mem_nil _⟩, id⟩
  · obtain ⟨hlookup, k, hk⟩ := h.shared y hy
    have hne := houter hk (.inl hy)
    refine ⟨?_, k, by rw [hm, if_neg hne, hk]⟩
    have hbeq : (y == x) = false := by simpa using hne
    simpa only [Frame.declare, Scope.declare, List.lookup_cons, hbeq] using hlookup
  · obtain ⟨k, hk⟩ := h.seen y hy
    exact ⟨k, by rw [hm, if_neg (houter hk (.inr hy)), hk]⟩
  · rw [hm, if_neg (hother (h.hoisted v hv)), h.hoisted v hv]
  · rw [hm, if_neg (hother hy), hy]

theorem Frame.Wf.markSeen (h : fr.Wf table) (hx : fr.scope.meaning x = .outer kind) :
    Frame.Wf table { fr with scope := fr.scope.markSeen x } ∧
      fr.Extends { fr with scope := fr.scope.markSeen x } :=
  ⟨⟨h.shared, List.forall_mem_cons.mpr ⟨⟨kind, hx⟩, h.seen⟩, h.hoisted, h.unknown, h.nodup⟩,
    rfl, rfl, rfl, rfl, id, List.Subset.refl _, List.subset_cons_self .., ⟨[], by simp, nofun⟩, id⟩

theorem Frame.Wf.readAll (h : fr.Wf table) (names : List String) :
    (fr.readAll names).Wf table ∧ fr.Extends (fr.readAll names) := by
  induction names generalizing fr with
  | nil => exact ⟨h, .refl fr⟩
  | cons name names ih =>
    have hfirst : (fr.readAll [name]).Wf table ∧ fr.Extends (fr.readAll [name]) := by
      cases hm : fr.scope.meaning name with
      | outer kind =>
        have heq : fr.readAll [name] = { fr with scope := fr.scope.markSeen name } := by
          simp [Frame.readAll, Scope.readAll, Scope.read, hm]
        rw [heq]
        exact h.markSeen hm
      | own | later | missing =>
        have heq : fr.readAll [name] = fr := by
          simp [Frame.readAll, Scope.readAll, Scope.read, hm]
        rw [heq]
        exact ⟨h, .refl fr⟩
    obtain ⟨hwf, hextends⟩ := ih hfirst.1
    exact ⟨hwf, hfirst.2.trans hextends⟩

/-- Reading an outer variable marks it as seen. -/
theorem Frame.seen_readAll {names : List String} (hx : x ∈ names)
    (hm : fr.scope.meaning x = .outer kind) : x ∈ (fr.readAll names).scope.seen := by
  have hmono : ∀ (ns : List String) (s : Scope), s.seen ⊆ (s.readAll ns).seen := fun ns s =>
    Scope.readAll_preserves (P := fun t => s.seen ⊆ t.seen)
      (fun h => List.subset_cons_of_subset _ h) (List.Subset.refl _) ns
  obtain ⟨before, after, rfl⟩ := List.append_of_mem hx
  simp only [Frame.readAll, Scope.readAll_append]
  show x ∈ (((fr.scope.readAll before).read x).readAll after).seen
  refine hmono after _ ?_
  have hm' : (fr.scope.readAll before).meaning x = .outer kind := by
    rw [Scope.meaning_readAll, hm]
  simp [Scope.read, hm', Scope.markSeen]

theorem Frame.Wf.hoist (h : fr.Wf table) (kind : Kind) (line : Nat) (hfree : fr.scope.Free x)
    (hunknown : table.isKnown x = false) :
    (fr.hoist x kind line).Wf table ∧ fr.Extends (fr.hoist x kind line) := by
  obtain ⟨hwf, hextends⟩ := h.declare kind line hfree
  have hm := h.meaning_declare kind line hfree x
  rw [if_pos rfl] at hm
  refine ⟨⟨hwf.shared, hwf.seen, fun v hv => ?_, fun v hv => ?_, ?_⟩, ?_⟩
  · rcases List.mem_append.mp hv with hv | hv
    · exact hwf.hoisted v hv
    · rw [List.mem_singleton.mp hv]
      exact hm
  · rcases List.mem_append.mp hv with hv | hv
    · exact hwf.unknown v hv
    · rw [List.mem_singleton.mp hv]
      exact hunknown
  · have hnot : x ∉ fr.hoisted.map Prod.fst := by
      intro hmem
      obtain ⟨v, hv, rfl⟩ := List.mem_map.mp hmem
      exact hfree.not_own _ (h.hoisted v hv)
    simpa [Frame.hoist, Frame.declare, List.nodup_append, h.nodup] using fun y _ hy heq => hnot (by
      subst heq
      exact List.mem_map.mpr ⟨_, hy, rfl⟩)
  · refine ⟨rfl, rfl, rfl, rfl, hextends.own, List.Subset.refl _, List.Subset.refl _,
      ⟨[(x, kind)], rfl, ?_⟩, id⟩
    intro v hv
    rw [List.mem_singleton.mp hv]
    exact hfree.not_own

theorem Frame.meaning_share {names : List String}
    (hnames : ∀ name ∈ names, fr.scope.isLocal name = false) (y : String) :
    (fr.share names).scope.meaning y = fr.scope.meaning y := by
  induction names generalizing fr with
  | nil => rfl
  | cons name names ih =>
    obtain ⟨hname, hnames⟩ := List.forall_mem_cons.mp hnames
    have htail := @ih { fr with scope := fr.scope.share name } hnames
    exact htail.trans (Scope.meaning_share hname y)

theorem Frame.Wf.share (h : fr.Wf table) {names : List String}
    (hnames : ∀ name ∈ names, fr.scope.isLocal name = false ∧
      ∃ kind, fr.scope.meaning name = .outer kind) :
    (fr.share names).Wf table ∧ fr.Extends (fr.share names) := by
  have hm : ∀ y, (fr.share names).scope.meaning y = fr.scope.meaning y :=
    Frame.meaning_share fun name hname => (hnames name hname).1
  have hscope : (fr.share names).scope = { fr.scope with
      shared := names.reverse ++ fr.scope.shared } := by
    clear hm h hnames
    unfold Frame.share
    generalize fr.scope = s
    induction names generalizing s with
    | nil => rfl
    | cons name names ih =>
      rw [List.foldl_cons, ih]
      simp [Scope.share]
  refine ⟨⟨fun x hx => ?_, fun x hx => ?_, fun v hv => ?_, h.unknown, h.nodup⟩, ?_⟩
  · have hmem : x ∈ names ∨ x ∈ fr.scope.shared := by simpa [hscope] using hx
    have hfacts : fr.scope.locals.lookup x = none ∧ ∃ kind, fr.scope.meaning x = .outer kind := by
      rcases hmem with hmem | hmem
      · exact ⟨by simpa [Scope.isLocal] using (hnames x hmem).1, (hnames x hmem).2⟩
      · exact h.shared x hmem
    rw [hm]
    exact ⟨by simpa only [hscope] using hfacts.1, hfacts.2⟩
  · rw [hm]
    exact h.seen x (by simpa only [hscope] using hx)
  · rw [hm]
    exact h.hoisted v hv
  · have hseen : fr.scope.seen ⊆ (fr.share names).scope.seen := by
      rw [hscope]
      exact List.Subset.refl _
    have hshared : fr.scope.shared ⊆ (fr.share names).scope.shared := by
      rw [hscope]
      exact List.subset_append_right ..
    exact ⟨by rw [hscope], by rw [hscope], rfl, rfl, fun hx => (hm _).trans hx, hshared, hseen,
      ⟨[], by simp [Frame.share], List.forall_mem_nil _⟩, id⟩

theorem Frame.Wf.enter (h : fr.Wf table) : fr.enter.Wf table :=
  ⟨h.shared, h.seen, h.hoisted, h.unknown, h.nodup⟩

theorem Frame.Wf.enterLoop (h : fr.Wf table) (var : String) : (fr.enterLoop var).Wf table :=
  ⟨h.shared, h.seen, h.hoisted, h.unknown, h.nodup⟩

/-- A loop whose variable is bound outside it keeps what its body keeps. -/
theorem Frame.Wf.afterLoop {last : Frame} {var : String} (hlast : last.Wf table)
    (hextends : (fr.enterLoop var).Extends last) :
    (last.afterLoop var .reassign).Wf table ∧ fr.Extends (last.afterLoop var .reassign) := by
  refine ⟨⟨hlast.shared, hlast.seen, hlast.hoisted, hlast.unknown, hlast.nodup⟩, hextends.globals,
    hextends.line, ?_, ?_, hextends.own, hextends.shared, hextends.seen, hextends.hoisted,
    hextends.returned⟩
  · show last.depth - 1 = fr.depth
    rw [hextends.depth]
    rfl
  · show last.loopVars.tail = fr.loopVars
    rw [hextends.loopVars]
    rfl

/-- A loop that declares its variable keeps what its body keeps, and the variable ends with it. -/
theorem Frame.Wf.afterDeclaringLoop {last : Frame} (h : fr.Wf table) (hfree : fr.scope.Free x)
    (hlast : last.Wf table) (hextends : ((fr.declare x kind line).enterLoop x).Extends last) :
    (last.afterLoop x (.declare kind)).Wf table ∧ fr.Extends (last.afterLoop x (.declare kind)) ∧
      ∀ y, (last.afterLoop x (.declare kind)).scope.meaning y =
        if y = x then fr.scope.meaning x else last.scope.meaning y := by
  have hdeclared := h.meaning_declare kind line hfree
  have hx : last.scope.meaning x = .own kind :=
    hextends.own ((hdeclared x).trans (if_pos rfl))
  have houtward : last.scope.outward x = fr.scope.meaning x := by
    rw [Scope.meaning_of_not_own hfree.not_own]
    simp only [Scope.outward, Scope.global?, hextends.globals, hextends.line]
    rfl
  have hm : ∀ y, (last.afterLoop x (.declare kind)).scope.meaning y =
      if y = x then fr.scope.meaning x else last.scope.meaning y := by
    intro y
    rw [← houtward]
    exact Scope.meaning_remove last.scope x y
  have hne : ∀ {y m}, last.scope.meaning y = m → (∀ k, m ≠ .own k) → y ≠ x := by
    rintro y m hy hnot rfl
    exact hnot kind (hy.symm.trans hx)
  have hown : ∀ {y k}, fr.scope.meaning y = .own k → y ≠ x := by
    rintro y k hy rfl
    exact hfree.not_own k hy
  obtain ⟨added, hadded, hnew⟩ := hextends.hoisted
  have hhoisted : ∀ v ∈ last.hoisted, v.1 ≠ x := by
    intro v hv
    rw [hadded] at hv
    rcases List.mem_append.mp hv with hold | hadd
    · exact hown (h.hoisted v hold)
    · rintro rfl
      exact hnew v hadd kind ((hdeclared v.1).trans (if_pos rfl))
  refine ⟨⟨fun y hy => ?_, fun y hy => ?_, fun v hv => ?_, hlast.unknown, hlast.nodup⟩,
    ⟨hextends.globals, hextends.line, ?_, ?_, fun hy => ?_, hextends.shared, hextends.seen,
      ⟨added, hadded, fun v hv k hk => ?_⟩, hextends.returned⟩, hm⟩
  · obtain ⟨hlookup, k, hk⟩ := hlast.shared y hy
    have hyx := hne hk nofun
    refine ⟨?_, k, by rw [hm, if_neg hyx, hk]⟩
    exact (Scope.lookup_remove last.scope x y).trans (by rw [if_neg hyx, hlookup])
  · obtain ⟨k, hk⟩ := hlast.seen y hy
    exact ⟨k, by rw [hm, if_neg (hne hk nofun), hk]⟩
  · rw [hm, if_neg (hhoisted v hv), hlast.hoisted v hv]
  · show last.depth - 1 = fr.depth
    rw [hextends.depth]
    rfl
  · show last.loopVars.tail = fr.loopVars
    rw [hextends.loopVars]
    rfl
  · rw [hm, if_neg (hown hy)]
    exact hextends.own ((hdeclared _).trans (by rw [if_neg (hown hy), hy]))
  · exact hnew v hv k ((hdeclared _).trans (by rw [if_neg (hown hk), hk]))

/-- What the body of a block keeps, the block keeps. -/
theorem Frame.Extends.leave {last : Frame} (h : fr.enter.Extends last) : fr.Extends last.leave := by
  refine ⟨h.globals, h.line, ?_, h.loopVars, h.own, h.shared, h.seen, h.hoisted, h.returned⟩
  show last.depth - 1 = fr.depth
  rw [h.depth]
  rfl

end Steps

section Statements

variable {table : CallTable}

mutual

/-- A statement keeps what is bound, read and hoisted. -/
theorem Binds.extends {fr fr' : Frame} {stmt stmt' : Stmt} {readings : List Reading}
    (h : Binds table fr stmt stmt' fr' readings) (hwf : fr.Wf table) :
    fr'.Wf table ∧ fr.Extends fr' := by
  cases h with
  | @again _ _ _ value => exact hwf.readAll value.vars
  | @first _ line _ value _ _ kind _ hfree =>
    obtain ⟨hwf₁, hextends₁⟩ := hwf.readAll value.vars
    obtain ⟨hwf₂, hextends₂⟩ := hwf₁.declare kind line hfree
    exact ⟨hwf₂, hextends₁.trans hextends₂⟩
  | @hoist _ line _ value _ _ kind hname hfree =>
    obtain ⟨hwf₁, hextends₁⟩ := hwf.readAll value.vars
    obtain ⟨hwf₂, hextends₂⟩ := hwf₁.hoist kind line hfree hname.unknown
    exact ⟨hwf₂, hextends₁.trans hextends₂⟩
  | @element _ _ _ _ value =>
    obtain ⟨hwf₁, hextends₁⟩ := hwf.readAll (Expr.index _ _).vars
    obtain ⟨hwf₂, hextends₂⟩ := hwf₁.readAll value.vars
    exact ⟨hwf₂, hextends₁.trans hextends₂⟩
  | @conditional _ _ condition _ _ _ _ _ _ _ _ hthen helse =>
    obtain ⟨hwf₁, hextends₁⟩ := hwf.readAll condition.vars
    obtain ⟨hwf₂, hextends₂⟩ := hthen.extends hwf₁.enter
    obtain ⟨hwf₃, hextends₃⟩ := helse.extends hwf₂
    exact ⟨⟨hwf₃.shared, hwf₃.seen, hwf₃.hoisted, hwf₃.unknown, hwf₃.nodup⟩,
      hextends₁.trans (hextends₂.trans hextends₃).leave⟩
  | @loopAgain _ _ var bounds _ _ _ _ _ _ _ _ hbody =>
    obtain ⟨hwf₁, hextends₁⟩ := hwf.readAll (Expr.varsAll bounds.exprs)
    obtain ⟨hwf₂, hextends₂⟩ := hbody.extends (hwf₁.enterLoop var)
    obtain ⟨hwf₃, hextends₃⟩ := hwf₂.afterLoop hextends₂
    exact ⟨hwf₃, hextends₁.trans hextends₃⟩
  | @loopFirst _ line var bounds _ _ _ _ _ _ _ hfree hbody =>
    obtain ⟨hwf₁, hextends₁⟩ := hwf.readAll (Expr.varsAll bounds.exprs)
    obtain ⟨hwf₂, _⟩ := hwf₁.declare .int line hfree
    obtain ⟨hwf₃, hextends₃⟩ := hbody.extends (hwf₂.enterLoop var)
    obtain ⟨hwf₄, hextends₄, _⟩ := hwf₁.afterDeclaringLoop hfree hwf₃ hextends₃
    exact ⟨hwf₄, hextends₁.trans hextends₄⟩
  | expr => exact hwf.readAll _
  | give hreturned =>
    obtain ⟨hwf₁, hextends₁⟩ := hwf.readAll (Expr.vars _)
    exact ⟨⟨hwf₁.shared, hwf₁.seen, hwf₁.hoisted, hwf₁.unknown, hwf₁.nodup⟩,
      { hextends₁ with returned := hreturned }⟩
  | bare hreturned =>
    exact ⟨⟨hwf.shared, hwf.seen, hwf.hoisted, hwf.unknown, hwf.nodup⟩,
      { Frame.Extends.refl fr with returned := hreturned }⟩
  | share hnames => exact hwf.share hnames
  | inert => exact ⟨hwf, .refl _⟩

theorem BindsAll.extends {fr fr' : Frame} {stmts stmts' : List Stmt} {readings : List Reading}
    (h : BindsAll table fr stmts stmts' fr' readings) (hwf : fr.Wf table) :
    fr'.Wf table ∧ fr.Extends fr' := by
  cases h with
  | nil => exact ⟨hwf, .refl _⟩
  | cons hhead htail =>
    obtain ⟨hwf₁, hextends₁⟩ := hhead.extends hwf
    obtain ⟨hwf₂, hextends₂⟩ := htail.extends hwf₁
    exact ⟨hwf₂, hextends₁.trans hextends₂⟩

end

variable {c : Callees} {returns : Option Kind} {fr fr' : Frame} {readings : List Reading}

theorem Resolves.extends (stmt : Stmt) {stmt' : Stmt}
    (h : Resolves c returns fr stmt stmt' fr' readings) (hwf : fr.Wf c.table) :
    fr'.Wf c.table ∧ fr.Extends fr' :=
  h.binds.extends hwf

theorem ResolvesAll.extends (stmts : List Stmt) {stmts' : List Stmt}
    (h : ResolvesAll c returns fr stmts stmts' fr' readings) (hwf : fr.Wf c.table) :
    fr'.Wf c.table ∧ fr.Extends fr' :=
  h.binds.extends hwf

end Statements

end Sketchwright.Inference
