import Sketchwright.Proofs.Declarations
import Sketchwright.Proofs.Findings

/-! The stop of a loop. A sketch evaluates it anew before each turn, so that it must not change
while the loop runs. Nothing in a body binds the variable of a loop around it, and nothing binds
a list anew; any other name that a stop reads may be bound in the body if the function has bound
it or shared it before. -/

namespace Sketchwright

mutual

/-- The lists of which a statement assigns elements, in its blocks too. -/
def Stmt.stored : Stmt → List String
  | .assign _ (.element list _) _ _ _ => [list]
  | .conditional _ _ thenBody elseBody => storedIn thenBody ++ storedIn elseBody
  | .loop _ _ _ _ body => storedIn body
  | _ => []

def storedIn : List Stmt → List String
  | [] => []
  | stmt :: stmts => stmt.stored ++ storedIn stmts

end

/-- The names that a statement binds for good, or shares, in its blocks too. -/
def Stmt.bound (stmt : Stmt) : List String := stmt.assigned ++ stmt.shared

def boundIn (stmts : List Stmt) : List String := assignedIn stmts ++ sharedIn stmts

/-- A loop in a body, with the names that the body binds or shares before it, in the order of the
text, and the variables of the loops around it. -/
structure LoopSite where
  before : List String
  around : List String
  var : String
  bounds : Bounds
  body : List Stmt

mutual

/-- The loops in a statement. -/
def Stmt.loopSites (before around : List String) : Stmt → List LoopSite
  | .conditional _ _ thenBody elseBody =>
    loopSitesIn before around thenBody ++ loopSitesIn (before ++ boundIn thenBody) around elseBody
  | .loop _ var bounds _ body =>
    ⟨before, around, var, bounds, body⟩ :: loopSitesIn before (var :: around) body
  | _ => []

def loopSitesIn (before around : List String) : List Stmt → List LoopSite
  | [] => []
  | stmt :: stmts =>
    stmt.loopSites before around ++ loopSitesIn (before ++ stmt.bound) around stmts

end

namespace LoopSite

variable (table : CallTable) (site : LoopSite) (x : String)

/-- The stop reads an element of this list. -/
def Subscripts : Prop := ∃ position, .index x position ∈ site.bounds.stop.parts

/-- The stop reads an element of this list, or its length. -/
def AsksList : Prop := ∃ part ∈ site.bounds.stop.parts, Inference.AsksList table x part

/-- The body of the loop binds the name anew, or assigns an element of the list that the stop reads
elements of. -/
inductive Changes : Prop
  | assigned (h : x ∈ assignedIn site.body)
  | counted (h : x ∈ loopVarsIn site.body)
  | stored (hread : site.Subscripts x) (h : x ∈ storedIn site.body)

/-- What the stop reads of the name is out of reach of the body: it is the variable of a loop
around, or a name that the function has neither bound nor shared before the loop, and does not share
in it; or else it is a list, and none of the elements that the stop reads are assigned. -/
inductive Fixed : Prop
  | counter (h : x ∈ site.around) (hlist : ¬site.AsksList table x)
  | outer (hbefore : x ∉ site.before) (hshared : x ∉ sharedIn site.body)
      (hconstant : table.constant? x = none) (hlist : ¬site.AsksList table x)
  | list (hlist : site.AsksList table x) (hstored : site.Subscripts x → x ∉ storedIn site.body)

/-- The body binds no variable of a loop around it, and changes nothing that is out of its reach. -/
structure Steady : Prop where
  counters : ∀ x ∈ site.var :: site.around, x ∉ assignedIn site.body ∧ x ∉ loopVarsIn site.body
  fixed : ∀ x ∈ site.bounds.stop.vars, site.Fixed table x → x ≠ site.var ∧ ¬site.Changes x

variable {table site x}

theorem Subscripts.asksList (h : site.Subscripts x) : site.AsksList table x := by
  obtain ⟨position, hpart⟩ := h
  exact ⟨_, hpart, .element⟩

end LoopSite

namespace Inference

/-- The names that a body has of its own, or shares, are known from the text before. -/
structure Frame.Within (fr : Frame) (before around : List String) : Prop where
  loopVars : fr.loopVars = around
  own : ∀ {x kind}, fr.scope.meaning x = .own kind → x ∈ before ∨ x ∈ around
  shared : fr.scope.shared ⊆ before

section Bodies

variable {table : CallTable} {x : String} {fr fr' : Frame} {before around : List String}

namespace Frame.Within

theorem readAll (h : fr.Within before around) (names : List String) :
    (fr.readAll names).Within before around := by
  constructor
  · exact h.loopVars
  · intro x kind hown
    exact h.own (by simpa [Frame.readAll] using hown)
  · rw [Frame.shared_readAll]
    exact h.shared

theorem enter (h : fr.Within before around) : fr.enter.Within before around :=
  ⟨h.loopVars, h.own, h.shared⟩

theorem enterLoop (h : fr.Within before around) (var : String) :
    (fr.enterLoop var).Within before (var :: around) :=
  ⟨congrArg (var :: ·) h.loopVars, fun hown => (h.own hown).imp_right (List.mem_cons_of_mem _),
    h.shared⟩

/-- A loop that declares its variable has it around its body. -/
theorem declareLoop (h : fr.Within before around) (hwf : fr.Wf table) (line : Nat) {var : String}
    (hfree : fr.scope.Free var) :
    ((fr.declare var .int line).enterLoop var).Within before (var :: around) := by
  constructor
  · exact congrArg (var :: ·) h.loopVars
  · intro y kind hown
    have hm := hwf.meaning_declare .int line hfree y
    by_cases hy : y = var
    · exact .inr (List.mem_cons.mpr (.inl hy))
    · have hown₁ := (hm.trans (if_neg hy)).symm.trans hown
      exact (h.own hown₁).imp_right (List.mem_cons_of_mem _)
  · exact h.shared

/-- What binds these names and shares those adds them to the text before. -/
theorem extend {assigned shared : List String} (hwithin : fr.Within before around)
    (hextends : fr.Extends fr')
    (hown : ∀ {x kind}, fr'.scope.meaning x = .own kind →
      x ∈ assigned ∨ ∃ kind, fr.scope.meaning x = .own kind)
    (hshared : ∀ {x}, x ∈ fr'.scope.shared → x ∈ shared ∨ x ∈ fr.scope.shared) :
    fr'.Within (before ++ (assigned ++ shared)) around := by
  constructor
  · exact hextends.loopVars.trans hwithin.loopVars
  · intro y kind hy
    rcases hown hy with hy | ⟨k, hk⟩
    · exact .inl (List.mem_append_right _ (List.mem_append_left _ hy))
    · exact (hwithin.own hk).imp_left (List.mem_append_left _)
  · intro y hy
    rcases hshared hy with hy | hy
    · exact List.mem_append_right _ (List.mem_append_right _ hy)
    · exact List.mem_append_left _ (hwithin.shared hy)

theorem step {stmt stmt' : Stmt} {readings : List Reading} (hwithin : fr.Within before around)
    (h : Binds table fr stmt stmt' fr' readings) (hwf : fr.Wf table) :
    fr'.Within (before ++ stmt.bound) around :=
  hwithin.extend (h.extends hwf).2 (h.assigned_of_own hwf) h.mem_shared

theorem stepAll {stmts stmts' : List Stmt} {readings : List Reading}
    (hwithin : fr.Within before around) (h : BindsAll table fr stmts stmts' fr' readings)
    (hwf : fr.Wf table) : fr'.Within (before ++ boundIn stmts) around :=
  hwithin.extend (h.extends hwf).2 (h.assigned_of_own hwf) h.mem_shared

/-- Where a name has a kind it is known from the text before, the variable of a loop around, barred
once it is read, or a constant. -/
theorem cases_of_known (h : fr.Within before around) {names : List String}
    (hknown : fr.scope.Knows table names) (hx : x ∈ names) :
    x ∈ before ∨ x ∈ around ∨ (fr.readAll names).Barred x ∨
      (table.constant? x).isSome = true := by
  obtain ⟨kind, hkind⟩ := hknown x hx
  unfold Scope.kind? at hkind
  cases hm : fr.scope.meaning x with
  | own =>
    rcases h.own hm with hbefore | haround
    · exact .inl hbefore
    · exact .inr (.inl haround)
  | outer =>
    by_cases hshared : x ∈ fr.scope.shared
    · exact .inl (h.shared hshared)
    · have hbarred : (fr.readAll names).Barred x :=
        .inr ⟨Frame.seen_readAll hx hm, by simpa using hshared⟩
      exact .inr (.inr (.inl hbarred))
  | later => simp [hm] at hkind
  | missing =>
    simp only [hm] at hkind
    exact .inr (.inr (.inr (by simp [hkind])))

end Frame.Within

theorem Bounds.stop_mem (bounds : Bounds) : bounds.stop ∈ bounds.exprs := by
  simp [Bounds.exprs]

/-- What a reading uses as a list has the kind of one. -/
def Reading.AsksLists (table : CallTable) (reading : Reading) : Prop :=
  ∀ {part x}, part ∈ reading.expr.parts → AsksList table x part →
    ∃ element n, reading.scope.kind? table x = some (.list element n)

/-- A list that is read is one from then on, an own one or a global. -/
theorem Frame.hasList_readAll (htable : table.Sound) {element : Kind} {n : Nat}
    (hkind : fr.scope.kind? table x = some (.list element n)) {names : List String}
    (hx : x ∈ names) :
    (fr.readAll names).scope.HasList x := by
  unfold Scope.kind? at hkind
  cases hm : fr.scope.meaning x with
  | own kind =>
    simp only [hm, Option.some.injEq] at hkind
    exact .own (by rw [Frame.readAll, Scope.meaning_readAll, hm, hkind])
  | outer kind =>
    simp only [hm, Option.some.injEq] at hkind
    exact .outer (by rw [Frame.readAll, Scope.meaning_readAll, hm, hkind])
      (Frame.seen_readAll hx hm)
  | later => simp [hm] at hkind
  | missing =>
    simp only [hm] at hkind
    cases htable.constants _ (CallTable.constant?_mem hkind)

/-- A loop is steady if its body starts from a frame in which what the bounds read may be bound no
more than after the bounds, and if its variable may. -/
theorem LoopSite.steady {site : LoopSite} {body' : List Stmt} {last : Frame}
    {readings : List Reading} (htable : table.Sound) (hwithin : fr.Within site.before site.around)
    (hknown : fr.scope.Knows table (Expr.varsAll site.bounds.exprs))
    (hasks : (Reading.mk fr.scope site.bounds.stop).AsksLists table) (hvar : site.var ∉ fr.loopVars)
    (hfree : ∀ {x}, (fr.readAll (Expr.varsAll site.bounds.exprs)).Barred x → x ≠ site.var)
    (hwf : fr'.Wf table) (hextends : (fr.readAll (Expr.varsAll site.bounds.exprs)).Extends fr')
    (hshared : fr'.scope.shared = (fr.readAll (Expr.varsAll site.bounds.exprs)).scope.shared)
    (hbody : BindsAll table (fr'.enterLoop site.var) site.body body' last readings) :
    site.Steady table := by
  have hread : ∀ x ∈ site.bounds.stop.vars, x ∈ Expr.varsAll site.bounds.exprs := fun x hx =>
    Expr.mem_varsAll.mpr ⟨_, Bounds.stop_mem _, hx⟩
  have hheld : ∀ {x}, (fr'.enterLoop site.var).Held x →
      x ∉ assignedIn site.body ∧ x ∉ loopVarsIn site.body := by
    intro x hx
    obtain ⟨hassigned, hloops, _⟩ := hbody.barred (hwf.enterLoop _) (.inl hx) fun _ => hx
    exact ⟨hassigned, hloops⟩
  have hloopVars : fr'.loopVars = site.around := hextends.loopVars.trans hwithin.loopVars
  have hcounters : ∀ x ∈ site.var :: site.around,
      x ∉ assignedIn site.body ∧ x ∉ loopVarsIn site.body := by
    rw [← hloopVars]
    exact fun x hx => hheld (.inl hx)
  have haround : ∀ x ∈ site.around, x ≠ site.var ∧ x ∉ assignedIn site.body ∧
      x ∉ loopVarsIn site.body :=
    fun x hx => ⟨fun heq => hvar (hwithin.loopVars ▸ heq ▸ hx),
      hcounters x (List.mem_cons_of_mem _ hx)⟩
  refine ⟨hcounters, fun x hx hfixed => ?_⟩
  suffices hbound : (x ≠ site.var ∧ x ∉ assignedIn site.body ∧ x ∉ loopVarsIn site.body) ∧
      (site.Subscripts x → x ∉ storedIn site.body) by
    obtain ⟨⟨hne, hassigned, hloops⟩, hstored⟩ := hbound
    refine ⟨hne, ?_⟩
    rintro (h | h | ⟨hread, h⟩)
    · exact hassigned h
    · exact hloops h
    · exact hstored hread h
  cases hfixed with
  | counter h hlist => exact ⟨haround x h, fun hread => absurd hread.asksList hlist⟩
  | outer hbefore hunshared hconstant hlist =>
    refine ⟨?_, fun hread => absurd hread.asksList hlist⟩
    rcases hwithin.cases_of_known hknown (hread x hx) with h | h | h | h
    · exact absurd h hbefore
    · exact haround x h
    · have hbarred : fr'.Barred x := h.keep hwf hextends fun hmem => .inr (hshared ▸ hmem)
      obtain ⟨hassigned, hloops, _⟩ :=
        hbody.barred (hwf.enterLoop _) (hbarred.enterLoop _) (absurd · hunshared)
      exact ⟨hfree h, hassigned, hloops⟩
    · simp [hconstant] at h
  | list hlist hstored =>
    obtain ⟨part, hpart, hlist⟩ := hlist
    obtain ⟨_, _, hkind⟩ := hasks hpart hlist
    have h : (fr.readAll (Expr.varsAll site.bounds.exprs)).Held x :=
      .inr (Frame.hasList_readAll htable hkind (hread x hx))
    exact ⟨⟨hfree (.inl h), hheld ((h.keep hwf hextends).enterLoop _)⟩, hstored⟩

mutual

theorem Binds.steady {fr fr' : Frame} {stmt stmt' : Stmt} {readings : List Reading}
    {before around : List String} (h : Binds table fr stmt stmt' fr' readings)
    (htable : table.Sound) (hwf : fr.Wf table) (hwithin : fr.Within before around)
    (hasks : ∀ reading ∈ readings, reading.AsksLists table) :
    ∀ site ∈ stmt.loopSites before around, site.Steady table := by
  cases h with
  | @conditional _ _ condition _ _ _ _ _ _ _ _ hthen helse =>
    obtain ⟨hasks₁, hasks₂⟩ := List.forall_mem_append.mp (List.forall_mem_cons.mp hasks).2
    have hwf₁ := (hwf.readAll condition.vars).1.enter
    have hwithin₁ := (hwithin.readAll condition.vars).enter
    refine List.forall_mem_append.mpr ⟨?_, ?_⟩
    · exact hthen.steady htable hwf₁ hwithin₁ hasks₁
    · exact helse.steady htable (hthen.extends hwf₁).1 (hwithin₁.stepAll hthen hwf₁) hasks₂
  | @loopAgain _ _ var bounds _ _ _ _ _ hknown hvar hbound hloop =>
    obtain ⟨hasks₁, hasks₂⟩ := List.forall_mem_append.mp hasks
    have hwf₁ := (hwf.readAll (Expr.varsAll bounds.exprs)).1
    have hwithin₁ := hwithin.readAll (Expr.varsAll bounds.exprs)
    have hstop : Reading.AsksLists table ⟨fr.scope, bounds.stop⟩ :=
      hasks₁ _ (List.mem_map_of_mem (Bounds.stop_mem bounds))
    refine List.forall_mem_cons.mpr ⟨?_, hloop.steady htable (hwf₁.enterLoop var)
      (hwithin₁.enterLoop var) (List.forall_mem_cons.mp hasks₂).2⟩
    refine LoopSite.steady htable hwithin hknown hstop hvar (fun hbarred => ?_) hwf₁
      (.refl _) rfl hloop
    exact hbarred.ne_of_bound hwf₁ hvar ((Scope.bound?_readAll ..).trans hbound) rfl
  | @loopFirst _ line var bounds _ _ _ _ _ hknown hvar hfree hloop =>
    obtain ⟨hasks₁, hasks₂⟩ := List.forall_mem_append.mp hasks
    have hwf₁ := (hwf.readAll (Expr.varsAll bounds.exprs)).1
    have hwithin₁ := hwithin.readAll (Expr.varsAll bounds.exprs)
    have hstop : Reading.AsksLists table ⟨fr.scope, bounds.stop⟩ :=
      hasks₁ _ (List.mem_map_of_mem (Bounds.stop_mem bounds))
    obtain ⟨hwf₂, hextends⟩ := hwf₁.declare .int line hfree
    refine List.forall_mem_cons.mpr ⟨?_, hloop.steady htable (hwf₂.enterLoop var)
      (hwithin₁.declareLoop hwf₁ line hfree) (List.forall_mem_cons.mp hasks₂).2⟩
    refine LoopSite.steady htable hwithin hknown hstop hvar
      (fun hbarred => ?_) hwf₂ hextends rfl hloop
    exact hbarred.ne_of_free hwf₁ hvar hfree
  | again | first | hoist | element | expr | give | bare | share => exact List.forall_mem_nil _
  | inert hstmt => cases stmt <;> first | exact List.forall_mem_nil _ | cases hstmt

theorem BindsAll.steady {fr fr' : Frame} {stmts stmts' : List Stmt} {readings : List Reading}
    {before around : List String} (h : BindsAll table fr stmts stmts' fr' readings)
    (htable : table.Sound) (hwf : fr.Wf table) (hwithin : fr.Within before around)
    (hasks : ∀ reading ∈ readings, reading.AsksLists table) :
    ∀ site ∈ loopSitesIn before around stmts, site.Steady table := by
  cases h with
  | nil => exact List.forall_mem_nil _
  | cons hhead htail =>
    obtain ⟨hasks₁, hasks₂⟩ := List.forall_mem_append.mp hasks
    refine List.forall_mem_append.mpr ⟨?_, ?_⟩
    · exact hhead.steady htable hwf hwithin hasks₁
    · exact htail.steady htable (hhead.extends hwf).1 (hwithin.step hhead hwf) hasks₂

end

end Bodies

section Programs

variable {table : CallTable} {p p' : Program} {task : Task}

/-- A function starts with nothing but its parameters. -/
theorem Task.within_start (task : Task) (globals : Variables) (kinds : List Kind) :
    (task.start globals kinds).Within task.paramNames [] := by
  constructor
  · rfl
  · exact fun hown => .inl (Task.param_of_own hown)
  · simp [Task.start, Frame.ofScope, Task.bodyScope_eq, Scope.function]

/-- What the attempt that settles a function has used as a list has the kind of one. -/
theorem Settles.asksLists (htable : table.Sound) (h : (infer table p).1 = .ok p')
    (htask : task ∈ tasksOf p.statements) {s : State} {stmt : Stmt}
    (hsettles : Settles table p p' task s stmt) {readings : List Reading}
    (hsees : List.Forall₂ SameMeaning (task.visits table (globals table p) s) readings) :
    ∀ reading ∈ readings, reading.AsksLists table := by
  intro reading hreading part x hpart hasks
  obtain ⟨visit, hvisit, hsame⟩ := exists_of_forall₂ hsees.flip hreading
  have hpasses := hsettles.passes htable h htask visit hvisit
  have hapart : (visit.state.outlook table).Apart := by
    intro callee result hresult
    have hstart : s.functions.result? callee = some result := hpasses.fills.results ▸ hresult
    exact (CallTable.call?_of_not_known (unknown_of_result htable h (hsettles.kept h).1 hstart)).1
  obtain ⟨element, n, hkind⟩ :=
    hpasses.examined.isList htable hapart part (hsame.expr ▸ hpart) hasks
  refine ⟨element, n, ?_⟩
  have hkind' : visit.state.frame.scope.kind? table x = some (.list element n) := hkind
  unfold Scope.kind? at hkind' ⊢
  rwa [← hsame.meaning]

/-- In every function of an accepted program every loop is steady. -/
theorem infer_loopBounds (htable : table.Built) (h : (infer table p).1 = .ok p')
    (htask : task ∈ tasksOf p.statements) :
    ∀ site ∈ loopSitesIn task.paramNames [] task.body, site.Steady table := by
  obtain ⟨s, stmt, hsettles⟩ := (infer_accepts htable.sound h).settled task htask
  obtain ⟨kinds, _, _, _, _, _, _, hbinds, hsees⟩ := hsettles.walks htable.sound h htask
  exact hbinds.steady htable.sound Task.start_wf (task.within_start _ kinds)
    (hsettles.asksLists htable.sound h htask hsees)

/-- Three loops in each other: the stops are a global, the variable of the loop around, and the
length of a list that is filled. -/
def filling : Program where
  header := []
  statements := [
    .assign 1 (.name "limit") (.literal (.int 3)) none .unresolved,
    .function 2 ⟨"f", [], none, false⟩ none []
      [.assign 3 (.name "xs") (.list [.literal (.int 1), .literal (.int 2)]) none .unresolved,
        .loop 4 "i" ⟨none, .name "limit", 1⟩ .unresolved
          [.loop 5 "j" ⟨none, .name "i", 1⟩ .unresolved
            [.loop 6 "k" ⟨none, .call "len" [.name "xs"], 1⟩ .unresolved
              [.assign 7 (.element "xs" (.name "k")) (.name "j") none .unresolved]]]]]

theorem LoopSite.not_asksList_of_name {site : LoopSite} {id x : String}
    (h : site.bounds.stop = .name id) : ¬site.AsksList table x := by
  rintro ⟨part, hpart, hasks⟩
  rw [h] at hpart
  obtain rfl := List.mem_singleton.mp hpart
  cases hasks

theorem infer_loopBounds_filling : (∃ p', (infer .builtin filling).1 = .ok p') ∧
    ∀ task ∈ tasksOf filling.statements, ∀ site ∈ loopSitesIn task.paramNames [] task.body,
      ∀ x ∈ site.bounds.stop.vars, x ≠ site.var ∧ ¬site.Changes x := by
  obtain ⟨p', h⟩ : ∃ p', (infer .builtin filling).1 = .ok p' :=
    Outcome.exists_of_isOk (by decide +kernel)
  refine ⟨⟨p', h⟩, fun task htask site hsite x hx => ?_⟩
  refine (infer_loopBounds .builtin h htask site hsite).fixed x hx ?_
  obtain rfl := List.mem_singleton.mp htask
  have hsites : site ∈ [_, _, _] := hsite
  simp only [List.mem_cons, List.not_mem_nil, or_false] at hsites
  rcases hsites with rfl | rfl | rfl
  · obtain rfl := List.mem_singleton.mp hx
    exact .outer (by decide) (by decide) (by decide) (LoopSite.not_asksList_of_name rfl)
  · obtain rfl := List.mem_singleton.mp hx
    exact .counter (by decide) (LoopSite.not_asksList_of_name rfl)
  · obtain rfl := List.mem_singleton.mp hx
    obtain ⟨rule, hrule, hform⟩ : ∃ rule, CallTable.builtin.call? "len" = some rule ∧
        rule.form = .listLength := ⟨_, rfl, rfl⟩
    refine .list ⟨_, List.mem_cons_self, .length hrule hform⟩ ?_
    rintro ⟨position, hposition⟩
    have hparts : Expr.index "xs" position ∈ [.call "len" [.name "xs"], .name "xs"] := hposition
    simp at hparts

/-- A function that counts in `var` up to `stop`. -/
def countingUpTo (var : String) (stop : Expr) (body : List Stmt) : Program where
  header := []
  statements := [.function 1 ⟨"f", [⟨"n", some .int⟩], none, false⟩ none []
    [.assign 2 (.name "xs") (.list [.literal (.int 3)]) none .unresolved,
      .loop 3 var ⟨none, stop, 1⟩ .unresolved body]]

/-- The program is accepted, though the stop of a loop reads what the loop changes. -/
def Slips (p : Program) : Prop :=
  (∃ p', (infer .builtin p).1 = .ok p') ∧ ∃ task ∈ tasksOf p.statements,
    ∃ site ∈ loopSitesIn task.paramNames [] task.body, ∃ x ∈ site.bounds.stop.vars,
      x = site.var ∨ site.Changes x

/-- The body assigns the name, counts in it, or assigns the element; or the
loop itself counts in it. -/
theorem infer_shrinking :
    Slips (countingUpTo "i" (.name "n")
      [.assign 4 (.name "n") (.binary (.name "n") .sub (.literal (.int 1))) none .unresolved]) ∧
    Slips (countingUpTo "i" (.name "n")
      [.loop 4 "n" ⟨none, .literal (.int 2), 1⟩ .unresolved [.pass 5]]) ∧
    Slips (countingUpTo "i" (.index "xs" (.literal (.int 0)))
      [.assign 4 (.element "xs" (.literal (.int 0))) (.literal (.int 0)) none .unresolved]) ∧
    Slips (countingUpTo "n" (.name "n") [.pass 4]) := by
  have haccepts : ∀ {p}, (infer .builtin p).1.isOk = true → ∃ p', (infer .builtin p).1 = .ok p' :=
    Outcome.exists_of_isOk
  refine ⟨⟨haccepts (by decide +kernel), ?_⟩, ⟨haccepts (by decide +kernel), ?_⟩,
    ⟨haccepts (by decide +kernel), ?_⟩, ⟨haccepts (by decide +kernel), ?_⟩⟩
  · exact ⟨_, List.mem_cons_self, _, List.mem_cons_self, "n", List.mem_cons_self,
      .inr (.assigned List.mem_cons_self)⟩
  · exact ⟨_, List.mem_cons_self, _, List.mem_cons_self, "n", List.mem_cons_self,
      .inr (.counted List.mem_cons_self)⟩
  · exact ⟨_, List.mem_cons_self, _, List.mem_cons_self, "xs", List.mem_cons_self,
      .inr (.stored ⟨_, List.mem_cons_self⟩ List.mem_cons_self)⟩
  · exact ⟨_, List.mem_cons_self, _, List.mem_cons_self, "n", List.mem_cons_self, .inl rfl⟩

end Programs

end Inference

end Sketchwright
