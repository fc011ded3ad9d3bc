import Mathlib.Data.Fintype.Card
import Mathlib.Data.Set.Finite.List
import Mathlib.Logic.Relation
import Sketchwright.Proofs.Annotated

/-! Which programs the rounds finish. A function whose result is not annotated is needed by those
whose bodies use the value of a call of it. Without a cycle among them no annotation is missed, and
with one inference does not succeed. -/

namespace Sketchwright

/-- The body of `f` uses the value of a call of `g`, and neither the header of `g` nor the
runtime says what that is. -/
structure Program.Needs (p : Program) (f g : Inference.Task) : Prop where
  caller : f ∈ Inference.tasksOf p.statements
  callee : g ∈ Inference.tasksOf p.statements
  value : g.name ∈ Stmt.neededIn f.body
  returns : g.head.returns = none
  notEntry : g.head.isEntry = false

/-- Some function needs its own result. -/
def Program.Cyclic (p : Program) : Prop := ∃ f, Relation.TransGen p.Needs f f

namespace Inference

/-- A walk that stays in a list comes round. -/
theorem exists_cycle {α : Type} {r : α → α → Prop} {l : List α} (hne : l ≠ [])
    (h : ∀ a ∈ l, ∃ b ∈ l, r a b) : ∃ a, Relation.TransGen r a a := by
  by_contra hacyclic
  rw [not_exists] at hacyclic
  let later : {a // a ∈ l} → {a // a ∈ l} → Prop := fun b a => Relation.TransGen r a.1 b.1
  have hfinite : Finite {a // a ∈ l} := (List.finite_toSet l).to_subtype
  have htrans : IsTrans _ later := ⟨fun _ _ _ hba hcb => hcb.trans hba⟩
  have hirrefl : Std.Irrefl later := ⟨fun a => hacyclic a.1⟩
  have hwf : WellFounded later := Finite.wellFounded_of_trans_of_irrefl later
  have hfirst : Nonempty {a // a ∈ l} := ⟨_, List.head_mem hne⟩
  obtain ⟨a, _, hmin⟩ := hwf.has_min Set.univ Set.univ_nonempty
  obtain ⟨b, hb, hab⟩ := h a.1 a.2
  exact hmin ⟨b, hb⟩ trivial (.single hab)

section Graph

variable {table : CallTable} {globals : Variables} {p : Program} {done : List Solution}
  {last : Functions}

theorem not_settled_of_needs (hnodup : ((tasksOf p.statements).map Task.name).Nodup)
    {f g : Task} (h : p.Needs f g) : ¬(heads (tasksOf p.statements)).Settled g.name := by
  intro hsettled
  have hreturns := hsettled _ (find?_heads hnodup h.callee)
  rw [Slots.ofHead, h.notEntry, h.returns] at hreturns
  cases hreturns

/-- A function that waits needs one that is not finished. -/
theorem exists_needs (hschedule : Schedule table globals (heads (tasksOf p.statements)) done last)
    {rest : List Task} (hperm : (done.map Solution.task ++ rest).Perm (tasksOf p.statements))
    {f : Task} (hf : f ∈ rest) (hwaits : f.Waits last) : ∃ g ∈ rest, p.Needs f g := by
  obtain ⟨callee, hcallee, hopen⟩ := hwaits
  rw [hschedule.settled_iff, not_or] at hopen
  obtain ⟨hdone, hopen⟩ := hopen
  simp only [Functions.Settled, not_forall] at hopen
  obtain ⟨slots, hslots, hreturns⟩ := hopen
  obtain ⟨g, hg, rfl, rfl⟩ := mem_of_find?_heads hslots
  have hrest : g ∈ rest := by
    refine (List.mem_append.mp (hperm.symm.subset hg)).resolve_left fun hmem => hdone ?_
    obtain ⟨x, hx, rfl⟩ := List.mem_map.mp hmem
    exact List.mem_map_of_mem hx
  have hunsettled : g.head.isEntry = false ∧ g.head.returns = none := by
    rw [Slots.ofHead] at hreturns
    cases hentry : g.head.isEntry with
    | true => simp [hentry] at hreturns
    | false => exact ⟨rfl, by simpa [hentry] using hreturns⟩
  exact ⟨g, hrest, hperm.subset (List.mem_append_right _ hf), hg, hcallee,
    hunsettled.2, hunsettled.1⟩

/-- What a function needs is finished before it. -/
theorem idxOf_lt_of_needs (htable : table.Sound) (hp : p.Annotated)
    (hnodup : ((tasksOf p.statements).map Task.name).Nodup)
    (hschedule : Schedule table globals (heads (tasksOf p.statements)) done last)
    (hperm : (done.map Solution.task).Perm (tasksOf p.statements)) {f g : Task}
    (h : p.Needs f g) :
    (done.map Solution.name).idxOf g.name < (done.map Solution.name).idxOf f.name := by
  obtain ⟨x, hx, rfl⟩ := List.mem_map.mp (hperm.symm.subset h.caller)
  obtain ⟨before, after, rfl⟩ := List.append_of_mem hx
  obtain ⟨fs, hbefore, hafter⟩ := hschedule.split
  have hg : g.name ∈ before.map Solution.name := by
    cases hafter with
    | cons hawaits hsolves =>
      have hready := (hsolves.ready htable (hbefore.known (heads_known hnodup hp)) hawaits).1
      have hsettled : fs.Settled g.name := by
        by_contra hopen
        exact hready ⟨_, h.value, hopen⟩
      exact (hbefore.settled_iff.mp hsettled).resolve_right (not_settled_of_needs hnodup h)
  have hf : x.name ∉ before.map Solution.name := by
    intro hmem
    have hdone := nodup_finished hperm hnodup
    rw [List.map_append, List.map_cons] at hdone
    exact (List.nodup_append.mp hdone).2.2 _ hmem _ (List.mem_cons_self ..) rfl
  show _ < ((before ++ x :: after).map Solution.name).idxOf x.name
  rw [List.map_append, List.idxOf_append_of_mem hg, List.idxOf_append_of_notMem hf]
  exact Nat.lt_of_lt_of_le (List.idxOf_lt_length_of_mem hg) (Nat.le_add_right _ _)

theorem not_cyclic_of_finished (htable : table.Sound) (hp : p.Annotated)
    (hnodup : ((tasksOf p.statements).map Task.name).Nodup)
    (hschedule : Schedule table globals (heads (tasksOf p.statements)) done last)
    (hperm : (done.map Solution.task).Perm (tasksOf p.statements)) : ¬p.Cyclic := by
  have hlt : ∀ {f g : Task}, Relation.TransGen p.Needs f g →
      (done.map Solution.name).idxOf g.name < (done.map Solution.name).idxOf f.name := by
    intro f g h
    induction h with
    | single h => exact idxOf_lt_of_needs htable hp hnodup hschedule hperm h
    | tail _ h ih => exact (idxOf_lt_of_needs htable hp hnodup hschedule hperm h).trans ih
  rintro ⟨f, hf⟩
  exact Nat.lt_irrefl _ (hlt hf)

end Graph

/-- In a program whose parameters are annotated no annotation is missed, unless some function needs
its own result. Then inference fails. -/
theorem infer_dependencies {table : CallTable} (htable : table.Built) {p : Program}
    (hp : p.Annotated) :
    (¬p.Cyclic → ∀ e, (infer table p).1 = .error e → e.asksAnnotation = false) ∧
      (p.Cyclic → ∃ e, (infer table p).1 = .error e) := by
  have hends := infer_ends htable.sound hp
  generalize (infer table p).1 = r at hends
  cases hends with
  | refused hcalm => exact ⟨fun _ _ h => Except.error.inj h ▸ hcalm, fun _ => ⟨_, rfl⟩⟩
  | module _ hcalm => exact ⟨fun _ _ h => Except.error.inj h ▸ hcalm, fun _ => ⟨_, rfl⟩⟩
  | unfinished hcollected _ hrun =>
    refine ⟨fun hacyclic e he => ?_, fun _ => ⟨_, rfl⟩⟩
    obtain rfl := Except.error.inj he
    have hknown := heads_known hcollected.nodup hp
    cases hrun with
    | failed hschedule hperm hfails =>
      have hmem := hperm.subset (List.mem_append_right _ (List.mem_cons_self ..))
      have hother := (nodup_of_perm hperm hcollected.nodup).2 _ (List.mem_cons_self ..)
      exact hfails.calm htable.sound (hschedule.known hknown)
        (hschedule.awaits (heads_awaits hcollected.nodup _ hmem) hother)
    | stuck hschedule hperm hne hwaits =>
      exact absurd (exists_cycle hne fun f hf => exists_needs hschedule hperm hf (hwaits f hf))
        hacyclic
  | finished hcollected _ hrun =>
    refine ⟨fun _ e he => (by cases he), fun hcyclic => ?_⟩
    cases hrun with
    | finished hschedule hperm =>
      exact absurd hcyclic (not_cyclic_of_finished htable.sound hp hcollected.nodup hschedule hperm)

/-- A function that is called before its definition, and that calls itself as a statement. -/
def chained : Program where
  header := []
  statements := [
    .function 1 ⟨"loop", [], none, true⟩ none []
      [.assign 2 (.name "x") (.call "f" [.literal (.int 1)]) none .unresolved],
    .function 3 ⟨"f", [⟨"a", some .int⟩], none, false⟩ none []
      [.expr 4 (.call "f" [.name "a"]), .give 5 (some (.name "a"))]]

/-- Two functions that need the result of each other. -/
def entangled : Program where
  header := []
  statements := [
    .function 1 ⟨"f", [⟨"a", some .int⟩], none, false⟩ none []
      [.give 2 (some (.binary (.call "g" [.name "a"]) .add (.literal (.int 1))))],
    .function 3 ⟨"g", [⟨"a", some .int⟩], none, false⟩ none []
      [.conditional 4 (.name "a") [.give 5 (some (.call "f" [.name "a"]))] []]]

theorem chained_acyclic : ¬chained.Cyclic := by
  rintro ⟨f, hf⟩
  obtain ⟨_, _, hlast⟩ := Relation.TransGen.tail'_iff.mp hf
  obtain ⟨g, hfirst, _⟩ := Relation.TransGen.head'_iff.mp hf
  have hmem := hlast.callee
  have hentry := hlast.notEntry
  have hvalue := hfirst.value
  simp only [tasksOf, chained, List.filterMap_cons, List.filterMap_nil, List.mem_cons,
    List.not_mem_nil, or_false] at hmem
  rcases hmem with rfl | rfl
  · cases hentry
  · cases hvalue

theorem entangled_cyclic : entangled.Cyclic := by
  have hneeds : entangled.Needs
      ⟨1, ⟨"f", [⟨"a", some .int⟩], none, false⟩,
        [.give 2 (some (.binary (.call "g" [.name "a"]) .add (.literal (.int 1))))]⟩
      ⟨3, ⟨"g", [⟨"a", some .int⟩], none, false⟩,
        [.conditional 4 (.name "a") [.give 5 (some (.call "f" [.name "a"]))] []]⟩ :=
    ⟨.head _, .tail _ (.head _), .head _, rfl, rfl⟩
  have hback := Program.Needs.mk hneeds.callee hneeds.caller (.head _) rfl rfl
  exact ⟨_, .tail (.single hneeds) hback⟩

/-- Both cases arise. -/
theorem infer_dependencies_samples :
    (chained.Annotated ∧ ¬chained.Cyclic ∧
      ∀ e, (infer .builtin chained).1 = .error e → e.asksAnnotation = false) ∧
    entangled.Annotated ∧ entangled.Cyclic ∧ ∃ e, (infer .builtin entangled).1 = .error e := by
  have hchained : chained.Annotated := by
    simp [Program.Annotated, tasksOf, chained]
  have hentangled : entangled.Annotated := by
    simp [Program.Annotated, tasksOf, entangled]
  exact ⟨⟨hchained, chained_acyclic, (infer_dependencies .builtin hchained).1 chained_acyclic⟩,
    hentangled, entangled_cyclic, (infer_dependencies .builtin hentangled).2 entangled_cyclic⟩

end Inference

end Sketchwright
