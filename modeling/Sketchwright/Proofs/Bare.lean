import Sketchwright.Proofs.Grammar
import Sketchwright.Proofs.Programs

/-! Inference fills slots and changes nothing else: a resolved program with its slots emptied is the
program that was read. What the slots name is named in the program already. -/

namespace Sketchwright

mutual

/-- A statement with all slots for inference empty. -/
def Stmt.bare : Stmt → Stmt
  | .function line head _ _ body => .function line head none [] (bareAll body)
  | .assign line target value declared _ => .assign line target value declared .unresolved
  | .conditional line condition thenBody elseBody =>
    .conditional line condition (bareAll thenBody) (bareAll elseBody)
  | .loop line var bounds _ body => .loop line var bounds .unresolved (bareAll body)
  | stmt => stmt

def bareAll : List Stmt → List Stmt
  | [] => []
  | stmt :: stmts => stmt.bare :: bareAll stmts

end

def Program.bare (p : Program) : Program := ⟨p.header, bareAll p.statements⟩

theorem bareAll_eq_map (stmts : List Stmt) : bareAll stmts = stmts.map Stmt.bare := by
  induction stmts with
  | nil => rfl
  | cons stmt stmts ih => rw [bareAll, List.map_cons, ih]

mutual

theorem Stmt.exprs_bare (stmt : Stmt) : stmt.bare.exprs = stmt.exprs := by
  cases stmt with
  | function line head signature hoisted body => exact exprsIn_bareAll body
  | conditional line condition thenBody elseBody =>
    rw [Stmt.bare, Stmt.exprs, Stmt.exprs, exprsIn_bareAll thenBody, exprsIn_bareAll elseBody]
  | loop line var bounds binding body =>
    rw [Stmt.bare, Stmt.exprs, Stmt.exprs, exprsIn_bareAll body]
  | _ => rfl

theorem exprsIn_bareAll (stmts : List Stmt) : exprsIn (bareAll stmts) = exprsIn stmts := by
  cases stmts with
  | nil => rfl
  | cons stmt stmts => rw [bareAll, exprsIn, exprsIn, stmt.exprs_bare, exprsIn_bareAll stmts]

end

namespace Inference

mutual

theorem Binds.bare_eq {table : CallTable} {stmt stmt' : Stmt} {fr fr' : Frame}
    {readings : List Reading} (h : Binds table fr stmt stmt' fr' readings) :
    stmt'.bare = stmt.bare := by
  cases h with
  | again | first | hoist | element => rfl
  | conditional hthen helse => rw [Stmt.bare, Stmt.bare, hthen.bare_eq, helse.bare_eq]
  | loopAgain _ _ _ hloop | loopFirst _ _ _ hloop => rw [Stmt.bare, Stmt.bare, hloop.bare_eq]
  | expr | give | bare | share | inert => rfl

theorem BindsAll.bare_eq {table : CallTable} {stmts stmts' : List Stmt} {fr fr' : Frame}
    {readings : List Reading} (h : BindsAll table fr stmts stmts' fr' readings) :
    bareAll stmts' = bareAll stmts := by
  cases h with
  | nil => rfl
  | cons hhead htail => rw [bareAll, bareAll, hhead.bare_eq, htail.bare_eq]

end

mutual

/-- A body names what it named before, and hoists some of that. -/
theorem Binds.names {table : CallTable} {stmt stmt' : Stmt} {fr fr' : Frame}
    {readings : List Reading} (h : Binds table fr stmt stmt' fr' readings) :
    stmt'.names = stmt.names ∧ ∀ v ∈ fr'.hoisted, v ∈ fr.hoisted ∨ v.1 ∈ stmt.names := by
  cases h with
  | again | first | element => exact ⟨rfl, fun _ hv => .inl hv⟩
  | hoist =>
    refine ⟨rfl, List.forall_mem_append.mpr ⟨fun _ hv => .inl hv, ?_⟩⟩
    exact List.forall_mem_singleton.mpr (.inr List.mem_cons_self)
  | conditional hthen helse =>
    obtain ⟨hthenNames, hthenHoisted⟩ := hthen.names
    obtain ⟨helseNames, helseHoisted⟩ := helse.names
    refine ⟨by rw [Stmt.names, Stmt.names, hthenNames, helseNames], fun v hv => ?_⟩
    rcases helseHoisted v hv with hv | hv
    · exact (hthenHoisted v hv).imp id (List.mem_append_left _)
    · exact .inr (List.mem_append_right _ hv)
  | loopAgain _ _ _ hloop | loopFirst _ _ _ hloop =>
    obtain ⟨hnames, hhoisted⟩ := hloop.names
    exact ⟨by rw [Stmt.names, Stmt.names, hnames],
      fun v hv => (hhoisted v hv).imp id (List.mem_cons_of_mem _)⟩
  | expr | give | bare | share | inert => exact ⟨rfl, fun _ hv => .inl hv⟩

theorem BindsAll.names {table : CallTable} {stmts stmts' : List Stmt} {fr fr' : Frame}
    {readings : List Reading} (h : BindsAll table fr stmts stmts' fr' readings) :
    namesIn stmts' = namesIn stmts ∧ ∀ v ∈ fr'.hoisted, v ∈ fr.hoisted ∨ v.1 ∈ namesIn stmts := by
  cases h with
  | nil => exact ⟨rfl, fun _ hv => .inl hv⟩
  | cons hhead htail =>
    obtain ⟨hheadNames, hheadHoisted⟩ := hhead.names
    obtain ⟨htailNames, htailHoisted⟩ := htail.names
    refine ⟨by rw [namesIn, namesIn, hheadNames, htailNames], fun v hv => ?_⟩
    rcases htailHoisted v hv with hv | hv
    · exact (hheadHoisted v hv).imp id (List.mem_append_left _)
    · exact .inr (List.mem_append_right _ hv)

end

theorem ResolvesTask.names_subset {c : Callees} {globals : Variables} {task : Task} {stmt : Stmt}
    {readings : List Reading} (h : ResolvesTask c globals task stmt readings) :
    stmt.names ⊆ task.head.name :: (task.head.params.map Param.name ++ namesIn task.body) := by
  cases h with
  | intro _ _ hbody =>
    obtain ⟨hnames, hhoisted⟩ := hbody.binds.names
    refine List.cons_subset_cons _ (List.append_subset.mpr
      ⟨List.subset_append_left .., fun id hid => ?_⟩)
    refine List.mem_append_right _ ?_
    rcases List.mem_append.mp hid with hid | hid
    · obtain ⟨v, hv, rfl⟩ := List.mem_map.mp hid
      exact (hhoisted v hv).elim (fun h => nomatch h) id
    · exact hnames ▸ hid

theorem ResolvesModule.names_eq {c : Callees} {stmts stmts' : List Stmt} {fr fr' : Frame}
    {readings : List Reading} (h : ResolvesModule c fr stmts stmts' fr' readings) :
    namesIn stmts' = namesIn stmts := by
  induction h with
  | nil => rfl
  | assign _ _ ih =>
    rw [namesIn, namesIn, ih]
    rfl
  | other _ _ _ ih => rw [namesIn, namesIn, ih]

theorem ResolvesTask.bare_eq {c : Callees} {globals : Variables} {task : Task} {stmt : Stmt}
    {readings : List Reading} (h : ResolvesTask c globals task stmt readings) :
    stmt.bare = .function task.line task.head none [] (bareAll task.body) := by
  cases h with
  | intro _ _ hbody => rw [Stmt.bare, hbody.binds.bare_eq]

theorem ResolvesModule.bare_eq {c : Callees} {stmts stmts' : List Stmt} {fr fr' : Frame}
    {readings : List Reading} (h : ResolvesModule c fr stmts stmts' fr' readings) :
    bareAll stmts' = bareAll stmts := by
  induction h with
  | nil => rfl
  | assign _ _ ih =>
    rw [bareAll, bareAll, ih]
    rfl
  | other _ _ _ ih => rw [bareAll, bareAll, ih]

theorem Inferred.bare_eq {table : CallTable} {p p' : Program} {stmts : List Stmt}
    {finished : List (String × Stmt)} {last : Functions} (htable : table.Sound) (hp : p.WellFormed)
    (h : Inferred table p p' stmts finished last) : p'.bare = p.bare := by
  obtain ⟨_, hmodule⟩ := h.resolvesModule htable hp
  have hplace : ∀ stmt ∈ stmts, (place finished stmt).bare = stmt.bare := by
    intro stmt hstmt
    cases hfunction : stmt.isFunction with
    | false => rw [place_other hfunction]
    | true =>
      cases stmt with
      | function line head signature hoisted body =>
        obtain ⟨_, htask, rfl, s, s', _, hfinishes⟩ := h.place_function htable hp hstmt
        obtain ⟨_, hresolves⟩ := h.resolves htable hp htask hfinishes
        exact hresolves.bare_eq
      | _ => cases hfunction
  rw [Program.bare, Program.bare, ← hmodule.bare_eq, h.program, bareAll_eq_map, bareAll_eq_map,
    List.map_map]
  exact congrArg (Program.mk p.header) (List.map_congr_left hplace)

theorem Inferred.names_subset {table : CallTable} {p p' : Program} {stmts : List Stmt}
    {finished : List (String × Stmt)} {last : Functions} (htable : table.Sound) (hp : p.WellFormed)
    (h : Inferred table p p' stmts finished last) :
    namesIn p'.statements ⊆ namesIn p.statements := by
  obtain ⟨_, hmodule⟩ := h.resolvesModule htable hp
  have hplace : ∀ stmt ∈ stmts, (place finished stmt).names ⊆ stmt.names := by
    intro stmt hstmt
    cases hfunction : stmt.isFunction with
    | false =>
      rw [place_other hfunction]
      exact List.Subset.refl _
    | true =>
      cases stmt with
      | function line head signature hoisted body =>
        obtain ⟨_, htask, rfl, s, s', _, hfinishes⟩ := h.place_function htable hp hstmt
        obtain ⟨_, hresolves⟩ := h.resolves htable hp htask hfinishes
        refine List.Subset.trans hresolves.names_subset
          (List.cons_subset_cons _ (List.append_subset.mpr ⟨?_, ?_⟩))
        · exact List.subset_append_left ..
        · exact List.subset_append_of_subset_right _ (List.subset_append_right ..)
      | _ => cases hfunction
  rw [← hmodule.names_eq, h.program]
  intro id hid
  obtain ⟨placed, hplaced, hid⟩ := Program.mem_namesIn.mp hid
  obtain ⟨stmt, hstmt, rfl⟩ := List.mem_map.mp hplaced
  exact Program.mem_namesIn.mpr ⟨stmt, hstmt, hplace stmt hstmt hid⟩

end Inference

end Sketchwright
