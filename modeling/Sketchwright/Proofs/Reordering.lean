import Sketchwright.Proofs.Annotated

/-! The order of the functions of a program. If all parameters are annotated, it does not
matter: the schedules of two runs give each function the same solution, and what one run
finishes the other finishes. -/

namespace Sketchwright

/-- The same statements in another order, which keeps the order of the assignments. -/
structure Stmt.Reordered (stmts others : List Stmt) : Prop where
  perm : stmts.Perm others
  assigns : stmts.filter Stmt.isAssign = others.filter Stmt.isAssign

theorem Stmt.Reordered.symm {stmts others : List Stmt} (h : Reordered stmts others) :
    Reordered others stmts :=
  ⟨h.perm.symm, h.assigns.symm⟩

/-- A definition of the function of that name. -/
def Stmt.defines (name : String) : Stmt → Bool
  | .function _ head .. => head.name == name
  | _ => false

/-- The definition of the function of that name. -/
def Program.function? (p : Program) (name : String) : Option Stmt :=
  p.statements.find? (Stmt.defines name)

namespace Inference

section Schedules

variable {table : CallTable} {globals : Variables} {fs gs hs last : Functions} {x : Solution}
  {done more : List Solution}

/-- The functions as they are known at last, but for the result of the function of the task. -/
def Functions.without (fs : Functions) (task : Task) : Functions :=
  fs.setReturns task.name task.returns

theorem awaits_without {task : Task} (hawaits : Awaits fs task) (hg : fs.Grows gs) :
    Awaits (gs.without task) task := by
  obtain ⟨slots, hslots, _⟩ := hawaits
  obtain ⟨slots', hslots', _⟩ := hg.some hslots
  refine ⟨{ slots' with returns := task.returns }, ?_, rfl⟩
  rw [Functions.without, Functions.find?_setReturns,
    if_pos (show task.head.name = task.name from rfl), hslots']
  rfl

theorem grows_without {task : Task} (hawaits : Awaits fs task) (hg : fs.Grows gs) :
    fs.Grows (gs.without task) := by
  refine hg.setReturns_right fun s hs => ?_
  obtain ⟨slots, hslots, hreturns⟩ := hawaits
  cases hs.symm.trans hslots
  rw [hreturns]
  exact .refl _

/-- A finished function has the same solution when all results but its own are known at the start,
and its result stays. -/
theorem Schedule.solution (htable : table.Sound) (h : Schedule table globals fs done last)
    (hfs : fs.Known) (hx : x ∈ done) : Solves table globals (last.without x.task) x ∧
      ∃ slots, last.find? x.name = some slots ∧ slots.returns = some x.signature.returns := by
  obtain ⟨before, after, rfl⟩ := List.append_of_mem hx
  obtain ⟨gs, hbefore, hafter⟩ := h.split
  have hgs := hbefore.known hfs
  cases hafter with
  | cons hawaits hsolves hrest =>
    have hgrows := (Schedule.cons hawaits hsolves hrest).grows htable hgs
    have hlast := (hrest.known hgs.setReturns)
    refine ⟨hsolves.of_grows htable hgs hlast.setReturns (grows_without hawaits hgrows) hawaits
      (awaits_without hawaits hgrows), ?_⟩
    obtain ⟨slots, hslots, _⟩ := hawaits
    have hfixed : (gs.settle x.name x.signature.returns).find? x.name =
        some { slots with returns := some x.signature.returns } := by
      rw [Functions.settle, Functions.find?_setReturns, if_pos rfl,
        show gs.find? x.name = some slots from hslots]
      rfl
    obtain ⟨slots', hslots', hgrows'⟩ := (hrest.grows htable hgs.setReturns).some hfixed
    exact ⟨slots', hslots', hgrows'.returns.of_some rfl⟩

/-- A run that starts with no more than another run finds out gives the same solutions. -/
theorem Schedule.agree (htable : table.Sound) (h : Schedule table globals fs done last)
    (hfs : fs.Known) (hmore : Schedule table globals gs more hs) (hgs : gs.Known)
    (hg : gs.Grows last) (htasks : ∀ y ∈ more, ∃ x ∈ done, x.task = y.task) :
    hs.Grows last ∧ more ⊆ done := by
  induction hmore with
  | nil => exact ⟨hg, List.nil_subset _⟩
  | @cons gs y more hs hawaits hsolves _ ih =>
    obtain ⟨⟨x, hx, htask⟩, htasks'⟩ := List.forall_mem_cons.mp htasks
    obtain ⟨hlate, slots, hslots, hresult⟩ := h.solution htable hfs hx
    have hlast := h.known hfs
    obtain rfl : x = y := hsolves.unique htable hgs hlast.setReturns (grows_without hawaits hg)
      hawaits (awaits_without hawaits hg) htask (htask ▸ hlate)
    have hg' : (gs.settle x.name x.signature.returns).Grows last := by
      refine hg.setReturns_left fun t ht => .inr ?_
      cases ht.symm.trans hslots
      exact hresult
    obtain ⟨hgrows, hsub⟩ := ih hgs.setReturns hg' htasks'
    exact ⟨hgrows, List.cons_subset.mpr ⟨hx, hsub⟩⟩

/-- Of the functions that a run finishes, take some: one of them needs only results that are known
at the start or that belong to the others. -/
theorem Schedule.exists_first (htable : table.Sound) (h : Schedule table globals fs done last)
    (hfs : fs.Known) {rest : List Task} (hne : rest ≠ [])
    (hrest : ∀ task ∈ rest, ∃ x ∈ done, x.task = task) :
    ∃ task ∈ rest, ∀ callee ∈ Stmt.neededIn task.body,
      fs.Settled callee ∨ ∃ y ∈ done, y.name = callee ∧ y.task ∉ rest := by
  induction h with
  | nil =>
    obtain ⟨_, h, _⟩ := hrest _ (List.head_mem hne)
    cases h
  | @cons fs x done _ hawaits hsolves _ ih =>
    by_cases hx : x.task ∈ rest
    · refine ⟨x.task, hx, fun callee hcallee => .inl ?_⟩
      by_contra hopen
      exact (hsolves.ready htable hfs hawaits).1 ⟨callee, hcallee, hopen⟩
    · have hlater : ∀ task ∈ rest, ∃ y ∈ done, y.task = task := by
        intro task htask
        obtain ⟨y, hy, rfl⟩ := hrest task htask
        rcases List.mem_cons.mp hy with rfl | hy
        · exact absurd htask hx
        · exact ⟨y, hy, rfl⟩
      obtain ⟨task, htask, hneeds⟩ := ih hfs.setReturns hlater
      refine ⟨task, htask, fun callee hcallee => ?_⟩
      rcases hneeds callee hcallee with hsettled | ⟨y, hy, hname, hother⟩
      · rcases Functions.settled_settle.mp hsettled with rfl | hsettled
        · exact .inr ⟨x, List.mem_cons_self .., rfl, hx⟩
        · exact .inl hsettled
      · exact .inr ⟨y, List.mem_cons_of_mem _ hy, hname, hother⟩

/-- A function that one run finishes does not fail in another. -/
theorem Schedule.not_fails (htable : table.Sound) (h : Schedule table globals fs done last)
    (hfs : fs.Known) (hx : x ∈ done) (hgs : gs.Known) (hg : gs.Grows last)
    (hawaits : Awaits gs x.task) {e : Error} : ¬Fails table globals gs x.task e := by
  intro hfails
  have hlate := (h.solution htable hfs hx).1
  exact hfails.not_solves htable hgs (h.known hfs).setReturns (grows_without hawaits hg) hawaits
    (awaits_without hawaits hg) hlate

/-- Of the functions that one run finishes, another does not leave some that all wait. -/
theorem Schedule.not_stuck (htable : table.Sound) (h : Schedule table globals fs done last)
    (hfs : fs.Known) (hto : fs.Grows gs) (hmore : Schedule table globals gs more hs)
    {rest : List Task} (hperm : (done.map Solution.task).Perm (more.map Solution.task ++ rest))
    (hne : rest ≠ []) : ∃ task ∈ rest, ¬task.Waits hs := by
  have hrest : ∀ task ∈ rest, ∃ x ∈ done, x.task = task := fun task htask =>
    List.mem_map.mp (hperm.symm.subset (List.mem_append_right _ htask))
  obtain ⟨task, htask, hneeds⟩ := h.exists_first htable hfs hne hrest
  refine ⟨task, htask, ?_⟩
  rintro ⟨callee, hcallee, hopen⟩
  rw [hmore.settled_iff, not_or] at hopen
  rcases hneeds callee hcallee with hsettled | ⟨y, hy, rfl, hother⟩
  · exact hopen.2 (hsettled.of_grows hto)
  · have hmem := hperm.subset (List.mem_map_of_mem hy)
    obtain ⟨z, hz, htask⟩ := List.mem_map.mp ((List.mem_append.mp hmem).resolve_right hother)
    apply hopen.1
    rw [Solution.name, ← htask]
    exact List.mem_map_of_mem hz

theorem lookup_entry (hnodup : (done.map Solution.name).Nodup) (hx : x ∈ done) :
    (done.map Solution.entry).lookup x.name = some x.stmt := by
  induction done with
  | nil => cases hx
  | cons y done ih =>
    rw [List.map_cons, List.nodup_cons] at hnodup
    rcases List.mem_cons.mp hx with rfl | hx
    · simp [Solution.entry]
    · have hne : (x.name == y.name) = false :=
        beq_eq_false_iff_ne.mpr fun heq => hnodup.1 (heq ▸ List.mem_map_of_mem hx)
      rw [List.map_cons, Solution.entry, List.lookup_cons, hne]
      exact ih hnodup.2 hx

theorem mem_of_lookup_entry {name : String} {stmt : Stmt}
    (h : (done.map Solution.entry).lookup name = some stmt) :
    ∃ x ∈ done, x.name = name ∧ x.stmt = stmt := by
  obtain ⟨before, after, heq, _⟩ := List.lookup_eq_some_iff.mp h
  have hmem : (name, stmt) ∈ done.map Solution.entry := heq ▸ by simp
  obtain ⟨x, hx, hentry⟩ := List.mem_map.mp hmem
  cases hentry
  exact ⟨x, hx, rfl, rfl⟩

/-- The order in which functions are finished makes no difference to what is found of them. -/
theorem lookup_entry_eq (hnodup : (done.map Solution.name).Nodup)
    (hperm : (more.map Solution.task).Perm (done.map Solution.task)) (hsub : more ⊆ done)
    (name : String) :
    (more.map Solution.entry).lookup name = (done.map Solution.entry).lookup name := by
  have hnames : (more.map Solution.name).Nodup := by
    have hsame := hperm.map Task.name
    rw [List.map_map, List.map_map] at hsame
    exact hsame.nodup_iff.mpr hnodup
  cases h : (more.map Solution.entry).lookup name with
  | some stmt =>
    obtain ⟨x, hx, rfl, rfl⟩ := mem_of_lookup_entry h
    exact (lookup_entry hnodup (hsub hx)).symm
  | none =>
    cases h' : (done.map Solution.entry).lookup name with
    | none => rfl
    | some stmt =>
      obtain ⟨x, hx, rfl, rfl⟩ := mem_of_lookup_entry h'
      obtain ⟨y, hy, htask⟩ := List.mem_map.mp (hperm.symm.subset (List.mem_map_of_mem hx))
      have hname : y.name = x.name := congrArg Task.name htask
      cases h.symm.trans (hname ▸ lookup_entry hnames hy)

/-- A run that finishes all functions, started with the same functions in another order, finishes
them with the same solutions. -/
theorem RunEnds.agree (htable : table.Sound) {tasks others : List Task}
    {finished : List (String × Stmt)} {r : Except Stall (List (String × Stmt))}
    (h : RunEnds table globals tasks fs last (.ok finished))
    (hother : RunEnds table globals others gs hs r) (hperm : tasks.Perm others)
    (hnodup : (tasks.map Task.name).Nodup) (hfs : fs.Known) (hgs : gs.Known) (hto : fs.Grows gs)
    (hfrom : gs.Grows fs) (hawaits : ∀ task ∈ others, Awaits gs task) :
    ∃ finished', r = .ok finished' ∧ ∀ name, finished'.lookup name = finished.lookup name := by
  cases h with
  | @finished done hdone htasks =>
  have hdoneAll : (done.map Solution.task).Perm others := htasks.trans hperm
  have hfinished : ∀ task ∈ others, ∃ x ∈ done, x.task = task := fun task htask =>
    List.mem_map.mp (hdoneAll.symm.subset htask)
  have hagree : ∀ {more : List Solution}, Schedule table globals gs more hs →
      more.map Solution.task ⊆ others → hs.Grows last ∧ more ⊆ done := by
    intro more hmore hsub
    refine hdone.agree htable hfs hmore hgs (hfrom.trans (hdone.grows htable hfs)) fun y hy => ?_
    exact hfinished _ (hsub (List.mem_map_of_mem hy))
  cases hother with
  | failed hmore hrest hfails =>
    have hmem := hrest.subset (List.mem_append_right _ (List.mem_cons_self ..))
    obtain ⟨x, hx, rfl⟩ := hfinished _ hmem
    have hnodup' := (hperm.map Task.name).nodup_iff.mp hnodup
    have hlate := hmore.awaits (hawaits _ hmem)
      ((nodup_of_perm hrest hnodup').2 _ (List.mem_cons_self ..))
    have hgrows := (hagree hmore fun _ h => hrest.subset (List.mem_append_left _ h)).1
    exact absurd hfails (hdone.not_fails htable hfs hx (hmore.known hgs) hgrows hlate)
  | stuck hmore hrest hne hwaits =>
    obtain ⟨task, htask, hready⟩ :=
      hdone.not_stuck htable hfs hto hmore (hdoneAll.trans hrest.symm) hne
    exact absurd (hwaits task htask) hready
  | finished hmore hrest =>
    refine ⟨_, rfl, lookup_entry_eq (nodup_finished htasks hnodup) (hrest.trans hdoneAll.symm) ?_⟩
    exact (hagree hmore fun _ h => hrest.subset h).2

end Schedules

section Statements

variable {stmts others resolved : List Stmt} {x : Solution}

theorem heads_grows {tasks others : List Task} (hperm : tasks.Perm others)
    (hnodup : (others.map Task.name).Nodup) : (heads tasks).Grows (heads others) := by
  refine ⟨fun {name} hnone => ?_, fun {name s} hs => ?_⟩
  · cases h : (heads others).find? name with
    | none => rfl
    | some s =>
      obtain ⟨task, htask, rfl, _⟩ := mem_of_find?_heads h
      have hmem : task ∈ tasks := hperm.symm.subset htask
      have hhead := List.find?_eq_none.mp hnone _ (List.mem_map_of_mem hmem)
      exact absurd (beq_self_eq_true task.name) hhead
  · obtain ⟨task, htask, rfl, rfl⟩ := mem_of_find?_heads hs
    exact ⟨_, find?_heads hnodup (hperm.subset htask), .refl _⟩

theorem filter_assign_refill (hlength : resolved.length = (stmts.filter Stmt.isAssign).length)
    (hassign : ∀ stmt ∈ resolved, stmt.isAssign = true) :
    (refill stmts resolved).filter Stmt.isAssign = resolved ∧
      (refill stmts resolved).filter (!·.isAssign) = stmts.filter (!·.isAssign) := by
  induction stmts generalizing resolved with
  | nil => exact ⟨(List.length_eq_zero_iff.mp hlength).symm, rfl⟩
  | cons stmt stmts ih =>
    by_cases hstmt : stmt.isAssign = true
    · rw [List.filter_cons_of_pos hstmt] at hlength
      cases resolved with
      | nil => cases hlength
      | cons first resolved =>
        obtain ⟨hfirst, hassign⟩ := List.forall_mem_cons.mp hassign
        obtain ⟨hassigns, hrest⟩ := ih (Nat.succ.inj hlength) hassign
        rw [refill, if_pos hstmt, List.headD_cons, List.tail_cons, List.filter_cons_of_pos hfirst,
          List.filter_cons_of_neg (by simp [hfirst]), List.filter_cons_of_neg (by simp [hstmt])]
        exact ⟨congrArg _ hassigns, hrest⟩
    · rw [List.filter_cons_of_neg hstmt] at hlength
      obtain ⟨hassigns, hrest⟩ := ih hlength hassign
      rw [refill, if_neg hstmt, List.filter_cons_of_neg hstmt,
        List.filter_cons_of_pos (by simpa using hstmt),
        List.filter_cons_of_pos (by simpa using hstmt)]
      exact ⟨hassigns, congrArg _ hrest⟩

/-- Statements in another order stay so when their assignments are resolved. -/
theorem reordered_refill (h : Stmt.Reordered stmts others)
    (hlength : resolved.length = (stmts.filter Stmt.isAssign).length)
    (hassign : ∀ stmt ∈ resolved, stmt.isAssign = true) :
    Stmt.Reordered (refill stmts resolved) (refill others resolved) := by
  obtain ⟨hassigns, hrest⟩ := filter_assign_refill hlength hassign
  obtain ⟨hassigns', hrest'⟩ := filter_assign_refill (h.assigns ▸ hlength) hassign
  refine ⟨?_, hassigns.trans hassigns'.symm⟩
  have hsplit := (List.filter_append_perm Stmt.isAssign (refill stmts resolved)).symm
  have hsplit' := List.filter_append_perm Stmt.isAssign (refill others resolved)
  rw [hassigns, hrest] at hsplit
  rw [hassigns', hrest'] at hsplit'
  exact hsplit.trans (((h.perm.filter _).append_left _).trans hsplit')

theorem isAssign_place {finished : List (String × Stmt)}
    (hfinished : ∀ {name stmt}, finished.lookup name = some stmt → stmt.isAssign = false)
    (stmt : Stmt) : (place finished stmt).isAssign = stmt.isAssign := by
  cases stmt with
  | function line head signature hoisted body =>
    rw [place]
    cases h : finished.lookup head.name with
    | none => rfl
    | some stmt => exact hfinished h
  | _ => rfl

theorem reordered_place (h : Stmt.Reordered stmts others) {finished : List (String × Stmt)}
    (hfinished : ∀ {name stmt}, finished.lookup name = some stmt → stmt.isAssign = false) :
    Stmt.Reordered (stmts.map (place finished)) (others.map (place finished)) := by
  refine ⟨h.perm.map _, ?_⟩
  have hassigns : ∀ stmts : List Stmt,
      (stmts.map (place finished)).filter Stmt.isAssign = stmts.filter Stmt.isAssign := by
    intro stmts
    have hsame : Stmt.isAssign ∘ place finished = Stmt.isAssign :=
      funext fun stmt => isAssign_place hfinished stmt
    rw [List.filter_map, hsame]
    refine (List.map_congr_left fun stmt hstmt => ?_).trans (List.map_id _)
    have hassign := (List.mem_filter.mp hstmt).2
    cases stmt <;> first | rfl | cases hassign
  rw [hassigns, hassigns, h.assigns]

theorem place_of_task {done : List Solution} (hnodup : (done.map Solution.name).Nodup) {line : Nat}
    {head : FunctionHead} {signature : Option Signature} {hoisted : List (String × Kind)}
    {body : List Stmt} (hx : x ∈ done) (htask : x.task = ⟨line, head, body⟩) :
    place (done.map Solution.entry) (.function line head signature hoisted body) = x.stmt := by
  have hlookup := lookup_entry hnodup hx
  rw [Solution.name, htask] at hlookup
  rw [place, show (done.map Solution.entry).lookup head.name = some x.stmt from hlookup,
    Option.getD_some]

/-- Among the placed statements each function has the definition that its solution gives. -/
theorem find?_defines {done : List Solution} (hnodup : (done.map Solution.name).Nodup)
    (hdone : ∀ task ∈ tasksOf stmts, ∃ x ∈ done, x.task = task) (hx : x ∈ done)
    (htask : x.task ∈ tasksOf stmts) :
    (stmts.map (place (done.map Solution.entry))).find? (Stmt.defines x.name) = some x.stmt := by
  obtain ⟨signature, hoisted, hsource⟩ := mem_tasksOf htask
  have hmem := List.mem_map_of_mem (f := place (done.map Solution.entry)) hsource
  rw [place_of_task hnodup hx rfl] at hmem
  have hsome : ((stmts.map (place (done.map Solution.entry))).find?
      (Stmt.defines x.name)).isSome = true := by
    rw [List.find?_isSome]
    exact ⟨x.stmt, hmem, beq_self_eq_true x.name⟩
  obtain ⟨stmt, hstmt⟩ := Option.isSome_iff_exists.mp hsome
  rw [hstmt]
  have hdefines := List.find?_some hstmt
  obtain ⟨source, hsource, rfl⟩ := List.mem_map.mp (List.mem_of_find?_eq_some hstmt)
  cases source with
  | function line head signature hoisted body =>
    obtain ⟨y, hy, htask⟩ := hdone ⟨line, head, body⟩ (List.mem_filterMap.mpr ⟨_, hsource, rfl⟩)
    rw [place_of_task hnodup hy htask] at hdefines ⊢
    have hname : y.name = x.name := beq_iff_eq.mp hdefines
    rw [List.inj_on_of_nodup_map hnodup hy hx hname]
  | _ => cases hdefines

/-- Both orders are resolved to the same statements, and each function to the same definition. -/
theorem reordered_resolved (h : Stmt.Reordered stmts others)
    (hlength : resolved.length = (stmts.filter Stmt.isAssign).length)
    (hassign : ∀ stmt ∈ resolved, stmt.isAssign = true) {done : List Solution}
    (hdone : (done.map Solution.task).Perm (tasksOf stmts))
    (hnodup : ((tasksOf stmts).map Task.name).Nodup) {finished : List (String × Stmt)}
    (hlookup : ∀ name, finished.lookup name = (done.map Solution.entry).lookup name) :
    Stmt.Reordered ((refill stmts resolved).map (place (done.map Solution.entry)))
        ((refill others resolved).map (place finished)) ∧
      ∀ task ∈ tasksOf stmts, ∃ x : Solution, x.task = task ∧
        ((refill stmts resolved).map (place (done.map Solution.entry))).find?
          (Stmt.defines task.name) = some x.stmt ∧
        ((refill others resolved).map (place finished)).find? (Stmt.defines task.name) =
          some x.stmt := by
  have hplace : place finished = place (done.map Solution.entry) := by
    funext stmt
    cases stmt with
    | function => rw [place, place, hlookup]
    | _ => rfl
  rw [hplace]
  refine ⟨reordered_place (reordered_refill h hlength hassign) fun hsome => ?_,
    fun task htask => ?_⟩
  · obtain ⟨x, _, _, rfl⟩ := mem_of_lookup_entry hsome
    rfl
  · have hnames := nodup_finished hdone hnodup
    have hothers : (tasksOf others).Perm (tasksOf stmts) := (h.perm.filterMap _).symm
    obtain ⟨x, hx, rfl⟩ := List.mem_map.mp (hdone.symm.subset htask)
    refine ⟨x, rfl, find?_defines hnames (fun task htask => ?_) hx ?_,
      find?_defines hnames (fun task htask => ?_) hx ?_⟩
    all_goals rw [tasksOf_refill _ hassign] at *
    · exact List.mem_map.mp (hdone.symm.subset htask)
    · exact htask
    · exact List.mem_map.mp (hdone.symm.subset (hothers.subset htask))
    · exact hothers.symm.subset htask

end Statements

section Programs

variable {table : CallTable} {p q p' : Program}

theorem Annotated.reordered (hp : p.Annotated) (h : Stmt.Reordered p.statements q.statements) :
    q.Annotated :=
  fun task htask => hp task ((h.perm.symm.filterMap _).subset htask)

/-- The assignments of the module are resolved alike in both orders. -/
theorem ends_module_reordered (htable : table.Sound) (hp : (heads (tasksOf p.statements)).Known)
    (hq : (heads (tasksOf q.statements)).Known)
    (hgrows : (heads (tasksOf p.statements)).Grows (heads (tasksOf q.statements)))
    (h : Stmt.Reordered p.statements q.statements) {resolved : List Stmt} {s : State}
    (hends : Ends (inferBlock ⟨table, none⟩ (p.statements.filter Stmt.isAssign)) (start p)
      (.ok resolved) s) :
    ∃ t, Ends (inferBlock ⟨table, none⟩ (q.statements.filter Stmt.isAssign)) (start q)
      (.ok resolved) t ∧ t.frame = s.frame := by
  have hmodule : Steady true _ (inferBlock ⟨table, none⟩ (p.statements.filter Stmt.isAssign)) :=
    inferBlock_steady htable _
  have hsteady := hmodule (start p) (start q) ⟨hp, hq, hgrows, rfl, rfl⟩
  obtain ⟨_, hcarries⟩ := hsteady _ _ hends
  cases hcarries with
  | value _ hends' hinformed => exact ⟨_, h.assigns ▸ hends', hinformed.frame⟩

theorem infer_reordered_ok (htable : table.Sound) (hp : p.Annotated)
    (h : Stmt.Reordered p.statements q.statements) (hok : (infer table p).1 = .ok p') :
    ∃ q', (infer table q).1 = .ok q' ∧ Stmt.Reordered p'.statements q'.statements ∧
      ∀ task ∈ tasksOf p.statements, ∃ x : Solution, x.task = task ∧
        p'.function? task.name = some x.stmt ∧ q'.function? task.name = some x.stmt := by
  have hends := infer_ends htable hp
  rw [hok] at hends
  cases hends with
  | @finished resolved s last finished hcollected hmodule hrun =>
  have htasks : (tasksOf p.statements).Perm (tasksOf q.statements) := h.perm.filterMap _
  have hcollected' : Collected table (tasksOf q.statements) :=
    ⟨(htasks.map Task.name).nodup_iff.mp hcollected.nodup,
      fun task htask => hcollected.unknown task (htasks.symm.subset htask)⟩
  have hknown := heads_known hcollected.nodup hp
  have hknown' := heads_known hcollected'.nodup (Annotated.reordered hp h)
  have hto := heads_grows htasks hcollected'.nodup
  have hfrom := heads_grows htasks.symm hcollected.nodup
  obtain ⟨t, hmodule', hframe⟩ := ends_module_reordered htable hknown hknown' hto h hmodule
  have hagree := fun {last' r} (hrun' : RunEnds table t.frame.scope.locals (tasksOf q.statements)
      (heads (tasksOf q.statements)) last' r) =>
    hrun.agree htable (hframe ▸ hrun') htasks hcollected.nodup hknown hknown' hto hfrom
      (heads_awaits hcollected'.nodup)
  have hends' := infer_ends htable (Annotated.reordered hp h)
  generalize (infer table q).1 = r at hends'
  cases hends' with
  | refused _ hnot => exact absurd hcollected' hnot
  | module _ _ hfailed => cases (hmodule'.unique hfailed).1
  | unfinished _ hends'' hrun' =>
    obtain ⟨_, rfl⟩ := hmodule'.unique hends''
    obtain ⟨_, herror, _⟩ := hagree hrun'
    cases herror
  | @finished resolved' _ _ finished' _ hends'' hrun' =>
    obtain ⟨heq, rfl⟩ := hmodule'.unique hends''
    cases heq
    obtain ⟨_, heq, hlookup⟩ := hagree hrun'
    cases heq
    cases hrun with
    | finished _ hdone =>
      obtain ⟨hlength, hassign⟩ :=
        ends_inferBlock_assign (fun stmt hstmt => (List.mem_filter.mp hstmt).2) hmodule
      exact ⟨_, rfl, reordered_resolved h hlength hassign hdone hcollected.nodup hlookup⟩

/-- The order of the functions of a program whose parameters are annotated does not matter.
Inference succeeds on both orders or on neither, and resolves them to the same statements: each
function has one definition in both, with its signature, its hoisted names and its resolved body. -/
theorem infer_reordered (htable : table.Built) (hp : p.Annotated)
    (h : Stmt.Reordered p.statements q.statements) :
    ((∃ p', (infer table p).1 = .ok p') ↔ ∃ q', (infer table q).1 = .ok q') ∧
      ∀ p' q', (infer table p).1 = .ok p' → (infer table q).1 = .ok q' →
        Stmt.Reordered p'.statements q'.statements ∧
          ∀ task ∈ tasksOf p.statements, ∃ signature hoisted body,
            p'.function? task.name =
              some (.function task.line task.head (some signature) hoisted body) ∧
            q'.function? task.name =
              some (.function task.line task.head (some signature) hoisted body) := by
  refine ⟨⟨?_, ?_⟩, fun p' q' hok hok' => ?_⟩
  · rintro ⟨p', hok⟩
    obtain ⟨q', hok', _⟩ := infer_reordered_ok htable.sound hp h hok
    exact ⟨q', hok'⟩
  · rintro ⟨q', hok⟩
    obtain ⟨p', hok', _⟩ :=
      infer_reordered_ok htable.sound (Annotated.reordered hp h) h.symm hok
    exact ⟨p', hok'⟩
  · obtain ⟨_, heq, hsame⟩ := infer_reordered_ok htable.sound hp h hok
    cases hok'.symm.trans heq
    refine ⟨hsame.1, fun task htask => ?_⟩
    obtain ⟨x, rfl, hdefined, hdefined'⟩ := hsame.2 task htask
    exact ⟨x.signature, x.hoisted, x.body, hdefined, hdefined'⟩

end Programs

/-- A global, a function that reads it, and one that hoists what that gives. -/
def inOrder : Program where
  header := []
  statements := [
    .assign 1 (.name "n") (.literal (.int 1)) none .unresolved,
    .function 2 ⟨"f", [⟨"a", some .int⟩], none, false⟩ none []
      [.give 3 (some (.binary (.name "a") .add (.name "n")))],
    .function 4 ⟨"loop", [], none, true⟩ none []
      [.conditional 5 (.name "n")
        [.assign 6 (.name "x") (.call "f" [.name "n"]) none .unresolved] []]]

/-- The same with the second function first. -/
def outOfOrder : Program where
  header := []
  statements := [
    .function 4 ⟨"loop", [], none, true⟩ none []
      [.conditional 5 (.name "n")
        [.assign 6 (.name "x") (.call "f" [.name "n"]) none .unresolved] []],
    .assign 1 (.name "n") (.literal (.int 1)) none .unresolved,
    .function 2 ⟨"f", [⟨"a", some .int⟩], none, false⟩ none []
      [.give 3 (some (.binary (.name "a") .add (.name "n")))]]

/-- Inference succeeds on both of these. -/
theorem infer_reordered_sample : inOrder.Annotated ∧
    Stmt.Reordered inOrder.statements outOfOrder.statements ∧
    ∃ p' q', (infer .builtin inOrder).1 = .ok p' ∧ (infer .builtin outOfOrder).1 = .ok q' ∧
      Stmt.Reordered p'.statements q'.statements ∧ ∀ task ∈ tasksOf inOrder.statements,
        ∃ signature hoisted body,
          p'.function? task.name =
            some (.function task.line task.head (some signature) hoisted body) ∧
          q'.function? task.name =
            some (.function task.line task.head (some signature) hoisted body) := by
  have hannotated : inOrder.Annotated := by
    simp [Program.Annotated, tasksOf, inOrder]
  have hreordered : Stmt.Reordered inOrder.statements outOfOrder.statements :=
    ⟨List.perm_append_singleton _ [_, _], rfl⟩
  have hok : (infer .builtin inOrder).1.isOk = true := by decide +kernel
  have hinfers := infer_reordered .builtin hannotated hreordered
  cases h : (infer .builtin inOrder).1 with
  | error e =>
    rw [h] at hok
    cases hok
  | ok p' =>
    obtain ⟨q', h'⟩ := hinfers.1.mp ⟨p', h⟩
    exact ⟨hannotated, hreordered, p', q', rfl, h', hinfers.2 p' q' h h'⟩

end Inference

end Sketchwright
