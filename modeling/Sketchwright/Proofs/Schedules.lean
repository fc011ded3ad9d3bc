import Sketchwright.Proofs.Callees
import Sketchwright.Proofs.Rounds

/-! The order in which the rounds finish the functions of a program. A round is a schedule of
attempts that succeed, each with what is known by then, and a run of rounds ends with all functions
finished, with a function that fails, or with functions that all wait. -/

namespace Sketchwright.Inference

/-- Some result that the body of the function needs is not known. -/
def Task.Waits (task : Task) (fs : Functions) : Prop :=
  ∃ callee ∈ Stmt.neededIn task.body, ¬fs.Settled callee

/-- The functions with another result for one of them. -/
def Functions.setReturns (fs : Functions) (name : String) (result : Option Kind) : Functions :=
  fs.update name fun slots => { slots with returns := result }

/-- Fixes the result of a function. -/
def Functions.settle (fs : Functions) (name : String) (kind : Kind) : Functions :=
  fs.setReturns name (some kind)

/-- A function with its slots filled. -/
structure Solution where
  task : Task
  signature : Signature
  hoisted : List (String × Kind)
  body : List Stmt

namespace Solution

def stmt (x : Solution) : Stmt :=
  .function x.task.line x.task.head (some x.signature) x.hoisted x.body

def name (x : Solution) : String := x.task.name

/-- The solution as the rounds note it. -/
def entry (x : Solution) : String × Stmt := (x.name, x.stmt)

end Solution

section Attempts

variable {table : CallTable} {globals : Variables} {task : Task} {s t s' : State}

/-- The attempt succeeds if its body does, and fixes the result. -/
theorem Task.BodyRun.solves {slots : Slots} (hslots : s.functions.find? task.name = some slots)
    {body : List Stmt} (h : task.BodyRun table globals s slots (.ok body) s') :
    ∃ s₁, Ends (inferFunction table globals task) s (.ok (Solution.stmt
        ⟨task, ⟨slots.paramKinds, resultKind slots s'.frame⟩, s'.frame.hoisted, body⟩)) s₁ ∧
      s₁.functions = s'.functions.settle task.name (resultKind slots s'.frame) := by
  obtain ⟨hopen, h⟩ := h
  refine ⟨{ s' with
    functions := s'.functions.settle task.name (resultKind slots s'.frame)
    events := s'.events ++ [.signature task.name slots.paramKinds (resultKind slots s'.frame)
      s'.frame.hoisted.length] }, ends_bind_ok.mpr ⟨s, s, ends_get.mpr ⟨rfl, rfl⟩, ?_⟩, rfl⟩
  rw [show s.functions.find? task.head.name = some slots from hslots]
  dsimp only
  rw [hopen]
  exact ends_bind_ok.mpr ⟨_, _, ends_modifyFrame.mpr ⟨rfl, rfl⟩, ends_bind_ok.mpr ⟨_, _, h, rfl⟩⟩

/-- The attempt ends with the error of its body. -/
theorem Task.BodyRun.stalls {slots : Slots} (hslots : s.functions.find? task.name = some slots)
    {stall : Stall} (h : task.BodyRun table globals s slots (.error stall) s') :
    Ends (inferFunction table globals task) s (.error stall) s' := by
  obtain ⟨hopen, h⟩ := h
  refine ends_bind_error.mpr (.inr ⟨s, s, ends_get.mpr ⟨rfl, rfl⟩, ?_⟩)
  rw [show s.functions.find? task.head.name = some slots from hslots]
  dsimp only
  rw [hopen]
  exact ends_bind_error.mpr
    (.inr ⟨_, _, ends_modifyFrame.mpr ⟨rfl, rfl⟩, ends_bind_error.mpr (.inl h)⟩)

/-- What the end of an attempt at a function from `s` says of an attempt from `t`. -/
inductive Attempted (table : CallTable) (globals : Variables) (task : Task) (s t s' : State) :
    Except Stall Stmt → Prop
  | solved {x : Solution} {stmt t'} (htask : x.task = task) (hstmt : stmt = x.stmt)
    (hready : ¬task.Waits s.functions)
      (hresult : SlotGrows task.returns (some x.signature.returns))
      (hfunctions : s'.functions = s.functions.settle task.name x.signature.returns)
      (hends : Ends (inferFunction table globals task) t (.ok stmt) t') :
      Attempted table globals task s t s' (.ok stmt)
  | failed {e t'} (hcalm : e.asksAnnotation = false) (hfunctions : s'.functions = s.functions)
      (hends : Ends (inferFunction table globals task) t (.error (.failed e)) t') :
      Attempted table globals task s t s' (.error (.failed e))
  | waits {e} (hwaits : task.Waits s.functions) (hfunctions : s'.functions = s.functions) :
      Attempted table globals task s t s' (.error (.pending e))

/-- The bodies of both attempts start in one frame. -/
theorem Task.informed_start (task : Task) (globals : Variables) (hs : s.functions.Known)
    (ht : t.functions.Known) (hg : s.functions.Grows t.functions) (kinds : List Kind) :
    Informed false { s with frame := task.start globals kinds }
      { t with frame := task.start globals kinds } := by
  refine ⟨hs, ht, hg, rfl, ?_⟩
  rw [Task.start, Frame.ofScope, Task.bodyScope_eq]
  rfl

/-- An attempt that starts with more results comes to the same end, unless it waited for some. -/
theorem inferFunction_steady (htable : table.Sound) (hs : s.functions.Known)
    (ht : t.functions.Known) (hg : s.functions.Grows t.functions) (has : Awaits s.functions task)
    (hat : Awaits t.functions task) {r : Except Stall Stmt}
    (h : Ends (inferFunction table globals task) s r s') :
    Attempted table globals task s t s' r := by
  obtain ⟨slots, hslots, hreturns⟩ := has
  obtain ⟨slots', hslots', hreturns'⟩ := hat
  obtain ⟨_, heq, hgrows⟩ := hg.some hslots
  cases heq.symm.trans hslots'
  have hopen := hs.params hslots
  have hsame : slots'.paramKinds = slots.paramKinds :=
    congrArg (List.filterMap Prod.snd) (hgrows.params_eq hopen)
  have hreturnsEq : slots'.returns = slots.returns := hreturns'.trans hreturns.symm
  have henv : task.env table slots' = task.env table slots := by
    rw [Task.env, hreturnsEq, Task.env]
  have hsteady : Steady false _ (inferBlock (task.env table slots) task.body) :=
    inferBlock_steady htable task.body
  have hfollows := hsteady _ _ (task.informed_start globals hs ht hg slots.paramKinds)
  -- a run of the body from `t` is one of the attempt
  have hrun : ∀ {r t'}, Ends (inferBlock (task.env table slots) task.body)
      { t with frame := task.start globals slots.paramKinds } r t' →
      task.BodyRun table globals t slots' r t' := by
    intro r t' hends
    exact ⟨ht.params hslots', by rwa [henv, hsame]⟩
  have hrun' : ∀ {r s₁}, Ends (inferBlock (task.env table slots) task.body)
      { s with frame := task.start globals slots.paramKinds } r s₁ →
      task.BodyRun table globals s slots r s₁ := fun hends => ⟨hopen, hends⟩
  rcases hbody : endOf (inferBlock (task.env table slots) task.body)
    { s with frame := task.start globals slots.paramKinds } with ⟨stall | body, s₁⟩
  · obtain ⟨rfl, rfl⟩ := h.unique ((hrun' hbody).stalls hslots)
    obtain ⟨hkept, hcarries⟩ := hfollows _ _ hbody
    cases hcarries with
    | failure hcalm hends => exact .failed hcalm hkept ((hrun hends).stalls hslots')
    | wait _ hcallee hopen' => exact .waits ⟨_, hcallee, hopen'⟩ hkept
  · obtain ⟨s₂, hends₂, hfunctions⟩ := (hrun' hbody).solves hslots
    obtain ⟨rfl, rfl⟩ := h.unique hends₂
    obtain ⟨hkept, hcarries⟩ := hfollows _ _ hbody
    cases hcarries with
    | value hsettled hends hinformed =>
      obtain ⟨t', hends', _⟩ := (hrun hends).solves hslots'
      have hresult : resultKind slots' s₁.frame = resultKind slots s₁.frame := by
        rw [resultKind, hreturnsEq, resultKind]
      rw [hinformed.frame, hresult, hsame] at hends'
      refine .solved rfl rfl ?_ ?_ ?_ hends'
      · rintro ⟨callee, hcallee, hopen'⟩
        exact hopen' (hsettled callee hcallee)
      · show SlotGrows task.returns (some (resultKind slots s₁.frame))
        rw [← hreturns, resultKind]
        cases slots.returns with
        | none => exact .inl rfl
        | some kind => exact .inr rfl
      · rw [hfunctions, hkept]

end Attempts

namespace Functions

variable {fs gs : Functions} {name other : String} {kind : Kind} {result : Option Kind}

theorem find?_setReturns (fs : Functions) (name other : String) (result : Option Kind) :
    (fs.setReturns name result).find? other = if other = name then
      (fs.find? other).map fun slots => { slots with returns := result } else fs.find? other :=
  find?_update fs name other _ fun _ => rfl

theorem Known.setReturns (h : fs.Known) : (fs.setReturns name result).Known := by
  refine ⟨?_, fun {other s} hs => ?_⟩
  · have hnames : (fs.setReturns name result).map Slots.name = fs.map Slots.name := by
      rw [Functions.setReturns, update, List.map_map]
      refine List.map_congr_left fun s _ => ?_
      rw [Function.comp]
      split <;> rfl
    rw [hnames]
    exact h.nodup
  · rw [find?_setReturns] at hs
    split at hs
    · obtain ⟨s₀, hs₀, rfl⟩ := Option.map_eq_some_iff.mp hs
      exact (h.params hs₀ : s₀.openParam? = none)
    · exact h.params hs

theorem Grows.setReturns_right (hg : fs.Grows gs)
    (h : ∀ s, fs.find? name = .some s → SlotGrows s.returns result) :
    fs.Grows (gs.setReturns name result) := by
  refine ⟨fun {other} hnone => ?_, fun {other s} hs => ?_⟩
  · rw [find?_setReturns, hg.none hnone]
    split <;> rfl
  · obtain ⟨t, ht, hst⟩ := hg.some hs
    rw [find?_setReturns, ht]
    split
    · next hname => exact ⟨_, rfl, hst.name, hst.line, hst.params, h s (hname ▸ hs)⟩
    · exact ⟨t, rfl, hst⟩

theorem Grows.setReturns_left (hg : fs.Grows gs)
    (h : ∀ t, gs.find? name = .some t → SlotGrows result t.returns) :
    (fs.setReturns name result).Grows gs := by
  refine ⟨fun {other} hnone => ?_, fun {other s} hs => ?_⟩
  · rw [find?_setReturns] at hnone
    split at hnone
    · exact hg.none (Option.map_eq_none_iff.mp hnone)
    · exact hg.none hnone
  · rw [find?_setReturns] at hs
    split at hs
    · next hname =>
      obtain ⟨s₀, hs₀, rfl⟩ := Option.map_eq_some_iff.mp hs
      obtain ⟨t, ht, hst⟩ := hg.some hs₀
      exact ⟨t, ht, hst.name, hst.line, hst.params, h t (hname ▸ ht)⟩
    · exact hg.some hs

theorem settled_settle : (fs.settle name kind).Settled other ↔ other = name ∨ fs.Settled other := by
  unfold Settled
  rw [settle, find?_setReturns]
  by_cases hname : other = name
  · rw [if_pos hname]
    refine ⟨fun _ => .inl hname, fun _ s hs => ?_⟩
    obtain ⟨_, _, rfl⟩ := Option.map_eq_some_iff.mp hs
    rfl
  · rw [if_neg hname]
    exact ⟨.inr, (·.resolve_left hname)⟩

theorem unresolved_settle : (fs.settle name kind).unresolved ≤ fs.unresolved := by
  induction fs with
  | nil => exact Nat.le_refl _
  | cons s fs ih =>
    refine Nat.add_le_add ?_ ih
    dsimp only
    split
    · exact Nat.add_le_add_left (Nat.zero_le _) _
    · exact Nat.le_refl _

end Functions

theorem Awaits.setReturns {fs : Functions} {task : Task} {name : String} {result : Option Kind}
    (h : Awaits fs task) (hname : task.name ≠ name) : Awaits (fs.setReturns name result) task := by
  obtain ⟨slots, hslots, hreturns⟩ := h
  refine ⟨slots, ?_, hreturns⟩
  rw [Functions.find?_setReturns, if_neg (show ¬task.head.name = name from hname)]
  exact hslots

/-- An attempt that knows `fs` of the functions gives this solution. -/
def Solves (table : CallTable) (globals : Variables) (fs : Functions) (x : Solution) : Prop :=
  ∃ s s', s.functions = fs ∧ Ends (inferFunction table globals x.task) s (.ok x.stmt) s'

/-- An attempt at the function that knows `fs` of the functions fails. -/
def Fails (table : CallTable) (globals : Variables) (fs : Functions) (task : Task) (e : Error) :
    Prop :=
  ∃ s s', s.functions = fs ∧ Ends (inferFunction table globals task) s (.error (.failed e)) s'

/-- Functions that are finished one after the other, each with what is known by then. -/
inductive Schedule (table : CallTable) (globals : Variables) :
    Functions → List Solution → Functions → Prop
  | nil {fs} : Schedule table globals fs [] fs
  | cons {fs x done gs} (hawaits : Awaits fs x.task) (hsolves : Solves table globals fs x)
      (hrest : Schedule table globals (fs.settle x.name x.signature.returns) done gs) :
      Schedule table globals fs (x :: done) gs

/-- How a round ends that starts with `fs` of the functions known and ends with `gs`: it
finishes some of them and leaves the rest, or one of the rest fails. A round that finishes none
leaves functions that wait. -/
inductive RoundEnds (table : CallTable) (globals : Variables) (tasks : List Task)
    (fs gs : Functions) : Except Stall Progress → Prop
  | passed {done rest blocker} (hschedule : Schedule table globals fs done gs)
      (hperm : (done.map Solution.task ++ rest).Perm tasks) (hblocker : blocker = none ↔ rest = [])
      (hwaits : done = [] → ∀ task ∈ rest, task.Waits fs) :
      RoundEnds table globals tasks fs gs (.ok ⟨done.map Solution.entry, rest, blocker⟩)
  | failed {done task rest e} (hschedule : Schedule table globals fs done gs)
      (hperm : (done.map Solution.task ++ task :: rest).Perm tasks)
      (hfails : Fails table globals gs task e) :
      RoundEnds table globals tasks fs gs (.error (.failed e))

/-- How a run of rounds ends: all functions are finished, or one fails, or
all that are left wait. -/
inductive RunEnds (table : CallTable) (globals : Variables) (tasks : List Task)
    (fs gs : Functions) : Except Stall (List (String × Stmt)) → Prop
  | finished {done} (hschedule : Schedule table globals fs done gs)
      (hperm : (done.map Solution.task).Perm tasks) :
      RunEnds table globals tasks fs gs (.ok (done.map Solution.entry))
  | failed {done task rest e} (hschedule : Schedule table globals fs done gs)
      (hperm : (done.map Solution.task ++ task :: rest).Perm tasks)
      (hfails : Fails table globals gs task e) :
      RunEnds table globals tasks fs gs (.error (.failed e))
  | stuck {done rest e} (hschedule : Schedule table globals fs done gs)
      (hperm : (done.map Solution.task ++ rest).Perm tasks) (hrest : rest ≠ [])
      (hwaits : ∀ task ∈ rest, task.Waits gs) :
      RunEnds table globals tasks fs gs (.error (.pending e))

section Schedules

variable {table : CallTable} {globals : Variables} {fs gs hs : Functions} {x y : Solution}
  {task : Task} {done later : List Solution}

theorem Solution.ext_of_stmt (htask : x.task = y.task) (hstmt : x.stmt = y.stmt) : x = y := by
  obtain ⟨_, _, _, _⟩ := x
  obtain ⟨_, _, _, _⟩ := y
  cases htask
  cases hstmt
  rfl

theorem Solves.ready (htable : table.Sound) (hfs : fs.Known) (hawaits : Awaits fs x.task)
    (h : Solves table globals fs x) :
    ¬x.task.Waits fs ∧ SlotGrows x.task.returns (some x.signature.returns) := by
  obtain ⟨s, s', rfl, hends⟩ := h
  generalize hstmt : x.stmt = stmt at hends
  cases inferFunction_steady htable hfs hfs (.refl _) hawaits hawaits hends with
  | solved htask hstmt' hready hresult =>
    cases Solution.ext_of_stmt htask (hstmt'.symm.trans hstmt.symm)
    exact ⟨hready, hresult⟩

/-- With more results known the function has the same solution. -/
theorem Solves.of_grows (htable : table.Sound) (hfs : fs.Known) (hgs : gs.Known) (hg : fs.Grows gs)
    (hfa : Awaits fs x.task) (hga : Awaits gs x.task) (h : Solves table globals fs x) :
    Solves table globals gs x := by
  obtain ⟨s, s', rfl, hends⟩ := h
  generalize hstmt : x.stmt = stmt at hends
  cases inferFunction_steady (t := ⟨gs, s.frame, s.events⟩) htable hfs hgs hg hfa hga hends with
  | solved _ _ _ _ _ hends' => exact ⟨_, _, rfl, hstmt ▸ hends'⟩

/-- With more results known the solution is the same. -/
theorem Solves.unique (htable : table.Sound) (hfs : fs.Known) (hgs : gs.Known) (hg : fs.Grows gs)
    (hfa : Awaits fs x.task) (hga : Awaits gs x.task) (hx : Solves table globals fs x)
    (htask : y.task = x.task) (hy : Solves table globals gs y) : y = x := by
  obtain ⟨s, s', rfl, hends⟩ := hx
  obtain ⟨t, t', rfl, hends'⟩ := hy
  cases inferFunction_steady htable hfs hgs hg hfa hga hends with
  | solved _ _ _ _ _ hsame =>
    rw [htask] at hends'
    exact Solution.ext_of_stmt htask (Except.ok.inj (hends'.unique hsame).1)

/-- With more results known the function still fails. -/
theorem Fails.not_solves (htable : table.Sound) (hfs : fs.Known) (hgs : gs.Known)
    (hg : fs.Grows gs) (hfa : Awaits fs x.task) (hga : Awaits gs x.task) {e : Error}
    (hx : Fails table globals fs x.task e) : ¬Solves table globals gs x := by
  rintro ⟨t, t', rfl, hends'⟩
  obtain ⟨s, s', rfl, hends⟩ := hx
  cases inferFunction_steady htable hfs hgs hg hfa hga hends with
  | failed _ _ hsame => cases (hends'.unique hsame).1

theorem Fails.calm (htable : table.Sound) (hfs : fs.Known) (hawaits : Awaits fs task) {e : Error}
    (h : Fails table globals fs task e) : e.asksAnnotation = false := by
  obtain ⟨s, s', rfl, hends⟩ := h
  cases inferFunction_steady htable hfs hfs (.refl _) hawaits hawaits hends with
  | failed hcalm => exact hcalm

namespace Schedule

theorem append (h : Schedule table globals fs done gs)
    (h' : Schedule table globals gs later hs) : Schedule table globals fs (done ++ later) hs := by
  induction h with
  | nil => exact h'
  | cons hawaits hsolves _ ih => exact .cons hawaits hsolves (ih h')

theorem split (h : Schedule table globals fs (done ++ later) hs) :
    ∃ gs, Schedule table globals fs done gs ∧ Schedule table globals gs later hs := by
  induction done generalizing fs with
  | nil => exact ⟨fs, .nil, h⟩
  | cons x done ih =>
    cases h with
    | cons hawaits hsolves hrest =>
      obtain ⟨gs, hdone, hlater⟩ := ih hrest
      exact ⟨gs, .cons hawaits hsolves hdone, hlater⟩

theorem known (h : Schedule table globals fs done gs) (hfs : fs.Known) : gs.Known := by
  induction h with
  | nil => exact hfs
  | cons _ _ _ ih => exact ih hfs.setReturns

theorem awaits (h : Schedule table globals fs done gs) (hawaits : Awaits fs task)
    (hname : task.name ∉ done.map Solution.name) : Awaits gs task := by
  induction h with
  | nil => exact hawaits
  | cons _ _ _ ih =>
    rw [List.map_cons, List.mem_cons, not_or] at hname
    exact ih (hawaits.setReturns hname.1) hname.2

theorem settled_iff (h : Schedule table globals fs done gs) {name : String} :
    gs.Settled name ↔ name ∈ done.map Solution.name ∨ fs.Settled name := by
  induction h with
  | nil => simp
  | cons _ _ _ ih =>
    rw [ih, Functions.settled_settle, List.map_cons, List.mem_cons]
    tauto

theorem unresolved_le (h : Schedule table globals fs done gs) : gs.unresolved ≤ fs.unresolved := by
  induction h with
  | nil => exact Nat.le_refl _
  | cons _ _ _ ih => exact Nat.le_trans ih Functions.unresolved_settle

theorem grows (htable : table.Sound) (h : Schedule table globals fs done gs) (hfs : fs.Known) :
    fs.Grows gs := by
  induction h with
  | nil => exact .refl _
  | cons hawaits hsolves _ ih =>
    refine .trans (.setReturns_right (.refl _) fun s hs => ?_) (ih hfs.setReturns)
    obtain ⟨slots, hslots, hreturns⟩ := id hawaits
    cases hs.symm.trans hslots
    rw [hreturns]
    exact (hsolves.ready htable hfs hawaits).2

end Schedule

/-- An attempt that succeeds starts the schedule of its round. -/
theorem RoundEnds.solved {tasks : List Task} {r : Except Stall Progress}
    (hawaits : Awaits fs x.task) (hsolves : Solves table globals fs x)
    (h : RoundEnds table globals tasks (fs.settle x.name x.signature.returns) gs r) :
    RoundEnds table globals (x.task :: tasks) fs gs
      ((fun p => { p with finished := x.entry :: p.finished }) <$> r) := by
  cases h with
  | passed hschedule hperm hblocker _ =>
    exact .passed (.cons hawaits hsolves hschedule) (hperm.cons x.task) hblocker nofun
  | failed hschedule hperm hfails =>
    exact .failed (.cons hawaits hsolves hschedule) (hperm.cons x.task) hfails

/-- An attempt that gives up leaves its function. -/
theorem RoundEnds.left {tasks : List Task} {r : Except Stall Progress} {e : Error}
    (hwaits : task.Waits fs) (h : RoundEnds table globals tasks fs gs r) :
    RoundEnds table globals (task :: tasks) fs gs ((fun p => { p with
      remaining := task :: p.remaining, blocker := some e }) <$> r) := by
  cases h with
  | passed hschedule hperm _ hrest =>
    refine .passed hschedule (List.perm_middle.trans (hperm.cons task)) (by simp) fun hdone => ?_
    exact List.forall_mem_cons.mpr ⟨hwaits, hrest hdone⟩
  | failed hschedule hperm hfails =>
    have hmiddle :=
      ((List.Perm.swap ..).append_left _).trans (List.perm_middle.trans (hperm.cons task))
    exact .failed hschedule hmiddle hfails

/-- A round attempts its functions in turn, each with what the earlier ones have settled. -/
theorem round_schedule (htable : table.Sound) {tasks : List Task} {s s' : State}
    (hknown : s.functions.Known) (hawaits : ∀ task ∈ tasks, Awaits s.functions task)
    (hnodup : (tasks.map Task.name).Nodup) {r : Except Stall Progress}
    (h : Ends (round table globals tasks) s r s') :
    RoundEnds table globals tasks s.functions s'.functions r := by
  induction tasks generalizing s r with
  | nil =>
    obtain ⟨rfl, rfl⟩ := ends_pure.mp h
    exact .passed .nil (.refl _) (by simp) fun _ _ h => nomatch h
  | cons task tasks ih =>
    obtain ⟨hfirst, htasks⟩ := List.forall_mem_cons.mp hawaits
    obtain ⟨hnew, hnodup'⟩ := List.nodup_cons.mp hnodup
    have hsteady := fun {r s₁} (hends : Ends (inferFunction table globals task) s r s₁) =>
      inferFunction_steady htable hknown hknown (.refl _) hfirst hfirst hends
    rcases ends_round_cons h with ⟨e, rfl, hends⟩ |
      ⟨s₁, rest, _, hround, ⟨stmt, hends, rfl⟩ | ⟨e, hends, rfl⟩⟩
    · have hattempted := hsteady hends
      cases hattempted with
      | failed _ hfunctions =>
        rw [hfunctions]
        exact .failed .nil (.refl _) ⟨s, s', rfl, hends⟩
    · have hattempted := hsteady hends
      cases hattempted with
      | @solved x _ _ htask hstmt _ _ hfunctions =>
        subst htask hstmt
        refine RoundEnds.solved hfirst ⟨s, s₁, rfl, hends⟩ ?_
        have hrest :=
          ih (s := s₁) (hfunctions ▸ hknown.setReturns) (fun other ho => ?_) hnodup' hround
        · rwa [hfunctions] at hrest
        · rw [hfunctions]
          refine (htasks other ho).setReturns fun heq => hnew ?_
          exact heq ▸ List.mem_map_of_mem ho
    · have hattempted := hsteady hends
      cases hattempted with
      | waits hwaits hfunctions =>
        refine RoundEnds.left hwaits ?_
        rw [← hfunctions]
        exact ih (hfunctions ▸ hknown) (hfunctions ▸ htasks) hnodup' hround

/-- The functions that a schedule leaves have other names than each other and than those that it
finishes. -/
theorem nodup_of_perm {tasks rest : List Task} (hperm : (done.map Solution.task ++ rest).Perm tasks)
    (hnodup : (tasks.map Task.name).Nodup) :
    (rest.map Task.name).Nodup ∧ ∀ task ∈ rest, task.name ∉ done.map Solution.name := by
  have hnames := (hperm.map Task.name).nodup_iff.mpr hnodup
  rw [List.map_append, List.map_map] at hnames
  obtain ⟨_, hrest, hdisjoint⟩ := List.nodup_append.mp hnames
  exact ⟨hrest, fun task htask hmem => hdisjoint _ hmem _ (List.mem_map_of_mem htask) rfl⟩

theorem nodup_finished {tasks : List Task} (hperm : (done.map Solution.task).Perm tasks)
    (hnodup : (tasks.map Task.name).Nodup) : (done.map Solution.name).Nodup := by
  have hnames := (hperm.map Task.name).nodup_iff.mpr hnodup
  rwa [List.map_map] at hnames

/-- A run goes on with the functions that a schedule leaves. -/
theorem RunEnds.after {tasks rest : List Task} {r : Except Stall (List (String × Stmt))}
    (hschedule : Schedule table globals fs done gs)
    (hperm : (done.map Solution.task ++ rest).Perm tasks) (h : RunEnds table globals rest gs hs r) :
    RunEnds table globals tasks fs hs (r.map (done.map Solution.entry ++ ·)) := by
  have hjoin : ∀ {more : List Solution} {left : List Task},
      (more.map Solution.task ++ left).Perm rest →
      ((done ++ more).map Solution.task ++ left).Perm tasks := by
    intro more left h
    rw [List.map_append, List.append_assoc]
    exact (h.append_left _).trans hperm
  cases h with
  | @finished more hmore hrest =>
    rw [← List.append_nil (more.map Solution.task)] at hrest
    have hall := hjoin hrest
    rw [List.append_nil] at hall
    have hfinished := RunEnds.finished (hschedule.append hmore) hall
    rwa [List.map_append] at hfinished
  | failed hmore hrest hfails => exact .failed (hschedule.append hmore) (hjoin hrest) hfails
  | stuck hmore hrest hne hwaits => exact .stuck (hschedule.append hmore) (hjoin hrest) hne hwaits

/-- Rounds follow each other until no function is left or one of them changes nothing. -/
theorem rounds_schedule (htable : table.Sound) {tasks : List Task} {s s' : State}
    (hknown : s.functions.Known) (hawaits : ∀ task ∈ tasks, Awaits s.functions task)
    (hnodup : (tasks.map Task.name).Nodup) {r : Except Stall (List (String × Stmt))}
    (h : rounds table globals tasks s = (r, s')) :
    RunEnds table globals tasks s.functions s'.functions r := by
  fun_induction rounds table globals tasks s generalizing r s' with
  | case1 tasks s stall s₁ hround =>
    cases h
    have hends := round_schedule htable hknown hawaits hnodup hround
    cases hends with
    | failed hschedule hperm hfails => exact .failed hschedule hperm hfails
  | case2 tasks s p s₁ hround hblocker =>
    cases h
    have hends := round_schedule htable hknown hawaits hnodup hround
    cases hends with
    | passed hschedule hperm hnone =>
      rw [hnone.mp hblocker, List.append_nil] at hperm
      exact .finished hschedule hperm
  | case3 tasks s p s₁ hround blocker hblocker hlt more last hmore ih =>
    cases h
    have hends := round_schedule htable hknown hawaits hnodup hround
    cases hends with
    | @passed done rest _ hschedule hperm hnone =>
      obtain ⟨hrest, hother⟩ := nodup_of_perm hperm hnodup
      refine .after hschedule hperm (ih (hschedule.known hknown) (fun task htask => ?_) hrest hmore)
      have hmem : task ∈ tasks := hperm.subset (List.mem_append_right _ htask)
      exact hschedule.awaits (hawaits task hmem) (hother task htask)
  | case4 tasks s p s₁ hround blocker hblocker hlt =>
    cases h
    have hends := round_schedule htable hknown hawaits hnodup hround
    cases hends with
    | @passed done rest _ hschedule hperm hnone hwaits =>
      -- a round that finishes a function has less to do afterwards
      have hdone : done = [] := by
        have hlength := hperm.length_eq
        have hunresolved := hschedule.unresolved_le
        rw [List.length_append, List.length_map] at hlength
        dsimp only at hlt
        exact List.length_eq_zero_iff.mp (by omega)
      subst hdone
      generalize s₁.functions = gs at hschedule
      cases hschedule
      refine .stuck .nil hperm (fun hrest => ?_) (hwaits rfl)
      cases hblocker.symm.trans (hnone.mpr hrest)

end Schedules

end Sketchwright.Inference
