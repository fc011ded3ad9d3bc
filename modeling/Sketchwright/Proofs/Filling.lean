import Sketchwright.Proofs.Steadiness
import Sketchwright.Proofs.Traversal

/-! Slots only fill, whatever the program and however its attempts end. A call fills slots of
parameters and leaves the rest, the end of a body fills the slot of its result, and so the slots
that are still open never become more. -/

namespace Sketchwright.Inference

/-- The number of slots with a kind. -/
def Slots.resolved (s : Slots) : Nat :=
  s.params.countP (·.2.isSome) + if s.returns.isSome then 1 else 0

namespace Functions

/-- The same functions in the same order, of which more may be known later. -/
structure Evolves (old new : Functions) : Prop where
  names : new.map Slots.name = old.map Slots.name
  grows : old.Grows new

theorem Evolves.refl (fs : Functions) : fs.Evolves fs := ⟨rfl, .refl fs⟩

theorem Evolves.trans {as bs cs : Functions} (h₁ : as.Evolves bs)
    (h₂ : bs.Evolves cs) : as.Evolves cs :=
  ⟨h₂.names.trans h₁.names, h₁.grows.trans h₂.grows⟩

theorem evolves_update {fs : Functions} {name : String} {f : Slots → Slots}
    (hf : ∀ s, (f s).name = s.name) (hg : ∀ s, fs.find? name = some s → s.Grows (f s)) :
    fs.Evolves (fs.update name f) := by
  refine ⟨?_, grows_update hf hg⟩
  unfold update
  rw [List.map_map]
  refine List.map_congr_left fun s _ => ?_
  simp only [Function.comp]
  split
  · exact hf s
  · rfl

/-- What is known of the result of a function. -/
def result? (fs : Functions) (name : String) : Option (Option Kind) :=
  (fs.find? name).map (·.returns)

/-- The same functions with the same results, of whose parameters more may be known later. -/
structure Fills (old new : Functions) : Prop extends Evolves old new where
  results : new.result? = old.result?

theorem Fills.refl (fs : Functions) : fs.Fills fs := ⟨.refl fs, rfl⟩

theorem Fills.trans {as bs cs : Functions} (h₁ : as.Fills bs) (h₂ : bs.Fills cs) : as.Fills cs :=
  ⟨h₁.toEvolves.trans h₂.toEvolves, h₂.results.trans h₁.results⟩

/-- The parameters of a function with some of their slots filled. -/
theorem fills_params {fs : Functions} {name : String} {slots : Slots}
    {params : List (String × Option Kind)} (hslots : fs.find? name = some slots)
    (hparams : ParamsGrow slots.params params) :
    fs.Fills (fs.update name fun slots => { slots with params }) := by
  refine ⟨evolves_update (fun _ => rfl) fun s hs => ?_, funext fun other => ?_⟩
  · cases hslots.symm.trans hs
    exact ⟨rfl, rfl, hparams, .refl _⟩
  · unfold result?
    rw [find?_update _ _ _ (fun slots => { slots with params }) fun _ => rfl]
    split
    · rw [Option.map_map]
      rfl
    · rfl

def resolved (fs : Functions) : Nat := fs.foldr (·.resolved + ·) 0

/-- The number of slots, of parameters and results. -/
def slotCount (fs : Functions) : Nat := fs.foldr (·.params.length + 1 + ·) 0

end Functions

theorem Slots.resolved_add_unresolved (s : Slots) :
    s.resolved + s.unresolved = s.params.length + 1 := by
  have hparams :=
    List.length_eq_countP_add_countP (fun p : String × Option Kind => p.2.isSome) (l := s.params)
  have hopen : s.params.countP (fun p => decide ¬p.2.isSome = true) =
      s.params.countP (·.2.isNone) := by
    refine List.countP_congr fun p _ => ?_
    cases p.2 <;> simp
  rw [hopen] at hparams
  unfold Slots.resolved Slots.unresolved
  cases s.returns with
  | none =>
    simp only [Option.isSome_none, Option.isNone_none, if_true, Bool.false_eq_true, if_false]
    omega
  | some kind =>
    simp only [Option.isSome_some, Option.isNone_some, if_true, Bool.false_eq_true, if_false]
    omega

theorem Functions.resolved_add_unresolved (fs : Functions) :
    fs.resolved + fs.unresolved = fs.slotCount := by
  induction fs with
  | nil => rfl
  | cons s fs ih =>
    have hhead := s.resolved_add_unresolved
    simp only [Functions.resolved, Functions.unresolved, Functions.slotCount,
      List.foldr_cons] at ih ⊢
    omega

section Counting

variable {fs gs : Functions}

theorem SlotGrows.isNone_le {old new : Option Kind} (h : SlotGrows old new) :
    (if new.isNone = true then 1 else 0) ≤ if old.isNone = true then 1 else 0 := by
  rcases h with rfl | rfl
  · split <;> simp
  · exact Nat.le_refl _

theorem ParamsGrow.countP_le {old new : List (String × Option Kind)} (h : ParamsGrow old new) :
    new.countP (·.2.isNone) ≤ old.countP (·.2.isNone) := by
  induction h with
  | nil => exact Nat.le_refl 0
  | cons hslot _ ih =>
    rw [List.countP_cons, List.countP_cons]
    exact Nat.add_le_add ih hslot.2.isNone_le

theorem Slots.Grows.unresolved_le {s t : Slots} (h : s.Grows t) : t.unresolved ≤ s.unresolved :=
  Nat.add_le_add h.params.countP_le h.returns.isNone_le

namespace Functions.Evolves

theorem nodup (h : fs.Evolves gs) (hnodup : (fs.map Slots.name).Nodup) :
    (gs.map Slots.name).Nodup := by
  rw [h.names]
  exact hnodup

/-- Where no two functions have one name, every one of them grows. -/
theorem forall₂ (h : fs.Evolves gs) (hnodup : (fs.map Slots.name).Nodup) :
    List.Forall₂ Slots.Grows fs gs := by
  have hlength : fs.length = gs.length := by
    have := congrArg List.length h.names
    simpa using this.symm
  refine List.forall₂_iff_get.mpr ⟨hlength, fun i hi hi' => ?_⟩
  have hname : gs[i].name = fs[i].name := by
    have := congrArg (·[i]?) h.names
    simpa [hi, hi'] using this
  obtain ⟨t, ht, hgrows⟩ := h.grows.some (find?_of_mem hnodup (List.getElem_mem hi))
  have ht' := find?_of_mem (h.nodup hnodup) (List.getElem_mem hi')
  rw [hname] at ht'
  cases ht.symm.trans ht'
  exact hgrows

theorem unresolved_le (h : fs.Evolves gs) (hnodup : (fs.map Slots.name).Nodup) :
    gs.unresolved ≤ fs.unresolved := by
  have hslots := h.forall₂ hnodup
  clear h hnodup
  induction hslots with
  | nil => exact Nat.le_refl 0
  | cons hslots _ ih => exact Nat.add_le_add hslots.unresolved_le ih

theorem slotCount_eq (h : fs.Evolves gs) (hnodup : (fs.map Slots.name).Nodup) :
    gs.slotCount = fs.slotCount := by
  have hslots := h.forall₂ hnodup
  clear h hnodup
  unfold slotCount
  induction hslots with
  | nil => rfl
  | cons hslots _ ih => rw [List.foldr_cons, List.foldr_cons, ih, hslots.params.length_eq]

end Functions.Evolves

end Counting

section Runs

variable {α β : Type} {R : Functions → Functions → Prop} {x : Infer α} {f : α → Infer β}
  {s s' : State}

/-- However an attempt ends, the functions before it and after it are so related. -/
def Relates (R : Functions → Functions → Prop) (x : Infer α) : Prop :=
  ∀ ⦃s r s'⦄, Ends x s r s' → R s.functions s'.functions

/-- A compound attempt gives up in its first part, or goes on from what that leaves. -/
theorem ends_bind_cases {r : Except Stall β} (h : Ends (x >>= f) s r s') :
    (∃ stall, r = .error stall ∧ Ends x s (.error stall) s') ∨
      ∃ a s₁, Ends x s (.ok a) s₁ ∧ Ends (f a) s₁ r s' := by
  cases r with
  | ok b => exact .inr (ends_bind_ok.mp h)
  | error stall => exact (ends_bind_error.mp h).imp_left fun hfirst => ⟨stall, rfl, hfirst⟩

theorem Relates.bind (htrans : ∀ {fs gs hs}, R fs gs → R gs hs → R fs hs) (hx : Relates R x)
    (hf : ∀ a, Relates R (f a)) : Relates R (x >>= f) := by
  intro s r s' hends
  rcases ends_bind_cases hends with ⟨stall, -, hfirst⟩ | ⟨a, s₁, hfirst, hrest⟩
  · exact hx hfirst
  · exact htrans (hx hfirst) (hf a hrest)

theorem Relates.mono {R' : Functions → Functions → Prop} (hx : Relates R x)
    (h : ∀ {fs gs}, R fs gs → R' fs gs) :
    Relates R' x :=
  fun _ _ _ hends => h (hx hends)

theorem ends_get_bind {f : State → Infer β} {r : Except Stall β} :
    Ends (get >>= f) s r s' ↔ Ends (f s) s r s' := by
  unfold Ends
  rw [endOf_bind]
  rfl

theorem relates_pure {a : α} : Relates Eq (pure a : Infer α) := by
  intro s r s' hends
  rw [(ends_pure.mp hends).2]

theorem relates_fail {e : Error} : Relates Eq (fail e : Infer α) := by
  intro s r s' hends
  rw [(ends_fail.mp hends).2]

theorem relates_emit {event : Event} : Relates Eq (emit event) := by
  intro s r s' hends
  rw [(ends_emit.mp hends).2]

/-- Arguments are matched with parameters without a change of the functions. -/
theorem matchParams_relates (callee : String) (line position : Nat)
    (params : List (String × Option Kind)) (kinds : List Kind) :
    Relates Eq (matchParams callee line position params kinds) := by
  induction params generalizing position kinds with
  | nil =>
    unfold matchParams
    exact relates_pure
  | cons param params ih =>
    cases kinds with
    | nil => obtain ⟨name, _ | known⟩ := param <;> exact relates_pure
    | cons kind kinds =>
      have hrest : ∀ entry, Relates Eq (do
          return entry :: (← matchParams callee line (position + 1) params kinds) : Infer _) :=
        fun entry => .bind Eq.trans (ih (position + 1) kinds) fun _ => relates_pure
      obtain ⟨name, _ | known⟩ := param
      · exact .bind Eq.trans relates_emit fun _ => hrest _
      · unfold matchParams
        split
        · exact .bind Eq.trans relates_fail fun _ => hrest (name, some known)
        · exact hrest _

theorem callResult_relates (callee : String) (line : Nat) (asStatement : Bool)
    (result : Option Kind) :
    Relates Eq (callResult callee line asStatement result) := by
  unfold callResult
  split
  · split
    · exact relates_pure
    · intro s r s' hends
      rw [(ends_throw.mp hends).2]
  · split
    · exact relates_pure
    · exact relates_fail
  · exact relates_pure

/-- A call fills slots of the parameters of its callee. -/
theorem userCall_fills {callee : String} {line : Nat} {asStatement : Bool}
    {argKinds : Infer (List Kind)} (hargs : Relates Functions.Fills argKinds) :
    Relates Functions.Fills (userCall callee line asStatement argKinds) := by
  unfold userCall
  refine .bind Functions.Fills.trans hargs fun kinds s r s' hends => ?_
  rw [ends_get_bind] at hends
  split at hends
  · rw [(ends_fail.mp hends).2]
    exact .refl _
  · next slots hslots =>
    by_cases hlen : slots.params.length = kinds.length
    · rw [if_neg (not_not.mpr hlen)] at hends
      rcases ends_bind_cases hends with ⟨_, -, hmatch⟩ | ⟨filled, s₁, hmatch, hrest⟩
      · rw [matchParams_relates _ _ _ _ _ hmatch]
        exact .refl _
      · have hfunctions := matchParams_relates _ _ _ _ _ hmatch
        have hruns : Runs (fun _ _ _ _ => False)
            (matchParams callee line 1 slots.params kinds) s _ :=
          matchParams_runs callee line slots.params 1 kinds s
        obtain ⟨-, -, hfilled⟩ := hruns.ok hmatch
        have hgrows : ParamsGrow slots.params filled := (hfilled hlen).1 ▸ fillParams_grows hlen
        rcases ends_bind_cases hrest with ⟨_, -, hmodify⟩ | ⟨_, s₂, hmodify, hresult⟩
        · cases (ends_modify.mp hmodify).1
        · obtain ⟨-, rfl⟩ := ends_modify.mp hmodify
          rw [← callResult_relates _ _ _ _ hresult, hfunctions]
          exact Functions.fills_params (hfunctions ▸ hslots) hgrows
    · rw [if_pos hlen] at hends
      rcases ends_bind_cases hends with ⟨_, -, hfail⟩ | ⟨_, _, hfail, -⟩
      · rw [(ends_fail.mp hfail).2]
        exact .refl _
      · cases (ends_fail.mp hfail).1

end Runs

/-- Every attempt at a body only fills slots of parameters. -/
theorem inherited_fills : Inherited (Relates Functions.Fills) where
  pure _ := relates_pure.mono fun h => h ▸ .refl _
  fail _ := relates_fail.mono fun h => h ▸ .refl _
  emit _ := relates_emit.mono fun h => h ▸ .refl _
  get := fun _ _ _ hends => (ends_get.mp hends).2 ▸ .refl _
  modifyFrame _ := fun _ _ _ hends => (ends_modifyFrame.mp hends).2 ▸ .refl _
  bind := .bind Functions.Fills.trans
  userCall := userCall_fills

section Attempts

variable {table : CallTable} {globals : Variables} {task : Task} {s s' : State}

theorem Task.BodyRun.fills {slots : Slots} {r : Except Stall (List Stmt)}
    (h : task.BodyRun table globals s slots r s') : s.functions.Fills s'.functions :=
  (inherited_fills.inferBlock task.body h.2 :)

/-- A known result stays, and is the one that the function gets. -/
theorem slotGrows_resultKind (slots : Slots) (fr : Frame) :
    SlotGrows slots.returns (some (resultKind slots fr)) := by
  unfold resultKind
  cases slots.returns with
  | none => exact .inl rfl
  | some kind => exact .inr rfl

/-- An attempt at a function keeps what is known, whether it finishes the
function, stalls or fails. -/
theorem inferFunction_evolves : Relates Functions.Evolves (inferFunction table globals task) := by
  intro s r s' hends
  cases hslots : s.functions.find? task.head.name with
  | none =>
    unfold inferFunction at hends
    rw [ends_get_bind, hslots] at hends
    rw [(ends_fail.mp hends).2]
    exact .refl _
  | some slots =>
    cases r with
    | error stall =>
      rcases ends_inferFunction_error hslots hends with ⟨rfl, -⟩ | hbody
      · exact .refl _
      · exact hbody.fills.toEvolves
    | ok stmt =>
      obtain ⟨body, s₁, hbody, -, hfunctions⟩ := ends_inferFunction_ok hslots hends
      rw [hfunctions]
      refine hbody.fills.toEvolves.trans
        (Functions.evolves_update (fun _ => rfl) fun t ht => ⟨rfl, rfl, .refl _, ?_⟩)
      have hresult := congrFun hbody.fills.results task.head.name
      unfold Functions.result? at hresult
      rw [ht, hslots] at hresult
      rw [show t.returns = slots.returns from Option.some.inj hresult]
      exact slotGrows_resultKind slots s₁.frame

/-- All slots of a function that is finished are filled. -/
theorem inferFunction_completes {stmt : Stmt}
    (hends : Ends (inferFunction table globals task) s (.ok stmt) s') :
    ∃ slots, s'.functions.find? task.head.name = some slots ∧ slots.Complete := by
  cases hslots : s.functions.find? task.head.name with
  | none =>
    unfold inferFunction at hends
    rw [ends_get_bind, hslots] at hends
    cases (ends_fail.mp hends).1
  | some slots =>
    obtain ⟨body, s₁, hbody, -, hfunctions⟩ := ends_inferFunction_ok hslots hends
    obtain ⟨t, ht, hgrows⟩ := hbody.fills.grows.some hslots
    have hopen : t.openParam? = none := Slots.openParam?_of_grows hbody.1 hgrows
    refine ⟨{ t with returns := some (resultKind slots s₁.frame) }, ?_, hopen, rfl⟩
    rw [hfunctions, Functions.find?_update _ _ _ (fun slots' =>
      { slots' with returns := some (resultKind slots s₁.frame) })
      fun _ => rfl, if_pos rfl, ht]
    rfl

end Attempts

end Sketchwright.Inference
