import Sketchwright.Proofs.Functions

/-! What an attempt does when more is known of the functions. Where all parameters have kinds, an
attempt leaves the functions as they are, and of what is known it uses no more than the results of
the calls in value position. With more results it goes on in the same way. -/

namespace Sketchwright

/-- The errors that ask for an annotation. -/
def Error.asksAnnotation : Error → Bool
  | .unsupported _ (.unknownParameterKind ..) | .unsupported _ (.unknownReturnKind _) => true
  | _ => false

namespace Inference

namespace Functions

/-- The functions have different names, and their parameters have kinds. -/
structure Known (fs : Functions) : Prop where
  nodup : (fs.map Slots.name).Nodup
  params : ∀ {name s}, fs.find? name = some s → s.openParam? = none

/-- The result of the function of that name is known, if there is such a function. -/
def Settled (fs : Functions) (name : String) : Prop :=
  ∀ s, fs.find? name = some s → s.returns.isSome = true

variable {fs gs : Functions} {name : String}

theorem find?_of_mem (hnodup : (fs.map Slots.name).Nodup) {s : Slots} (hs : s ∈ fs) :
    fs.find? s.name = some s := by
  induction fs with
  | nil => cases hs
  | cons other fs ih =>
    rw [List.map_cons, List.nodup_cons] at hnodup
    rcases List.mem_cons.mp hs with rfl | hs
    · exact List.find?_cons_of_pos (beq_self_eq_true _)
    · have hne : (other.name == s.name) = false :=
        beq_eq_false_iff_ne.mpr fun heq => hnodup.1 (heq ▸ List.mem_map_of_mem hs)
      rw [find?, List.find?_cons, hne]
      exact ih hnodup.2 hs

theorem update_eq_self (hnodup : (fs.map Slots.name).Nodup) {f : Slots → Slots}
    (hf : ∀ s, fs.find? name = some s → f s = s) : fs.update name f = fs := by
  have hmap : fs.map (fun s => if s.name == name then f s else s) = fs.map id := by
    refine List.map_congr_left fun s hs => ?_
    split
    · next h => exact hf s (beq_iff_eq.mp h ▸ find?_of_mem hnodup hs)
    · rfl
  rw [update, hmap, List.map_id]

theorem Settled.of_grows (hg : fs.Grows gs) (h : fs.Settled name) : gs.Settled name := by
  intro t ht
  cases hs : fs.find? name with
  | none =>
    rw [hg.none hs] at ht
    cases ht
  | some s =>
    obtain ⟨t', ht', hst⟩ := hg.some hs
    cases ht.symm.trans ht'
    obtain ⟨kind, hkind⟩ := Option.isSome_iff_exists.mp (h s hs)
    rw [hst.returns.of_some hkind]
    rfl

end Functions

/-- Parameters with kinds stay as they are. -/
theorem Slots.Grows.params_eq {s t : Slots} (h : s.Grows t) (hopen : s.openParam? = none) :
    t.params = s.params := by
  have hparams := h.params
  have hknown := Slots.openParam?_eq_none.mp hopen
  generalize s.params = ps at hparams hknown
  generalize t.params = qs at hparams
  induction hparams with
  | nil => rfl
  | cons hpq _ ih =>
    obtain ⟨⟨kind, hkind⟩, hps⟩ := List.forall_mem_cons.mp hknown
    rw [ih hps, Prod.ext hpq.1 ((hpq.2.of_some hkind).trans hkind.symm)]

/-- In the second state more results are known than in the first. -/
structure Informed (inModule : Bool) (s t : State) : Prop where
  known : s.functions.Known
  knownLater : t.functions.Known
  grows : s.functions.Grows t.functions
  frame : t.frame = s.frame
  scope : s.frame.scope.isModule = inModule

section Following

variable {α β : Type} {inModule : Bool} {callees others : List String}

/-- What the end of an attempt from `s` says of the attempt `y` from `t`: a value and a failure are
the same there, and an attempt that waits does so for a result that it uses. -/
inductive Carries (inModule : Bool) (callees : List String) (y : Infer α) (s t s' : State) :
    Except Stall α → Prop
  | value {a t'} (hsettled : ∀ callee ∈ callees, s.functions.Settled callee)
      (hends : Ends y t (.ok a) t') (hinformed : Informed inModule s' t') :
      Carries inModule callees y s t s' (.ok a)
  | failure {e t'} (hcalm : e.asksAnnotation = false) (hends : Ends y t (.error (.failed e)) t') :
      Carries inModule callees y s t s' (.error (.failed e))
  | wait {line callee} (hbody : inModule = false) (hcallee : callee ∈ callees)
      (hopen : ¬s.functions.Settled callee) : Carries inModule callees y s t s'
        (.error (.pending (.unsupported line (.unknownReturnKind callee))))

/-- The attempt `y` from `t` goes on as the attempt `x` from `s`, which uses the results of these
callees and nothing else that may become known. -/
def Follows (inModule : Bool) (callees : List String) (x y : Infer α) (s t : State) : Prop :=
  ∀ r s', Ends x s r s' → s'.functions = s.functions ∧ Carries inModule callees y s t s' r

namespace Follows

variable {x y : Infer α} {f g : α → Infer β} {s t : State}

theorem of_endOf {x' y' : Infer α} (hs : endOf x' s = endOf x s) (ht : endOf y' t = endOf y t)
    (h : Follows inModule callees x y s t) : Follows inModule callees x' y' s t := by
  intro r s' hends
  obtain ⟨hfunctions, hcarries⟩ := h r s' (hs.symm.trans hends)
  refine ⟨hfunctions, ?_⟩
  cases hcarries with
  | value hsettled hends' hinformed => exact .value hsettled (ht.trans hends') hinformed
  | failure hcalm hends' => exact .failure hcalm (ht.trans hends')
  | wait hbody hcallee hopen => exact .wait hbody hcallee hopen

/-- A callee whose result is known makes no difference. -/
theorem weaken (h : Follows inModule callees x y s t) (hsub : callees ⊆ others)
    (hsettled : ∀ callee ∈ others, callee ∈ callees ∨ s.functions.Settled callee) :
    Follows inModule others x y s t := by
  intro r s' hends
  obtain ⟨hfunctions, hcarries⟩ := h r s' hends
  refine ⟨hfunctions, ?_⟩
  cases hcarries with
  | value hs hends' hinformed =>
    exact .value (fun callee hc => (hsettled callee hc).elim (hs callee) id) hends' hinformed
  | failure hcalm hends' => exact .failure hcalm hends'
  | wait hbody hcallee hopen => exact .wait hbody (hsub hcallee) hopen

/-- Compound attempts follow each other if their parts do. -/
theorem bind (hx : Follows inModule callees x y s t) (hf : ∀ a s₁ t₁, Informed inModule s₁ t₁ →
    Follows inModule others (f a) (g a) s₁ t₁) :
    Follows inModule (callees ++ others) (x >>= f) (y >>= g) s t := by
  intro r s' hends
  cases r with
  | ok b =>
    obtain ⟨a, s₁, hx', hf'⟩ := ends_bind_ok.mp hends
    obtain ⟨hfunctions, hcarries⟩ := hx _ _ hx'
    cases hcarries with
    | value hsettled hyt hinformed =>
      obtain ⟨hfunctions', hcarries'⟩ := hf a _ _ hinformed _ _ hf'
      cases hcarries' with
      | value hsettled' hgt hinformed' =>
        refine ⟨hfunctions'.trans hfunctions,
          .value ?_ (ends_bind_ok.mpr ⟨_, _, hyt, hgt⟩) hinformed'⟩
        rw [hfunctions] at hsettled'
        exact List.forall_mem_append.mpr ⟨hsettled, hsettled'⟩
  | error stall =>
    rcases ends_bind_error.mp hends with hx' | ⟨a, s₁, hx', hf'⟩
    · obtain ⟨hfunctions, hcarries⟩ := hx _ _ hx'
      refine ⟨hfunctions, ?_⟩
      cases hcarries with
      | failure hcalm hyt => exact .failure hcalm (ends_bind_error.mpr (.inl hyt))
      | wait hbody hcallee hopen => exact .wait hbody (List.mem_append_left _ hcallee) hopen
    · obtain ⟨hfunctions, hcarries⟩ := hx _ _ hx'
      cases hcarries with
      | value hsettled hyt hinformed =>
        obtain ⟨hfunctions', hcarries'⟩ := hf a _ _ hinformed _ _ hf'
        refine ⟨hfunctions'.trans hfunctions, ?_⟩
        cases hcarries' with
        | failure hcalm hgt => exact .failure hcalm (ends_bind_error.mpr (.inr ⟨_, _, hyt, hgt⟩))
        | wait hbody hcallee hopen =>
          exact .wait hbody (List.mem_append_right _ hcallee) (hfunctions ▸ hopen)

theorem get_bind {f g : State → Infer β} (h : Follows inModule callees (f s) (g t) s t) :
    Follows inModule callees (get >>= f) (get >>= g) s t := by
  have hget : ∀ (f : State → Infer β) (s : State), endOf (get >>= f) s = endOf (f s) s :=
    fun f s => endOf_bind get f s
  exact h.of_endOf (hget f s) (hget g t)

/-- A change that leaves both states as they are. -/
theorem modify_bind {u : State → State} {f g : Unit → Infer β} (hs : u s = s) (ht : u t = t)
    (h : Follows inModule callees (f ()) (g ()) s t) :
    Follows inModule callees (modify u >>= f) (modify u >>= g) s t := by
  have hmodify : ∀ {f : Unit → Infer β} {s : State}, u s = s →
      endOf (modify u >>= f) s = endOf (f ()) s := by
    intro f s hs
    refine (endOf_bind (modify u) f s).trans ?_
    show endOf (f ()) (u s) = _
    rw [hs]
  exact h.of_endOf (hmodify hs) (hmodify ht)

end Follows

/-- An attempt that uses the results of these callees and nothing else that may become known. -/
def Steady (inModule : Bool) (callees : List String) (x : Infer α) : Prop :=
  ∀ s t, Informed inModule s t → Follows inModule callees x x s t

end Following

namespace Steady

variable {α β : Type} {inModule : Bool} {callees others : List String}
  {x : Infer α} {f : α → Infer β}

theorem pure {a : α} : Steady inModule [] (Pure.pure a : Infer α) := by
  intro s t h r s' hends
  obtain ⟨rfl, rfl⟩ := ends_pure.mp hends
  exact ⟨rfl, .value nofun (ends_pure.mpr ⟨rfl, rfl⟩) h⟩

theorem fail {e : Error} (he : e.asksAnnotation = false) :
    Steady inModule callees (Inference.fail e : Infer α) := by
  intro s t _ r s' hends
  obtain ⟨rfl, rfl⟩ := ends_fail.mp hends
  exact ⟨rfl, .failure he (ends_fail.mpr ⟨rfl, rfl⟩)⟩

theorem mismatch {line : Nat} {subject : Subject} {expected found : Trait} :
    Steady inModule callees (Inference.mismatch line subject expected found : Infer α) :=
  fail rfl

theorem unbound {line : Nat} {name : String} {why : Unbound} :
    Steady inModule callees (Inference.unbound line name why : Infer α) :=
  fail rfl

theorem internal {line : Nat} {cause : Internal} :
    Steady inModule callees (Inference.internal line cause : Infer α) :=
  fail rfl

theorem bind (hx : Steady inModule callees x) (hf : ∀ a, Steady inModule others (f a)) :
    Steady inModule (callees ++ others) (x >>= f) :=
  fun s t h => (hx s t h).bind fun a => hf a

/-- The first part uses no results. -/
theorem quiet_bind (hx : Steady inModule [] x) (hf : ∀ a, Steady inModule callees (f a)) :
    Steady inModule callees (x >>= f) :=
  bind hx hf

/-- What follows uses no results. -/
theorem bind_quiet (hx : Steady inModule callees x) (hf : ∀ a, Steady inModule [] (f a)) :
    Steady inModule callees (x >>= f) := by
  have h := bind hx hf
  rwa [List.append_nil] at h

/-- What is read of the state is the same in both states. -/
theorem get_bind {f : State → Infer β} (hsame : ∀ s t, Informed inModule s t → f t = f s)
    (hf : ∀ s, Steady inModule callees (f s)) : Steady inModule callees (get >>= f) := by
  intro s t h
  refine .get_bind ?_
  rw [hsame s t h]
  exact hf s s t h

theorem getScope_bind {f : Scope → Infer β}
    (hf : ∀ scope, scope.isModule = inModule → Steady inModule callees (f scope)) :
    Steady inModule callees (getScope >>= f) := by
  have hget : ∀ s : State, endOf (getScope >>= f) s = endOf (f s.frame.scope) s :=
    fun s => endOf_bind getScope f s
  intro s t h
  refine (hf _ h.scope s t h).of_endOf (hget s) ?_
  rw [hget, h.frame]

theorem modifyFrame {f : Frame → Frame} (hf : ∀ fr, (f fr).scope.isModule = fr.scope.isModule) :
    Steady inModule [] (Inference.modifyFrame f) := by
  intro s t h r s' hends
  obtain ⟨rfl, rfl⟩ := ends_modifyFrame.mp hends
  refine ⟨rfl, .value nofun (ends_modifyFrame.mpr ⟨rfl, rfl⟩)
    ⟨h.known, h.knownLater, h.grows, ?_, ?_⟩⟩
  · exact congrArg f h.frame
  · exact (hf _).trans h.scope

theorem modifyScope {f : Scope → Scope} (hf : ∀ sc, (f sc).isModule = sc.isModule) :
    Steady inModule [] (Inference.modifyScope f) :=
  modifyFrame fun fr => hf fr.scope

theorem emit {event : Event} : Steady inModule [] (Inference.emit event) := by
  intro s t h r s' hends
  obtain ⟨rfl, rfl⟩ := ends_emit.mp hends
  exact ⟨rfl, .value nofun (ends_emit.mpr ⟨rfl, rfl⟩)
    ⟨h.known, h.knownLater, h.grows, h.frame, h.scope⟩⟩

theorem ite {c : Prop} [Decidable c] {y : Infer α} (hx : c → Steady inModule callees x)
    (hy : ¬c → Steady inModule callees y) : Steady inModule callees (if c then x else y) := by
  by_cases h : c
  · rw [if_pos h]
    exact hx h
  · rw [if_neg h]
    exact hy h

/-- A check that fails with a message of another kind, or lets the rest go on. -/
theorem check {c : Prop} [Decidable c] {e : Error} {bad : Infer α} {y : Infer β}
    (hbad : bad = Inference.fail e) (he : e.asksAnnotation = false)
    (hy : ¬c → Steady inModule callees y) :
    Steady inModule callees (if c then bad >>= f else y) :=
  ite (fun _ => hbad ▸ fail he) hy

end Steady

end Inference

end Sketchwright
