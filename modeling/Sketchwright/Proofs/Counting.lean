import Sketchwright.Proofs.CodeText
import Sketchwright.Proofs.Emission

/-! Counted loops. The header of a loop over a `range` is read as the loop that it starts: what the
variable is set to, the comparison before each turn, and what moves the variable after it. Over
unbounded integers that loop takes one turn for each value of the range, and stops. -/

namespace Sketchwright

namespace Sketch

/-- The value lies before the end of a range, in the direction of its step. -/
def Precedes (step value stop : Int) : Prop := if 0 < step then value < stop else stop < value

instance (step value stop : Int) : Decidable (Precedes step value stop) :=
  inferInstanceAs (Decidable (if 0 < step then value < stop else stop < value))

/-- The number of values of a range: the distance by the size of the step, rounded up. -/
def rangeSize (start stop step : Int) : Nat :=
  if 0 < step then ((stop - start + (step - 1)) / step).toNat
  else ((start - stop + (-step - 1)) / -step).toNat

/-- The values of `range(start, stop, step)`. -/
def rangeValues (start stop step : Int) : List Int :=
  (List.range (rangeSize start stop step)).map fun turn : Nat => start + step * turn

section Ranges

variable {start stop step : Int}

theorem lt_divUp_iff {turn : Nat} {distance size : Int} (h : 0 < size) :
    turn < ((distance + (size - 1)) / size).toNat ↔ size * turn < distance := by
  rw [Int.lt_toNat, ← Int.add_one_le_iff, Int.le_ediv_iff_mul_le h, Int.add_mul, Int.mul_comm size]
  omega

/-- The values counted are those before the end of the range. -/
theorem lt_rangeSize (h : step ≠ 0) {turn : Nat} :
    turn < rangeSize start stop step ↔ Precedes step (start + step * turn) stop := by
  unfold rangeSize Precedes
  split
  · next hpos =>
    rw [lt_divUp_iff hpos]
    omega
  · rw [lt_divUp_iff (by omega), Int.neg_mul]
    omega

/-- Each place of a range holds the start moved by that many steps, as far as
that is before the stop. -/
theorem getElem?_rangeValues (h : step ≠ 0) (turn : Nat) : (rangeValues start stop step)[turn]? =
    if Precedes step (start + step * turn) stop then some (start + step * turn) else none := by
  simp only [rangeValues, List.getElem?_map, ← lt_rangeSize h]
  split
  · next hlt => simp [hlt]
  · next hlt => simpa using hlt

theorem rangeValues_of_precedes (h : step ≠ 0) (hstart : Precedes step start stop) :
    rangeValues start stop step = start :: rangeValues (start + step) stop step := by
  refine List.ext_getElem? fun turn => ?_
  cases turn with
  | zero => simp [getElem?_rangeValues h, hstart]
  | succ turn =>
    rw [List.getElem?_cons_succ, getElem?_rangeValues h, getElem?_rangeValues h,
      show start + step * ((turn + 1 : Nat) : Int) = start + step + step * turn by
        rw [Int.natCast_add, Int.mul_add]; omega]

theorem rangeValues_of_not_precedes (h : step ≠ 0) (hstart : ¬Precedes step start stop) :
    rangeValues start stop step = [] := by
  have hsize : ¬0 < rangeSize start stop step := by simpa [lt_rangeSize h] using hstart
  simp [rangeValues, Nat.eq_zero_of_not_pos hsize]

/-- With each step the distance to the end of the range gets smaller. -/
theorem rangeSize_lt (h : step ≠ 0) {value : Int} (hvalue : Precedes step value stop) :
    rangeSize (value + step) stop step < rangeSize value stop step := by
  have hlist := congrArg List.length (rangeValues_of_precedes h hvalue)
  simp only [rangeValues, List.length_map, List.length_range, List.length_cons] at hlist
  omega

end Ranges

/-- The comparison of a loop's variable with its stop. -/
inductive Test where
  | below
  | above
  deriving DecidableEq, Repr

namespace Test

def op : Test → BinOp
  | .below => .lt
  | .above => .gt

def Holds : Test → Int → Int → Prop
  | .below, value, stop => value < stop
  | .above, value, stop => value > stop

end Test

/-- What moves a loop's variable after a turn. -/
inductive Advance where
  | increment
  | decrement
  | add (amount : Nat)
  | subtract (amount : Nat)
  deriving DecidableEq, Repr

namespace Advance

def text (var : String) : Advance → String
  | .increment => var ++ "++"
  | .decrement => var ++ "--"
  | .add amount => var ++ " += " ++ toString amount
  | .subtract amount => var ++ " -= " ++ toString amount

def apply : Advance → Int → Int
  | .increment, value => value + 1
  | .decrement, value => value - 1
  | .add amount, value => value + amount
  | .subtract amount, value => value - amount

end Advance

/-- A loop as its header states it. -/
structure CountedLoop where
  /-- The kind of the variable, if the header declares it. -/
  declared : Option Kind
  var : String
  start : Expr
  test : Test
  stop : Expr
  advance : Advance

/-- What a counted loop reads and writes: its variable and its stop, with the rest of the store. -/
structure LoopState (σ : Type) where
  var : Int
  stop : Int
  rest : σ

/-- What may happen in the body of a loop, from the state before to the state after. -/
abbrev LoopBody (σ : Type) := LoopState σ → LoopState σ → Prop

/-- The body changes neither the variable nor the stop. -/
def LoopBody.Keeps {σ : Type} (body : LoopBody σ) : Prop :=
  ∀ s t, body s t → t.var = s.var ∧ t.stop = s.stop

namespace CountedLoop

variable {σ : Type}

def typeText (style : Style) (line : Nat) : Option Kind → Writing String
  | some kind => do return (← typeName style kind line) ++ " "
  | none => return ""

/-- The header; its test is a comparison as the sketch writes one. -/
def header (style : Style) (line : Nat) (loop : CountedLoop) : Writing String := do
  let type ← typeText style line loop.declared
  let start ← expression style line loop.start
  let test ← expression style line (.binary (.name loop.var) loop.test.op loop.stop)
  return "for (" ++ type ++ loop.var ++ " = " ++ start ++ "; " ++ test ++ "; " ++
    loop.advance.text loop.var ++ ") \x7b"

/-- One turn: the test holds, the body runs, the variable moves. -/
def Turn (loop : CountedLoop) (body : LoopBody σ) (s t : LoopState σ) : Prop :=
  loop.test.Holds s.var s.stop ∧ ∃ u, body s u ∧ t = { u with var := loop.advance.apply u.var }

/-- The turns up to the one before which the test fails, with the values that the
variable has in their bodies. -/
inductive Runs (loop : CountedLoop) (body : LoopBody σ) :
    LoopState σ → List Int → LoopState σ → Prop
  | done {s} (h : ¬loop.test.Holds s.var s.stop) : Runs loop body s [] s
  | turn {s t u values} (h : loop.Turn body s t) (hrest : Runs loop body t values u) :
      Runs loop body s (s.var :: values) u

/-- Started with these values of its start and of its stop, the loop has no endless run, whatever
its body does apart from the variable and the stop, and its runs go through exactly these values of
the variable; there is one if the body never fails to end. -/
structure Counts (loop : CountedLoop) (start stop : Int) (values : List Int) : Prop where
  terminates : ∀ {σ : Type} {body : LoopBody σ}, body.Keeps → ∀ rest,
    Acc (fun t s => loop.Turn body s t) ⟨start, stop, rest⟩
  exact : ∀ {σ : Type} {body : LoopBody σ}, body.Keeps → ∀ rest found t,
    loop.Runs body ⟨start, stop, rest⟩ found t → found = values
  runs : ∀ {σ : Type} {body : LoopBody σ}, body.Keeps → (∀ s, ∃ t, body s t) → ∀ rest,
    ∃ t, loop.Runs body ⟨start, stop, rest⟩ values t

end CountedLoop

/-- The loop over a range. -/
def CountedLoop.ofBounds (bounds : Bounds) (declared : Option Kind)
    (var : String) : CountedLoop where
  declared := declared
  var := var
  start := bounds.start.getD (.literal (.int 0))
  test := if 0 < bounds.step then .below else .above
  stop := bounds.stop
  advance :=
    if bounds.step = 1 then .increment
    else if bounds.step = -1 then .decrement
    else if 0 < bounds.step then .add bounds.step.natAbs
    else .subtract bounds.step.natAbs

section Runs

variable {bounds : Bounds} {declared : Option Kind} {var : String} {σ : Type} {body : LoopBody σ}
  {s t : LoopState σ}

theorem holds_ofBounds : (CountedLoop.ofBounds bounds declared var).test.Holds s.var s.stop ↔
    Precedes bounds.step s.var s.stop := by
  unfold CountedLoop.ofBounds Precedes
  dsimp only
  split <;> rfl

theorem apply_ofBounds (value : Int) :
    (CountedLoop.ofBounds bounds declared var).advance.apply value = value + bounds.step := by
  unfold CountedLoop.ofBounds
  dsimp only
  split
  · next h => rw [h]; rfl
  split
  · next h => rw [h]; rfl
  split
  · simp only [Advance.apply]
    omega
  · simp only [Advance.apply]
    omega

/-- A turn starts before the end of the range and moves the variable by the step. -/
theorem turn_ofBounds (hkeeps : body.Keeps)
    (h : (CountedLoop.ofBounds bounds declared var).Turn body s t) :
    Precedes bounds.step s.var s.stop ∧ t.var = s.var + bounds.step ∧ t.stop = s.stop := by
  obtain ⟨htest, u, hbody, rfl⟩ := h
  obtain ⟨hvar, hstop⟩ := hkeeps s u hbody
  exact ⟨holds_ofBounds.mp htest, by rw [apply_ofBounds, hvar], hstop⟩

theorem terminates_ofBounds (hstep : bounds.step ≠ 0) (hkeeps : body.Keeps) (s : LoopState σ) :
    Acc (fun t s => (CountedLoop.ofBounds bounds declared var).Turn body s t) s := by
  refine Subrelation.accessible (fun {t s} h => ?_)
    ((measure fun s : LoopState σ => rangeSize s.var s.stop bounds.step).wf.apply s)
  obtain ⟨hprecedes, hvar, hstop⟩ := turn_ofBounds hkeeps h
  show rangeSize t.var t.stop bounds.step < rangeSize s.var s.stop bounds.step
  rw [hvar, hstop]
  exact rangeSize_lt hstep hprecedes

theorem values_ofBounds (hstep : bounds.step ≠ 0) (hkeeps : body.Keeps) {values : List Int}
    (h : (CountedLoop.ofBounds bounds declared var).Runs body s values t) :
    values = rangeValues s.var s.stop bounds.step := by
  induction h with
  | done htest => exact (rangeValues_of_not_precedes hstep (mt holds_ofBounds.mpr htest)).symm
  | turn hturn _ ih =>
    obtain ⟨hprecedes, hvar, hstop⟩ := turn_ofBounds hkeeps hturn
    rw [ih, rangeValues_of_precedes hstep hprecedes, hvar, hstop]

/-- By induction on the turns that are left. -/
theorem runs_ofBounds (hstep : bounds.step ≠ 0) (hkeeps : body.Keeps) (htotal : ∀ s, ∃ t, body s t)
    (s : LoopState σ) : ∃ t, (CountedLoop.ofBounds bounds declared var).Runs body s
      (rangeValues s.var s.stop bounds.step) t := by
  have hacc : Acc (fun t s => (CountedLoop.ofBounds bounds declared var).Turn body s t) s :=
    terminates_ofBounds hstep hkeeps s
  induction hacc with
  | intro s _ ih =>
    by_cases hprecedes : Precedes bounds.step s.var s.stop
    · obtain ⟨u, hbody⟩ := htotal s
      have hturn : (CountedLoop.ofBounds bounds declared var).Turn body s _ :=
        ⟨holds_ofBounds.mpr hprecedes, u, hbody, rfl⟩
      obtain ⟨t, hrest⟩ := ih _ hturn
      obtain ⟨_, hvar, hstop⟩ := turn_ofBounds hkeeps hturn
      rw [rangeValues_of_precedes hstep hprecedes, ← hvar, ← hstop]
      exact ⟨t, .turn hturn hrest⟩
    · rw [rangeValues_of_not_precedes hstep hprecedes]
      exact ⟨s, .done (mt holds_ofBounds.mp hprecedes)⟩

theorem counts_ofBounds (hstep : bounds.step ≠ 0) (declared : Option Kind) (var : String)
    (start stop : Int) : (CountedLoop.ofBounds bounds declared var).Counts start stop
      (rangeValues start stop bounds.step) where
  terminates hkeeps rest := terminates_ofBounds hstep hkeeps ⟨start, stop, rest⟩
  exact hkeeps _ _ _ h := values_ofBounds hstep hkeeps h
  runs hkeeps htotal rest := runs_ofBounds hstep hkeeps htotal ⟨start, stop, rest⟩

end Runs

section Headers

variable {style : Style} {line : Nat} {var : String} {bounds : Bounds} {text : String}

/-- A value of an integer kind is no comparison. -/
theorem one_lt_strength {c : Callees} {names : Names} {e : Expr} {kind : Kind}
    (h : HasKind c names e kind) (hkind : kind.isInteger = true) : 1 < strength e := by
  cases h with
  | binary _ _ hop =>
    cases hop with
    | compareSame | compareNumbers | power => cases hkind
    | arithmetic hop => rcases hop with rfl | rfl | rfl <;> simp [strength, BinOp.strength]
    | whole hop => rcases hop with rfl | rfl <;> simp [strength, BinOp.strength]
    | join | quotient => simp [strength, BinOp.strength]
  | literal | name | call | length | index => exact (by decide : 1 < atomStrength)
  | unary => exact (by decide : 1 < signStrength)

/-- Where the stop is no comparison, the test of a loop is written as that comparison is. -/
theorem test_text (test : Test) {stop : Expr} {stopText : String} (hstop : 1 < strength stop)
    (h : expression style line stop = .ok stopText) :
    expression style line (.binary (.name var) test.op stop) =
      .ok (var ++ " " ++ symbol test.op ++ " " ++ stopText) := by
  have hparens : needsParens stop test.op true = false := by
    cases test <;> simp [needsParens, Test.op, BinOp.strength] <;> omega
  have hname : leftText (.name var) test.op var = var := by cases test <;> rfl
  have hpow : test.op ≠ .pow := by cases test <;> decide
  simp only [expression, h, Outcome.bind_eq_ok]
  exact ⟨var, rfl, stopText, rfl, by simp [hpow, hname, hparens, parenthesized]⟩

theorem advanceText_ofBounds (declared : Option Kind) : advanceText var bounds.step =
    (symbol (CountedLoop.ofBounds bounds declared var).test.op,
      (CountedLoop.ofBounds bounds declared var).advance.text var) := by
  obtain ⟨start, stop, step⟩ := bounds
  simp only [advanceText, CountedLoop.ofBounds]
  by_cases hone : step = 1
  · simp [hone, Test.op, symbol, BinOp.text, Advance.text]
  by_cases hminus : step = -1
  · simp [hminus, Test.op, symbol, BinOp.text, Advance.text]
  by_cases hpos : 0 < step
  · have habs : toString step = toString step.natAbs := by
      obtain ⟨n, rfl⟩ := Int.eq_ofNat_of_zero_le (Int.le_of_lt hpos)
      rfl
    simp [hone, hminus, hpos, habs, Test.op, symbol, BinOp.text, Advance.text]
  · simp [hone, hminus, hpos, Test.op, symbol, BinOp.text, Advance.text]

/-- The header of a loop states the loop over its range. -/
theorem header_ofBounds (hstop : 1 < strength bounds.stop) {binding : Binding}
    (h : loopHeader style line var bounds binding = .ok text) :
    ∃ declared, (CountedLoop.ofBounds bounds declared var).header style line = .ok text := by
  obtain ⟨start, stop, first, hstart, hstopText, hfirst, rfl⟩ := loopHeader_cases h
  have hstart' : expression style line (bounds.start.getD (.literal (.int 0))) = .ok start := by
    rcases hstart with ⟨hnone, rfl⟩ | ⟨e, hsome, he⟩
    · rw [hnone]
      rfl
    · rwa [hsome]
  have hdeclared : ∃ declared, CountedLoop.typeText style line declared = .ok first := by
    rcases hfirst with rfl | ⟨kind, name, hname, rfl⟩
    · exact ⟨none, rfl⟩
    · exact ⟨some kind, by simp [CountedLoop.typeText, hname]⟩
  obtain ⟨declared, hdeclared⟩ := hdeclared
  have htest : ∀ test : Test, expression style line (.binary (.name var) test.op bounds.stop) =
      .ok (var ++ " " ++ symbol test.op ++ " " ++ stop) :=
      fun test => test_text test hstop hstopText
  simp only [CountedLoop.header, Outcome.bind_eq_ok, Outcome.pure_eq_ok]
  refine ⟨declared, first, hdeclared, start, hstart', _, htest _, ?_⟩
  rw [advanceText_ofBounds declared]
  simp [String.append_assoc, CountedLoop.ofBounds]

end Headers

end Sketch

namespace Inference

variable {table : CallTable} {p p' : Program}

/-- Every loop of an accepted program has a header, which states a loop that goes through the range
of the source: whatever the start and the stop are, its variable has the values of the range, in
order. The programs that come from a text are well-formed (`Program.wellFormed_of_source`). -/
theorem infer_counts (htable : table.Built) (hp : p.WellFormed) (h : (infer table p).1 = .ok p')
    (floatType : FloatType) {d : Definition} (hd : d ∈ p'.definitions) {context : Context}
    {line : Nat} {var : String} {bounds : Bounds} {binding : Binding} {body : List Stmt}
    (hloop : ⟨context, .loop line var bounds binding body⟩ ∈ d.occurrences)
    (hstep : bounds.step ≠ 0) :
    ∃ declared text, Sketch.loopHeader ⟨table, floatType⟩ line var bounds binding = .ok text ∧
      (Sketch.CountedLoop.ofBounds bounds declared var).header ⟨table, floatType⟩ line = .ok text ∧
      ∀ start stop, (Sketch.CountedLoop.ofBounds bounds declared var).Counts start stop
        (Sketch.rangeValues start stop bounds.step) := by
  rcases infer_cases htable.sound hp with ⟨e, he, _⟩ | ⟨_, _, _, _, hok, hinferred⟩
  · cases he.symm.trans h
  cases hok.symm.trans h
  have hserves := hinferred.serves htable.sound hp floatType
  cases (hinferred.typed htable.sound hp).bodies d hd _ hloop with
  | loop hbounds hvar =>
    have hvalues : ∀ e ∈ bounds.exprs, ∃ kind,
        HasKind (p'.callees table) (context.kind? (p'.callees table).table) e kind :=
      fun e he => (hbounds e he).imp fun _ => And.left
    have hint : Kind.int.isList = false := rfl
    obtain ⟨text, htext⟩ :
        ∃ text, Sketch.loopHeader ⟨table, floatType⟩ line var bounds binding = .ok text :=
      Sketch.loopHeader_writes hserves hint (hvar.imp_right And.left) hvalues
    obtain ⟨kind, hstop, hinteger⟩ := hbounds bounds.stop (by simp [Bounds.exprs])
    obtain ⟨declared, hheader⟩ :=
      Sketch.header_ofBounds (Sketch.one_lt_strength hstop hinteger) htext
    exact ⟨declared, text, htext, hheader, Sketch.counts_ofBounds hstep declared var⟩
  | inert hstmt => cases hstmt

def countdownBounds : Bounds := ⟨some (.literal (.int 10)), .literal (.int 0), -3⟩

/-- A loop whose step does not divide its range. -/
def countdown : Program where
  header := []
  statements :=
    [.function 1 ⟨"f", [], none, false⟩ none [] [.loop 2 "i" countdownBounds .unresolved [.pass 3]]]

def countdownDefinition : Definition :=
  ⟨[], 1, ⟨"f", [], none, false⟩, ⟨[], .void⟩, [],
    [.loop 2 "i" countdownBounds (.declare .int) [.pass 3]]⟩

theorem infer_counts_countdown :
    countdown.WellFormed ∧
    (infer .builtin countdown).1 = .ok ⟨[], [countdownDefinition.stmt]⟩ ∧
    ∃ declared text, Sketch.loopHeader ⟨.builtin, .double⟩ 2 "i" countdownBounds
      (.declare .int) = .ok text ∧
      (Sketch.CountedLoop.ofBounds countdownBounds declared "i").header
        ⟨.builtin, .double⟩ 2 = .ok text ∧
      (Sketch.CountedLoop.ofBounds countdownBounds declared "i").Counts 10 0 [10, 7, 4, 1] := by
  have hp : countdown.WellFormed := by
    refine ⟨List.forall_mem_nil _, fun stmt hstmt => ?_, List.pairwise_singleton _ _⟩
    obtain rfl := List.mem_singleton.mp hstmt
    exact .function ⟨List.nodup_nil, List.forall_mem_nil _, nofun, nofun⟩ rfl
  have hinfer : (infer .builtin countdown).1 = .ok ⟨[], [countdownDefinition.stmt]⟩ := by cbv
  have hmem : countdownDefinition ∈ Program.definitions ⟨[], [countdownDefinition.stmt]⟩ :=
    List.mem_singleton_self _
  obtain ⟨declared, text, htext, hheader, hcounts⟩ :=
    infer_counts .builtin hp hinfer .double hmem List.mem_cons_self (by decide)
  exact ⟨hp, hinfer, declared, text, htext, hheader, hcounts 10 0⟩

end Inference

end Sketchwright
