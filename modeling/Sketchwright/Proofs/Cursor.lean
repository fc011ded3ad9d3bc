import Sketchwright.Program.Parser

/-! Reading by position. A walk moves a cursor over a list of tokens. It can look where there is
no token, a loop of it can turn without a move, and it need not come to an end: a walk that
calls itself is given a depth, and it ends if some depth is enough. Here are its steps, and the
rules by which a walk does what a reader of the tokens from the cursor on does: such a walk
ends, and with none of these. -/

namespace Sketchwright.Cursor

open Reading

/-- What a walk can do wrong. -/
inductive Trap where
  /-- It asks for a token where there is none. -/
  | outOfRange
  /-- A turn of a loop ends where it started. -/
  | stalled
  /-- It negates a number whose negation has no place in sixty-four bits with a sign. -/
  | overflow
  deriving DecidableEq, Repr

/-- What ends a walk that has no value. -/
inductive Stop where
  | trap (trap : Trap)
  | fault (fault : Fault)
  deriving DecidableEq, Repr

/-- A walk from a position. One that is cut off has no result. -/
abbrev Walk (α : Type) := StateT Nat (ExceptT Stop Option) α

/-- A walk that may go no deeper. -/
def cutOff {α : Type} : Walk α := fun _ => none

def fail {α : Type} (fault : Fault) : Walk α := throw (.fault fault)

/-- The walk fails on a condition. -/
def refuse (c : Prop) [Decidable c] (fault : Fault) : Walk Unit := if c then fail fault else pure ()

/-- The end of a turn of a loop that started at a position: there was a move. -/
def turned (start : Nat) : Walk Unit := do
  if (← get) ≤ start then throw (.trap .stalled) else return ()

/-- The negation of a number of sixty-four bits. -/
def negated (value : Int) : Walk Int :=
  if Token.Numeral.largest < -value then throw (.trap .overflow) else return -value

section Steps

variable (tokens : List Token)

/-- The token at a position. -/
def tokenAt (index : Nat) : Walk Token :=
  match tokens[index]? with
  | some t => return t
  | none => throw (.trap .outOfRange)

def current : Walk Token := do tokenAt tokens (← get)

def currentKind : Walk TokenKind := do return (← current tokens).kind

def currentLine : Walk Nat := do return (← current tokens).line

/-- The kind of a later token, which need not exist. -/
def peek (offset : Nat) : Walk TokenKind := do
  return ((tokens[(← get) + offset]?).map Token.kind).getD .eof

/-- A move to the next token. At the last one there is no move. -/
def advance : Walk Unit := modify fun pos => if pos + 1 < tokens.length then pos + 1 else pos

def unexpected {α : Type} (what : Expected) : Walk α := do
  let t ← current tokens
  fail (.malformed t.line (.expected what t.kind))

/-- A move from a token of a kind. -/
def expect (expected : TokenKind) (what : Expected) : Walk Unit := do
  let kind ← currentKind tokens
  if kind = expected then advance tokens else unexpected tokens what

def expectSymbol (s : Symbol) : Walk Unit := expect tokens (.symbol s) (.symbol s)

def expectKeyword (k : Keyword) : Walk Unit := expect tokens (.keyword k) (.keyword k)

def expectIdentifier : Walk String := do
  match ← currentKind tokens with
  | .identifier name => do
    advance tokens
    return name
  | _ => unexpected tokens .identifier

end Steps

section Runs

variable {α β : Type} {walk : Walk α} {next : α → Walk β} {pos pos' : Nat} {a : α} {stop : Stop}

theorem bind_ok (h : walk pos = some (.ok (a, pos'))) : (walk >>= next) pos = next a pos' := by
  simp [bind, StateT.bind, ExceptT.bind, ExceptT.mk, h, ExceptT.bindCont]

theorem bind_error (h : walk pos = some (.error stop)) :
    (walk >>= next) pos = some (.error stop) := by
  simp [bind, StateT.bind, ExceptT.bind, ExceptT.mk, h, ExceptT.bindCont, pure]

end Runs

/-- The walk comes to a result when it may go as deep as it likes: it has this result at every
depth from some depth on. -/
def Ends {α : Type} (walk : Nat → Walk α) (pos : Nat) (result : Except Stop (α × Nat)) : Prop :=
  ∃ enough, ∀ depth, enough ≤ depth → walk depth pos = some result

namespace Ends

variable {α β : Type} {walk other : Nat → Walk α} {next : Nat → α → Walk β} {pos pos' : Nat}
  {a : α} {stop : Stop}
  {result result' : Except Stop (α × Nat)}

theorem of_eq (h : ∀ depth, walk depth pos = some result) : Ends walk pos result :=
  ⟨0, fun depth _ => h depth⟩

theorem congr (hwalk : ∀ depth, walk depth pos = other depth pos) (h : Ends other pos result) :
    Ends walk pos result := by
  obtain ⟨enough, h⟩ := h
  exact ⟨enough, fun depth hdepth => (hwalk depth).trans (h depth hdepth)⟩

theorem deeper (h : Ends (fun depth => walk (depth + 1)) pos result) : Ends walk pos result := by
  obtain ⟨enough, h⟩ := h
  refine ⟨enough + 1, fun depth hdepth => ?_⟩
  obtain ⟨depth, rfl⟩ := Nat.exists_eq_add_one_of_ne_zero (by omega : depth ≠ 0)
  exact h depth (by omega)

theorem bind_ok {result : Except Stop (β × Nat)} (h : Ends walk pos (.ok (a, pos')))
    (hnext : Ends (fun depth => next depth a) pos' result) :
    Ends (fun depth => walk depth >>= next depth) pos result := by
  obtain ⟨enough, h⟩ := h
  obtain ⟨enough', hnext⟩ := hnext
  refine ⟨max enough enough', fun depth hdepth => ?_⟩
  exact (Cursor.bind_ok (h depth (by omega))).trans (hnext depth (by omega))

theorem bind_error (h : Ends walk pos (.error stop)) :
    Ends (fun depth => walk depth >>= next depth) pos (.error stop) := by
  obtain ⟨enough, h⟩ := h
  exact ⟨enough, fun depth hdepth => Cursor.bind_error (h depth hdepth)⟩

theorem unique (h : Ends walk pos result) (h' : Ends walk pos result') : result = result' := by
  obtain ⟨enough, h⟩ := h
  obtain ⟨enough', h'⟩ := h'
  have hboth := (h (max enough enough') (by omega)).symm.trans (h' _ (by omega))
  exact Option.some.inj hboth

end Ends

open Classical in
/-- The result that a walk comes to. One that goes on for ever has none. -/
noncomputable def result? {α : Type} (walk : Nat → Walk α) (pos : Nat) :
    Option (Except Stop (α × Nat)) :=
  if h : ∃ result, Ends walk pos result then some h.choose else none

theorem Ends.result?_eq {α : Type} {walk : Nat → Walk α} {pos : Nat}
    {result : Except Stop (α × Nat)} (h : Ends walk pos result) :
    result? walk pos = some result := by
  have hends : ∃ result, Ends walk pos result := ⟨result, h⟩
  rw [result?, dif_pos hends, hends.choose_spec.unique h]

/-- Tokens with an end token among them, none of which before it is one or has a negative number. -/
structure Track where
  body : List Token
  stop : Token
  after : List Token
  stops : stop.kind = .eof
  running : ∀ t ∈ body, t.kind ≠ .eof
  counts : ∀ t ∈ body, ∀ value, t.kind = .integer value → 0 ≤ value

namespace Track

variable {track : Track} {ts : List Token} {t : Token}

def tokens (track : Track) : List Token := track.body ++ track.stop :: track.after

/-- The position at which only these tokens are left before the end token. -/
def place (track : Track) (ts : List Token) : Nat := track.body.length - ts.length

theorem getElem?_place (h : ts <:+ track.body) (offset : Nat) :
    track.tokens[track.place ts + offset]? = (ts ++ track.stop :: track.after)[offset]? := by
  obtain ⟨front, hfront⟩ := h
  have hplace : track.place ts = front.length := by simp [place, ← hfront]
  rw [hplace, tokens, ← hfront, List.append_assoc,
    List.getElem?_append_right (Nat.le_add_right _ _), Nat.add_sub_cancel_left]

theorem place_cons (h : t :: ts <:+ track.body) : track.place (t :: ts) + 1 = track.place ts := by
  have := h.length_le
  simp only [place, List.length_cons] at this ⊢
  omega

theorem place_lt {rest : List Token} (hts : ts <:+ track.body) (h : rest.length < ts.length) :
    track.place ts < track.place rest := by
  have := hts.length_le
  simp only [place]
  omega

theorem kind_headD (track : Track) (ts : List Token) : (ts.headD track.stop).kind = kindOf ts := by
  cases ts with
  | nil => exact track.stops
  | cons => rfl

theorem line_headD (track : Track) (ts : List Token) :
    (ts.headD track.stop).line = lineOf track.stop.line ts := by
  cases ts <;> rfl

/-- The kind of a later token, the end token and what follows it included. -/
def kindAt (track : Track) (ts : List Token) (offset : Nat) : TokenKind :=
  (((ts ++ track.stop :: track.after)[offset]?).map Token.kind).getD .eof

end Track

/-- From the tokens that are left the walk comes to what the reader does: to a value that stands in
a relation to the reader's, at the place of what the reader leaves, or to the reader's fault. -/
def Follows {α β : Type} {n : Nat} (track : Track) (ts : List Token) (walk : Nat → Walk β)
    (reader : Reading α n) (R : α → β → Prop) : Prop :=
  ts <:+ track.body → match reader with
    | .ok r =>
      r.rest <:+ ts ∧ ∃ b, R r.value b ∧ Ends walk (track.place ts) (.ok (b, track.place r.rest))
    | .error fault => Ends walk (track.place ts) (.error (.fault fault))

/-- The walk does what a computation without tokens does, and does not move. -/
def Agrees {α : Type} (walk : Walk α) (result : Except Fault α) : Prop :=
  ∀ pos, walk pos = match result with
    | .ok a => some (.ok (a, pos))
    | .error fault => some (.error (.fault fault))

namespace Follows

variable {α β γ δ : Type} {m n : Nat} {track : Track} {ts : List Token} {walk : Nat → Walk β}
  {reader : Reading α n}
  {R : α → β → Prop} {S : γ → δ → Prop} {next : Nat → β → Walk δ}

/-- The tokens that are left are the end of those before the end token. -/
theorem assume (h : ts <:+ track.body → Follows track ts walk reader R) :
    Follows track ts walk reader R :=
  fun hts => h hts hts

theorem pure {a : α} {b : β} {h : ts.length < n} (hR : R a b) :
    Follows track ts (fun _ => return b) (return ⟨a, ts, h⟩ : Reading α n) R :=
  fun _ => ⟨List.suffix_rfl, b, hR, .of_eq fun _ => rfl⟩

theorem fail {fault : Fault} :
    Follows track ts (fun _ => Cursor.fail fault) (throw fault : Reading α n) R :=
  fun _ => .of_eq fun _ => rfl

theorem fail_bind {fault : Fault} :
    Follows track ts (fun depth => Cursor.fail fault >>= next depth)
      (throw fault : Reading γ m) S :=
  fun _ => .of_eq fun _ => rfl

theorem bind {reads : Parsed α n → Reading γ m} (h : Follows track ts walk reader R)
    (hnext : ∀ a b rest hfits, rest <:+ ts → R a b →
      Follows track rest (fun depth => next depth b) (reads ⟨a, rest, hfits⟩) S) :
    Follows track ts (fun depth => walk depth >>= next depth) (reader >>= reads) S := by
  intro hts
  have hwalk := h hts
  cases reader with
  | error fault => exact Ends.bind_error hwalk
  | ok r =>
    obtain ⟨hrest, b, hR, hwalk⟩ := hwalk
    have hnext := hnext r.value b r.rest r.fits hrest hR (hrest.trans hts)
    have hbind : (Except.ok r >>= reads) = reads r := rfl
    rw [hbind]
    cases hr' : reads r with
    | ok r' =>
      rw [hr'] at hnext
      obtain ⟨hrest', d, hS, hd⟩ := hnext
      exact ⟨hrest'.trans hrest, d, hS, hwalk.bind_ok hd⟩
    | error fault =>
      rw [hr'] at hnext
      exact hwalk.bind_ok hnext

/-- The walk can be put in another way that does the same from here. -/
theorem congr_here {other : Nat → Walk β}
    (hwalk : ∀ depth, walk depth (track.place ts) = other depth (track.place ts))
    (h : Follows track ts other reader R) : Follows track ts walk reader R := by
  intro hts
  have hother := h hts
  cases reader with
  | error fault => exact hother.congr hwalk
  | ok r =>
    obtain ⟨hrest, b, hR, hother⟩ := hother
    exact ⟨hrest, b, hR, hother.congr hwalk⟩

theorem congr {other : Nat → Walk β} (hwalk : ∀ depth, walk depth = other depth)
    (h : Follows track ts other reader R) : Follows track ts walk reader R :=
  .congr_here (fun depth => congrFun (hwalk depth) _) h

/-- A walk that calls itself is one deeper than its calls. -/
theorem deeper (h : Follows track ts (fun depth => walk (depth + 1)) reader R) :
    Follows track ts walk reader R := by
  intro hts
  have hwalk := h hts
  cases reader with
  | error fault => exact hwalk.deeper
  | ok r =>
    obtain ⟨hrest, b, hR, hwalk⟩ := hwalk
    exact ⟨hrest, b, hR, hwalk.deeper⟩

/-- The walk ends where the reader still changes the value. -/
theorem last {reads : Parsed α n → Reading γ m} {S : γ → β → Prop}
    (h : Follows track ts walk reader R)
    (hnext : ∀ a b rest hfits, rest <:+ ts → R a b →
      Follows track rest (fun _ => return b) (reads ⟨a, rest, hfits⟩) S) :
    Follows track ts walk (reader >>= reads) S := by
  refine .congr (fun depth => ?_) (bind h hnext)
  rw [bind_pure]

/-- A part of the walk that the reader does not take, and that does not move. -/
theorem wait {reader : Reading γ m} {b : β}
    (hwalk : Ends walk (track.place ts) (.ok (b, track.place ts)))
    (h : Follows track ts (fun depth => next depth b) reader S) :
    Follows track ts (fun depth => walk depth >>= next depth) reader S := by
  intro hts
  have hnext := h hts
  cases reader with
  | error fault => exact hwalk.bind_ok hnext
  | ok r =>
    obtain ⟨hrest, d, hS, hd⟩ := hnext
    exact ⟨hrest, d, hS, hwalk.bind_ok hd⟩

/-- The same for a step. -/
theorem stay {step : Walk β} {reader : Reading γ m} {b : β}
    (hstep : ts <:+ track.body → step (track.place ts) = some (.ok (b, track.place ts)))
    (h : Follows track ts (fun depth => next depth b) reader S) :
    Follows track ts (fun depth => step >>= next depth) reader S :=
  .assume fun hts => .wait (.of_eq fun _ => hstep hts) h

theorem agrees {step : Walk β} {result : Except Fault β} {reads : β → Reading γ m}
    (hstep : Agrees step result)
    (hnext : ∀ b, result = .ok b → Follows track ts (fun depth => next depth b) (reads b) S) :
    Follows track ts (fun depth => step >>= next depth) (result >>= reads) S := by
  have hpos := hstep (track.place ts)
  cases result with
  | error fault => exact fun _ => .of_eq fun _ => bind_error hpos
  | ok b => exact .congr_here (fun _ => bind_ok hpos) (hnext b rfl)

/-- A step of the walk that the reader does not take on its own. -/
theorem move {reads : Reading γ m} {a : α} {rest : List Token} {hfits : rest.length < n}
    (h : Follows track ts walk (return ⟨a, rest, hfits⟩ : Reading α n) R)
    (hnext : ∀ b, R a b → Follows track rest (fun depth => next depth b) reads S) :
    Follows track ts (fun depth => walk depth >>= next depth) reads S := by
  intro hts
  obtain ⟨hrest, b, hR, hwalk⟩ := h hts
  have hnext := hnext b hR (hrest.trans hts)
  cases reads with
  | error fault => exact hwalk.bind_ok hnext
  | ok r =>
    obtain ⟨hrest', d, hS, hd⟩ := hnext
    exact ⟨hrest'.trans hrest, d, hS, hwalk.bind_ok hd⟩

theorem halt {fault : Fault} (h : Follows track ts walk (throw fault : Reading α n) R) :
    Follows track ts (fun depth => walk depth >>= next depth) (throw fault : Reading γ m) S := by
  intro hts
  exact Ends.bind_error (h hts)

/-- What the reader returns can be put in another way. -/
theorem returned {a : α} {c : γ} {rest rest' : List Token} {hfits : rest.length < n}
    {hfits' : rest'.length < m} {S : γ → β → Prop}
    (h : Follows track ts walk (return ⟨a, rest, hfits⟩ : Reading α n) R) (hrest : rest = rest')
    (hS : ∀ b, R a b → S c b) :
    Follows track ts walk (return ⟨c, rest', hfits'⟩ : Reading γ m) S := by
  subst hrest
  intro hts
  obtain ⟨hsuffix, b, hR, hwalk⟩ := h hts
  exact ⟨hsuffix, b, hS b hR, hwalk⟩

theorem of_eq {us : List Token} (hts : ts = us) (h : Follows track us walk reader R) :
    Follows track ts walk reader R := by
  subst hts
  exact h

/-- The walk refuses what the reader refused before. -/
theorem refused {c : Prop} [Decidable c] {fault : Fault} {next : Nat → Unit → Walk δ} (hc : c) :
    Follows track ts (fun depth => refuse c fault >>= next depth)
      (throw fault : Reading γ m) S := by
  rw [refuse, if_pos hc]
  exact .fail_bind

theorem passed {c : Prop} [Decidable c] {fault : Fault} {next : Nat → Unit → Walk δ}
    {reader : Reading γ m} (hc : ¬c) (h : Follows track ts (fun depth => next depth ()) reader S) :
    Follows track ts (fun depth => refuse c fault >>= next depth) reader S := by
  rw [refuse, if_neg hc]
  exact .stay (fun _ => rfl) h

theorem check {c : Prop} [Decidable c] {fault : Fault} {next : Nat → Unit → Walk δ}
    {jump : β → Reading γ m} {reader : Reading γ m}
    (h : ¬c → Follows track ts (fun depth => next depth ()) reader S) :
    Follows track ts (fun depth => refuse c fault >>= next depth)
      (if c then (do let r ← throw fault; jump r) else reader) S := by
  by_cases hc : c
  · rw [if_pos hc]
    exact .refused hc
  · rw [if_neg hc]
    exact .passed hc (h hc)

theorem value {b : β} {reads : Reading γ m}
    (h : Follows track ts (fun depth => next depth b) reads S) :
    Follows track ts (fun depth => (return b) >>= next depth) reads S :=
  .stay (fun _ => rfl) h

/-- A branch of the walk alone. -/
theorem yes {c : Prop} [Decidable c] {other : Nat → Walk β} (hc : c)
    (h : Follows track ts walk reader R) :
    Follows track ts (fun depth => if c then walk depth else other depth) reader R :=
  .congr (fun _ => by rw [if_pos hc]) h

theorem no {c : Prop} [Decidable c] {other : Nat → Walk β} (hc : ¬c)
    (h : Follows track ts walk reader R) :
    Follows track ts (fun depth => if c then other depth else walk depth) reader R :=
  .congr (fun _ => by rw [if_neg hc]) h

/-- A branch before the rest of the walk. -/
theorem yes_bind {c : Prop} [Decidable c] {other : Nat → Walk β} {reads : Reading γ m} (hc : c)
    (h : Follows track ts (fun depth => walk depth >>= next depth) reads S) :
    Follows track ts (fun depth => (if c then walk depth else other depth) >>= next depth)
      reads S :=
  .congr (fun _ => by rw [if_pos hc]) h

theorem no_bind {c : Prop} [Decidable c] {other : Nat → Walk β} {reads : Reading γ m} (hc : ¬c)
    (h : Follows track ts (fun depth => walk depth >>= next depth) reads S) :
    Follows track ts (fun depth => (if c then other depth else walk depth) >>= next depth)
      reads S :=
  .congr (fun _ => by rw [if_neg hc]) h

/-- A branch of both. -/
theorem ite {c c' : Prop} [Decidable c] [Decidable c'] {walk' : Nat → Walk β}
    {reader' : Reading α n} (h : c ↔ c') (hyes : c → Follows track ts walk reader R)
    (hno : ¬c → Follows track ts walk' reader' R) :
    Follows track ts (fun depth => if c then walk depth else walk' depth)
      (if c' then reader else reader') R := by
  by_cases hc : c
  · rw [if_pos (h.mp hc)]
    exact .yes hc (hyes hc)
  · rw [if_neg (mt h.mpr hc)]
    exact .no hc (hno hc)

theorem get {next : Nat → Nat → Walk δ} {reader : Reading γ m}
    (h : ts <:+ track.body → Follows track ts (fun depth => next depth (track.place ts)) reader S) :
    Follows track ts (fun depth => MonadState.get >>= next depth) reader S :=
  .assume fun hts => .stay (fun _ => rfl) (h hts)

theorem run_turned {start : List Token} (hstart : start <:+ track.body)
    (hlength : ts.length < start.length) :
    Cursor.turned (track.place start) (track.place ts) = some (.ok ((), track.place ts)) := by
  have hlt := Track.place_lt hstart hlength
  show (if track.place ts ≤ track.place start then _ else _ : Walk Unit) (track.place ts) = _
  rw [if_neg (by omega)]
  rfl

theorem turned {start : List Token} {next : Nat → Unit → Walk δ} {reader : Reading γ m}
    (hstart : start <:+ track.body) (hlength : ts.length < start.length)
    (h : Follows track ts (fun depth => next depth ()) reader S) :
    Follows track ts (fun depth => Cursor.turned (track.place start) >>= next depth) reader S :=
  .stay (fun _ => run_turned hstart hlength) h

theorem run_tokenAt (hts : ts <:+ track.body) (pos : Nat) :
    tokenAt track.tokens (track.place ts) pos = some (.ok (ts.headD track.stop, pos)) := by
  have htoken := Track.getElem?_place hts 0
  rw [tokenAt, show track.tokens[track.place ts]? =
    some (ts.headD track.stop) by cases ts <;> exact htoken]
  rfl

theorem current {next : Nat → Token → Walk δ} {reader : Reading γ m}
    (h : Follows track ts (fun depth => next depth (ts.headD track.stop)) reader S) :
    Follows track ts (fun depth => Cursor.current track.tokens >>= next depth) reader S :=
  .stay (fun hts => run_tokenAt hts _) h

theorem run_current (hts : ts <:+ track.body) :
    Cursor.current track.tokens (track.place ts) =
      some (.ok (ts.headD track.stop, track.place ts)) :=
  run_tokenAt hts _

theorem currentKind {next : Nat → TokenKind → Walk δ} {reader : Reading γ m}
    (h : Follows track ts (fun depth => next depth (kindOf ts)) reader S) :
    Follows track ts (fun depth => Cursor.currentKind track.tokens >>= next depth) reader S := by
  refine .stay (fun hts => (bind_ok (run_current hts)).trans ?_) h
  rw [track.kind_headD]
  rfl

theorem currentLine {next : Nat → Nat → Walk δ} {reader : Reading γ m}
    (h : Follows track ts (fun depth => next depth (lineOf track.stop.line ts)) reader S) :
    Follows track ts (fun depth => Cursor.currentLine track.tokens >>= next depth) reader S := by
  refine .stay (fun hts => (bind_ok (run_current hts)).trans ?_) h
  rw [track.line_headD]
  rfl

theorem peek {offset : Nat} {next : Nat → TokenKind → Walk δ} {reader : Reading γ m}
    (h : Follows track ts (fun depth => next depth (track.kindAt ts offset)) reader S) :
    Follows track ts (fun depth => Cursor.peek track.tokens offset >>= next depth) reader S := by
  refine .stay (fun hts => ?_) h
  rw [Track.kindAt, ← Track.getElem?_place hts offset]
  rfl

/-- A move from a token that is not the end. -/
theorem advance {next : Nat → Unit → Walk δ} {reader : Reading γ m} (hts : kindOf ts ≠ .eof)
    (h : Follows track ts.tail (fun depth => next depth ()) reader S) :
    Follows track ts (fun depth => Cursor.advance track.tokens >>= next depth) reader S := by
  cases ts with
  | nil => exact absurd rfl hts
  | cons t ts =>
    have hstep : Follows track (t :: ts) (fun _ => Cursor.advance track.tokens)
        (return ⟨(), ts, length_lt ts⟩ : Reading Unit _) fun _ _ => True := by
      intro hcons
      have hlt : track.place (t :: ts) + 1 < track.tokens.length := by
        have := hcons.length_le
        simp only [Track.place, Track.tokens, List.length_append, List.length_cons] at this ⊢
        omega
      have hmove : Cursor.advance track.tokens (track.place (t :: ts)) =
          some (.ok ((), track.place ts)) := by
        rw [← Track.place_cons hcons]
        exact congrArg (fun pos => some (Except.ok ((), pos))) (if_pos hlt)
      exact ⟨List.suffix_cons t ts, (), trivial, .of_eq fun _ => hmove⟩
    exact .move hstep fun _ _ => h

theorem kind_ne {kind other : TokenKind} (h : kindOf ts = kind) (hkind : kind ≠ other := by simp) :
    kindOf ts ≠ other :=
  h ▸ hkind

theorem unexpected {what : Expected} :
    Follows track ts (fun _ => Cursor.unexpected track.tokens what)
    (throw (Reading.unexpected track.stop.line what ts) : Reading α n) R := by
  refine .assume fun hts => .current ?_
  rw [track.kind_headD, track.line_headD]
  exact .fail

/-- The end of a walk may be a move. -/
theorem advance_last {reader : Reading γ m} {S : γ → Unit → Prop} (hts : kindOf ts ≠ .eof)
    (h : Follows track ts.tail (fun _ => return ()) reader S) :
    Follows track ts (fun _ => Cursor.advance track.tokens) reader S := by
  refine .congr (fun _ => ?_) (advance hts h)
  rw [bind_pure]

theorem expect {kind : TokenKind} {what : Expected} (hkind : kind ≠ .eof) :
    Follows track ts (fun _ => Cursor.expect track.tokens kind what)
      (match ts with
        | [] => throw (Reading.unexpected track.stop.line what [])
        | t :: ts => if t.kind = kind then return ⟨(), ts, length_lt ts⟩
          else throw (Reading.unexpected track.stop.line what (t :: ts)) :
          Reading Unit ts.length) fun _ _ => True := by
  refine .currentKind ?_
  cases ts with
  | nil => exact .no hkind.symm .unexpected
  | cons t ts =>
    exact .ite .rfl (fun ht => .advance_last (kind_ne ht hkind) (.pure trivial))
      fun _ => .unexpected

theorem expectSymbol {s : Symbol} : Follows track ts (fun _ => Cursor.expectSymbol track.tokens s)
    (Reading.expectSymbol track.stop.line s ts) fun _ _ => True := by
  cases ts <;> exact expect (by simp)

theorem expectKeyword {k : Keyword} :
    Follows track ts (fun _ => Cursor.expectKeyword track.tokens k)
    (Reading.expectKeyword track.stop.line k ts) fun _ _ => True := by
  cases ts <;> exact expect (by simp)

theorem expectIdentifier : Follows track ts (fun _ => Cursor.expectIdentifier track.tokens)
    (Reading.expectIdentifier track.stop.line ts) fun name b => b = name := by
  cases ts with
  | nil => exact .currentKind .unexpected
  | cons t ts =>
    rw [Reading.expectIdentifier]
    split
    · next ht =>
      refine .currentKind ?_
      simp only [kindOf, ht]
      exact .advance (kind_ne ht) (.pure rfl)
    · next hne =>
      refine .currentKind (.congr (fun _ => ?_) .unexpected)
      split
      · next ht => exact absurd ht (hne _)
      · rfl

section Seen

variable {t : Token} {reads : Reading γ m}

/-- A token whose kind the reader has in its pattern. -/
theorem seen {kind : TokenKind} {what : Expected} {next : Nat → Unit → Walk δ}
    (hts : kindOf ts = kind) (hkind : kind ≠ .eof)
    (h : Follows track ts.tail (fun depth => next depth ()) reads S) :
    Follows track ts (fun depth => Cursor.expect track.tokens kind what >>=
      next depth) reads S := by
  simp only [Cursor.expect, bind_assoc]
  exact .currentKind (.yes_bind hts (.advance (kind_ne hts hkind) h))

theorem symbol {s : Symbol} {next : Nat → Unit → Walk δ} (hs : kindOf ts = .symbol s)
    (h : Follows track ts.tail (fun depth => next depth ()) reads S) :
    Follows track ts (fun depth => Cursor.expectSymbol track.tokens s >>= next depth) reads S :=
  seen hs (by simp) h

theorem keyword {k : Keyword} {next : Nat → Unit → Walk δ} (hk : kindOf ts = .keyword k)
    (h : Follows track ts.tail (fun depth => next depth ()) reads S) :
    Follows track ts (fun depth => Cursor.expectKeyword track.tokens k >>= next depth) reads S :=
  seen hk (by simp) h

theorem identifier {name : String} {next : Nat → String → Walk δ} (ht : t.kind = .identifier name)
    (h : Follows track ts (fun depth => next depth name) reads S) :
    Follows track (t :: ts)
      (fun depth => Cursor.expectIdentifier track.tokens >>= next depth) reads S := by
  have hname : Follows track (t :: ts) (fun _ => Cursor.expectIdentifier track.tokens) _ _ :=
    expectIdentifier
  simp only [Reading.expectIdentifier, ht] at hname
  exact .move hname fun b hb => hb ▸ h

theorem noIdentifier {next : Nat → String → Walk δ} (hts : ∀ name, kindOf ts ≠ .identifier name) :
    Follows track ts (fun depth => Cursor.expectIdentifier track.tokens >>= next depth)
      (throw (Reading.unexpected track.stop.line .identifier ts) : Reading γ m) S := by
  have hthrow : Reading.expectIdentifier track.stop.line ts =
      throw (Reading.unexpected track.stop.line .identifier ts) := by
    cases ts with
    | nil => rfl
    | cons t ts =>
      rw [Reading.expectIdentifier]
      split
      · next ht => exact absurd ht (hts _)
      · rfl
  have hname : Follows track ts (fun _ => Cursor.expectIdentifier track.tokens) _ _ :=
    expectIdentifier
  rw [hthrow] at hname
  exact .halt hname

end Seen

end Follows

end Sketchwright.Cursor
