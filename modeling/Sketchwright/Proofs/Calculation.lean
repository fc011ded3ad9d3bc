import Sketchwright.Proofs.Lexemes
import Sketchwright.Sketch.Expr

/-! Integer expressions of a sketch as C++ reads them. The text is cut into lexemes, each as long as
it can be. The operators are then applied by the strengths that they have in C++, from left to right
where these are equal. Integers are unbounded, and division rounds towards zero. -/

namespace Sketchwright.Calculation

open Text

/-- Operators between two integers. -/
inductive Operator where
  | mul | div | mod
  | add | sub
  | lt | le | gt | ge
  | eq | ne
  deriving DecidableEq, Repr

def Operator.strength : Operator → Nat
  | .mul | .div | .mod => 5
  | .add | .sub => 4
  | .lt | .le | .gt | .ge => 3
  | .eq | .ne => 2

def truth (b : Bool) : Int := if b then 1 else 0

/-- The result of an operation; there is none of a division by zero. -/
def Operator.apply : Operator → Int → Int → Option Int
  | .mul, a, b => some (a * b)
  | .div, a, b => if b = 0 then none else some (a.tdiv b)
  | .mod, a, b => if b = 0 then none else some (a.tmod b)
  | .add, a, b => some (a + b)
  | .sub, a, b => some (a - b)
  | .lt, a, b => some (truth (a < b))
  | .le, a, b => some (truth (a ≤ b))
  | .gt, a, b => some (truth (a > b))
  | .ge, a, b => some (truth (a ≥ b))
  | .eq, a, b => some (truth (a = b))
  | .ne, a, b => some (truth (a ≠ b))

def Sign.apply : Sign → Int → Int
  | .minus, a => -a
  | .plus, a => a

section Lexemes

/-- The lexemes of several marks, comment marks among them. -/
def punctuators : List String :=
  ["++", "--", "->", "->*", "<<", ">>", "<=", ">=", "<=>", "==", "!=", "&&", "||", "+=", "-=", "*=",
    "/=", "%=", "&=", "|=", "^=", "<<=", ">>=", "::", ".*", "##", "//", "/*", "<:",
    ":>", "<%", "%>", "%:"]

/-- The character makes a longer lexeme of one: of a word or a number, or of marks. -/
def joins (lexeme : List Char) (c : Char) : Bool :=
  match lexeme with
  | [] => false
  | first :: _ =>
    if isWordChar first then isWordChar c else punctuators.any (·.toList == lexeme ++ [c])

def flush : List Char → List (List Char)
  | [] => []
  | lexeme => [lexeme]

/-- The lexemes of a text after one that has begun. -/
def lexemes (lexeme : List Char) : List Char → List (List Char)
  | [] => flush lexeme
  | c :: cs =>
    if joins lexeme c then lexemes (lexeme ++ [c]) cs
    else flush lexeme ++ lexemes (if c = ' ' then [] else [c]) cs

/-- A lexeme that is not made longer ends. -/
theorem lexemes_flush {lexeme rest : List Char} (h : ∀ c ∈ rest.head?, joins lexeme c = false) :
    lexemes lexeme rest = flush lexeme ++ lexemes [] rest := by
  cases rest with
  | nil => exact (List.append_nil _).symm
  | cons c cs =>
    rw [lexemes, lexemes, h c rfl]
    rfl

/-- No lexeme of several marks ends with the character. -/
def Apart (c : Char) : Prop := ∀ p ∈ punctuators, p.toList.getLast? ≠ some c

theorem last_of_mem_punctuators {p : String} {c : Char} (hp : p ∈ punctuators)
    (hlast : p.toList.getLast? = some c) : isWordChar c = false ∧ c ∉ [' ', '(', ')'] := by
  have hall : punctuators.all (fun p => p.toList.getLast?.all fun c =>
      !isWordChar c && c ∉ [' ', '(', ')']) = true := by decide +kernel
  have hends := List.all_eq_true.mp hall p hp
  rw [hlast, Option.all_some, Bool.and_eq_true, Bool.not_eq_true'] at hends
  exact ⟨hends.1, of_decide_eq_true hends.2⟩

theorem apart_of_isWordChar {c : Char} (h : isWordChar c = true) : Apart c := by
  intro p hp hlast
  rw [(last_of_mem_punctuators hp hlast).1] at h
  cases h

theorem apart_of_mem {c : Char} (h : c ∈ [' ', '(', ')']) : Apart c :=
  fun _ hp hlast => (last_of_mem_punctuators hp hlast).2 h

theorem joins_mark {first c : Char} {more : List Char} (hfirst : isWordChar first = false)
    (hc : Apart c) : joins (first :: more) c = false := by
  simp only [joins, hfirst, Bool.false_eq_true, if_false]
  apply List.any_eq_false.mpr
  intro p hp heq
  apply hc p hp
  rw [beq_iff_eq.mp heq, List.getLast?_append, List.getLast?_singleton, Option.some_or]

/-- No lexeme of several marks begins with a parenthesis. -/
theorem joins_opening (c : Char) : joins ['('] c = false := by
  have hfirst : ∀ p ∈ punctuators, p.toList.head? ≠ some '(' := by decide +kernel
  rw [joins, if_neg (by decide)]
  apply List.any_eq_false.mpr
  intro p hp heq
  apply hfirst p hp
  rw [beq_iff_eq.mp heq]
  rfl

/-- What follows an expression or one of its operands. -/
def Closes (rest : List Char) : Prop := ∀ c ∈ rest.head?, c = ' ' ∨ c = ')'

theorem Closes.nil : Closes [] := fun _ h => (nomatch h)

theorem closes_blank (rest : List Char) : Closes (' ' :: rest) := by
  rintro _ ⟨⟩
  exact .inl rfl

theorem closes_closing (rest : List Char) : Closes (')' :: rest) := by
  rintro _ ⟨⟩
  exact .inr rfl

/-- A lexeme ends where the expression does. -/
theorem Closes.lexemes {rest : List Char} (h : Closes rest) (first : Char) (more : List Char) :
    lexemes (first :: more) rest = (first :: more) :: lexemes [] rest := by
  apply lexemes_flush
  intro c hc
  have hends : isWordChar c = false ∧ Apart c := by
    rcases h c hc with rfl | rfl
    · exact ⟨by decide +kernel, apart_of_mem (by decide)⟩
    · exact ⟨by decide +kernel, apart_of_mem (by decide)⟩
  cases hfirst : isWordChar first with
  | true => simp [joins, hfirst, hends.1]
  | false => exact joins_mark hfirst hends.2

/-- The characters are these lexemes wherever an expression may end after them. -/
def Cuts (cs : List Char) (found : List (List Char)) : Prop :=
  ∀ rest, Closes rest → lexemes [] (cs ++ rest) = found ++ lexemes [] rest

theorem Cuts.word {first : Char} {more : List Char} (h : ∀ c ∈ first :: more, isWordChar c = true) :
    Cuts (first :: more) [first :: more] := by
  intro rest hrest
  obtain ⟨hfirst, hmore⟩ := List.forall_mem_cons.mp h
  have hblank : first ≠ ' ' := by
    rintro rfl
    exact absurd hfirst (by decide)
  have hgo : ∀ {cs lexeme}, (∀ c ∈ cs, isWordChar c = true) →
      lexemes (first :: lexeme) (cs ++ rest) = lexemes (first :: lexeme ++ cs) rest := by
    intro cs
    induction cs with
    | nil =>
      intro lexeme _
      rw [List.append_nil, List.nil_append]
    | cons c cs ih =>
      intro lexeme hcs
      obtain ⟨hc, hcs⟩ := List.forall_mem_cons.mp hcs
      have hjoins : joins (first :: lexeme) c = true := by simp [joins, hfirst, hc]
      rw [List.cons_append, Calculation.lexemes, if_pos hjoins, List.cons_append, ih hcs]
      simp
  rw [List.cons_append, Calculation.lexemes, if_neg (by simp [joins]), if_neg hblank, hgo hmore]
  exact hrest.lexemes _ _

theorem Cuts.paren {cs : List Char} {found : List (List Char)} (h : Cuts cs found) :
    Cuts ('(' :: cs ++ [')']) (['('] :: found ++ [[')']]) := by
  intro rest hrest
  have hopen : lexemes ['('] (cs ++ ')' :: rest) = ['('] :: lexemes [] (cs ++ ')' :: rest) :=
    lexemes_flush fun c _ => joins_opening c
  have hclose : lexemes [] (')' :: rest) = [')'] :: lexemes [] rest := hrest.lexemes ')' []
  show lexemes ['('] ((cs ++ [')']) ++ rest) = _
  rw [List.append_assoc, List.singleton_append, hopen, h _ (closes_closing rest), hclose]
  simp

/-- A sign is a lexeme of its own before a word or a parenthesis. -/
theorem Cuts.sign {cs : List Char} {found : List (List Char)} (h : Cuts cs found) (sign : Sign)
    {c : Char} (hstart : cs.head? = some c) (hc : Apart c) :
    Cuts (sign.text.toList ++ cs) (sign.text.toList :: found) := by
  intro rest hrest
  obtain ⟨more, rfl⟩ := List.head?_eq_some_iff.mp hstart
  have hjoins : ∀ d ∈ (c :: more ++ rest).head?, joins sign.text.toList d = false := by
    rintro _ ⟨⟩
    cases sign with
    | minus => exact joins_mark (by decide) hc
    | plus => exact joins_mark (by decide) hc
  have hflush := lexemes_flush hjoins
  rw [h rest hrest] at hflush
  cases sign <;> exact hflush

/-- Operands stand apart from the operator between them. -/
theorem Cuts.binary {cs ds : List Char} {found more : List (List Char)} (hleft : Cuts cs found)
    (hright : Cuts ds more) (op : BinOp) (hop : op ≠ .pow) :
    Cuts (cs ++ ' ' :: ((Sketch.symbol op).toList ++ ' ' :: ds))
      (found ++ (Sketch.symbol op).toList :: more) := by
  intro rest hrest
  have hmiddle : lexemes [] (' ' :: ((Sketch.symbol op).toList ++ ' ' :: (ds ++ rest))) =
      (Sketch.symbol op).toList :: lexemes [] (ds ++ rest) := by
    cases op <;> first | rfl | exact absurd rfl hop
  have htext : cs ++ ' ' :: ((Sketch.symbol op).toList ++ ' ' :: ds) ++ rest =
      cs ++ ' ' :: ((Sketch.symbol op).toList ++ ' ' :: (ds ++ rest)) := by simp
  rw [htext, hleft _ (closes_blank _), hmiddle, hright rest hrest]
  simp

end Lexemes

section Reading

/-- What a lexeme is in an expression. -/
inductive Item where
  | number (n : Nat)
  | name (id : String)
  | op (o : Operator)
  | opening
  | closing
  deriving DecidableEq, Repr

/-- The number with these decimal digits. More digits after a zero would be octal ones. -/
def decimal? (digits : List Char) : Option Nat :=
  if digits.head? = some '0' ∧ digits.length ≠ 1 then none else ofDigits? 10 digits

def mark? : List Char → Option Item
  | ['('] => some .opening
  | [')'] => some .closing
  | ['*'] => some (.op .mul)
  | ['/'] => some (.op .div)
  | ['%'] => some (.op .mod)
  | ['+'] => some (.op .add)
  | ['-'] => some (.op .sub)
  | ['<'] => some (.op .lt)
  | ['<', '='] => some (.op .le)
  | ['>'] => some (.op .gt)
  | ['>', '='] => some (.op .ge)
  | ['=', '='] => some (.op .eq)
  | ['!', '='] => some (.op .ne)
  | _ => none

def item? (lexeme : List Char) : Option Item :=
  if lexeme.head?.any isWordStart then some (.name (String.ofList lexeme))
  else if lexeme.head?.any Char.isDigit then (decimal? lexeme).map .number
  else mark? lexeme

/-- What waits for an operand on its right. -/
inductive Pending where
  | sign (s : Sign)
  | left (a : Int) (o : Operator)
  | opened
  deriving DecidableEq, Repr

def Pending.strength : Pending → Nat
  | .sign _ => 6
  | .left _ o => o.strength
  | .opened => 0

def Pending.apply : Pending → Int → Option Int
  | .sign s, b => some (Sign.apply s b)
  | .left a o, b => o.apply a b
  | .opened, _ => none

/-- Gives the operand to what waits with at least this strength, the last one first. -/
def settle (k : Nat) : List Pending → Int → Option (List Pending × Int)
  | [], b => some ([], b)
  | p :: ps, b =>
    if k ≤ p.strength then (p.apply b).bind (settle k ps) else some (p :: ps, b)

/-- What waits, the latest first, and the operand that has been read after it. -/
abbrev Progress := List Pending × Option Int

def step (vars : String → Int) : Progress → Item → Option Progress
  | (ps, none), .number n => some (ps, some n)
  | (ps, none), .name id => some (ps, some (vars id))
  | (ps, none), .op .add => some (.sign .plus :: ps, none)
  | (ps, none), .op .sub => some (.sign .minus :: ps, none)
  | (ps, none), .opening => some (.opened :: ps, none)
  | (ps, some b), .op o => (settle o.strength ps b).map fun (ps, a) => (.left a o :: ps, none)
  | (ps, some b), .closing =>
    match settle 1 ps b with
    | some (.opened :: ps, b) => some (ps, some b)
    | _ => none
  | _, _ => none

def run (vars : String → Int) (items : List Item) (progress : Progress) : Option Progress :=
  items.foldlM (step vars) progress

def finish : Progress → Option Int
  | (ps, some b) =>
    match settle 1 ps b with
    | some ([], b) => some b
    | _ => none
  | (_, none) => none

/-- The value of a text under an assignment of integers to its words, if it is an expression. -/
def value? (vars : String → Int) (text : String) : Option Int :=
  (lexemes [] text.toList).mapM item? >>= fun items => run vars items ([], none) >>= finish

end Reading

section Items

theorem item?_of_isWord {id : String} (h : Token.Lexeme.IsWord id.toList) :
    item? id.toList = some (.name id) := by
  obtain ⟨first, more, htext, hstart⟩ := h.start
  rw [item?, if_pos (by simp [htext, hstart]), String.ofList_toList]

/-- A number other than zero does not begin with a zero. -/
theorem eq_zero_of_head {n : Nat} (h : (Nat.toDigits 10 n).head? = some '0') : n = 0 := by
  induction n using Nat.strongRecOn with
  | ind n ih =>
    by_cases hn : n < 10
    · rw [Nat.toDigits_of_lt_base hn] at h
      exact Nat.digitChar_eq_zero.mp (Option.some.inj h)
    · have hdigits := Nat.toDigits_of_base_le (by decide) (Nat.le_of_not_lt hn)
      rw [hdigits, List.head?_append,
        Option.or_of_isSome (List.isSome_head?.mpr Nat.toDigits_ne_nil)] at h
      have hzero := ih (n / 10) (by omega) h
      omega

theorem item?_toDigits (n : Nat) : item? (Nat.toDigits 10 n) = some (.number n) := by
  have hdecimal : decimal? (Nat.toDigits 10 n) = some n := by
    rw [decimal?, if_neg ?_, Token.Lexeme.ofDigits?_toDigits]
    rintro ⟨hhead, hlength⟩
    obtain rfl := eq_zero_of_head hhead
    exact hlength (by rw [Nat.toDigits_zero]; rfl)
  obtain ⟨first, more, htext⟩ := List.exists_cons_of_ne_nil (Nat.toDigits_ne_nil (n := n) (b := 10))
  have hdigit : first.isDigit = true :=
    Token.Lexeme.isDigit_of_toDigits first (htext ▸ List.mem_cons_self)
  have hstart : isWordStart first = false := isWordStart_of_isDigit hdigit
  rw [item?, if_neg (by simp [htext, hstart]), if_pos (by simp [htext, hdigit]), hdecimal]
  rfl

end Items

section Running

variable {vars : String → Int} {items left right : List Item} {j k : Nat} {a b v : Int}

/-- What waits last waits with less than this strength. -/
def Weak (k : Nat) (ps : List Pending) : Prop := ∀ p ∈ ps.head?, p.strength < k

theorem Weak.mono {ps : List Pending} (h : Weak j ps) (hle : j ≤ k) : Weak k ps :=
  fun p hp => Nat.lt_of_lt_of_le (h p hp) hle

theorem Weak.cons {p : Pending} {ps : List Pending} (h : p.strength < k) : Weak k (p :: ps) := by
  rintro _ ⟨⟩
  exact h

theorem settle_of_weak {ps : List Pending} (h : Weak k ps) (b : Int) :
    settle k ps b = some (ps, b) := by
  cases ps with
  | nil => rfl
  | cons p ps => rw [settle, if_neg (Nat.not_le_of_lt (h p rfl))]

theorem settle_cons {p : Pending} {ps : List Pending} (hk : k ≤ p.strength)
    (hv : p.apply b = some v) : settle k (p :: ps) b = settle k ps v := by
  rw [settle, if_pos hk, hv]
  rfl

theorem run_append (progress : Progress) :
    run vars (left ++ right) progress = (run vars left progress).bind (run vars right) :=
  List.foldlM_append

/-- The items are an operand with this value, which holds together as tightly as `k`: after what
waits with less than that, it is left to what is settled next. -/
def Reads (vars : String → Int) (items : List Item) (k : Nat) (v : Int) : Prop :=
  ∀ ps, Weak k ps → ∃ qs w, run vars items (ps, none) = some (qs, some w) ∧
    ∀ j ≤ k, settle j qs w = settle j ps v

namespace Reads

theorem mono (h : Reads vars items k v) (hle : j ≤ k) : Reads vars items j v := by
  intro ps hweak
  obtain ⟨qs, w, hrun, hsettle⟩ := h ps (hweak.mono hle)
  exact ⟨qs, w, hrun, fun i hi => hsettle i (Nat.le_trans hi hle)⟩

theorem number (n : Nat) : Reads vars [.number n] k n :=
  fun ps _ => ⟨ps, n, rfl, fun _ _ => rfl⟩

theorem name (id : String) : Reads vars [.name id] k (vars id) :=
  fun ps _ => ⟨ps, vars id, rfl, fun _ _ => rfl⟩

/-- Parentheses keep everything out. -/
theorem paren (h : Reads vars items k v) (hk : 0 < k) (j : Nat) :
    Reads vars (.opening :: items ++ [.closing]) j v := by
  intro ps _
  obtain ⟨qs, w, hrun, hsettle⟩ := h (.opened :: ps) (.cons hk)
  have hclose : settle 1 qs w = some (.opened :: ps, v) :=
    (hsettle 1 hk).trans (settle_of_weak (.cons (by decide)) v)
  refine ⟨ps, v, ?_, fun _ _ => rfl⟩
  show run vars (items ++ [.closing]) (.opened :: ps, none) = _
  rw [run_append, hrun]
  show (step vars (qs, some w) .closing).bind _ = _
  simp only [step, hclose]
  rfl

/-- A sign takes an operand that holds together more tightly than it. -/
theorem sign (h : Reads vars items 7 v) (s : Sign) :
    Reads vars (.op (if s = .minus then .sub else .add) :: items) 6 (Sign.apply s v) := by
  intro ps _
  obtain ⟨qs, w, hrun, hsettle⟩ := h (.sign s :: ps) (.cons (show 6 < 7 by decide))
  refine ⟨qs, w, ?_, fun j hj => ?_⟩
  · cases s <;> exact hrun
  · rw [hsettle j (Nat.le_succ_of_le hj)]
    exact settle_cons hj rfl

/-- An operator takes operands that hold together as tightly as it, the right one more tightly. -/
theorem binary {o : Operator} (hleft : Reads vars left j a) (hj : o.strength ≤ j)
    (hright : Reads vars right k b) (hk : o.strength < k) (hv : o.apply a b = some v) :
    Reads vars (left ++ .op o :: right) o.strength v := by
  intro ps hweak
  obtain ⟨qs, w, hrun, hsettle⟩ := hleft ps (hweak.mono hj)
  obtain ⟨qs', w', hrun', hsettle'⟩ := hright (.left a o :: ps) (.cons hk)
  have hwait : settle o.strength qs w = some (ps, a) :=
    (hsettle _ hj).trans (settle_of_weak hweak a)
  refine ⟨qs', w', ?_, fun i hi => ?_⟩
  · rw [run_append, hrun]
    show (step vars (qs, some w) (.op o)).bind (run vars right) = _
    simp only [step, hwait]
    exact hrun'
  · rw [hsettle' i (Nat.le_trans hi (Nat.le_of_lt hk))]
    exact settle_cons hi hv

/-- A whole text has the value of its items. -/
theorem value? {text : String} {found : List (List Char)} (h : Reads vars items k v) (hk : 0 < k)
    (hcuts : Cuts text.toList found) (hitems : found.mapM item? = some items) :
    value? vars text = some v := by
  have hlexemes : lexemes [] text.toList = found := by
    have hwhole := hcuts [] Closes.nil
    rwa [List.append_nil, show lexemes [] [] = [] from rfl, List.append_nil] at hwhole
  obtain ⟨qs, w, hrun, hsettle⟩ := h [] (fun _ hp => nomatch hp)
  have hlast : settle 1 qs w = some ([], v) := hsettle 1 hk
  simp only [Calculation.value?, hlexemes, hitems, Option.bind_eq_bind,
    Option.bind_some, hrun, finish, hlast]

end Reads

end Running

end Sketchwright.Calculation
