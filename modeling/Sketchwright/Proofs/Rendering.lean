import Mathlib
import Sketchwright.Proofs.Rereading
import Sketchwright.Proofs.Trees

/-! Expressions as tokens, with parentheses only where an operand binds less tightly than its place
asks for. The grammar reads such tokens as the expression that they were made of. -/

namespace Sketchwright

/-- The token of an operator. -/
def BinOp.symbol : BinOp → Symbol
  | .floorDiv => .doubleSlash
  | op => Token.Lexeme.operatorSymbol op

namespace Expr

open Reading Sketch

/-- The names of an expression are identifiers that the language leaves to its users. -/
inductive Named : Expr → Prop
  | literal {value} : Named (.literal value)
  | name {id} (hid : (TokenKind.identifier id).Spelled) (hsupported : id ∉ unsupportedWords) :
      Named (.name id)
  | unary {sign operand} (hoperand : Named operand) : Named (.unary sign operand)
  | binary {left op right} (hleft : Named left) (hright : Named right) :
    Named (.binary left op right)
  | call {callee args} (hcallee : Path callee) (hargs : ∀ arg ∈ args, Named arg) :
      Named (.call callee args)
  | index {list position} (hid : (TokenKind.identifier list).Spelled)
      (hsupported : list ∉ unsupportedWords) (hposition : Named position) :
      Named (.index list position)
  | list {items} (hitems : ∀ item ∈ items, Named item) : Named (.list items)

/-- How tightly the grammar binds an expression. -/
def tier : Expr → Nat
  | .unary _ _ => signStrength
  | .binary _ op _ => op.strength
  | _ => atomStrength

/-- What the left operand has to bind at least as tightly as. A comparison is no operand of another
one, and only an atom may be raised to a power. -/
def leftTier (op : BinOp) : Nat := if op = .pow then atomStrength else max 2 op.strength

/-- The same for the right operand. An exponent may have a sign. -/
def rightTier (op : BinOp) : Nat := if op = .pow then signStrength else op.strength + 1

def enclosed (needed : Bool) (kinds : List TokenKind) : List TokenKind :=
  if needed then .symbol .leftParen :: (kinds ++ [.symbol .rightParen]) else kinds

/-- Runs of tokens with commas between them. -/
def listed (runs : List (List TokenKind)) : List TokenKind := [.symbol .comma].intercalate runs

/-- The words of a dotted name with the points between them. -/
def pathTokens (path : String) : List TokenKind :=
  [.symbol .dot].intercalate
    ((path.toList.splitOn '.').map fun word => [.identifier (String.ofList word)])

mutual

/-- The tokens of an expression. -/
def tokens : Expr → List TokenKind
  | .literal value => [literalToken value]
  | .name id => [.identifier id]
  | .unary sign operand =>
    .symbol sign.symbol :: enclosed (operand.tier < signStrength) operand.tokens
  | .binary left op right => enclosed (left.tier < leftTier op) left.tokens ++
      .symbol op.symbol :: enclosed (right.tier < rightTier op) right.tokens
  | .call callee args =>
    pathTokens callee ++ .symbol .leftParen :: (listed (tokensAll args) ++ [.symbol .rightParen])
  | .index base position =>
    .identifier base :: .symbol .leftBracket :: (position.tokens ++ [.symbol .rightBracket])
  | .list items => .symbol .leftBracket :: (listed (tokensAll items) ++ [.symbol .rightBracket])

def tokensAll : List Expr → List (List TokenKind)
  | [] => []
  | e :: es => e.tokens :: tokensAll es

end

@[simp] theorem listed_singleton (run : List TokenKind) : listed [run] = run :=
  List.intercalate_singleton

@[simp] theorem listed_cons_cons (run next : List TokenKind) (runs : List (List TokenKind)) :
    listed (run :: next :: runs) = run ++ .symbol .comma :: listed (next :: runs) := by
  simp [listed, List.intercalate_cons_cons]

section Path

theorem intercalate_concat {sep run : List TokenKind} {runs : List (List TokenKind)}
    (h : runs ≠ []) :
    sep.intercalate (runs ++ [run]) = sep.intercalate runs ++ (sep ++ run) := by
  induction runs with
  | nil => exact absurd rfl h
  | cons first runs ih =>
    cases runs with
    | nil => simp
    | cons second runs =>
      have htail := ih (List.cons_ne_nil _ _)
      simp only [List.cons_append] at htail ⊢
      rw [List.intercalate_cons_cons, htail, List.intercalate_cons_cons]
      simp only [List.append_assoc]

theorem splitOn_plain {word : List Char} (h : '.' ∉ word) : word.splitOn '.' = [word] := by
  have hall : ∀ part ∈ [word], '.' ∉ part := List.forall_mem_singleton.mpr h
  have hsplit := List.splitOn_intercalate '.' hall (List.cons_ne_nil _ _)
  rwa [List.intercalate_singleton] at hsplit

theorem not_mem_of_spelled {id : String}
    (h : (TokenKind.identifier id).Spelled) : '.' ∉ id.toList := by
  simpa using isPlain_of_spelled h

theorem dotted_pathTokens {path : String} (h : Path path) : Dotted (pathTokens path) path := by
  induction h with
  | @word id hid hsupported =>
    have htokens : pathTokens id = [.identifier id] := by
      unfold pathTokens
      rw [splitOn_plain (not_mem_of_spelled hid), List.map_singleton, String.ofList_toList,
        List.intercalate_singleton]
    rw [htokens]
    exact .word hid hsupported
  | @dot path id hpath hid ih =>
    have hsplit : (path ++ "." ++ id).toList.splitOn '.' =
        path.toList.splitOn '.' ++ [id.toList] := by
      rw [← splitOn_plain (not_mem_of_spelled hid)]
      rw [String.toList_append, String.toList_append, List.append_assoc]
      exact List.splitOnP_append_cons path.toList id.toList (p := (· == '.')) rfl
    have htokens : pathTokens (path ++ "." ++ id) =
        pathTokens path ++ [.symbol .dot, .identifier id] := by
      unfold pathTokens
      rw [hsplit, List.map_append, List.map_singleton, String.ofList_toList]
      exact intercalate_concat (by simp)
    rw [htokens]
    exact .dot ih hid

end Path

section Kinds

/-- Kinds that an expression may start with. -/
def starts : TokenKind → Bool
  | .identifier word => !unsupportedWords.contains word
  | .integer _ | .float _ | .string _ => true
  | .keyword .trueValue | .keyword .falseValue => true
  | .symbol .minus | .symbol .plus | .symbol .leftParen | .symbol .leftBracket => true
  | _ => false

/-- Kinds that may stand in an expression. -/
def isPart : TokenKind → Bool
  | .identifier _ | .integer _ | .float _ | .string _ => true
  | .keyword .trueValue | .keyword .falseValue => true
  | .symbol .colon | .symbol .equal => false
  | .symbol _ => true
  | _ => false

def isSign : TokenKind → Bool
  | .symbol .plus | .symbol .minus => true
  | _ => false

/-- What the tokens of an expression look like, apart from the expression. -/
structure Operand (kinds : List TokenKind) : Prop where
  start : ∃ kind more, kinds = kind :: more ∧ starts kind = true
  parts : ∀ kind ∈ kinds, isPart kind = true
  last : ∀ kind ∈ kinds.getLast?, isSign kind = false

variable {kind : TokenKind} {kinds more : List TokenKind}

theorem endsLine_of_isPart (h : isPart kind = true) : kind.endsLine = false := by
  cases kind <;> first | rfl | cases h

theorem starts_identifier {word : String} (h : word ∉ unsupportedWords) :
    starts (.identifier word) = true := by
  simpa [starts] using h

theorem Operand.ne_nil (h : Operand kinds) : kinds ≠ [] := by
  obtain ⟨kind, more, rfl, -⟩ := h.start
  exact List.cons_ne_nil _ _

theorem Operand.inner (h : Operand kinds) : Inner kinds where
  start := by
    obtain ⟨kind, more, rfl, hkind⟩ := h.start
    refine ⟨kind, more, rfl, ?_⟩
    rintro hmem
    simp only [List.mem_cons, List.not_mem_nil, or_false] at hmem
    rcases hmem with rfl | rfl | rfl <;> cases hkind
  positional hmem := by cases h.parts _ hmem

theorem Operand.no_bracket (h : Operand kinds) : kinds.head? ≠ some (.symbol .rightBracket) := by
  obtain ⟨kind, more, rfl, hkind⟩ := h.start
  rintro ⟨⟩
  cases hkind

theorem Operand.single (hstart : starts kind = true) (hpart : isPart kind = true)
    (hsign : isSign kind = false) : Operand [kind] where
  start := ⟨kind, [], rfl, hstart⟩
  parts := List.forall_mem_singleton.mpr hpart
  last := by simpa using hsign

/-- Between a first and a last token of an operand there may be any parts. -/
theorem Operand.bracket {last : TokenKind} (hstart : starts kind = true)
    (hkind : isPart kind = true) (hparts : ∀ part ∈ more, isPart part = true)
    (hlast : isPart last = true) (hsign : isSign last = false) :
    Operand (kind :: (more ++ [last])) where
  start := ⟨kind, _, rfl, hstart⟩
  parts := List.forall_mem_cons.mpr
    ⟨hkind, List.forall_mem_append.mpr ⟨hparts, List.forall_mem_singleton.mpr hlast⟩⟩
  last := by
    rw [← List.cons_append, List.getLast?_concat]
    simpa using hsign

theorem Operand.prepend {kind' : TokenKind} {front : List TokenKind} (hstart : starts kind' = true)
    (hparts : ∀ part ∈ kind' :: front, isPart part = true) (h : Operand kinds) :
    Operand (kind' :: (front ++ kinds)) where
  start := ⟨kind', _, rfl, hstart⟩
  parts := by
    rw [← List.cons_append]
    exact List.forall_mem_append.mpr ⟨hparts, h.parts⟩
  last := by
    rw [← List.cons_append, List.getLast?_append_of_ne_nil _ h.ne_nil]
    exact h.last

theorem Operand.enclosed (needed : Bool) (h : Operand kinds) : Operand (enclosed needed kinds) := by
  unfold Expr.enclosed
  split
  · exact .bracket rfl rfl h.parts rfl rfl
  · exact h

theorem parts_listed {runs : List (List TokenKind)} (h : ∀ run ∈ runs, Operand run) :
    ∀ part ∈ listed runs, isPart part = true := by
  induction runs with
  | nil => exact fun _ h => (nomatch h)
  | cons run runs ih =>
    obtain ⟨hrun, hruns⟩ := List.forall_mem_cons.mp h
    cases runs with
    | nil =>
      rw [listed_singleton]
      exact hrun.parts
    | cons next runs =>
      rw [listed_cons_cons]
      exact List.forall_mem_append.mpr ⟨hrun.parts, List.forall_mem_cons.mpr ⟨rfl, ih hruns⟩⟩

theorem Dotted.parts {path : String} (h : Dotted kinds path) :
    ∀ part ∈ kinds, isPart part = true := by
  induction h with
  | word => exact List.forall_mem_singleton.mpr rfl
  | dot _ _ ih =>
    exact List.forall_mem_append.mpr
      ⟨ih, List.forall_mem_cons.mpr ⟨rfl, List.forall_mem_singleton.mpr rfl⟩⟩

theorem mem_tokensAll {es : List Expr} {run : List TokenKind} :
    run ∈ tokensAll es ↔ ∃ e ∈ es, e.tokens = run := by
  induction es with
  | nil => simp [tokensAll]
  | cons e es ih => simp [tokensAll, ih, eq_comm]

theorem operand_tokensAll {es : List Expr} (h : ∀ e ∈ es, Operand e.tokens) :
    ∀ run ∈ tokensAll es, Operand run := by
  intro run hrun
  obtain ⟨e, he, rfl⟩ := mem_tokensAll.mp hrun
  exact h e he

theorem operand_tokens {e : Expr} (h : e.Named) : Operand e.tokens := by
  induction e with
  | literal value =>
    cases value with
    | bool value => cases value <;> exact .single rfl rfl rfl
    | _ => exact .single rfl rfl rfl
  | name id =>
    cases h with
    | name _ hsupported => exact .single (starts_identifier hsupported) rfl rfl
  | unary sign operand ih =>
    cases h with
    | unary hoperand =>
      have hinner := (ih hoperand).enclosed (operand.tier < signStrength)
      cases sign <;> exact .prepend rfl (List.forall_mem_singleton.mpr rfl) hinner
  | binary left op right ihl ihr =>
    cases h with
    | binary hleft hright =>
      have hfirst := (ihl hleft).enclosed (left.tier < leftTier op)
      have hsecond := (ihr hright).enclosed (right.tier < rightTier op)
      obtain ⟨kind, front, hkinds, hstart⟩ := hfirst.start
      have hoperator : isPart (.symbol op.symbol) = true := by cases op <;> rfl
      have hparts : ∀ part ∈ kind :: (front ++ [.symbol op.symbol]), isPart part = true := by
        rw [← List.cons_append, ← hkinds]
        exact List.forall_mem_append.mpr ⟨hfirst.parts, List.forall_mem_singleton.mpr hoperator⟩
      have hall := Operand.prepend hstart hparts hsecond
      unfold tokens
      rw [hkinds]
      simpa using hall
  | call callee args ih =>
    cases h with
    | call hcallee hargs =>
      have hpath := dotted_pathTokens hcallee
      have hargs' := parts_listed (operand_tokensAll fun arg harg => ih arg harg (hargs arg harg))
      have hwords := hpath.parts
      obtain ⟨word, more, hkinds, hsupported, -⟩ := hpath.reads
      unfold tokens
      rw [hkinds] at hwords ⊢
      have hparts : ∀ part ∈ more ++ .symbol .leftParen :: listed (tokensAll args),
          isPart part = true :=
        List.forall_mem_append.mpr ⟨(List.forall_mem_cons.mp hwords).2,
          List.forall_mem_cons.mpr ⟨rfl, hargs'⟩⟩
      have hlast : isPart (.symbol .rightParen) = true := rfl
      simpa using Operand.bracket (starts_identifier hsupported) rfl hparts hlast rfl
  | index list position ih =>
    cases h with
    | index _ hsupported hposition =>
      have hparts : ∀ part ∈ .symbol .leftBracket :: position.tokens, isPart part = true :=
        List.forall_mem_cons.mpr ⟨rfl, (ih hposition).parts⟩
      exact .bracket (starts_identifier hsupported) rfl hparts rfl rfl
  | list items ih =>
    cases h with
    | list hitems =>
      exact .bracket rfl rfl
        (parts_listed (operand_tokensAll fun item hitem =>
          ih item hitem (hitems item hitem))) rfl rfl

/-- A string literal is the only expression that is one string token. -/
theorem eq_literal_of_tokens {e : Expr} {text : String} (he : e.Named)
    (h : e.tokens = [.string text]) : e = .literal (.str text) := by
  cases he with
  | @literal value =>
    cases value with
    | str => simpa [tokens, literalToken] using h
    | bool value => cases value <;> simp [tokens, literalToken] at h
    | _ => simp [tokens, literalToken] at h
  | name => simp [tokens] at h
  | unary => simp [tokens] at h
  | @binary left op right =>
    have hmem : .symbol op.symbol ∈ (Expr.binary left op right).tokens := by simp [tokens]
    rw [h] at hmem
    simp at hmem
  | @call callee args =>
    have hmem : .symbol .leftParen ∈ (Expr.call callee args).tokens := by simp [tokens]
    rw [h] at hmem
    simp at hmem
  | index => simp [tokens] at h
  | list => simp [tokens] at h

end Kinds

/-- How the tokens of an expression of this tier are read. -/
def Binds : Nat → List TokenKind → Expr → Prop
  | 0 | 1 => Whole
  | 2 => Sum
  | 3 => Product
  | 4 | 5 => Factor
  | _ => Atom

variable {kinds : List TokenKind} {e : Expr}

theorem Binds.weaken {tier weaker : Nat} (h : Binds tier kinds e) (hle : weaker ≤ tier) :
    Binds weaker kinds e := by
  induction hle with
  | refl => exact h
  | @step tier hle ih =>
    refine ih ?_
    match tier with
    | 0 | 4 => exact h
    | 1 => exact Sum.whole h
    | 2 => exact Product.sum h
    | 3 => exact Factor.product h
    | 5 => exact Atom.factor h
    | n + 6 => exact h

/-- Parentheses where the tier is too low make up for it. -/
theorem Binds.enclosed {tier least : Nat} (h : Binds tier kinds e) (hkinds : Operand kinds)
    (hleast : least ≤ atomStrength) : Binds least (enclosed (tier < least) kinds) e := by
  unfold Expr.enclosed
  split
  · have hatom : Binds atomStrength _ e := Whole.atom (h.weaken (Nat.zero_le _)) hkinds.inner
    exact hatom.weaken hleast
  · next hlow => exact h.weaken (by simpa using hlow)

theorem arguments_listed {args : List Expr} (hread : ∀ arg ∈ args, Whole arg.tokens arg)
    (hkinds : ∀ arg ∈ args, Operand arg.tokens) : Arguments (listed (tokensAll args)) args := by
  induction args with
  | nil => exact .nil
  | cons arg args ih =>
    obtain ⟨harg, hargs⟩ := List.forall_mem_cons.mp hread
    obtain ⟨hkind, hkinds⟩ := List.forall_mem_cons.mp hkinds
    cases args with
    | nil =>
      rw [tokensAll, tokensAll, listed_singleton]
      exact harg.argument hkind.inner
    | cons next args =>
      rw [tokensAll, tokensAll, listed_cons_cons]
      exact harg.arguments hkind.inner (ih hargs hkinds)

theorem items_listed {items : List Expr} (hread : ∀ item ∈ items, Whole item.tokens item)
    (hkinds : ∀ item ∈ items, Operand item.tokens) : Items (listed (tokensAll items)) items := by
  induction items with
  | nil => exact .nil
  | cons item items ih =>
    obtain ⟨hitem, hitems⟩ := List.forall_mem_cons.mp hread
    obtain ⟨hkind, hkinds⟩ := List.forall_mem_cons.mp hkinds
    cases items with
    | nil =>
      rw [tokensAll, tokensAll, listed_singleton]
      exact hitem.item hkind.no_bracket hkind.ne_nil
    | cons next items =>
      rw [tokensAll, tokensAll, listed_cons_cons]
      exact hitem.items hkind.no_bracket hkind.ne_nil (ih hitems hkinds)

/-- An operator reads its operands where each of them binds tightly enough. -/
theorem Binds.binary {op : BinOp} {left right : Expr} {leftKinds rightKinds : List TokenKind}
    (hleft : Binds (leftTier op) leftKinds left) (hright : Binds (rightTier op) rightKinds right) :
    Binds op.strength (leftKinds ++ .symbol op.symbol :: rightKinds) (.binary left op right) := by
  cases op with
  | pow => exact Atom.power hleft hright
  | mul | div | floorDiv | mod => exact Product.binary hleft rfl hright
  | add | sub => exact Sum.binary hleft rfl hright
  | eq | ne | lt | le | gt | ge => exact Sum.comparison hleft rfl hright

/-- The tokens of an expression are read at its tier. -/
theorem binds_tokens (h : e.Named) : Binds e.tier e.tokens e := by
  have hwhole : ∀ {e : Expr}, Binds e.tier e.tokens e → Whole e.tokens e :=
    fun h => h.weaken (Nat.zero_le _)
  induction e with
  | literal value => exact Atom.literal value
  | name id =>
    cases h with
    | name hid hsupported => exact Atom.name (isPlain_of_spelled hid) hsupported
  | unary sign operand ih =>
    cases h with
    | unary hoperand =>
      have hread : Binds signStrength _ operand :=
        (ih hoperand).enclosed (operand_tokens hoperand) (by decide)
      exact Factor.sign sign hread
  | binary left op right ihl ihr =>
    cases h with
    | binary hleft hright =>
      have hfirst : Binds (leftTier op) _ left :=
        (ihl hleft).enclosed (operand_tokens hleft) (by cases op <;> decide)
      have hsecond : Binds (rightTier op) _ right :=
        (ihr hright).enclosed (operand_tokens hright) (by cases op <;> decide)
      exact hfirst.binary hsecond
  | call callee args ih =>
    cases h with
    | call hcallee hargs =>
      exact Atom.call (dotted_pathTokens hcallee) (arguments_listed
        (fun arg harg => hwhole (ih arg harg (hargs arg harg)))
        fun arg harg => operand_tokens (hargs arg harg))
  | index list position ih =>
    cases h with
    | index hid hsupported hposition =>
      exact Atom.index (isPlain_of_spelled hid) hsupported (hwhole (ih hposition))
  | list items ih =>
    cases h with
    | list hitems =>
      exact Items.atom (items_listed (fun item hitem => hwhole (ih item hitem (hitems item hitem)))
        fun item hitem => operand_tokens (hitems item hitem))

theorem whole_tokens (h : e.Named) : Whole e.tokens e := (binds_tokens h).weaken (Nat.zero_le _)

end Expr

end Sketchwright
