import Sketchwright.Proofs.Spelling

/-! What the readers of expressions accept. A phrase is a run of token kinds that a level of the
grammar reads as an expression, as long as the token after it does not go on with that level. Each
form of expression makes a phrase of the phrases of its parts. -/

namespace Sketchwright

/-- A reader returns this value and this rest. -/
def Reads {α : Type} {n : Nat} (reader : Reading α n) (a : α) (rest : List Token) : Prop :=
  ∃ h, reader = .ok ⟨a, rest, h⟩

/-- The token of a sign. -/
def Sign.symbol : Sign → Symbol
  | .minus => .minus
  | .plus => .plus

namespace Reading

variable {finalLine : Nat} {ts : List Token} {kind : TokenKind} {kinds : List TokenKind}

/-- The tokens start with tokens of these kinds, and `rest` follows them. -/
def Starts (ts : List Token) (kinds : List TokenKind) (rest : List Token) : Prop :=
  ∃ front, ts = front ++ rest ∧ front.map Token.kind = kinds

theorem Starts.nil : Starts ts [] ts := ⟨[], rfl, rfl⟩

theorem starts_nil {rest : List Token} (h : Starts ts [] rest) : ts = rest := by
  obtain ⟨front, rfl, hfront⟩ := h
  rw [List.map_eq_nil_iff.mp hfront, List.nil_append]

theorem Starts.uncons {rest : List Token} (h : Starts ts (kind :: kinds) rest) :
    ∃ t more, ts = t :: more ∧ t.kind = kind ∧ Starts more kinds rest := by
  obtain ⟨front, rfl, hfront⟩ := h
  obtain ⟨t, more, rfl, ht, hmore⟩ := List.map_eq_cons_iff.mp hfront
  exact ⟨t, more ++ rest, rfl, ht, more, rfl, hmore⟩

theorem Starts.split {after : List TokenKind} {rest : List Token}
    (h : Starts ts (kinds ++ after) rest) :
    ∃ middle, Starts ts kinds middle ∧ Starts middle after rest := by
  obtain ⟨front, rfl, hfront⟩ := h
  obtain ⟨as, bs, rfl, has, hbs⟩ := List.map_eq_append_iff.mp hfront
  exact ⟨bs ++ rest, ⟨as, List.append_assoc .., has⟩, bs, rfl, hbs⟩

theorem Starts.kindOf {rest : List Token} (h : Starts ts (kind :: kinds) rest) :
    kindOf ts = kind := by
  obtain ⟨t, more, rfl, ht, -⟩ := h.uncons
  exact ht

theorem reads_expectSymbol (finalLine : Nat) {s : Symbol} {rest : List Token}
    (h : Starts ts [.symbol s] rest) :
    Reads (expectSymbol finalLine s ts) () rest := by
  obtain ⟨t, more, rfl, ht, hmore⟩ := h.uncons
  obtain rfl := starts_nil hmore
  exact ⟨Nat.lt_succ_self _, by rw [expectSymbol, if_pos ht]; rfl⟩

end Reading

namespace Expr

open Reading

variable {finalLine : Nat} {ts rest : List Token} {e : Expr} {kinds : List TokenKind}

/-- Whether a token of this kind after an expression of this binding strength is no part of it. -/
def closes (strength : Nat) (kind : TokenKind) : Bool :=
  !appliesToComputed kind && kind != .symbol .doubleStar && !kind.isString &&
    (4 ≤ strength || (productOp? kind).isNone) && (3 ≤ strength || (sumOp? kind).isNone) &&
    (2 ≤ strength || (comparisonOp? kind).isNone && (continuation? kind).isNone)

/-- Runs of token kinds that the readers of one level read as an expression. The tails of sums and
products go on from what was read so far, so those two levels say what the tail then returns. -/
def Factor (kinds : List TokenKind) (e : Expr) : Prop :=
  ∀ finalLine ⦃ts rest⦄, Starts ts kinds rest → closes 4 (kindOf rest) = true →
    Reads (signed finalLine ts) e rest

def Product (kinds : List TokenKind) (e : Expr) : Prop :=
  ∀ finalLine ⦃ts rest⦄, Starts ts kinds rest → closes 4 (kindOf rest) = true → ∀ ⦃e' rest'⦄,
    Reads (productTail finalLine e rest) e' rest' → Reads (product finalLine ts) e' rest'

def Sum (kinds : List TokenKind) (e : Expr) : Prop :=
  ∀ finalLine ⦃ts rest⦄, Starts ts kinds rest → closes 3 (kindOf rest) = true → ∀ ⦃e' rest'⦄,
    Reads (sumTail finalLine e rest) e' rest' → Reads (sum finalLine ts) e' rest'

def Whole (kinds : List TokenKind) (e : Expr) : Prop :=
  ∀ finalLine ⦃ts rest⦄, Starts ts kinds rest → closes 1 (kindOf rest) = true →
    Reads (parse finalLine ts) e rest

theorem closes_mono {m n : Nat} {kind : TokenKind} (h : closes m kind = true) (hle : m ≤ n) :
    closes n kind = true := by
  simp only [closes, Bool.and_eq_true, Bool.or_eq_true, decide_eq_true_eq] at h ⊢
  obtain ⟨⟨⟨⟨⟨hcall, hpower⟩, hstring⟩, hproduct⟩, hsum⟩, hcomparison⟩ := h
  refine ⟨⟨⟨⟨⟨hcall, hpower⟩, hstring⟩, hproduct.imp_left ?_⟩, hsum.imp_left ?_⟩,
    hcomparison.imp_left ?_⟩ <;> omega

theorem productOp?_of_closes {kind : TokenKind} (h : closes 3 kind = true) :
    productOp? kind = none := by
  simp [closes] at h
  exact h.2

theorem reads_productTail (h : closes 3 (kindOf rest) = true) :
    Reads (productTail finalLine e rest) e rest := by
  unfold productTail
  cases rest with
  | nil => exact ⟨_, rfl⟩
  | cons t rest =>
    have hnone : productOp? t.kind = none := productOp?_of_closes h
    simp only [hnone]
    exact ⟨_, rfl⟩

theorem reads_sumTail (h : closes 2 (kindOf rest) = true) :
    Reads (sumTail finalLine e rest) e rest := by
  unfold sumTail
  cases rest with
  | nil => exact ⟨_, rfl⟩
  | cons t rest =>
    have hnone : sumOp? t.kind = none := by
      simp [closes, kindOf] at h
      exact h.2
    simp only [hnone]
    exact ⟨_, rfl⟩

theorem Factor.product (h : Factor kinds e) : Product kinds e := by
  intro finalLine ts rest hts hrest e' rest' htail
  obtain ⟨hfits, hread⟩ := h finalLine hts hrest
  obtain ⟨hfits', hread'⟩ := htail
  refine ⟨by omega, ?_⟩
  rw [Expr.product, hread]
  simp only [bind, Except.bind, hread']
  rfl

theorem Product.sum (h : Product kinds e) : Sum kinds e := by
  intro finalLine ts rest hts hrest e' rest' htail
  obtain ⟨hfits, hread⟩ := h finalLine hts (closes_mono hrest (by omega)) (reads_productTail hrest)
  obtain ⟨hfits', hread'⟩ := htail
  refine ⟨by omega, ?_⟩
  rw [Expr.sum, hread]
  simp only [bind, Except.bind, hread']
  rfl

theorem reads_sum (finalLine : Nat) (h : Sum kinds e) (hts : Starts ts kinds rest)
    (hrest : closes 2 (kindOf rest) = true) :
    Reads (sum finalLine ts) e rest :=
  h finalLine hts (closes_mono hrest (by omega)) (reads_sumTail hrest)

theorem reads_parse (h : Reads (comparison finalLine ts) e rest)
    (hrest : closes 1 (kindOf rest) = true) :
    Reads (parse finalLine ts) e rest := by
  obtain ⟨hfits, hread⟩ := h
  have hnone : continuation? (kindOf rest) = none := by
    simp [closes] at hrest
    exact hrest.2.2
  refine ⟨hfits, ?_⟩
  rw [parse, hread]
  simp only [bind, Except.bind, hnone]
  rfl

theorem comparisonOp?_of_closes {kind : TokenKind} (h : closes 1 kind = true) :
    comparisonOp? kind = none := by
  simp [closes] at h
  exact h.2.1

theorem Sum.whole (h : Sum kinds e) : Whole kinds e := by
  intro finalLine ts rest hts hrest
  obtain ⟨hfits, hread⟩ := reads_sum finalLine h hts (closes_mono hrest (by omega))
  refine reads_parse ⟨hfits, ?_⟩ hrest
  rw [comparison, hread]
  simp only [bind, Except.bind, comparisonOp?_of_closes hrest]
  rfl

theorem closes_of_productOp? {kind : TokenKind} {op : BinOp} (h : productOp? kind = some op) :
    closes 4 kind = true := by
  unfold productOp? at h
  split at h <;> first | rfl | cases h

theorem closes_of_sumOp? {kind : TokenKind} {op : BinOp} (h : sumOp? kind = some op) :
    closes 3 kind = true := by
  unfold sumOp? at h
  split at h <;> first | rfl | cases h

theorem closes_of_comparisonOp? {kind : TokenKind} {op : BinOp} (h : comparisonOp? kind = some op) :
    closes 2 kind = true := by
  unfold comparisonOp? at h
  split at h <;> first | rfl | cases h

section Operators

variable {left right : Expr} {leftKinds rightKinds : List TokenKind} {kind : TokenKind} {op : BinOp}

theorem Product.binary (hleft : Product leftKinds left) (hop : productOp? kind = some op)
    (hright : Factor rightKinds right) :
    Product (leftKinds ++ kind :: rightKinds) (.binary left op right) := by
  intro finalLine ts rest hts hrest e' rest' htail
  obtain ⟨middle, hfront, hmiddle⟩ := hts.split
  have hclose : closes 4 (kindOf middle) = true := by
    rw [hmiddle.kindOf]
    exact closes_of_productOp? hop
  apply hleft finalLine hfront hclose
  obtain ⟨t, more, rfl, rfl, hmore⟩ := hmiddle.uncons
  obtain ⟨hfits, hread⟩ := hright finalLine hmore hrest
  obtain ⟨hfits', hread'⟩ := htail
  refine ⟨by simp only [List.length_cons]; omega, ?_⟩
  unfold productTail
  simp only [hop, hread, hread', bind, Except.bind]
  rfl

theorem Sum.binary (hleft : Sum leftKinds left) (hop : sumOp? kind = some op)
    (hright : Product rightKinds right) :
    Sum (leftKinds ++ kind :: rightKinds) (.binary left op right) := by
  intro finalLine ts rest hts hrest e' rest' htail
  obtain ⟨middle, hfront, hmiddle⟩ := hts.split
  have hclose : closes 3 (kindOf middle) = true := by
    rw [hmiddle.kindOf]
    exact closes_of_sumOp? hop
  apply hleft finalLine hfront hclose
  obtain ⟨t, more, rfl, rfl, hmore⟩ := hmiddle.uncons
  obtain ⟨hfits, hread⟩ :=
    hright finalLine hmore (closes_mono hrest (by omega)) (reads_productTail hrest)
  obtain ⟨hfits', hread'⟩ := htail
  refine ⟨by simp only [List.length_cons]; omega, ?_⟩
  unfold sumTail
  simp only [hop, hread, hread', bind, Except.bind]
  rfl

/-- A comparison does not go on: neither operand is one. -/
theorem Sum.comparison (hleft : Sum leftKinds left) (hop : comparisonOp? kind = some op)
    (hright : Sum rightKinds right) :
    Whole (leftKinds ++ kind :: rightKinds) (.binary left op right) := by
  intro finalLine ts rest hts hrest
  obtain ⟨middle, hfront, hmiddle⟩ := hts.split
  have hclose : closes 2 (kindOf middle) = true := by
    rw [hmiddle.kindOf]
    exact closes_of_comparisonOp? hop
  obtain ⟨hfits, hread⟩ := reads_sum finalLine hleft hfront hclose
  obtain ⟨t, more, rfl, rfl, hmore⟩ := hmiddle.uncons
  obtain ⟨hfits', hread'⟩ :=
    reads_sum finalLine hright hmore (closes_mono hrest (by omega))
  simp only [List.length_cons] at hfits
  refine reads_parse ⟨by omega, ?_⟩ hrest
  rw [Expr.comparison, hread]
  have hop' : comparisonOp? (kindOf (t :: more)) = some op := hop
  simp only [bind, Except.bind, hop', List.tail_cons, hread', comparisonOp?_of_closes hrest]
  rfl

theorem Factor.sign (sign : Sign) (hright : Factor rightKinds right) :
    Factor (.symbol sign.symbol :: rightKinds) (.unary sign right) := by
  intro finalLine ts rest hts hrest
  obtain ⟨t, more, rfl, ht, hmore⟩ := hts.uncons
  obtain ⟨hfits, hread⟩ := hright finalLine hmore hrest
  refine ⟨by simp only [List.length_cons]; omega, ?_⟩
  unfold signed
  cases sign <;>
  · simp only [ht, Sign.symbol, hread, bind, Except.bind]
    rfl

end Operators

/-- Whether a token of this kind after a name, a literal, a call or brackets is no part of them. -/
def endsAtom (kind : TokenKind) : Bool := !appliesToComputed kind && !kind.isString

theorem endsAtom_of_closes {strength : Nat} {kind : TokenKind} (h : closes strength kind = true) :
    endsAtom kind = true := by
  simp only [closes, endsAtom, Bool.and_eq_true] at h ⊢
  exact ⟨h.1.1.1.1.1, h.1.1.1.2⟩

theorem appliesToComputed_of_endsAtom {kind : TokenKind} (h : endsAtom kind = true) :
    appliesToComputed kind = false := by
  simp only [endsAtom, Bool.and_eq_true, Bool.not_eq_true'] at h
  exact h.1

theorem isString_of_endsAtom {kind : TokenKind} (h : endsAtom kind = true) :
    kind.isString = false := by
  simp only [endsAtom, Bool.and_eq_true, Bool.not_eq_true'] at h
  exact h.2

/-- Runs of token kinds that are read as a name, a literal, a call, a subscript or brackets; such an
expression may be the base of a power. -/
def Atom (kinds : List TokenKind) (e : Expr) : Prop :=
  ∀ finalLine ⦃ts rest⦄, Starts ts kinds rest → endsAtom (kindOf rest) = true →
    ∃ t more, ts = t :: more ∧ t.kind ∉ [.symbol .minus, .symbol .plus, .keyword .not] ∧
      Reads (applied finalLine t more) e rest

theorem Atom.factor (h : Atom kinds e) : Factor kinds e := by
  intro finalLine ts rest hts hrest
  obtain ⟨t, more, rfl, hstart, hfits, hread⟩ := h finalLine hts (endsAtom_of_closes hrest)
  have hpower : kindOf rest ≠ .symbol .doubleStar := by
    simp [closes] at hrest
    exact hrest.1.2
  refine ⟨by simp only [List.length_cons]; omega, ?_⟩
  unfold signed
  dsimp only
  split
  · simp_all
  · simp_all
  · simp_all
  · simp only [hread, bind, Except.bind]
    rfl

theorem Atom.power {exponent : Expr} {exponentKinds : List TokenKind} (hbase : Atom kinds e)
    (hexponent : Factor exponentKinds exponent) :
    Factor (kinds ++ .symbol .doubleStar :: exponentKinds) (.binary e .pow exponent) := by
  intro finalLine ts rest hts hrest
  obtain ⟨middle, hfront, hmiddle⟩ := hts.split
  have hkind := hmiddle.kindOf
  obtain ⟨t, more, rfl, hstart, hfits, hread⟩ := hbase finalLine hfront (by rw [hkind]; rfl)
  obtain ⟨star, after, rfl, -, hafter⟩ := hmiddle.uncons
  obtain ⟨hfits', hread'⟩ := hexponent finalLine hafter hrest
  simp only [List.length_cons] at hfits
  refine ⟨by simp only [List.length_cons]; omega, ?_⟩
  unfold signed
  dsimp only
  split
  · simp_all
  · simp_all
  · simp_all
  · simp only [hread, hkind, List.tail_cons, hread', bind, Except.bind]
    rfl

/-- The token of a literal. -/
def literalToken : Literal → TokenKind
  | .int value => .integer value
  | .float text => .float text
  | .str text => .string text
  | .bool value => .keyword (if value then .trueValue else .falseValue)

theorem Atom.literal (value : Literal) : Atom [literalToken value] (.literal value) := by
  intro finalLine ts rest hts hrest
  obtain ⟨t, more, rfl, ht, hmore⟩ := hts.uncons
  obtain rfl := starts_nil hmore
  refine ⟨t, more, rfl, ?_, Nat.lt_succ_self _, ?_⟩
  · rw [ht]
    cases value with
    | bool value => cases value <;> decide
    | _ => simp [literalToken]
  · unfold applied
    cases value with
    | int value => simp only [ht, literalToken]; rfl
    | float text => simp only [ht, literalToken]; rfl
    | str text => simp only [ht, literalToken]; rfl
    | bool value => cases value <;> (simp only [ht, literalToken]; rfl)

theorem Factor.literal {value : Literal} {kind : TokenKind} (hkind : kind = literalToken value) :
    Factor [kind] (.literal value) := by
  rw [hkind]
  exact (Atom.literal value).factor

/-- The kinds of the tokens of a plain or dotted name. -/
inductive Dotted : List TokenKind → String → Prop
  | word {id} (hid : (TokenKind.identifier id).Spelled) (hsupported : id ∉ unsupportedWords) :
      Dotted [.identifier id] id
  | dot {kinds path id} (hpath : Dotted kinds path) (hid : (TokenKind.identifier id).Spelled) :
      Dotted (kinds ++ [.symbol .dot, .identifier id]) (path ++ "." ++ id)

theorem Path.dotted {path : String} (h : Path path) : ∃ kinds, Dotted kinds path := by
  induction h with
  | word hid hsupported => exact ⟨_, .word hid hsupported⟩
  | dot _ hid ih =>
    obtain ⟨kinds, hpath⟩ := ih
    exact ⟨_, .dot hpath hid⟩

theorem dotted_of_ne (finalLine : Nat) (path : String) (h : kindOf ts ≠ .symbol .dot) :
    Reads (dotted finalLine path ts) path ts := by
  refine ⟨Nat.lt_succ_self _, ?_⟩
  unfold dotted
  split
  · exact absurd rfl h
  · exact absurd rfl h
  · rfl

/-- The first word of a dotted name starts it, and the points and words after it are read on. -/
theorem Dotted.reads {path : String} (h : Dotted kinds path) :
    ∃ word more,
    kinds = .identifier word :: more ∧ word ∉ unsupportedWords ∧
      (more = [] ∨ more.head? = some (.symbol .dot)) ∧
      ∀ finalLine ⦃ts rest⦄, Starts ts more rest → ∀ ⦃path' rest'⦄,
        Reads (dotted finalLine path rest) path' rest' →
          Reads (dotted finalLine word ts) path' rest' := by
  induction h with
  | word hid hsupported =>
    refine ⟨_, [], rfl, hsupported, .inl rfl, ?_⟩
    intro finalLine ts rest hts path' rest' hread
    rwa [starts_nil hts]
  | @dot kinds path id hpath hid ih =>
    obtain ⟨word, more, rfl, hsupported, hmore, ih⟩ := ih
    refine ⟨word, more ++ [.symbol .dot, .identifier id], by simp, hsupported, .inr ?_, ?_⟩
    · rcases hmore with rfl | hmore <;> simp_all
    · intro finalLine ts rest hts path' rest' hread
      obtain ⟨middle, hfront, hmiddle⟩ := hts.split
      apply ih finalLine hfront
      obtain ⟨⟨_, span⟩, after, rfl, rfl, hafter⟩ := hmiddle.uncons
      obtain ⟨t, after, rfl, ht, hlast⟩ := hafter.uncons
      obtain rfl := starts_nil hlast
      obtain ⟨hfits, hread⟩ := hread
      refine ⟨by simp only [List.length_cons]; omega, ?_⟩
      unfold dotted
      simp only [ht, hread, bind, Except.bind]
      rfl

theorem Dotted.positional {path : String} (h : Dotted kinds path) : .symbol .equal ∉ kinds := by
  induction h with
  | word => simp
  | dot _ _ ih => simp [ih]

theorem isLiteralMark_of_isString {t : Token} {word : String} (h : (kindOf ts).isString = false) :
    isLiteralMark t word ts = false := by
  cases ts with
  | nil => rfl
  | cons next more =>
    have hnext : next.kind.isString = false := h
    simp [isLiteralMark, hnext]

/-- Kinds that an argument or the inside of parentheses may start with, and no keyword argument. -/
structure Inner (kinds : List TokenKind) : Prop where
  start : ∃ kind more, kinds = kind :: more ∧
    kind ∉ [.symbol .rightParen, .symbol .star, .symbol .doubleStar]
  positional : .symbol .equal ∉ kinds

theorem Atom.name {id : String} (hplain : id.toList.contains '.' = false)
    (hsupported : id ∉ unsupportedWords) : Atom [.identifier id] (.name id) := by
  intro finalLine ts rest hts hrest
  obtain ⟨t, more, rfl, ht, hmore⟩ := hts.uncons
  obtain rfl := starts_nil hmore
  have hcomputed := appliesToComputed_of_endsAtom hrest
  have hdot : kindOf more ≠ .symbol .dot := fun h => by simp [h, appliesToComputed] at hcomputed
  have hparen : kindOf more ≠ .symbol .leftParen :=
    fun h => by simp [h, appliesToComputed] at hcomputed
  have hbracket : kindOf more ≠ .symbol .leftBracket := fun h => by
    simp [h, appliesToComputed] at hcomputed
  have hread : Reads (applied finalLine t more) (.name id) more := by
    refine ⟨Nat.lt_succ_self _, ?_⟩
    obtain ⟨hfits, hdotted⟩ := dotted_of_ne finalLine id hdot
    unfold applied
    simp only [ht, List.contains_iff_mem, hsupported,
      isLiteralMark_of_isString (isString_of_endsAtom hrest), hdotted, hplain, pure, Except.pure,
      hcomputed, bind, Except.bind, if_false, Bool.false_eq_true]
  exact ⟨t, more, rfl, by simp [ht], hread⟩

theorem Factor.name {id : String} (hplain : id.toList.contains '.' = false)
    (hsupported : id ∉ unsupportedWords) : Factor [.identifier id] (.name id) :=
  (Atom.name hplain hsupported).factor

theorem Atom.index {id : String} {position : Expr} (hplain : id.toList.contains '.' = false)
    (hsupported : id ∉ unsupportedWords) (hposition : Whole kinds position) :
    Atom (.identifier id :: .symbol .leftBracket :: (kinds ++ [.symbol .rightBracket]))
      (.index id position) := by
  intro finalLine ts rest hts hrest
  obtain ⟨t, more, rfl, ht, hmore⟩ := hts.uncons
  obtain ⟨bracket, inside, rfl, hbracket, hinside⟩ := hmore.uncons
  obtain ⟨middle, hfront, hmiddle⟩ := hinside.split
  have hclose : closes 1 (kindOf middle) = true := by
    rw [hmiddle.kindOf]
    rfl
  have hcolon : kindOf middle ≠ .symbol .colon := by
    rw [hmiddle.kindOf]
    simp
  have hbracket' : kindOf (bracket :: inside) = .symbol .leftBracket := hbracket
  have hread : Reads (applied finalLine t (bracket :: inside)) (.index id position) rest := by
    have hdot : kindOf (bracket :: inside) ≠ .symbol .dot := by simp [hbracket']
    obtain ⟨hfits, hdotted⟩ := dotted_of_ne finalLine id hdot
    obtain ⟨hfits', hread⟩ := hposition finalLine hfront hclose
    obtain ⟨hfits'', hend⟩ := reads_expectSymbol finalLine hmiddle
    refine ⟨by simp only [List.length_cons]; omega, ?_⟩
    unfold applied
    have hmark : isLiteralMark t id (bracket :: inside) = false :=
      isLiteralMark_of_isString (by rw [hbracket']; rfl)
    simp only [ht, List.contains_iff_mem, hsupported, hmark, hdotted, hplain, hbracket',
      hread, hcolon, hend, List.tail_cons, pure, Except.pure, appliesToComputed_of_endsAtom hrest,
      bind, Except.bind, if_false, Bool.false_eq_true]
  exact ⟨t, _, rfl, by simp [ht], hread⟩

theorem Factor.index {id : String} {position : Expr} (hplain : id.toList.contains '.' = false)
    (hsupported : id ∉ unsupportedWords) (hposition : Whole kinds position) :
    Factor (.identifier id :: .symbol .leftBracket :: (kinds ++ [.symbol .rightBracket]))
      (.index id position) :=
  (Atom.index hplain hsupported hposition).factor

/-- The kinds of the tokens of the arguments of a call. -/
def Arguments (kinds : List TokenKind) (args : List Expr) : Prop :=
  ∀ finalLine ⦃ts rest⦄, Starts ts (kinds ++ [.symbol .rightParen]) rest →
    Reads (arguments finalLine ts) args rest

theorem Arguments.nil : Arguments [] [] := by
  intro finalLine ts rest hts
  obtain ⟨t, more, rfl, ht, hmore⟩ := hts.uncons
  obtain rfl := starts_nil hmore
  refine ⟨by simp only [List.length_cons]; omega, ?_⟩
  unfold arguments
  simp only [kindOf, ht]
  rfl

theorem unsupportedArgument?_eq_none {after : List TokenKind} (hinner : Inner kinds)
    (hts : Starts ts (kinds ++ after) rest) (hafter : after.head? ≠ some (.symbol .equal))
    (hne : after ≠ []) : kindOf ts ≠ .symbol .rightParen ∧ unsupportedArgument? ts = none := by
  obtain ⟨⟨kind, more, rfl, hstart⟩, hpositional⟩ := hinner
  obtain ⟨t, ts, rfl, rfl, hmore⟩ := hts.uncons
  have hsecond : kindOf ts ≠ .symbol .equal := by
    cases more with
    | nil =>
      obtain ⟨next, after, rfl⟩ := List.exists_cons_of_ne_nil hne
      rw [Starts.kindOf hmore]
      simpa using hafter
    | cons second more =>
      rw [Starts.kindOf hmore]
      intro h
      simp [h] at hpositional
  simp only [List.mem_cons, not_or] at hstart
  refine ⟨hstart.1, ?_⟩
  unfold unsupportedArgument?
  split <;> simp_all [kindOf]

theorem Whole.argument (h : Whole kinds e) (hinner : Inner kinds) : Arguments kinds [e] := by
  intro finalLine ts rest hts
  obtain ⟨hclosing, hnone⟩ := unsupportedArgument?_eq_none hinner hts (by simp) (by simp)
  obtain ⟨middle, hfront, hmiddle⟩ := hts.split
  have hkind := hmiddle.kindOf
  obtain ⟨hfits, hread⟩ := h finalLine hfront (by rw [hkind]; rfl)
  obtain ⟨hfits', hend⟩ := reads_expectSymbol finalLine hmiddle
  refine ⟨by omega, ?_⟩
  unfold arguments
  simp only [hnone, hread, hkind, hend, bind, Except.bind]
  rfl

theorem Whole.arguments {more : List TokenKind} {args : List Expr} (h : Whole kinds e)
    (hinner : Inner kinds) (hmore : Arguments more args) :
    Arguments (kinds ++ .symbol .comma :: more) (e :: args) := by
  intro finalLine ts rest hts
  rw [List.append_assoc] at hts
  obtain ⟨hclosing, hnone⟩ := unsupportedArgument?_eq_none hinner hts (by simp) (by simp)
  obtain ⟨middle, hfront, hmiddle⟩ := hts.split
  obtain ⟨comma, after, rfl, hcomma, hafter⟩ := hmiddle.uncons
  have hkind : kindOf (comma :: after) = .symbol .comma := hcomma
  obtain ⟨hfits, hread⟩ := h finalLine hfront (by rw [hkind]; rfl)
  obtain ⟨hfits', hread'⟩ := hmore finalLine hafter
  simp only [List.length_cons] at hfits
  refine ⟨by omega, ?_⟩
  unfold Expr.arguments
  simp only [hnone, hread, hkind, hread', List.tail_cons, bind, Except.bind]
  rfl

theorem Atom.call {path : String} {pathKinds : List TokenKind} {args : List Expr}
    (hpath : Dotted pathKinds path) (hargs : Arguments kinds args) :
    Atom (pathKinds ++ .symbol .leftParen :: (kinds ++ [.symbol .rightParen]))
      (.call path args) := by
  intro finalLine ts rest hts hrest
  obtain ⟨word, more, rfl, hsupported, hmore, hreads⟩ := hpath.reads
  obtain ⟨t, after, rfl, ht, hafter⟩ := hts.uncons
  obtain ⟨middle, hfront, hmiddle⟩ := hafter.split
  obtain ⟨paren, inside, rfl, hparen, hinside⟩ := hmiddle.uncons
  have hparen' : kindOf (paren :: inside) = .symbol .leftParen := hparen
  have hread : Reads (applied finalLine t after) (.call path args) rest := by
    obtain ⟨hfits, hdotted⟩ := hreads finalLine hfront
      (dotted_of_ne finalLine path (by simp [hparen']))
    obtain ⟨hfits', hread⟩ := hargs finalLine hinside
    simp only [List.length_cons] at hfits
    refine ⟨by omega, ?_⟩
    have hmark : isLiteralMark t word after = false := by
      apply isLiteralMark_of_isString
      rcases hmore with rfl | hmore
      · rw [starts_nil hfront, hparen']
        rfl
      · obtain ⟨more, rfl⟩ : ∃ tail, more = .symbol .dot :: tail := by
          cases more with
          | nil => cases hmore
          | cons kind tail => exact ⟨tail, by simpa using hmore⟩
        rw [hfront.kindOf]
        rfl
    unfold applied
    simp only [ht, List.contains_iff_mem, hsupported, hmark, hdotted, hparen', hread,
      List.tail_cons, pure, Except.pure, appliesToComputed_of_endsAtom hrest, bind, Except.bind,
      if_false, Bool.false_eq_true]
  exact ⟨t, after, rfl, by simp [ht], hread⟩

theorem Factor.call {path : String} {pathKinds : List TokenKind} {args : List Expr}
    (hpath : Dotted pathKinds path) (hargs : Arguments kinds args) :
    Factor (pathKinds ++ .symbol .leftParen :: (kinds ++ [.symbol .rightParen]))
      (.call path args) :=
  (Atom.call hpath hargs).factor

theorem Whole.atom (h : Whole kinds e) (hinner : Inner kinds) :
    Atom (.symbol .leftParen :: (kinds ++ [.symbol .rightParen])) e := by
  intro finalLine ts rest hts hrest
  obtain ⟨t, inside, rfl, ht, hinside⟩ := hts.uncons
  obtain ⟨hclosing, -⟩ := unsupportedArgument?_eq_none hinner hinside (by simp) (by simp)
  obtain ⟨middle, hfront, hmiddle⟩ := hinside.split
  have hkind := hmiddle.kindOf
  have hread : Reads (applied finalLine t inside) e rest := by
    obtain ⟨hfits, hread⟩ := h finalLine hfront (by rw [hkind]; rfl)
    obtain ⟨hfits', hend⟩ := reads_expectSymbol finalLine hmiddle
    refine ⟨by omega, ?_⟩
    unfold applied
    have hcomma : kindOf middle ≠ .symbol .comma := by
      rw [hkind]
      simp
    simp only [ht, hclosing, hread, hcomma, hend, bind, Except.bind, if_false]
    rfl
  exact ⟨t, inside, rfl, by simp [ht], hread⟩

theorem Whole.paren (h : Whole kinds e) (hinner : Inner kinds) :
    Factor (.symbol .leftParen :: (kinds ++ [.symbol .rightParen])) e :=
  (h.atom hinner).factor

/-- The kinds of the tokens of the items of a list. -/
def Items (kinds : List TokenKind) (items : List Expr) : Prop :=
  ∀ finalLine line ⦃ts rest⦄, Starts ts (kinds ++ [.symbol .rightBracket]) rest →
    Reads (listItems finalLine line ts) items rest

theorem Items.nil : Items [] [] := by
  intro finalLine line ts rest hts
  obtain ⟨t, more, rfl, ht, hmore⟩ := hts.uncons
  obtain rfl := starts_nil hmore
  refine ⟨by simp only [List.length_cons]; omega, ?_⟩
  unfold listItems
  simp only [kindOf, ht]
  rfl

theorem Whole.item (h : Whole kinds e) (hstart : kinds.head? ≠ some (.symbol .rightBracket))
    (hne : kinds ≠ []) : Items kinds [e] := by
  intro finalLine line ts rest hts
  obtain ⟨kind, more, rfl⟩ := List.exists_cons_of_ne_nil hne
  have hopen : kindOf ts ≠ .symbol .rightBracket := by
    rw [Starts.kindOf hts]
    simpa using hstart
  obtain ⟨middle, hfront, hmiddle⟩ := hts.split
  have hkind := hmiddle.kindOf
  obtain ⟨hfits, hread⟩ := h finalLine hfront (by rw [hkind]; rfl)
  obtain ⟨hfits', hend⟩ := reads_expectSymbol finalLine hmiddle
  refine ⟨by omega, ?_⟩
  unfold listItems
  simp only [hread, hkind, hend, bind, Except.bind]
  rfl

theorem Whole.items {more : List TokenKind} {items : List Expr} (h : Whole kinds e)
    (hstart : kinds.head? ≠ some (.symbol .rightBracket)) (hne : kinds ≠ [])
    (hmore : Items more items) :
    Items (kinds ++ .symbol .comma :: more) (e :: items) := by
  intro finalLine line ts rest hts
  rw [List.append_assoc] at hts
  have hopen : kindOf ts ≠ .symbol .rightBracket := by
    obtain ⟨kind, kinds, rfl⟩ := List.exists_cons_of_ne_nil hne
    rw [Starts.kindOf hts]
    simpa using hstart
  obtain ⟨middle, hfront, hmiddle⟩ := hts.split
  obtain ⟨comma, after, rfl, hcomma, hafter⟩ := hmiddle.uncons
  have hkind : kindOf (comma :: after) = .symbol .comma := hcomma
  obtain ⟨hfits, hread⟩ := h finalLine hfront (by rw [hkind]; rfl)
  obtain ⟨hfits', hread'⟩ := hmore finalLine line hafter
  simp only [List.length_cons] at hfits
  refine ⟨by omega, ?_⟩
  unfold listItems
  simp only [hread, hkind, hread', List.tail_cons, bind, Except.bind]
  rfl

theorem Items.atom {items : List Expr} (h : Items kinds items) :
    Atom (.symbol .leftBracket :: (kinds ++ [.symbol .rightBracket])) (.list items) := by
  intro finalLine ts rest hts hrest
  obtain ⟨t, inside, rfl, ht, hinside⟩ := hts.uncons
  obtain ⟨hfits, hread⟩ := h finalLine t.line hinside
  refine ⟨t, inside, rfl, by simp [ht], by omega, ?_⟩
  unfold applied
  simp only [ht, hread, bind, Except.bind]
  rfl

end Expr

end Sketchwright
