import Sketchwright.Proofs.Lexing
import Sketchwright.Proofs.Spelling
import Sketchwright.Sketch.Text

/-! Lexemes that stand in a new text as they stood in the old one. Names, numbers and strings are
read back whatever comes before them, as long as nothing that follows would make them longer. -/

namespace Sketchwright.Token.Lexeme

open Text

theorem eq_false_of_any {p : Char → Bool} {c : Char} {cs : List Char} (h : cs.any p = false)
    (hc : c ∈ cs) : p c = false :=
  Bool.eq_false_iff.mpr (List.any_eq_false.mp h c hc)

/-- A plain name. -/
structure IsWord (cs : List Char) : Prop where
  start : ∃ c more, cs = c :: more ∧ isWordStart c = true
  chars : ∀ c ∈ cs, isWordChar c = true
  noKeyword : Keyword.ofText? (String.ofList cs) = none

/-- No character that follows goes on with a word. -/
def EndsWord (rest : List Char) : Prop := ∀ c ∈ rest.head?, isWordChar c = false

/-- What follows a number or a string in an expression. -/
def Stops (rest : List Char) : Prop := ∀ c ∈ rest.head?, c ∈ [' ', ')', ']', ',']

theorem Stops.nil : Stops [] := fun _ h => (nomatch h)

theorem Stops.cons {c : Char} {rest : List Char} (h : c ∈ [' ', ')', ']', ',']) :
    Stops (c :: rest) := by
  intro d hd
  cases hd
  exact h

/-- A character that follows is none of those for which `p` holds. -/
theorem Stops.head {rest : List Char} (h : Stops rest) {p : Char → Bool}
    (hp : [' ', ')', ']', ','].any p = false) : ∀ c ∈ rest.head?, p c = false :=
  fun c hc => eq_false_of_any hp (h c hc)

theorem Stops.endsWord {rest : List Char} (h : Stops rest) : EndsWord rest := h.head (by decide)

/-- Characters are told apart by what holds of one of them. -/
theorem ne_of_holds {p : Char → Bool} {c d : Char} (hc : p c = true)
    (hd : p d = false) : c ≠ d := by
  rintro rfl
  rw [hc] at hd
  cases hd

/-- A class of characters that leaves out blanks, line ends, comment marks and backslashes. -/
theorem isCode_of_holds {p : Char → Bool} {c : Char} (hc : p c = true)
    (hp : [' ', '\t', '\r', '\x0c', '\n', '#', '\\'].any p = false) : isCode c = true := by
  simp only [List.any_cons, Bool.or_eq_false_iff] at hp
  obtain ⟨hspace, htab, hreturn, hfeed, hnewline, hcomment, hbackslash, -⟩ := hp
  have hne : ∀ {d : Char}, p d = false → (c == d) = false :=
    fun h => beq_false_of_ne (ne_of_holds hc h)
  simp only [isCode, isSpace, bne, hne hspace, hne htab, hne hreturn, hne hfeed, hne hnewline,
    hne hcomment, hne hbackslash]
  rfl

theorem takeWhile_stop {p : Char → Bool} {cs rest : List Char} (hcs : ∀ c ∈ cs, p c = true)
    (hrest : ∀ c ∈ rest.head?, p c = false) : (cs ++ rest).takeWhile p = cs := by
  have hnil : rest.takeWhile p = [] := by
    cases rest with
    | nil => rfl
    | cons c rest => rw [List.takeWhile_cons, hrest c rfl, if_neg (by decide)]
  rw [List.takeWhile_append_of_pos hcs, hnil, List.append_nil]

section Inversion

variable {c : Char} {cs : List Char}

def isMark : TokenKind → Bool
  | .symbol _ | .compoundAssign _ | .unknown _ => true
  | _ => false

theorem operator_isMark {entry : List Char × TokenKind} (h : operator? cs = some entry) :
    isMark entry.2 = true := by
  have hall : ∀ entry ∈ operators, isMark entry.2 = true := by decide
  exact hall entry (List.mem_of_find?_eq_some h)

/-- What a name or a literal is read from. -/
inductive Origin (c : Char) (cs : List Char) (kind : TokenKind) : Prop
  | number (hstart : startsNumber (c :: cs) = true) (hkind : Numeral.kind? (c :: cs) = some kind)
  | quoted {inner} (hread : Quoted.inside c cs = (inner, true))
      (hkind : kind = .string (String.ofList inner))
  | word (hstart : isWordStart c = true) (hkind : kind = word ((c :: cs).takeWhile isWordChar))

theorem origin_of_read {kind : TokenKind} (h : (read c cs).kind = .ok kind)
    (hmark : isMark kind = false) (hline : kind ≠ .newline) (hcomment : kind.isComment = false) :
    Origin c cs kind := by
  unfold read at h
  split at h
  · cases h
    exact absurd rfl hline
  split at h
  · cases h
    cases hcomment
  split at h
  · next hstart =>
    unfold ofNumber at h
    dsimp only at h
    split at h
    · next hkind =>
      cases h
      exact .number hstart hkind
    · cases h
  split at h
  · unfold ofString Quoted.read at h
    dsimp only at h
    split at h
    · next hread =>
      split at hread
      · next hclosed =>
        cases hread
        cases h
        exact .quoted (Prod.ext rfl hclosed) rfl
      · cases hread
    · cases h
  split at h
  · next hstart =>
    cases h
    exact .word hstart rfl
  split at h
  · next hoperator =>
    cases h
    rw [operator_isMark hoperator] at hmark
    cases hmark
  · cases h
    cases hmark

theorem word_eq_identifier {cs : List Char} {id : String} (h : .identifier id = word cs) :
    Keyword.ofText? (String.ofList cs) = none ∧ id = String.ofList cs := by
  unfold word at h
  split at h
  · cases h
  · next hnone =>
    cases h
    exact ⟨hnone, rfl⟩

/-- Words that may stand for names have the spelling of one. -/
theorem isWord_of_spelled {id : String} (h : (TokenKind.identifier id).Spelled) :
    IsWord id.toList := by
  obtain ⟨c, cs, h⟩ := h
  cases origin_of_read h rfl (fun h => (nomatch h)) rfl with
  | number _ hkind =>
    unfold Numeral.kind? Numeral.integer? at hkind
    grind
  | quoted _ hkind => cases hkind
  | word hstart hkind =>
    obtain ⟨hkeyword, rfl⟩ := word_eq_identifier hkind
    rw [String.toList_ofList]
    refine ⟨⟨c, cs.takeWhile isWordChar, ?_, hstart⟩, fun d hd => ?_, hkeyword⟩
    · rw [List.takeWhile_cons, isWordChar_of_isWordStart hstart, if_pos rfl]
    · exact List.all_eq_true.mp (List.all_takeWhile ..) d hd

end Inversion

section Words

theorem begins_word {cs rest : List Char} (hword : IsWord cs) (hrest : EndsWord rest) :
    Begins cs rest (.identifier (String.ofList cs)) := by
  obtain ⟨⟨c, more, rfl, hstart⟩, hchars, hkeyword⟩ := hword
  have hne : ∀ {d : Char}, isWordStart d = false → (c == d) = false :=
    fun h => beq_false_of_ne (ne_of_holds hstart h)
  have hdigit : c.isDigit = false := by
    refine Bool.eq_false_iff.mpr fun h => ?_
    rw [isWordStart_of_isDigit h] at hstart
    cases hstart
  have hnumber : startsNumber (c :: (more ++ rest)) = false := by
    unfold startsNumber
    split
    · next h =>
      obtain ⟨rfl, -⟩ := List.cons.inj h
      cases hstart
    · next h =>
      obtain ⟨rfl, -⟩ := List.cons.inj h
      exact hdigit
    · rfl
  have htext : (c :: (more ++ rest)).takeWhile isWordChar = c :: more := takeWhile_stop hchars hrest
  have hquote : (c == '"' || c == '\'') = false := by
    rw [hne (by decide), hne (by decide)]
    rfl
  refine ⟨⟨c, more ++ rest, rfl, isCode_of_holds hstart (by decide), ?_⟩, fun h => (nomatch h),
    fun h => (nomatch h)⟩
  simp only [read, hne (show isWordStart '\n' = false by decide),
    hne (show isWordStart '#' = false by decide), hnumber, hquote, hstart, ofWord, htext,
    word, hkeyword]
  rfl

end Words

section Numbers

open Numeral

/-- Characters of an exponent: the mark, perhaps a sign, and digits. -/
def IsExponent (cs : List Char) : Prop :=
  ∃ mark sign ds, cs = mark :: (sign ++ ds) ∧ mark ∈ ['e', 'E'] ∧ sign ∈ [[], ['+'], ['-']] ∧
    ds ≠ [] ∧ ∀ d ∈ ds, d.isDigit = true

/-- The parts of a decimal literal without gaps. -/
structure IsDecimal (front point power : List Char) : Prop where
  digits : ∀ d ∈ front, d.isDigit = true
  fraction : point = [] ∨ ∃ ds, point = '.' :: ds ∧ ∀ d ∈ ds, d.isDigit = true
  exponent : power = [] ∨ IsExponent power
  /-- The literal starts with a digit, or with a point before one. -/
  start : front ≠ [] ∨ ∃ d ds, point = '.' :: d :: ds
  /-- A name may follow a point, so that an exponent may not. -/
  bare : point = ['.'] → power = []

variable {front point power rest : List Char}

theorem isDigit_of_mem_whole {cs : List Char} : ∀ c ∈ digitsOf (whole cs), c.isDigit = true := by
  intro c hc
  obtain ⟨hmem, hgap⟩ := List.mem_filter.mp hc
  have := List.all_eq_true.mp (List.all_takeWhile ..) c hmem
  simp_all [isDigitOrGap]

/-- What follows the fraction of a literal. -/
theorem head_exponent (h : power = [] ∨ IsExponent power) (hrest : Stops rest) {p : Char → Bool}
    (hp : ['e', 'E', ' ', ')', ']', ','].any p = false) :
    ∀ c ∈ (power ++ rest).head?, p c = false := by
  intro c hc
  rcases h with rfl | ⟨mark, sign, ds, rfl, hmark, -⟩
  · exact eq_false_of_any hp (List.mem_append_right ['e', 'E'] (hrest c hc))
  · cases hc
    exact eq_false_of_any hp (List.mem_append_left _ hmark)

/-- What follows the whole part of a literal. -/
theorem IsDecimal.head (h : IsDecimal front point power) (hrest : Stops rest) {p : Char → Bool}
    (hp : ['.', 'e', 'E', ' ', ')', ']', ','].any p = false) :
    ∀ c ∈ (point ++ (power ++ rest)).head?, p c = false := by
  rw [List.any_cons, Bool.or_eq_false_iff] at hp
  intro c hc
  rcases h.fraction with rfl | ⟨ds, rfl, -⟩
  · exact head_exponent h.exponent hrest hp.2 c hc
  · cases hc
    exact hp.1

theorem whole_append (h : IsDecimal front point power) (hrest : Stops rest) :
    whole (front ++ (point ++ (power ++ rest))) = front :=
  takeWhile_stop (fun d hd => by simp [isDigitOrGap, h.digits d hd]) (h.head hrest (by decide))

theorem exponent_append (h : power = [] ∨ IsExponent power) (hrest : Stops rest) :
    exponent (power ++ rest) = power := by
  rcases h with rfl | ⟨mark, sign, ds, rfl, hmark, hsign, hne, hds⟩
  · cases rest with
    | nil => rfl
    | cons c rest =>
      have hmark := hrest.head (p := fun c => c == 'e' || c == 'E') (by decide) c rfl
      simp only [List.nil_append, exponent, hmark]
      rfl
  · have hmark' : (mark == 'e' || mark == 'E') = true := by simpa using hmark
    have htake : (ds ++ rest).takeWhile Char.isDigit = ds :=
      takeWhile_stop hds (hrest.head (by decide))
    obtain ⟨d, more, rfl⟩ := List.exists_cons_of_ne_nil hne
    have hd := hds d List.mem_cons_self
    simp only [List.mem_cons, List.not_mem_nil, or_false] at hsign
    rcases hsign with rfl | rfl | rfl
    · simp only [List.nil_append, List.cons_append, exponent, hmark', if_true, hd] at htake ⊢
      rw [htake]
    · simp only [List.nil_append, List.cons_append, exponent, hmark', if_true] at htake ⊢
      rw [htake]
      simp [isSign, hd]
    · simp only [List.nil_append, List.cons_append, exponent, hmark', if_true] at htake ⊢
      rw [htake]
      simp [isSign, hd]

theorem fraction_append (h : IsDecimal front point power) (hrest : Stops rest) :
    fraction (point ++ (power ++ rest)) = point := by
  rcases h.fraction with rfl | ⟨ds, rfl, hds⟩
  · rw [List.nil_append]
    unfold fraction
    split
    · next heq =>
      have hdot :=
        head_exponent (p := (· == '.')) h.exponent hrest (by decide) '.' (by rw [heq]; rfl)
      cases hdot
    · rfl
  · have htake : (ds ++ (power ++ rest)).takeWhile isDigitOrGap = ds :=
      takeWhile_stop (fun d hd => by simp [isDigitOrGap, hds d hd])
        (head_exponent h.exponent hrest (by decide))
    cases ds with
    | nil =>
      rw [h.bare rfl] at htake ⊢
      cases rest with
      | nil => rfl
      | cons c rest =>
        have hword := hrest.head (p := isWordStart) (by decide) c rfl
        simp only [List.cons_append, List.nil_append, fraction, hword] at htake ⊢
        rw [htake]
        rfl
    | cons d ds =>
      have hword := isWordStart_of_isDigit (hds d List.mem_cons_self)
      simp only [List.cons_append, fraction, hword] at htake ⊢
      rw [htake]
      rfl

theorem radix?_append (h : IsDecimal front point power) (hrest : Stops rest) :
    radix? (front ++ (point ++ (power ++ rest))) = none := by
  have hnone : ∀ {c d : Char} {cs : List Char},
      (d == 'x' || d == 'X' || d == 'o' || d == 'O' || d == 'b' || d == 'B') = false →
      radix? (c :: d :: cs) = none := by
    intro c d cs hd
    unfold radix?
    grind
  match front, h with
  | [], h =>
    obtain hne | ⟨d, ds, rfl⟩ := h.start
    · exact absurd rfl hne
    · rfl
  | [c], h =>
    have hhead := h.head hrest (p := fun d =>
      d == 'x' || d == 'X' || d == 'o' || d == 'O' || d == 'b' || d == 'B') (by decide)
    cases heq : point ++ (power ++ rest) with
    | nil => simp [radix?]
    | cons d cs => exact hnone (hhead d (by rw [heq]; rfl))
  | c :: d :: ds, h =>
    have hd := h.digits d (by simp)
    refine hnone ?_
    have hne : ∀ {e : Char}, e.isDigit = false → (d == e) = false :=
      fun he => beq_false_of_ne (ne_of_holds hd he)
    rw [hne (by decide), hne (by decide), hne (by decide), hne (by decide), hne (by decide),
      hne (by decide)]
    rfl

/-- A decimal literal is read up to its end. -/
theorem body_append (h : IsDecimal front point power) (hrest : Stops rest) :
    decimals (front ++ (point ++ (power ++ rest))) = point ++ power ∧
      body (front ++ (point ++ (power ++ rest))) = front ++ (point ++ power) := by
  have hdecimals : decimals (front ++ (point ++ (power ++ rest))) = point ++ power := by
    simp only [decimals, whole_append h hrest, List.drop_left, fraction_append h hrest,
      exponent_append h.exponent hrest]
  refine ⟨hdecimals, ?_⟩
  unfold body
  rw [radix?_append h hrest]
  dsimp only
  rw [whole_append h hrest, hdecimals]

theorem spoiler_append (h : IsDecimal front point power) (hrest : Stops rest) :
    spoiler (front ++ (point ++ (power ++ rest))) = [] := by
  have hdrop : (front ++ (point ++ (power ++ rest))).drop
      (front ++ (point ++ power)).length = rest := by
    rw [show front ++ (point ++ (power ++ rest)) = (front ++ (point ++ power)) ++ rest by simp,
      List.drop_left]
  rw [spoiler, (body_append h hrest).2, hdrop]
  exact (takeWhile_stop (List.forall_mem_nil _) hrest.endsWord :
    ([] ++ rest).takeWhile isWordChar = [])

/-- The token of a decimal literal. -/
theorem kind?_append (h : IsDecimal front point power) (hrest : Stops rest) :
    kind? (front ++ (point ++ (power ++ rest))) =
      if (point ++ power).isEmpty then integer? 10 front
      else some (.float (String.ofList (front ++ (point ++ power)))) := by
  obtain ⟨hdecimals, hbody⟩ := body_append h hrest
  unfold kind?
  rw [spoiler_append h hrest, radix?_append h hrest, hdecimals, hbody, if_pos List.isEmpty_nil]
  dsimp only
  split
  · next hempty => rw [List.isEmpty_iff.mp hempty, List.append_nil]
  · rfl

theorem startsNumber_append (h : IsDecimal front point power) :
    startsNumber (front ++ (point ++ (power ++ rest))) = true := by
  cases front with
  | nil =>
    obtain hne | ⟨d, ds, rfl⟩ := h.start
    · exact absurd rfl hne
    · rcases h.fraction with hnil | ⟨es, heq, hes⟩
      · cases hnil
      · cases heq
        exact hes d List.mem_cons_self
  | cons c cs =>
    have hc := h.digits c List.mem_cons_self
    unfold startsNumber
    split
    · next heq =>
      obtain ⟨rfl, -⟩ := List.cons.inj heq
      cases hc
    · next heq =>
      obtain ⟨rfl, -⟩ := List.cons.inj heq
      exact hc
    · next heq => cases heq

/-- The first character of a number. -/
theorem head_number {c : Char} {cs : List Char} (h : startsNumber (c :: cs) = true) :
    (c == '.' || c.isDigit) = true := by
  unfold startsNumber at h
  grind

theorem begins_number {kind : TokenKind} (h : IsDecimal front point power) (hrest : Stops rest)
    (hkind : kind? (front ++ (point ++ (power ++ rest))) = some kind)
    (hline : kind ≠ .newline ∧ kind ≠ .eof) : Begins (front ++ (point ++ power)) rest kind := by
  have hstart : startsNumber (front ++ (point ++ (power ++ rest))) = true := startsNumber_append h
  have htext : Numeral.text (front ++ (point ++ (power ++ rest))) = front ++ (point ++ power) := by
    rw [Numeral.text, (body_append h hrest).2, spoiler_append h hrest, List.append_nil]
  have happend : front ++ (point ++ power) ++ rest = front ++ (point ++ (power ++ rest)) := by simp
  cases heq : front ++ (point ++ (power ++ rest)) with
  | nil =>
    rw [heq] at hstart
    cases hstart
  | cons c cs =>
    rw [heq] at hstart htext hkind
    have hc := head_number hstart
    have hne : ∀ {d : Char}, (d == '.' || d.isDigit) = false → (c == d) = false :=
      fun hd => beq_false_of_ne (ne_of_holds (p := fun c => c == '.' || c.isDigit) hc hd)
    refine ⟨⟨c, cs, happend.trans heq, isCode_of_holds (p := fun c => c == '.' || c.isDigit) hc
      (by decide), ?_⟩, hline⟩
    simp only [read, hne (show ('\n' == '.' || '\n'.isDigit) = false by decide),
      hne (show ('#' == '.' || '#'.isDigit) = false by decide), hstart, ofNumber, htext, hkind]
    rfl

theorem foldlM_pushDigit {cs : List Char} (hcs : ∀ c ∈ cs, c.isDigit = true) (value : Nat) :
    cs.foldlM (pushDigit 10) value = some (Nat.ofDigitChars 10 cs value) := by
  induction cs generalizing value with
  | nil => rw [Nat.ofDigitChars_nil]; rfl
  | cons c cs ih =>
    have hc := hcs c List.mem_cons_self
    have hlt : c.toNat - '0'.toNat < 10 := by
      simp only [Char.isDigit, Bool.and_eq_true, decide_eq_true_eq] at hc
      have hle : c.toNat ≤ 57 := hc.2
      have hzero : '0'.toNat = 48 := rfl
      omega
    have hpush : pushDigit 10 value c = some (10 * value + (c.toNat - '0'.toNat)) := by
      simp only [pushDigit, digitValue?, hc, if_true, hlt, Nat.mul_comm]
    rw [List.foldlM_cons, hpush, Nat.ofDigitChars_cons]
    exact ih (fun d hd => hcs d (List.mem_cons_of_mem _ hd)) _

theorem toList_toString (n : Nat) : (toString (n : Int)).toList = Nat.toDigits 10 n := by
  have hrepr : toString (n : Int) = Nat.repr n := rfl
  rw [hrepr, Nat.repr, String.toList_ofList]

theorem isDigit_of_toDigits {n : Nat} : ∀ c ∈ Nat.toDigits 10 n, c.isDigit = true :=
  fun _ hc => Nat.isDigit_of_mem_toDigits (by decide) (by decide) hc

/-- The decimal digits of a number are those of that number. -/
theorem ofDigits?_toDigits (n : Nat) : ofDigits? 10 (Nat.toDigits 10 n) = some n := by
  unfold ofDigits?
  split
  · next h => exact absurd h Nat.toDigits_ne_nil
  · rw [foldlM_pushDigit isDigit_of_toDigits, Nat.ofDigitChars_toDigits (by decide) (by decide)]

/-- The decimal digits of a number are read as that number. -/
theorem integer?_toDigits {n : Nat} (hn : n ≤ largest) :
    integer? 10 (Nat.toDigits 10 n) = some (.integer n) := by
  have hgaps : digitsOf (Nat.toDigits 10 n) = Nat.toDigits 10 n :=
    List.filter_eq_self.mpr fun c hc =>
      bne_iff_ne.mpr (ne_of_holds (isDigit_of_toDigits c hc) (by decide))
  rw [integer?, hgaps, ofDigits?_toDigits]
  exact if_pos hn

/-- An integer token is in range. -/
theorem le_largest_of_spelled {value : Int} (h : (TokenKind.integer value).Spelled) :
    ∃ n : Nat, value = n ∧ n ≤ largest := by
  obtain ⟨c, cs, h⟩ := h
  cases origin_of_read h rfl (fun h => (nomatch h)) rfl with
  | number _ hkind =>
    unfold kind? integer? at hkind
    grind
  | quoted _ hkind => cases hkind
  | word _ hkind =>
    unfold word at hkind
    split at hkind <;> cases hkind

theorem begins_integer {n : Nat} (hn : n ≤ largest) (hrest : Stops rest) :
    Begins (Nat.toDigits 10 n) rest (.integer n) := by
  have hdecimal : IsDecimal (Nat.toDigits 10 n) [] [] :=
    ⟨isDigit_of_toDigits, .inl rfl, .inl rfl, .inl Nat.toDigits_ne_nil, fun h => (nomatch h)⟩
  have hkind := kind?_append hdecimal hrest
  rw [List.append_nil, if_pos List.isEmpty_nil, integer?_toDigits hn] at hkind
  have hbegins := begins_number hdecimal hrest hkind ⟨fun h => (nomatch h), fun h => (nomatch h)⟩
  rwa [List.append_nil, List.append_nil] at hbegins

/-- A fraction starts with no gap, because a gap starts a name. -/
theorem fraction_cases (cs : List Char) : fraction cs = [] ∨ ∃ ds more, cs = '.' :: (ds ++ more) ∧
    fraction cs = '.' :: ds ∧ (∀ d ∈ ds, isDigitOrGap d = true) ∧
    ∀ c ∈ (ds ++ more).head?, isWordStart c = false := by
  unfold fraction
  split
  · next cs =>
    split
    · next c more =>
      split
      · exact .inl rfl
      · next hword =>
        refine .inr ⟨_, (c :: more).dropWhile isDigitOrGap, ?_, rfl,
          List.all_eq_true.mp (List.all_takeWhile ..), ?_⟩
        · rw [List.takeWhile_append_dropWhile]
        · rw [List.takeWhile_append_dropWhile]
          rintro d ⟨⟩
          simpa using hword
    · exact .inr ⟨[], [], rfl, rfl, fun _ h => (nomatch h), fun _ h => (nomatch h)⟩
  · exact .inl rfl

theorem exponent_cases (cs : List Char) : exponent cs = [] ∨ IsExponent (exponent cs) := by
  unfold exponent
  split
  · next mark cs =>
    split
    · next hmark =>
      have hmark : mark ∈ ['e', 'E'] := by simpa using hmark
      split
      · next c ds =>
        split
        · next hc =>
          refine .inr ⟨mark, [], (c :: ds).takeWhile Char.isDigit, rfl, hmark, by decide, ?_,
            List.all_eq_true.mp (List.all_takeWhile ..)⟩
          simp [hc]
        · split
          · next hsign =>
            obtain ⟨hsign, hdigit⟩ := Bool.and_eq_true_iff.mp hsign
            refine .inr ⟨mark, [c], ds.takeWhile Char.isDigit, rfl, hmark, ?_, ?_,
              List.all_eq_true.mp (List.all_takeWhile ..)⟩
            · simpa [isSign] using hsign
            · cases ds with
              | nil => cases hdigit
              | cons d ds =>
                have hd : d.isDigit = true := hdigit
                simp [hd]
          · exact .inl rfl
      · exact .inl rfl
    · exact .inl rfl
  · exact .inl rfl

theorem IsExponent.digitsOf_eq (h : IsExponent power) : digitsOf power = power := by
  obtain ⟨mark, sign, ds, rfl, hmark, hsign, -, hds⟩ := h
  refine List.filter_eq_self.mpr fun c hc => ?_
  have hsigns : [[], ['+'], ['-']].all (·.all (· != '_')) = true := by decide
  rcases List.mem_cons.mp hc with rfl | hc
  · exact List.all_eq_true.mp (show ['e', 'E'].all (· != '_') = true by decide) c hmark
  · rcases List.mem_append.mp hc with hc | hc
    · exact List.all_eq_true.mp (List.all_eq_true.mp hsigns sign hsign) c hc
    · exact bne_iff_ne.mpr (ne_of_holds (hds c hc) (by decide))

theorem exponent_eq_nil {cs : List Char} (h : ∀ c ∈ cs.head?, isWordStart c = false) :
    exponent cs = [] := by
  rcases exponent_cases cs with hnil | ⟨mark, sign, ds, heq, hmark, -⟩
  · exact hnil
  · obtain ⟨more, hmore⟩ := exponent_isPrefix cs
    rw [heq] at hmore
    have hword := h mark (by rw [← hmore]; rfl)
    have hstart := List.all_eq_true.mp (show ['e', 'E'].all isWordStart = true by decide) mark hmark
    rw [hstart] at hword
    cases hword

/-- The literal that characters begin with, gaps left out. -/
theorem isDecimal_digitsOf {cs after : List Char} (hstart : startsNumber cs = true)
    (hafter : after = cs.drop (whole cs).length) :
    IsDecimal (digitsOf (whole cs)) (digitsOf (fraction after))
      (digitsOf (exponent (after.drop (fraction after).length))) where
  digits := isDigit_of_mem_whole
  fraction := by
    rcases fraction_cases after with hnil | ⟨ds, more, -, heq, hds, -⟩
    · exact .inl (by rw [hnil]; rfl)
    · refine .inr ⟨digitsOf ds, by rw [heq]; rfl, fun d hd => ?_⟩
      obtain ⟨hmem, hgap⟩ := List.mem_filter.mp hd
      have hdigit := hds d hmem
      simp_all [isDigitOrGap]
  exponent := by
    rcases exponent_cases (after.drop (fraction after).length) with hnil | hexponent
    · exact .inl (by rw [hnil]; rfl)
    · exact .inr (by rwa [hexponent.digitsOf_eq])
  start := by
    unfold startsNumber at hstart
    split at hstart
    · next d more =>
      have hwhole : whole ('.' :: d :: more) = [] := rfl
      rw [hwhole] at hafter
      have hword := isWordStart_of_isDigit hstart
      refine .inr ⟨d, digitsOf (more.takeWhile isDigitOrGap), ?_⟩
      have hne : (d != '_') = true := bne_iff_ne.mpr (ne_of_holds hstart (by decide))
      simp [hafter, fraction, hword, isDigitOrGap, hstart, digitsOf, hne]
    · next c more _ =>
      have hne : (c != '_') = true := bne_iff_ne.mpr (ne_of_holds hstart (by decide))
      refine .inl ?_
      simp [whole, isDigitOrGap, hstart, digitsOf, hne]
    · cases hstart
  bare h := by
    rcases fraction_cases after with hnil | ⟨ds, more, hcs, heq, hds, hword⟩
    · rw [hnil] at h
      cases h
    · cases ds with
      | nil =>
        have hdrop : after.drop (fraction after).length = more := by rw [heq, hcs]; rfl
        rw [List.nil_append] at hword
        rw [hdrop, exponent_eq_nil hword]
        rfl
      | cons d ds =>
        have hgap : (d != '_') = true :=
          bne_iff_ne.mpr (ne_of_holds (p := fun c => !isWordStart c)
            (by simp [hword d rfl]) (by decide))
        rw [heq] at h
        simp [digitsOf, hgap] at h

theorem kind?_float {cs : List Char} {text : String} (h : kind? cs = some (.float text)) :
    text = String.ofList (whole cs ++ decimals cs) ∧ decimals cs ≠ [] := by
  unfold kind? integer? at h
  split at h
  · split at h
    · grind
    · next hradix =>
      split at h
      · grind
      · next hne =>
        cases h
        refine ⟨?_, fun hnil => hne (by rw [hnil]; rfl)⟩
        rw [body, hradix]
  · cases h

/-- A decimal token without its gaps is a decimal literal. -/
theorem isDecimal_of_spelled {text : String} (h : (TokenKind.float text).Spelled) :
    ∃ front point power, digitsOf text.toList = front ++ (point ++ power) ∧
      IsDecimal front point power ∧ (point ++ power).isEmpty = false := by
  obtain ⟨c, cs, h⟩ := h
  cases origin_of_read h rfl (fun h => (nomatch h)) rfl with
  | number hstart hkind =>
    have hdecimal := isDecimal_digitsOf hstart rfl
    obtain ⟨htext, hne⟩ := kind?_float hkind
    refine ⟨_, _, _, ?_, hdecimal, ?_⟩
    · rw [htext, String.toList_ofList, digitsOf, List.filter_append, decimals, List.filter_append]
      rfl
    · refine Bool.eq_false_iff.mpr fun hempty => ?_
      obtain ⟨hpoint, hpower⟩ := List.append_eq_nil_iff.mp (List.isEmpty_iff.mp hempty)
      have hfraction : fraction ((c :: cs).drop (whole (c :: cs)).length) = [] := by
        rcases fraction_cases ((c :: cs).drop (whole (c :: cs)).length) with hnil |
          ⟨ds, more, -, heq, -⟩
        · exact hnil
        · rw [heq] at hpoint
          cases hpoint
      rw [decimals] at hne
      rcases exponent_cases (((c :: cs).drop (whole (c :: cs)).length).drop
        (fraction ((c :: cs).drop (whole (c :: cs)).length)).length) with hnil | hexponent
      · rw [hnil, hfraction] at hne
        exact hne rfl
      · rw [hexponent.digitsOf_eq] at hpower
        rw [hpower] at hexponent
        obtain ⟨_, _, _, hcons, -⟩ := hexponent
        cases hcons
  | quoted _ hkind => cases hkind
  | word _ hkind =>
    unfold word at hkind
    split at hkind <;> cases hkind

theorem begins_float (h : IsDecimal front point power) (hrest : Stops rest)
    (hfloat : (point ++ power).isEmpty = false) : Begins (front ++ (point ++ power)) rest
      (.float (String.ofList (front ++ (point ++ power)))) := by
  have hkind := kind?_append h hrest
  rw [hfloat] at hkind
  exact begins_number h hrest hkind ⟨fun h => (nomatch h), fun h => (nomatch h)⟩

end Numbers

section Strings

/-- Contents of a literal in which every backslash takes a character with it. -/
inductive Paired : List Char → Prop
  | nil : Paired []
  | escape {c cs} (h : Paired cs) : Paired ('\\' :: c :: cs)
  | plain {c cs} (hc : c ≠ '\\') (h : Paired cs) : Paired (c :: cs)

theorem paired_of_contents {quote : Char} {long : Bool} {cs : List Char}
    (h : (Quoted.contents quote long cs).2 = true) : Paired (Quoted.contents quote long cs).1 := by
  fun_induction Quoted.contents quote long cs with
  | case1 c cs rest ih => exact .escape (ih h)
  | case2 => cases h
  | case3 => exact .nil
  | case4 c cs hpair _ _ rest ih =>
    refine .plain ?_ (ih h)
    rintro rfl
    cases cs with
    | nil => cases h
    | cons d cs => exact hpair d cs rfl rfl
  | case5 => cases h

theorem paired_of_spelled {text : String} (h : (TokenKind.string text).Spelled) :
    Paired text.toList := by
  obtain ⟨c, cs, h⟩ := h
  cases origin_of_read h rfl (fun h => (nomatch h)) rfl with
  | number _ hkind =>
    unfold Numeral.kind? Numeral.integer? at hkind
    grind
  | @quoted inner hread hkind =>
    cases hkind
    rw [String.toList_ofList]
    unfold Quoted.inside at hread
    have hclosed := congrArg Prod.snd hread
    have hpaired := paired_of_contents hclosed
    rwa [hread] at hpaired
  | word _ hkind =>
    unfold word at hkind
    split at hkind <;> cases hkind

/-- An escaped text goes up to the quote mark after it. -/
theorem contents_escape {inner : List Char} (h : Paired inner) (rest : List Char) :
    Quoted.contents '"' false (Sketch.escape inner ++ '"' :: rest) =
      (Sketch.escape inner, true) := by
  induction h with
  | nil => rfl
  | @escape c cs _ ih =>
    simp only [Sketch.escape, List.cons_append, Quoted.contents, ih]
  | @plain c cs hc _ ih =>
    have hpair : ∀ d, Quoted.contents '"' false ('\\' :: d :: (Sketch.escape cs ++ '"' :: rest)) =
        ('\\' :: d :: Sketch.escape cs, true) := fun d => by simp only [Quoted.contents, ih]
    unfold Sketch.escape
    split
    · exact absurd (List.cons.inj ‹_›).1 hc
    · next heq => cases heq; exact hpair '"'
    · next heq => cases heq; exact hpair 'n'
    · next heq => cases heq; exact hpair 'r'
    · next heq => cases heq; exact hpair 't'
    · next hquote hnewline _ _ heq =>
      cases heq
      have hquote : (c == '"') = false := beq_false_of_ne hquote
      have hnewline : (c == '\n') = false := beq_false_of_ne hnewline
      rw [List.cons_append, Quoted.contents]
      · simp only [hquote, hnewline, ih]
        rfl
      · exact fun d ds h => absurd h hc
    · next heq => cases heq

/-- No escaped text starts with a quote mark. -/
theorem isLong_escape (inner : List Char) {rest : List Char} (hrest : Stops rest) :
    Quoted.isLong '"' (Sketch.escape inner ++ '"' :: rest) = false := by
  unfold Sketch.escape
  split
  · rfl
  · rfl
  · rfl
  · rfl
  · rfl
  · next hquote _ _ _ =>
    have hquote : ('"' == _) = false := beq_false_of_ne (Ne.symm hquote)
    simp only [Quoted.isLong, List.cons_append, List.isPrefixOf, hquote, Bool.false_and]
  · cases rest with
    | nil => rfl
    | cons c rest =>
      have hquote := hrest.head (p := ('"' == ·)) (by decide) c rfl
      simp only [Quoted.isLong, List.nil_append, List.isPrefixOf, hquote, Bool.false_and,
        Bool.and_false]

theorem begins_string {inner rest : List Char} (h : Paired inner) (hrest : Stops rest) :
    Begins ('"' :: (Sketch.escape inner ++ ['"'])) rest
      (.string (String.ofList (Sketch.escape inner))) := by
  have hread : Quoted.read '"' (Sketch.escape inner ++ '"' :: rest) =
      ('"' :: (Sketch.escape inner ++ ['"']), some (Sketch.escape inner)) := by
    have hinside : Quoted.inside '"' (Sketch.escape inner ++ '"' :: rest) =
        (Sketch.escape inner, true) := by
      rw [Quoted.inside, isLong_escape inner hrest]
      exact contents_escape h rest
    rw [Quoted.read, hinside, isLong_escape inner hrest]
    rfl
  refine ⟨⟨'"', Sketch.escape inner ++ '"' :: rest, by simp, by decide, ?_⟩, by simp⟩
  have hnumber : startsNumber ('"' :: (Sketch.escape inner ++ '"' :: rest)) = false := by
    unfold startsNumber
    split
    · next heq => cases heq
    · next heq =>
      cases heq
      rfl
    · rfl
  rw [read, if_neg (by decide), if_neg (by decide), hnumber, if_neg (by decide), if_pos (by decide),
    ofString, hread]

end Strings

end Sketchwright.Token.Lexeme
