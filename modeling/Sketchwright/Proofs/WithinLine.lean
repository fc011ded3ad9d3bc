import Mathlib.Data.List.Find
import Mathlib.Data.List.TakeWhile
import Sketchwright.Token.Lexeme

/-! What is read within a line. Numbers, names and operators, and the mark that opens a string,
depend on the text up to the next line end alone. -/

namespace Sketchwright.Token

open Text

/-- A line end, or the end of the text. -/
inductive AtLineEnd : List Char → Prop
  | nil : AtLineEnd []
  | newline (cs : List Char) : AtLineEnd ('\n' :: cs)
  | carriage (cs : List Char) : AtLineEnd ('\r' :: cs)

/-- Two texts that are the same up to a line end. -/
inductive SameLine : List Char → List Char → Prop
  | lineEnd {cs cs'} (h : AtLineEnd cs) (h' : AtLineEnd cs') : SameLine cs cs'
  | char {cs cs'} (c : Char) (h : SameLine cs cs') : SameLine (c :: cs) (c :: cs')

def isInLine (c : Char) : Bool := c != '\n' && c != '\r'

theorem AtLineEnd.takeWhile_eq_nil {cs : List Char} (h : AtLineEnd cs) {p : Char → Bool}
    (hnewline : p '\n' = false) (hreturn : p '\r' = false) : cs.takeWhile p = [] := by
  cases h with
  | nil => rfl
  | newline => simp [hnewline]
  | carriage => simp [hreturn]

theorem AtLineEnd.head?_any {cs : List Char} (h : AtLineEnd cs) {p : Char → Bool}
    (hnewline : p '\n' = false) (hreturn : p '\r' = false) : cs.head?.any p = false := by
  cases h with
  | nil => rfl
  | newline => exact hnewline
  | carriage => exact hreturn

theorem AtLineEnd.isPrefixOf_cons {cs text : List Char} {d : Char} (h : AtLineEnd cs)
    (hd : isInLine d = true) :
    (d :: text).isPrefixOf cs = false := by
  cases h with
  | nil => rfl
  | newline | carriage =>
    rw [List.isPrefixOf_cons_cons, beq_false_of_ne, Bool.false_and]
    rintro rfl
    cases hd

namespace SameLine

variable {cs cs' : List Char} {p : Char → Bool}

theorem of_line (cs : List Char) : SameLine cs (cs.takeWhile isInLine) := by
  induction cs with
  | nil => exact .lineEnd .nil .nil
  | cons c cs ih =>
    by_cases hnewline : c = '\n'
    · subst hnewline
      exact .lineEnd (.newline cs) .nil
    by_cases hreturn : c = '\r'
    · subst hreturn
      exact .lineEnd (.carriage cs) .nil
    · rw [List.takeWhile_cons_of_pos (by simp [isInLine, hnewline, hreturn])]
      exact .char c ih

theorem takeWhile_eq (h : SameLine cs cs') (hnewline : p '\n' = false) (hreturn : p '\r' = false) :
    cs'.takeWhile p = cs.takeWhile p := by
  induction h with
  | lineEnd h h' => rw [h.takeWhile_eq_nil hnewline hreturn, h'.takeWhile_eq_nil hnewline hreturn]
  | char c _ ih => rw [List.takeWhile_cons, List.takeWhile_cons, ih]

theorem head?_any_eq (h : SameLine cs cs') (hnewline : p '\n' = false) (hreturn : p '\r' = false) :
    cs'.head?.any p = cs.head?.any p := by
  cases h with
  | lineEnd h h' => rw [h.head?_any hnewline hreturn, h'.head?_any hnewline hreturn]
  | char => rfl

/-- A text without line ends is ahead in both or in neither. -/
theorem isPrefixOf_eq {text : List Char} (h : SameLine cs cs')
    (htext : ∀ c ∈ text, isInLine c = true) :
    text.isPrefixOf cs' = text.isPrefixOf cs := by
  induction text generalizing cs cs' with
  | nil => simp
  | cons d text ih =>
    obtain ⟨hd, htext⟩ := List.forall_mem_cons.mp htext
    cases h with
    | lineEnd h h' => rw [h.isPrefixOf_cons hd, h'.isPrefixOf_cons hd]
    | char c h => rw [List.isPrefixOf_cons_cons, List.isPrefixOf_cons_cons, ih h htext]

/-- Behind a text without line ends both are still the same up to a line end. -/
theorem drop {text : List Char} (h : SameLine cs cs') (hleads : text <+: cs)
    (htext : ∀ c ∈ text, isInLine c = true) :
    SameLine (cs.drop text.length) (cs'.drop text.length) := by
  induction text generalizing cs cs' with
  | nil => exact h
  | cons d text ih =>
    obtain ⟨hd, htext⟩ := List.forall_mem_cons.mp htext
    cases h with
    | lineEnd h =>
      cases h with
      | nil => exact absurd (List.prefix_nil.mp hleads) (List.cons_ne_nil d text)
      | newline | carriage =>
        obtain ⟨rfl, -⟩ := List.cons_prefix_cons.mp hleads
        cases hd
    | char c h => exact ih h (List.cons_prefix_cons.mp hleads).2 htext

/-- What is told by two characters, and no differently by the end of a line. -/
theorem eq_of_two {α : Type} {f : List Char → α} (h : SameLine cs cs')
    (htwo : ∀ c d cs, f (c :: d :: cs) = f [c, d]) (hfirst : ∀ cs, AtLineEnd cs → f cs = f [])
    (hsecond : ∀ c cs, AtLineEnd cs → f (c :: cs) = f [c]) :
    f cs' = f cs := by
  cases h with
  | lineEnd h h' => rw [hfirst _ h, hfirst _ h']
  | char c h =>
    cases h with
    | lineEnd h h' => rw [hsecond c _ h, hsecond c _ h']
    | char d => exact (htwo c d _).trans (htwo c d _).symm

end SameLine

/-- A function that reads from the start of a text and does not look over a line end. -/
structure InLine (f : List Char → List Char) : Prop where
  isPrefix : ∀ cs, f cs <+: cs
  eq : ∀ {cs cs'}, SameLine cs cs' → f cs' = f cs

namespace InLine

variable {f g : List Char → List Char} {cs cs' : List Char}

theorem isInLine_of_mem (hf : InLine f) : ∀ c ∈ f cs, isInLine c = true := by
  rw [← hf.eq (.of_line cs)]
  intro c hc
  exact List.mem_takeWhile_imp ((hf.isPrefix _).subset hc)

theorem drop (hf : InLine f) (h : SameLine cs cs') :
    SameLine (cs.drop (f cs).length) (cs'.drop (f cs').length) := by
  rw [hf.eq h]
  exact h.drop (hf.isPrefix cs) hf.isInLine_of_mem

theorem takeWhile {p : Char → Bool} (hnewline : p '\n' = false) (hreturn : p '\r' = false) :
    InLine (List.takeWhile p) :=
  ⟨fun _ => List.takeWhile_prefix p, fun h => h.takeWhile_eq hnewline hreturn⟩

/-- One function after the other. -/
theorem append (hf : InLine f) (hg : InLine g) :
    InLine fun cs => f cs ++ g (cs.drop (f cs).length) := by
  constructor
  · intro cs
    exact append_isPrefix (hf.isPrefix cs) (hg.isPrefix _)
  · intro cs cs' h
    rw [hg.eq (hf.drop h), hf.eq h]

end InLine

section Numbers

open Numeral

variable {cs cs' : List Char}

theorem radix?_inLine (h : SameLine cs cs') : radix? cs' = radix? cs := by
  apply h.eq_of_two
  · intro c d cs
    by_cases hc : c = '0'
    · subst hc
      rfl
    · simp [radix?, hc]
  · intro cs hcs
    cases hcs <;> simp [radix?]
  · intro c cs hcs
    by_cases hc : c = '0'
    · subst hc
      cases hcs <;> simp [radix?]
    · simp [radix?, hc]

theorem startsNumber_inLine (h : SameLine cs cs') :
    Lexeme.startsNumber cs' = Lexeme.startsNumber cs := by
  apply h.eq_of_two
  · intro c d cs
    by_cases hc : c = '.'
    · subst hc
      rfl
    · simp [Lexeme.startsNumber, hc]
  · intro cs hcs
    cases hcs <;> rfl
  · intro c cs hcs
    by_cases hc : c = '.'
    · subst hc
      cases hcs <;> rfl
    · simp [Lexeme.startsNumber, hc]

theorem whole_inLine : InLine whole := .takeWhile (by decide) (by decide)

theorem fraction_point (cs : List Char) :
    fraction ('.' :: cs) = if cs.head?.any isWordStart then []
      else '.' :: cs.takeWhile isDigitOrGap := by
  cases cs <;> rfl

theorem fraction_inLine : InLine fraction := by
  refine ⟨fraction_isPrefix, fun {cs cs'} h => ?_⟩
  cases h with
  | lineEnd h h' => cases h <;> cases h' <;> rfl
  | char c h =>
    by_cases hc : c = '.'
    · subst hc
      rw [fraction_point, fraction_point, h.head?_any_eq (by decide) (by decide),
        h.takeWhile_eq (by decide) (by decide)]
    · simp [fraction, hc]

theorem exponent_inLine : InLine exponent := by
  refine ⟨exponent_isPrefix, fun {cs cs'} h => ?_⟩
  have hsecond : ∀ c cs, AtLineEnd cs → exponent (c :: cs) = [] := by
    intro c cs hcs
    cases hcs <;> simp [exponent, isSign]
  cases h with
  | lineEnd h h' => cases h <;> cases h' <;> rfl
  | char c h =>
    have hdigits := h.takeWhile_eq (p := Char.isDigit) (by decide) (by decide)
    cases h with
    | lineEnd h h' => rw [hsecond c _ h, hsecond c _ h']
    | char d h =>
      have hmore := h.takeWhile_eq (p := Char.isDigit) (by decide) (by decide)
      have hhead := h.head?_any_eq (p := Char.isDigit) (by decide) (by decide)
      simp only [exponent, hdigits, hmore, hhead]

theorem decimals_inLine (h : SameLine cs cs') : decimals cs' = decimals cs :=
  (fraction_inLine.append exponent_inLine).eq (whole_inLine.drop h)

theorem body_inLine : InLine body := by
  refine ⟨body_isPrefix, fun {cs cs'} h => ?_⟩
  unfold body
  rw [radix?_inLine h, whole_inLine.eq h, decimals_inLine h]
  cases hradix : radix? cs with
  | none => rfl
  | some radix =>
    -- the mark of the radix takes two characters of the line
    unfold radix? at hradix
    split at hradix
    · next c cs =>
      cases h with
      | lineEnd h => cases h
      | char _ h =>
        cases h with
        | lineEnd h => cases h <;> cases hradix
        | char _ h =>
          have hdigits :=
            h.takeWhile_eq (p := fun c => c.isAlphanum || c == '_') (by decide) (by decide)
          exact congrArg (['0', c] ++ ·) hdigits
    · cases hradix

theorem ofNumber_inLine (h : SameLine cs cs') : Lexeme.ofNumber cs' = Lexeme.ofNumber cs := by
  have hspoiler : spoiler cs' = spoiler cs :=
    (body_inLine.drop h).takeWhile_eq (by decide) (by decide)
  have htext : text cs' = text cs := by rw [text, text, body_inLine.eq h, hspoiler]
  have hkind : kind? cs' = kind? cs := by
    simp only [kind?, hspoiler, radix?_inLine h, body_inLine.eq h, decimals_inLine h]
  simp only [Lexeme.ofNumber, htext, hkind]

end Numbers

section Marks

variable {cs cs' : List Char}

theorem ofWord_inLine (h : SameLine cs cs') : Lexeme.ofWord cs' = Lexeme.ofWord cs := by
  have hword := h.takeWhile_eq (p := isWordChar) (by decide) (by decide)
  simp only [Lexeme.ofWord, hword]

theorem operator?_inLine (h : SameLine cs cs') : Lexeme.operator? cs' = Lexeme.operator? cs := by
  have hall : Lexeme.operators.all (fun entry => entry.1.all isInLine) = true := by decide
  unfold Lexeme.operator?
  exact List.find?_congr fun entry hentry =>
    h.isPrefixOf_eq (List.all_eq_true.mp (List.all_eq_true.mp hall entry hentry))

/-- A lexeme depends on its line alone, unless it is a comment or a string. -/
theorem read_inLine {c : Char} (h : SameLine cs cs') (hcomment : c ≠ '#')
    (hquote : c ∉ ['"', '\'']) :
    Lexeme.read c cs' = Lexeme.read c cs := by
  have hall := SameLine.char c h
  have hfirst : (c == '#') = false := beq_false_of_ne hcomment
  have hstring : (c == '"' || c == '\'') = false := by simpa using hquote
  unfold Lexeme.read
  rw [hfirst, hstring, startsNumber_inLine hall, ofNumber_inLine hall, ofWord_inLine hall,
    operator?_inLine hall]
  rfl

end Marks

section Strings

open Quoted

variable {quote c : Char} {long : Bool} {cs cs' : List Char}

theorem isInLine_quote (h : quote ∈ ['"', '\'']) : isInLine quote = true := by
  have hall : ['"', '\''].all isInLine = true := by decide
  exact List.all_eq_true.mp hall quote h

theorem read_quote (h : quote ∈ ['"', '\'']) (cs : List Char) :
    Lexeme.read quote cs = Lexeme.ofString quote cs := by
  simp only [List.mem_cons, List.not_mem_nil, or_false] at h
  rcases h with rfl | rfl <;> rfl

theorem isLong_inLine (h : SameLine cs cs') (hquote : quote ∈ ['"', '\'']) :
    isLong quote cs' = isLong quote cs :=
  h.isPrefixOf_eq (by simp [isInLine_quote hquote])

theorem endsAt_inLine (h : SameLine cs cs') (hquote : quote ∈ ['"', '\'']) :
    endsAt quote long cs' = endsAt quote long cs := by
  rw [endsAt, endsAt, isLong_inLine h hquote]

theorem delimiter_isPrefix (quote : Char) (cs : List Char) :
    delimiter quote (isLong quote cs) <+: quote :: cs := by
  cases h : isLong quote cs with
  | false => exact (List.prefix_cons_inj _).mpr List.nil_prefix
  | true => exact (List.prefix_cons_inj _).mpr (List.isPrefixOf_iff_prefix.mp h)

theorem contents_cons (h : c = '\\' → cs = []) : contents quote long (c :: cs) =
    if c == '\n' && !long then ([], false)
    else if c == quote && endsAt quote long cs then ([], true)
    else (c :: (contents quote long cs).1, (contents quote long cs).2) := by
  rw [contents]
  rintro d ds rfl rfl
  cases h rfl

theorem nil_of_alone (h : ∀ (d : Char) (ds : List Char), c = '\\' → cs = d :: ds → False)
    (hc : c = '\\') :
    cs = [] := by
  cases cs with
  | nil => rfl
  | cons d ds => exact (h d ds hc rfl).elim

end Strings

end Sketchwright.Token
