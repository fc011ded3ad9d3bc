import Mathlib.Data.List.Basic
import Sketchwright.Proofs.Layout
import Sketchwright.Proofs.Lexemes

/-! String literals of a sketch. The lexer and the writer of a sketch go over a text with
loops of their own, and in both a backslash takes the character after it. The escapes are
those of C, so that what a text says is given by its pieces: characters on their own and
characters that a backslash takes. -/

namespace Sketchwright

open Token

namespace Sketch

/-- What a literal holds: a character, or a backslash with the character that it takes. -/
inductive LiteralPiece where
  | bare (c : Char)
  | escaped (c : Char)
  deriving DecidableEq, Repr

/-- The contents of a literal piece by piece. -/
def literalPieces : List Char → List LiteralPiece
  | '\\' :: c :: cs => .escaped c :: literalPieces cs
  | c :: cs => .bare c :: literalPieces cs
  | [] => []

/-- Some escapes say the same as a bare character. -/
def LiteralPiece.plain : LiteralPiece → LiteralPiece
  | .escaped 'n' => .bare '\n'
  | .escaped 'r' => .bare '\r'
  | .escaped 't' => .bare '\t'
  | .escaped '"' => .bare '"'
  | piece => piece

/-- The pieces of a C literal after its opening quote mark, up to the first quote mark
that no backslash takes, and what comes after that mark. A line end may only stand where
a backslash takes it. -/
def readLiteral : List Char → Option (List LiteralPiece × List Char)
  | '\\' :: c :: cs => (readLiteral cs).map fun r => (.escaped c :: r.1, r.2)
  | c :: cs =>
    if c = '"' then some ([], cs)
    else if c = '\n' ∨ c = '\\' then none
    else (readLiteral cs).map fun r => (.bare c :: r.1, r.2)
  | [] => none

/-- Characters that a literal holds only behind a backslash. -/
def guarded : List Char := ['\\', '"', '\n', '\r', '\t']

/-- Contents in which every guarded character stands behind a backslash or
takes a character with it. -/
inductive Guarded : List Char → Prop
  | nil : Guarded []
  | escaped {c cs} (h : Guarded cs) : Guarded ('\\' :: c :: cs)
  | bare {c cs} (hc : c ∉ guarded) (h : Guarded cs) : Guarded (c :: cs)

theorem escape_bare {c : Char} (hc : c ∉ guarded) (cs : List Char) :
    escape (c :: cs) = c :: escape cs := by
  simp only [guarded, List.mem_cons, List.not_mem_nil, or_false, not_or] at hc
  cases cs <;> simp [escape, hc]

theorem literalPieces_bare {c : Char} (hc : c ≠ '\\') (cs : List Char) :
    literalPieces (c :: cs) = .bare c :: literalPieces cs := by
  cases cs <;> simp [literalPieces, hc]

theorem readLiteral_bare {c : Char} (hc : c ∉ guarded) (cs : List Char) :
    readLiteral (c :: cs) = (readLiteral cs).map fun r => (.bare c :: r.1, r.2) := by
  simp only [guarded, List.mem_cons, List.not_mem_nil, or_false, not_or] at hc
  cases cs <;> simp [readLiteral, hc]

/-- A guarded text is what it escapes to. -/
theorem Guarded.escape_eq {cs : List Char} (h : Guarded cs) : escape cs = cs := by
  induction h with
  | nil => rfl
  | escaped _ ih => rw [escape, ih]
  | bare hc _ ih => rw [escape_bare hc, ih]

/-- A guarded text makes one literal: the quote mark after it is the first
that no backslash takes. -/
theorem Guarded.readLiteral {cs : List Char} (h : Guarded cs) (rest : List Char) :
    readLiteral (cs ++ '"' :: rest) = some (literalPieces cs, rest) := by
  induction h with
  | nil => cases rest <;> rfl
  | escaped _ ih =>
    rw [List.cons_append, List.cons_append, Sketch.readLiteral, ih]
    rfl
  | bare hc _ ih =>
    have hslash := List.ne_of_not_mem_cons hc
    rw [List.cons_append, readLiteral_bare hc, ih, literalPieces_bare hslash]
    rfl

/-- A guarded character is written as the escape that says the same. -/
theorem escape_guarded {c : Char} (hc : c ∈ guarded) (hslash : c ≠ '\\') (cs : List Char) :
    ∃ d, escape (c :: cs) = '\\' :: d :: escape cs ∧ LiteralPiece.plain (.escaped d) = .bare c := by
  simp only [guarded, List.mem_cons, List.not_mem_nil, or_false] at hc
  rcases hc with rfl | rfl | rfl | rfl | rfl
  · exact absurd rfl hslash
  · exact ⟨'"', rfl, rfl⟩
  · exact ⟨'n', rfl, rfl⟩
  · exact ⟨'r', rfl, rfl⟩
  · exact ⟨'t', rfl, rfl⟩

open Lexeme (Paired) in
/-- Where every backslash takes a character with it, escaping makes a guarded text of the same
pieces, some of them written as escapes. -/
theorem escape_paired {cs : List Char} (h : Paired cs) :
    Guarded (escape cs) ∧
    (literalPieces (escape cs)).map LiteralPiece.plain =
      (literalPieces cs).map LiteralPiece.plain := by
  induction h with
  | nil => exact ⟨.nil, rfl⟩
  | @escape c cs _ ih =>
    rw [escape, literalPieces, literalPieces, List.map_cons, List.map_cons, ih.2]
    exact ⟨.escaped ih.1, rfl⟩
  | @plain c cs hslash _ ih =>
    rw [literalPieces_bare hslash]
    by_cases hc : c ∈ guarded
    · obtain ⟨d, hescape, hplain⟩ := escape_guarded hc hslash cs
      rw [hescape, literalPieces, List.map_cons, List.map_cons, ih.2, hplain]
      exact ⟨.escaped ih.1, rfl⟩
    · rw [escape_bare hc, literalPieces_bare hslash, List.map_cons, List.map_cons, ih.2]
      exact ⟨.bare hc ih.1, rfl⟩

/-- The literal that a sketch has for a string token is one literal with nothing behind it, it says
the same as the string, and escaping it once more changes nothing. -/
theorem literal_survives {source : String} {count : Nat} {t : Token} {text : String}
    (ht : .ok t ∈ (Lexer.start source.toList).steps count) (hkind : t.kind = .string text) :
    ∃ body content, (literal (.str text)).toList = '"' :: body ∧
      readLiteral body = some (content, []) ∧
      content.map LiteralPiece.plain = (literalPieces text.toList).map LiteralPiece.plain ∧
      escape (escape text.toList) = escape text.toList := by
  have hspelled := spelled_of_mem_steps ht
  rw [hkind] at hspelled
  obtain ⟨hguarded, hplain⟩ := escape_paired (Lexeme.paired_of_spelled hspelled)
  refine ⟨_, _, ?_, hguarded.readLiteral [], hplain, hguarded.escape_eq⟩
  simp [literal, stringLiteral]

def quotedText : String := "x = \'\'\'a \"b\" \\n\\\nc\n\td\'\'\'"
theorem literal_survives_quoted :
    ∃ t text, .ok t ∈ (Lexer.start quotedText.toList).steps 3 ∧
    t.kind = .string text ∧ (literal (.str text)) = "\"a \\\"b\\\" \\n\\\nc\\n\\td\"" ∧
    ∃ body content, (literal (.str text)).toList = '"' :: body ∧
      readLiteral body = some (content, []) ∧
      content.map LiteralPiece.plain = (literalPieces text.toList).map LiteralPiece.plain ∧
      escape (escape text.toList) = escape text.toList := by
  have ht : .ok ⟨.string "a \"b\" \\n\\\nc\n\td", ⟨4, 24, 1, 4⟩⟩ ∈
      (Lexer.start quotedText.toList).steps 3 := by
    decide +kernel
  exact ⟨_, _, ht, rfl, by decide +kernel, literal_survives ht rfl⟩

end Sketch

end Sketchwright
