import Mathlib.Data.Nat.Digits.Defs
import Sketchwright.Proofs.Exhaustion
import Sketchwright.Proofs.Inheritance
import Sketchwright.Proofs.Lexemes
import Sketchwright.Proofs.Notices
import Sketchwright.Proofs.Rereading
import Sketchwright.Proofs.Trees
import Sketchwright.Sketch.Emit

/-! Integers from their literals to the sketch. A literal stands for the number with its digits,
or for none where that number is out of range, so that no later pass meets a number that its
sixty-four bits do not hold. -/

namespace Sketchwright

open Text

namespace Token.Numeral

open Lexeme (EndsWord takeWhile_stop ne_of_holds isCode_of_holds)

/-- The characters of the digits from zero on, in lower and in upper case. -/
def spellings : List (List Char) := ["0123456789abcdef".toList, "0123456789ABCDEF".toList]

/-- The character stands for the digit. -/
def IsDigit (c : Char) (d : Nat) : Prop := ∃ row ∈ spellings, row[d]? = some c

/-- Digits of a radix with gaps between them, and their values. -/
inductive Digits (radix : Nat) : List Char → List Nat → Prop
  | nil : Digits radix [] []
  | gap {cs ds} (h : Digits radix cs ds) : Digits radix ('_' :: cs) ds
  | digit {c d cs ds} (hc : IsDigit c d) (hd : d < radix) (h : Digits radix cs ds) :
    Digits radix (c :: cs) (d :: ds)

/-- The second characters of literals that are not decimal, with the radixes that they announce. -/
def marks : List (Char × Nat) := [('x', 16), ('X', 16), ('o', 8), ('O', 8), ('b', 2), ('B', 2)]

/-- The literals of a number. Gaps stand after the first digit of a decimal literal and after
the mark of another one. -/
inductive IsLiteral : List Char → Nat → Prop
  | decimal {c d cs ds} (hc : IsDigit c d) (hd : d < 10) (h : Digits 10 cs ds) :
      IsLiteral (c :: cs) (Nat.ofDigits 10 (d :: ds).reverse)
  | marked {mark radix cs ds} (hmark : (mark, radix) ∈ marks) (h : Digits radix cs ds)
    (hne : ds ≠ []) :
      IsLiteral ('0' :: mark :: cs) (Nat.ofDigits radix ds.reverse)

/-- What holds of the sixteen digits in either case holds of every character of a digit. -/
theorem holds_of_isDigit {p : Char → Nat → Bool}
    (hp : spellings.all (fun row => row.zipIdx.all fun entry => p entry.1 entry.2) = true)
    {c : Char} {d : Nat} (h : IsDigit c d) : p c d = true := by
  obtain ⟨row, hrow, hc⟩ := h
  have hentries := List.all_eq_true.mp (List.all_eq_true.mp hp row hrow)
  exact hentries (c, d) (List.mk_mem_zipIdx_iff_getElem?.mpr hc)

theorem isDigit_of_isDigit {c : Char} {d : Nat} (h : IsDigit c d)
    (hd : d < 10) : c.isDigit = true := by
  have hall := holds_of_isDigit (p := fun c d => !decide (d < 10) || c.isDigit) (by decide) h
  simpa [hd] using hall

section Values

variable {radix : Nat} {cs : List Char} {ds : List Nat}

end Values

/-- What follows a literal that neither goes on nor has a fraction. -/
structure Ends (after : List Char) : Prop where
  word : EndsWord after
  point : after.head? ≠ some '.'

theorem Ends.head {after : List Char} (h : Ends after) {p : Char → Bool}
    (hp : ∀ c, p c = true → isWordChar c = true) : ∀ c ∈ after.head?, p c = false := by
  intro c hc
  refine Bool.eq_false_iff.mpr fun hpc => ?_
  have hword := h.word c hc
  rw [hp c hpc] at hword
  cases hword

/-- The digit that a literal starts with. -/
theorem IsLiteral.head {text : List Char} {value : Nat} (h : IsLiteral text value) :
    ∃ c cs, text = c :: cs ∧ c.isDigit = true := by
  cases h with
  | decimal hc hd => exact ⟨_, _, rfl, isDigit_of_isDigit hc hd⟩
  | marked => exact ⟨_, _, rfl, rfl⟩

end Token.Numeral

namespace Token

open Numeral

namespace Lexer

/-- The lexer where the next token of the line starts, after blanks, and inside brackets also after
line ends and comments. -/
def reached (lx : Lexer) : Lexer :=
  lx.settle.consume (gap (0 < lx.settle.nesting) false lx.settle.rest)

end Lexer

end Token

/-- What stands in an expression of lexemes is made of lexemes. -/
theorem Expr.Spelled.part {e part : Expr} (h : e.Spelled)
    (hpart : part ∈ e.parts) : part.Spelled := by
  induction h with
  | int | float | str | bool | name =>
    obtain rfl := List.mem_singleton.mp hpart
    constructor <;> assumption
  | unary hoperand ih =>
    rcases List.mem_cons.mp hpart with rfl | hpart
    · exact .unary hoperand
    · exact ih hpart
  | binary hleft hright ihl ihr =>
    rcases List.mem_cons.mp hpart with rfl | hpart
    · exact .binary hleft hright
    · exact (List.mem_append.mp hpart).elim ihl ihr
  | call hcallee hargs ih =>
    rcases List.mem_cons.mp hpart with rfl | hpart
    · exact .call hcallee hargs
    · obtain ⟨arg, harg, hpart⟩ := mem_partsAll.mp hpart
      exact ih arg harg hpart
  | index hid hsupported hposition ih =>
    rcases List.mem_cons.mp hpart with rfl | hpart
    · exact .index hid hsupported hposition
    · exact ih hpart
  | list hitems ih =>
    rcases List.mem_cons.mp hpart with rfl | hpart
    · exact .list hitems
    · obtain ⟨item, hitem, hpart⟩ := mem_partsAll.mp hpart
      exact ih item hitem hpart

/-- A literal of an expression of lexemes is in range. -/
theorem Expr.Spelled.integer {e : Expr} (h : e.Spelled) {value : Int}
    (hpart : .literal (.int value) ∈ e.parts) :
    ∃ n : Nat, value = n ∧ n ≤ Token.Numeral.largest := by
  cases h.part hpart with
  | int hspelled => exact Token.Lexeme.le_largest_of_spelled hspelled

mutual

/-- The steps of the loops in a statement. -/
def Stmt.steps : Stmt → List Int
  | .function _ _ _ _ body => stepsIn body
  | .conditional _ _ thenBody elseBody => stepsIn thenBody ++ stepsIn elseBody
  | .loop _ _ bounds _ body => bounds.step :: stepsIn body
  | _ => []

def stepsIn : List Stmt → List Int
  | [] => []
  | stmt :: stmts => stmt.steps ++ stepsIn stmts

end

namespace Program

open Reading

variable {finalLine line : Nat}

/-- The steps of the loops of a program, those inside functions included. -/
def steps (p : Program) : List Int := stepsIn p.statements

end Program

namespace Sketch

end Sketch

open Token Token.Numeral

section Countdown

open Program Reading Sketchwright.Expr

end Countdown

end Sketchwright
