import Sketchwright.Text.Digits
import Sketchwright.Yaml.Scalar.Gap

/-! Scalars in single quotes, where a quote is written twice, and in double quotes, which have
escapes. -/

namespace Sketchwright.Yaml

/-- Characters after a backslash, and the code points that they stand for. -/
def escapes : List (Char × Nat) :=
  [('0', 0), ('a', 7), ('b', 8), ('t', 9), ('\t', 9), ('n', 10), ('v', 11), ('f', 12), ('r', 13),
    ('e', 27), (' ', 32), ('"', 34), ('/', 47), ('\\', 92), ('N', 0x85), ('_', 0xa0), ('L', 0x2028),
    ('P', 0x2029)]

/-- How many hexadecimal digits of a code point follow. -/
def hexLength? : Char → Option Nat
  | 'x' => some 2
  | 'u' => some 4
  | 'U' => some 8
  | _ => none

def charOf? (n : Nat) : Option Char := if n.isValidChar then some (.ofNat n) else none

/-- The character that an escape stands for, after its backslash, and the length of the escape. -/
def escape? : List Char → Option (Char × Nat)
  | [] => none
  | mark :: cs =>
    match hexLength? mark with
    | some n => do return (← (Text.ofDigits? 16 (cs.take n)).bind charOf?, n + 1)
    | none => do return (← (escapes.lookup mark).bind charOf?, 1)

/-- What a quoted scalar says, and where it ends. -/
structure QuotedScalar where
  text : String
  stop : Cursor
  deriving Repr

/-- Reads a quoted scalar of which the characters `read` and then a gap are behind. -/
def quotedFrom (quote : Char) (read : List Char) (gap : Gap) (p : Place) (cs : List Char) :
    Option QuotedScalar :=
  match cs with
  | [] => none
  | c :: cs =>
    if isDocumentMark p (c :: cs) then none
    else if isSpace c then quotedFrom quote read (gap.push c) (p.next c) cs
    else
      let read := gap.text ++ read
      if c == quote then
        if quote == '\'' && cs.head? == some quote then
          quotedFrom quote (quote :: read) .empty (p.after (c :: cs.take 1)) (cs.drop 1)
        else some ⟨String.ofList read.reverse, ⟨p.next c, cs⟩⟩
      else if quote == '"' && c == '\\' then
        if cs.head?.any isBreak then
          quotedFrom quote read (.breaks none []) (p.after (c :: cs.take 1)) (cs.drop 1)
        else
          match escape? cs with
          | some (e, n) =>
            quotedFrom quote (e :: read) .empty (p.after (c :: cs.take n)) (cs.drop n)
          | none => none
      else quotedFrom quote (c :: read) .empty (p.next c) cs
termination_by cs.length
decreasing_by
  all_goals
    simp only [List.length_cons, List.length_drop]
    omega

/-- The quoted scalar here. -/
def quoted? (k : Cursor) : Option QuotedScalar :=
  match k.rest with
  | quote :: cs => quotedFrom quote [] .empty (k.place.next quote) cs
  | [] => none

end Sketchwright.Yaml
