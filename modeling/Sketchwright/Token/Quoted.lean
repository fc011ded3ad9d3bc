import Sketchwright.Text.Split

/-! String literals. A quote mark, or three of them, opens and closes a literal; a backslash takes
the next character with it, and only the long form may run over a line end. -/

namespace Sketchwright.Token.Quoted

/-- Three quote marks at once open the long form. -/
def isLong (quote : Char) (after : List Char) : Bool := [quote, quote].isPrefixOf after

def delimiter (quote : Char) (long : Bool) : List Char :=
  if long then [quote, quote, quote] else [quote]

/-- Whether the literal ends at the quote mark before these characters. -/
def endsAt (quote : Char) (long : Bool) (after : List Char) : Bool :=
  !long || isLong quote after

/-- The contents of a literal, and whether a closing delimiter follows them. -/
def contents (quote : Char) (long : Bool) : List Char → List Char × Bool
  | '\\' :: c :: cs =>
    let rest := contents quote long cs
    ('\\' :: c :: rest.1, rest.2)
  | c :: cs =>
    if c == '\n' && !long then ([], false)
    else if c == quote && endsAt quote long cs then ([], true)
    else
      let rest := contents quote long cs
      (c :: rest.1, rest.2)
  | [] => ([], false)

/-- The contents of a literal that opens with `quote`, and whether it is closed. -/
def inside (quote : Char) (after : List Char) : List Char × Bool :=
  let long := isLong quote after
  contents quote long ((quote :: after).drop (delimiter quote long).length)

/-- A literal with its quote marks, as far as it goes, and its contents when it is closed. -/
def read (quote : Char) (after : List Char) : List Char × Option (List Char) :=
  let opening := delimiter quote (isLong quote after)
  let body := inside quote after
  if body.2 then (opening ++ body.1 ++ opening, some body.1) else (opening ++ body.1, none)

end Sketchwright.Token.Quoted
