import LayeredConfig.Yaml.Cursor
/-!
# Pens

A pen writes a YAML text and knows what a writer has to know about the place where it is: the
column, whether the last thing written separates tokens, and whether the line holds only indentation
so far.
-/

namespace LayeredConfig.Yaml

/-- A text that is being written. -/
structure Pen where
  /-- The text so far, in reverse. -/
  written : List Char
  column : Nat
  /-- Whether the next token needs no space before it. -/
  spaced : Bool
  /-- Whether only indentation and the signs of entries are on the line. -/
  fresh : Bool

namespace Pen

/-- The start of a text. -/
def start : Pen := ⟨[], 0, true, true⟩

/-- Writes characters of one line. -/
def put (cs : List Char) (p : Pen) : Pen :=
  { p with written := cs.reverse ++ p.written, column := p.column + cs.length }

/-- Writes a character that ends a line. -/
def putBreak (c : Char) (p : Pen) : Pen := { p with written := c :: p.written, column := 0 }

/-- Goes to a column of a new line, or of this one if there is only indentation on it. -/
def lineTo (indent : Nat) (p : Pen) : Pen :=
  let p := if !p.fresh || indent < p.column || (p.column = indent && !p.spaced) then p.putBreak '\n'
    else p
  { p.put (List.replicate (indent - p.column) ' ') with spaced := true, fresh := true }

/-- Writes a space if the next token needs one. -/
def separate (p : Pen) : Pen := if p.spaced then p else p.put [' ']

/-- Writes a sign. The flags say whether the sign separates tokens itself, and whether it counts as
indentation. -/
def sign (cs : List Char) (spaced fresh : Bool) (p : Pen) : Pen :=
  { p.put cs with spaced := spaced, fresh := p.fresh && fresh }

/-- Ends a token that is no sign. -/
def close (p : Pen) : Pen := { p with spaced := false, fresh := false }

/-- The text so far. -/
def text (p : Pen) : String := String.ofList p.written.reverse

end Pen

end LayeredConfig.Yaml
