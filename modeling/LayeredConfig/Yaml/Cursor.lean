/-!
# Cursors

A cursor is a place in a text: what is left of it, and how far the place is from the start of the
text and of its line. The classes of characters that YAML separates its tokens by are here too.
-/

namespace LayeredConfig.Yaml

/-! ## Characters -/

/-- A space or a tab. -/
def isBlank (c : Char) : Bool := c = ' ' ∨ c = '\t'

/-- A character that ends a line. -/
def isBreak (c : Char) : Bool :=
  c = '\n' ∨ c = '\r' ∨ c = '\u0085' ∨ c = '\u2028' ∨ c = '\u2029'

/-- Whether a text is at the end of a line. -/
def atBreak : List Char → Bool
  | [] => true
  | c :: _ => isBreak c

/-- Whether a text is at a blank or at the end of a line. -/
def atGap : List Char → Bool
  | [] => true
  | c :: _ => isBlank c || isBreak c

/-- A character of names: a letter, a digit, a hyphen or an underscore, all ASCII. -/
def isWord (c : Char) : Bool := c.isAlphanum || c = '-' || c = '_'

/-- The value of a digit in any base up to sixteen. -/
def digit? (c : Char) : Option Nat :=
  if '0' ≤ c ∧ c ≤ '9' then some (c.toNat - 48)
  else if 'a' ≤ c ∧ c ≤ 'f' then some (c.toNat - 87)
  else if 'A' ≤ c ∧ c ≤ 'F' then some (c.toNat - 55)
  else none

/-- Whether a character may stand in a YAML text. -/
def isAllowed (c : Char) : Bool :=
  let n := c.toNat
  n = 0x09 || n = 0x0A || n = 0x0D || (0x20 ≤ n && n ≤ 0x7E) || n = 0x85 ||
    (0xA0 ≤ n && n ≤ 0xD7FF) || (0xE000 ≤ n && n ≤ 0xFFFD) || (0x10000 ≤ n && n ≤ 0x10FFFF)

/-- How a character that ends a line counts in the text of a scalar. -/
def breakText (c : Char) : Char := if c = '\u2028' ∨ c = '\u2029' then c else '\n'

/-! ## Cursors -/

/-- A place in a text. -/
structure Cursor where
  rest : List Char
  index : Nat
  line : Nat
  column : Nat

namespace Cursor

/-- The start of a text. -/
def start (text : List Char) : Cursor := ⟨text, 0, 0, 0⟩

/-- Goes on by some characters of the same line. -/
def skip (n : Nat) (c : Cursor) : Cursor :=
  { c with rest := c.rest.drop n, index := c.index + n, column := c.column + n }

/-- Goes on past the characters of one class. -/
def skipWhile (p : Char → Bool) (c : Cursor) : Cursor := c.skip (c.rest.takeWhile p).length

/-- Goes on past the end of a line. -/
def skipBreak (c : Cursor) : Cursor :=
  let next (n : Nat) : Cursor :=
    { c with rest := c.rest.drop n, index := c.index + n, line := c.line + 1, column := 0 }
  match c.rest with
  | '\r' :: '\n' :: _ => next 2
  | d :: _ => if isBreak d then next 1 else c
  | [] => c

/-- Whether the place is at a line of three equal marks, which separates documents. -/
def atDocumentMark (c : Cursor) : Bool :=
  c.column = 0 &&
    match c.rest with
    | '-' :: '-' :: '-' :: rest => atGap rest
    | '.' :: '.' :: '.' :: rest => atGap rest
    | _ => false

end Cursor

/-! ## Line folding -/

/-- The blanks and line ends between two words of a scalar. -/
structure Gap where
  /-- The blanks before the first line end. -/
  blanks : List Char
  /-- Whether there is a line end. -/
  broken : Bool
  /-- The first line end, unless it is escaped. -/
  first : List Char
  /-- The other line ends. -/
  others : List Char

namespace Gap

/-- No gap. -/
def none : Gap := ⟨[], false, [], []⟩

/-- The gap after an escaped line end. -/
def escaped : Gap := ⟨[], true, [], []⟩

/-- What a gap counts as: blanks as they are; one line end as a space, and of several all but the
first. -/
def text (g : Gap) : List Char :=
  if g.broken then
    if g.first = ['\n'] then (if g.others.isEmpty then [' '] else g.others)
    else g.first ++ g.others
  else g.blanks

/-- A gap with one more line end. -/
def withBreak (g : Gap) (c : Char) : Gap :=
  if g.broken then { g with others := g.others ++ [breakText c] }
  else { g with blanks := [], broken := true, first := [breakText c] }

/-- Reads the blanks and line ends at a place. Left of the given column, a tab after a line end is
an error. -/
def read (tabsFrom : Int) : Nat → Gap → Cursor → Option (Gap × Cursor)
  | 0, g, c => some (g, c)
  | fuel + 1, g, c =>
    match c.rest with
    | [] => some (g, c)
    | d :: _ =>
      if isBlank d then
        if g.broken then
          if (c.column : Int) < tabsFrom ∧ d = '\t' then Option.none
          else read tabsFrom fuel g (c.skip 1)
        else read tabsFrom fuel { g with blanks := g.blanks ++ [d] } (c.skip 1)
      else if isBreak d then read tabsFrom fuel (g.withBreak d) c.skipBreak
      else some (g, c)

end Gap

end LayeredConfig.Yaml
