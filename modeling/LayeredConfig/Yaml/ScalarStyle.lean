import LayeredConfig.Yaml.Pen
import LayeredConfig.Yaml.Plain
import LayeredConfig.Yaml.Token
/-!
# How scalars are written

A text is written plain where that reads back as the same text, else in single quotes, and in double
quotes where a character needs an escape. A text with line ends is a literal block if it can be one.
`Traits.of` finds out what stands against a style.
-/

namespace LayeredConfig.Yaml

/-! ## Traits -/

/-- Whether a character is written as it is. -/
def isPrintable (c : Char) : Bool :=
  let n := c.toNat
  n = 0x0A || (0x20 ≤ n && n ≤ 0x7E) || (0xA0 ≤ n && n ≠ 0xFEFF && n ≠ 0xFFFE && n ≠ 0xFFFF)

/-- The characters that start no plain scalar. -/
def startIndicators : List Char := "#,[]\x7b\x7d&*!|>'\"%@\x60".toList

/-- What matters for how a text is written. -/
structure Traits where
  /-- Whether there is a line end. -/
  multiline : Bool
  /-- Whether the text may be plain in a block. -/
  plain : Bool
  singleQuoted : Bool
  block : Bool

namespace Traits

/-- Whether a part of the text looks like a sign: at its start, or inside after the given character.
-/
def hasIndicator : Option Char → List Char → Bool
  | _, [] => false
  | none, c :: rest =>
    startIndicators.contains c || ((c = '?' || c = ':' || c = '-') && atGap rest) ||
      hasIndicator (some c) rest
  | some before, c :: rest =>
    (c = ':' && atGap rest) || (c = '#' && (isBlank before || isBreak before)) ||
      hasIndicator (some c) rest

/-- Whether two neighbours pass a test. -/
def hasPair (p : Char → Char → Bool) : List Char → Bool
  | a :: b :: rest => p a b || hasPair p (b :: rest)
  | _ => false

/-- The traits of a text. -/
def of (s : List Char) : Traits :=
  if s.isEmpty then ⟨false, true, true, false⟩
  else
    let isEdge (c : Char) : Bool := c = ' ' || isBreak c
    let documentMark := s.take 3 = "---".toList || s.take 3 = "...".toList
    let breaks := s.any isBreak
    let edges := s.head?.any isEdge || s.getLast?.any isEdge
    let trailingSpace := s.getLast? = some ' '
    let breakSpace := hasPair (fun a b => isBreak a && b = ' ') s
    let spaceBreak := hasPair (fun a b => a = ' ' && isBreak b) s
    let special := spaceBreak || s.any (! isPrintable ·)
    { multiline := breaks
      plain := !edges && !breakSpace && !special && !breaks && !documentMark && !hasIndicator none s
      singleQuoted := !breakSpace && !special
      block := !trailingSpace && !special }

end Traits

/-- Whether a text of one line is quoted although it may be plain: it would stand for something
else, or it is digits after a zero. -/
def needsQuotes (s : List Char) : Bool := Plain.ofText s ≠ .text || Plain.hasLeadingZero s

/-- The style of a text. -/
def Style.ofText (s : List Char) (inKey : Bool) : Style :=
  let t := Traits.of s
  let wanted : Style :=
    if s.contains '\n' then .literal else if needsQuotes s then .singleQuoted else .plain
  let wanted : Style := if inKey && t.multiline then .doubleQuoted else wanted
  let wanted : Style := if wanted = .plain ∧ !t.plain then .singleQuoted else wanted
  let wanted : Style := if wanted = .singleQuoted ∧ !t.singleQuoted then .doubleQuoted else wanted
  if wanted = .literal ∧ (!t.block ∨ inKey) then .doubleQuoted else wanted

/-! ## Writing -/

namespace Pen

/-- A text in single quotes, from its first character on. Lines after a line end are indented. -/
def singleQuotedText (indent : Nat) : Bool → List Char → Pen → Pen
  | broken, [], p => if broken then p.lineTo indent else p
  | broken, c :: rest, p =>
    if c = ' ' then singleQuotedText indent broken rest (p.put [c])
    else if isBreak c then
      -- The first line end of several is doubled, since a lone one reads back as a space.
      let p := if !broken && c = '\n' then p.putBreak '\n' else p
      singleQuotedText indent true rest { p.putBreak c with fresh := true }
    else
      let p := if broken then p.lineTo indent else p
      let p := if c = '\'' then p.put [c, c] else p.put [c]
      singleQuotedText indent false rest { p with fresh := false }

/-- The letter of an escape sequence without digits. -/
def escapeLetter? (c : Char) : Option Char :=
  match c.toNat with
  | 0x00 => some '0'
  | 0x07 => some 'a'
  | 0x08 => some 'b'
  | 0x09 => some 't'
  | 0x0A => some 'n'
  | 0x0B => some 'v'
  | 0x0C => some 'f'
  | 0x0D => some 'r'
  | 0x1B => some 'e'
  | 0x22 => some '"'
  | 0x5C => some '\\'
  | 0x85 => some 'N'
  | 0xA0 => some '_'
  | 0x2028 => some 'L'
  | 0x2029 => some 'P'
  | _ => none

/-- A hexadecimal digit. -/
def hexDigit (n : Nat) : Char := Char.ofNat (if n < 10 then 48 + n else 55 + n)

/-- Some hexadecimal digits of a number. -/
def hexDigits : Nat → Nat → List Char
  | 0, _ => []
  | width + 1, n => hexDigits width (n / 16) ++ [hexDigit (n % 16)]

/-- A character in double quotes. -/
def escaped (c : Char) : List Char :=
  if isPrintable c && !isBreak c && c ≠ '"' && c ≠ '\\' then [c]
  else match escapeLetter? c with
    | some l => ['\\', l]
    | none =>
      let n := c.toNat
      if n ≤ 0xFF then '\\' :: 'x' :: hexDigits 2 n
      else if n ≤ 0xFFFF then '\\' :: 'u' :: hexDigits 4 n
      else '\\' :: 'U' :: hexDigits 8 n

/-- The marks on the first line of a literal block: its indentation, if it starts with a space or a
line end, and what becomes of the line ends at its end. -/
def blockMarks (s : List Char) : List Char :=
  let indentation := if s.head?.any (fun c => c = ' ' || isBreak c) then ['2'] else []
  let chomping :=
    match s.reverse with
    | [] => ['-']
    | [c] => if isBreak c then ['+'] else ['-']
    | c :: d :: _ => if !isBreak c then ['-'] else if isBreak d then ['+'] else []
  indentation ++ chomping

/-- The lines of a literal block. -/
def literalText (indent : Nat) : Bool → List Char → Pen → Pen
  | _, [], p => p
  | broken, c :: rest, p =>
    if isBreak c then literalText indent true rest { p.putBreak c with fresh := true }
    else
      let p := if broken then p.lineTo indent else p
      literalText indent false rest { p.put [c] with fresh := false }

/-- Writes a text in some style. Lines after the first are indented. -/
def scalar (style : Style) (indent : Nat) (s : List Char) (p : Pen) : Pen :=
  match style with
  | .plain => ((if s.isEmpty then p else p.separate).put s).close
  | .singleQuoted =>
    let p := singleQuotedText indent false s (p.separate.sign ['\''] false false)
    (p.sign ['\''] false false).close
  | .doubleQuoted =>
    ((p.separate.sign ['"'] false false).put (s.flatMap escaped) |>.sign ['"'] false false).close
  | .literal | .folded =>
    let p := p.separate.sign ('|' :: blockMarks s) false false
    literalText indent true s { p.putBreak '\n' with spaced := true, fresh := true }

end Pen

end LayeredConfig.Yaml
