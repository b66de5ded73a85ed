import LayeredConfig.Yaml.Cursor
import LayeredConfig.Yaml.Fault
import LayeredConfig.Yaml.Token
/-!
# Scalar tokens

Plain, quoted and block scalars, read from a cursor at their first character. Each reader gives the
text of the scalar and the place after it.
-/

namespace LayeredConfig.Yaml.Scalar

/-! ## Plain scalars -/

/-- The characters that end a plain scalar in a flow collection. -/
def isFlowEnd (c : Char) : Bool := c = ',' ∨ c = '[' ∨ c = ']' ∨ c = '\x7b' ∨ c = '\x7d'

/-- A run of characters without a gap, up to what may end a plain scalar. -/
def plainWord (inFlow : Bool) : List Char → Except Fault (List Char)
  | [] => .ok []
  | c :: rest =>
    if isBlank c || isBreak c then .ok []
    else if inFlow && c = ':' && (rest.head?.any fun d => isFlowEnd d || d = '?') then
      .error .unexpectedColon
    else if (c = ':' && atGap rest) || (inFlow && isFlowEnd c) then .ok []
    else (plainWord inFlow rest).map (c :: ·)

/-- Reads the words of a plain scalar, each with the gap before it. -/
def plainWords (inFlow : Bool) (indent : Int) :
    Nat → List Char → Gap → Cursor → Except Fault (List Char × Bool × Cursor)
  | 0, text, gap, c => .ok (text, gap.broken, c)
  | fuel + 1, text, gap, c =>
    if c.atDocumentMark || c.rest.head? = some '#' then .ok (text, gap.broken, c)
    else do
      let word ← plainWord inFlow c.rest
      let (text, gap) := if word.isEmpty then (text, gap) else (text ++ gap.text ++ word, .none)
      let c := c.skip word.length
      if !(atGap c.rest) || c.rest.isEmpty then .ok (text, gap.broken, c)
      else match Gap.read indent c.rest.length gap c with
        | none => .error .tabInIndentation
        | some (gap, c) =>
          if !inFlow && (c.column : Int) < indent then .ok (text, gap.broken, c)
          else plainWords inFlow indent fuel text gap c

/-- Reads a plain scalar in a block of the given indentation. The flag tells whether a line end
follows it. -/
def plain (inFlow : Bool) (indent : Int) (c : Cursor) : Except Fault (List Char × Bool × Cursor) :=
  plainWords inFlow (indent + 1) (c.rest.length + 1) [] .none c

/-! ## Quoted scalars -/

/-- The character that a letter after a backslash stands for. -/
def escape? : Char → Option Char
  | '0' => some '\x00'
  | 'a' => some '\x07'
  | 'b' => some '\x08'
  | 't' => some '\t'
  | '\t' => some '\t'
  | 'n' => some '\n'
  | 'v' => some '\x0b'
  | 'f' => some '\x0c'
  | 'r' => some '\r'
  | 'e' => some '\x1b'
  | ' ' => some ' '
  | '"' => some '"'
  | '/' => some '/'
  | '\\' => some '\\'
  | 'N' => some '\u0085'
  | '_' => some '\u00a0'
  | 'L' => some '\u2028'
  | 'P' => some '\u2029'
  | _ => none

/-- How many hexadecimal digits follow a letter after a backslash. -/
def escapeLength? : Char → Option Nat
  | 'x' => some 2
  | 'u' => some 4
  | 'U' => some 8
  | _ => none

/-- The value of hexadecimal digits. -/
def hexValue? : Nat → List Char → Option Nat
  | n, [] => some n
  | n, c :: rest => (digit? c).bind fun d => hexValue? (n * 16 + d) rest

/-- The character with a code point, if there is one. -/
def charOf? (n : Nat) : Option Char :=
  if (0xD800 ≤ n ∧ n ≤ 0xDFFF) ∨ 0x10FFFF < n then none else some (Char.ofNat n)

/-- What ends a run of quoted characters. -/
inductive QuotedEnd
  | quote
  | gap
  | escapedBreak
  | endOfText

/-- Reads quoted characters up to a gap, an escaped line end or the closing quote. -/
def quotedRun (single : Bool) :
    Nat → List Char → Cursor → Except Fault (List Char × QuotedEnd × Cursor)
  | 0, text, c => .ok (text, .endOfText, c)
  | fuel + 1, text, c =>
    match c.rest with
    | [] => .ok (text, .endOfText, c)
    | d :: rest =>
      if isBlank d || isBreak d then .ok (text, .gap, c)
      else if single then
        if d = '\'' then
          if rest.head? = some '\'' then quotedRun single fuel ('\'' :: text) (c.skip 2)
          else .ok (text, .quote, c)
        else quotedRun single fuel (d :: text) (c.skip 1)
      else if d = '"' then .ok (text, .quote, c)
      else if d = '\\' then
        match rest with
        | [] => .error .malformedEscape
        | e :: _ =>
          if isBreak e then .ok (text, .escapedBreak, (c.skip 1).skipBreak)
          else match escapeLength? e with
            | some n =>
              let digits := (rest.drop 1).take n
              match if digits.length = n then (hexValue? 0 digits).bind charOf? else none with
              | some x => quotedRun single fuel (x :: text) (c.skip (2 + n))
              | none => .error .malformedEscape
            | none =>
              match escape? e with
              | some x => quotedRun single fuel (x :: text) (c.skip 2)
              | none => .error .malformedEscape
      else quotedRun single fuel (d :: text) (c.skip 1)

/-- Reads the runs of a quoted scalar and the gaps between them, up to the closing quote. The text
read so far is kept in reverse. -/
def quotedRuns (single : Bool) :
    Nat → List Char → Cursor → Except Fault (List Char × Cursor)
  | 0, _, _ => .error .unclosedQuote
  | fuel + 1, text, c =>
    if c.atDocumentMark || c.rest.isEmpty then .error .unclosedQuote
    else do
      let (text, stop, c) ← quotedRun single (c.rest.length + 1) text c
      match stop with
      | .quote => .ok (text.reverse, c.skip 1)
      | .endOfText => .error .unclosedQuote
      | .gap | .escapedBreak =>
        let gap := match stop with
          | .escapedBreak => Gap.escaped
          | _ => Gap.none
        match Gap.read (-1) c.rest.length gap c with
        | none => .error .tabInIndentation
        | some (gap, c) => quotedRuns single fuel (gap.text.reverse ++ text) c

/-- Reads a quoted scalar. -/
def quoted (single : Bool) (c : Cursor) : Except Fault (List Char × Cursor) :=
  quotedRuns single (c.rest.length + 1) [] (c.skip 1)

/-! ## Block scalars -/

/-- What becomes of the line ends at the end of a block scalar. -/
inductive Chomping
  | strip
  | clip
  | keep
  deriving DecidableEq

/-- The first line of a block scalar: chomping, and the indentation if it is given. -/
structure Header where
  chomping : Chomping
  increment : Option Nat

/-- A mark of chomping. -/
def chomping? : Char → Option Chomping
  | '+' => some .keep
  | '-' => some .strip
  | _ => none

/-- Reads the marks after the sign of a block scalar. -/
def header (c : Cursor) : Except Fault (Header × Cursor) :=
  match c.rest with
  | [] => .ok (⟨.clip, none⟩, c)
  | a :: rest =>
    match chomping? a with
    | some chomping =>
      match rest with
      | d :: _ =>
        if d = '0' then .error .malformedBlockHeader
        else if d.isDigit then .ok (⟨chomping, some (d.toNat - 48)⟩, c.skip 2)
        else .ok (⟨chomping, none⟩, c.skip 1)
      | [] => .ok (⟨chomping, none⟩, c.skip 1)
    | none =>
      if a = '0' then .error .malformedBlockHeader
      else if a.isDigit then
        match rest.head?.bind chomping? with
        | some chomping => .ok (⟨chomping, some (a.toNat - 48)⟩, c.skip 2)
        | none => .ok (⟨.clip, some (a.toNat - 48)⟩, c.skip 1)
      else .ok (⟨.clip, none⟩, c)

/-- Reads indentation and empty lines, and finds out the indentation if it is not known yet (`0`):
the place gives the line ends that were read and the widest indentation among them. -/
def blockGap (indent : Nat) :
    Nat → Nat → List Char → Cursor → Except Fault (Nat × List Char × Cursor)
  | 0, widest, breaks, c => .ok (widest, breaks, c)
  | fuel + 1, widest, breaks, c =>
    let spaces := (c.rest.takeWhile (· = ' ')).length
    let c := c.skip (if indent = 0 then spaces else min spaces (indent - c.column))
    let widest := max widest c.column
    match c.rest with
    | [] => .ok (widest, breaks, c)
    | d :: _ =>
      if d = '\t' ∧ (indent = 0 ∨ c.column < indent) then .error .tabInIndentation
      else if isBreak d then blockGap indent fuel widest (breaks ++ [breakText d]) c.skipBreak
      else .ok (widest, breaks, c)

/-- The text of a block scalar so far, in reverse, and the line ends after it. -/
structure Lines where
  text : List Char
  first : List Char
  others : List Char
  /-- Whether the last line starts with a blank. -/
  indented : Bool

/-- A folded line end between two lines that do not start with blanks counts as a space, or as
nothing before empty lines. -/
def Lines.joined (literal : Bool) (l : Lines) (indented : Bool) : List Char :=
  let first :=
    if !literal && l.first = ['\n'] && !l.indented && !indented then
      if l.others.isEmpty then [' '] else []
    else l.first
  first ++ l.others

/-- Reads the lines of a block scalar. -/
def blockLines (literal : Bool) (indent : Nat) :
    Nat → Lines → Cursor → Except Fault (Lines × Cursor)
  | 0, l, c => .ok (l, c)
  | fuel + 1, l, c =>
    match c.rest with
    | [] => .ok (l, c)
    | d :: _ =>
      if c.column ≠ indent then .ok (l, c)
      else do
        let line := c.rest.takeWhile (! isBreak ·)
        let text := line.reverse ++ (l.joined literal (isBlank d)).reverse ++ l.text
        let c := c.skip line.length
        let first := match c.rest with
          | [] => []
          | b :: _ => [breakText b]
        let c := c.skipBreak
        let (_, others, c) ← blockGap indent (c.rest.length + 1) 0 [] c
        blockLines literal indent fuel ⟨text, first, others, isBlank d⟩ c

/-- Reads a block scalar in a block of the given indentation. -/
def block (literal : Bool) (outer : Int) (c : Cursor) : Except Fault (List Char × Cursor) := do
  let (head, c) ← header (c.skip 1)
  let c := c.skipWhile isBlank
  let c := if c.rest.head? = some '#' then c.skipWhile (! isBreak ·) else c
  if !(atBreak c.rest) then .error .malformedBlockHeader
  else do
    let c := c.skipBreak
    let known := match head.increment with
      | some n => (if 0 ≤ outer then outer else 0).toNat + n
      | none => 0
    let (widest, breaks, c) ← blockGap known (c.rest.length + 1) 0 [] c
    let indent := if known = 0 then max (max widest (outer + 1).toNat) 1 else known
    let (l, c) ← blockLines literal indent (c.rest.length + 1) ⟨[], [], breaks, false⟩ c
    let tail := match head.chomping with
      | .strip => []
      | .clip => l.first
      | .keep => l.first ++ l.others
    .ok (l.text.reverse ++ tail, c)

end LayeredConfig.Yaml.Scalar
