import LayeredConfig.Yaml.Cursor
import LayeredConfig.Yaml.Fault
import LayeredConfig.Yaml.Token
/-!
# Tags, anchors and directives

The tokens that say something about a node or a document. A tag is a handle and a suffix; its suffix
is kept in bytes, since it may spell them one by one.
-/

namespace LayeredConfig.Yaml.Property

/-! ## Tags -/

/-- A character that stands for itself in a tag. Commas and square brackets do so only in a tag that
is written out. -/
def isTagCharacter (whole : Bool) (c : Char) : Bool :=
  isWord c || ";/?:@&=+$.!~*'()".toList.contains c || (whole && ",[]".toList.contains c)

/-- The bytes of a character. -/
def bytes (c : Char) : List UInt8 := (String.ofList [c]).toUTF8.toList

/-- How many bytes a first byte announces. -/
def announced? (b : Nat) : Option Nat :=
  if b < 0x80 then some 1
  else if 0xC0 ≤ b ∧ b < 0xE0 then some 2
  else if 0xE0 ≤ b ∧ b < 0xF0 then some 3
  else if 0xF0 ≤ b ∧ b < 0xF8 then some 4
  else none

/-- Reads the characters of a tag. A percent sign and two hexadecimal digits are a byte, and `due`
such bytes still have to follow in a row. -/
def tagText (whole : Bool) : Nat → List Char → Except Fault (List UInt8 × List Char)
  | 0, '%' :: a :: b :: rest =>
    match digit? a, digit? b with
    | some x, some y =>
      match announced? (x * 16 + y) with
      | some n => (tagText whole (n - 1) rest).map fun r => (UInt8.ofNat (x * 16 + y) :: r.1, r.2)
      | none => .error .malformedTag
    | _, _ => .error .malformedTag
  | due + 1, '%' :: a :: b :: rest =>
    match digit? a, digit? b with
    | some x, some y =>
      if 8 ≤ x ∧ x < 12 then
        (tagText whole due rest).map fun r => (UInt8.ofNat (x * 16 + y) :: r.1, r.2)
      else .error .malformedTag
    | _, _ => .error .malformedTag
  | _ + 1, _ => .error .malformedTag
  | 0, [] => .ok ([], [])
  | 0, c :: rest =>
    if c = '%' then .error .malformedTag
    else if isTagCharacter whole c then
      (tagText whole 0 rest).map fun r => (bytes c ++ r.1, r.2)
    else .ok ([], c :: rest)

/-- Reads the characters of a tag at a place. -/
def tagTextAt (whole : Bool) (c : Cursor) : Except Fault (List UInt8 × Cursor) := do
  let (text, rest) ← tagText whole 0 c.rest
  .ok (text, c.skip (c.rest.length - rest.length))

/-- A handle at a place: an exclamation mark, a word, and an exclamation mark if one follows. -/
def handleAt (c : Cursor) : List Char × Cursor :=
  let word := (c.rest.drop 1).takeWhile isWord
  let closed := (c.rest.drop (1 + word.length)).head? = some '!'
  ('!' :: word ++ (if closed then ['!'] else []),
    c.skip (1 + word.length + (if closed then 1 else 0)))

/-- Reads a tag: written out between angle brackets, with a handle, or local. -/
def tag (inFlow : Bool) (c : Cursor) : Except Fault (Token × Cursor) := do
  let (token, c) ←
    if (c.rest.drop 1).head? = some '<' then do
      let (text, c) ← tagTextAt true (c.skip 2)
      if text.isEmpty ∨ c.rest.head? ≠ some '>' then .error .malformedTag
      else .ok (Token.tag "" text, c.skip 1)
    else do
      let (handle, after) := handleAt c
      if 1 < handle.length ∧ handle.getLast? = some '!' then do
        let (suffix, c) ← tagTextAt false after
        if suffix.isEmpty then .error .malformedTag
        else .ok (Token.tag (String.ofList handle) suffix, c)
      else do
        let (text, c) ← tagTextAt false after
        let suffix := (String.ofList (handle.drop 1)).toUTF8.toList ++ text
        if suffix.isEmpty then .ok (Token.tag "" (bytes '!'), c)
        else .ok (Token.tag "!" suffix, c)
  if atGap c.rest ∨ (inFlow ∧ c.rest.head? = some ',') then .ok (token, c)
  else .error .malformedTag

/-! ## Anchors -/

/-- Reads the name of an anchor or alias. -/
def anchorName (c : Cursor) : Except Fault (String × Cursor) :=
  let c := c.skip 1
  let name := c.rest.takeWhile isWord
  let after := c.skip name.length
  if name.isEmpty then .error .malformedAnchor
  else if atGap after.rest ∨ after.rest.head?.any ("?:,]\x7d%@\x60".toList.contains ·) then
    .ok (String.ofList name, after)
  else .error .malformedAnchor

/-! ## Directives -/

/-- A number of at most nine digits. -/
def versionNumber (c : Cursor) : Except Fault (Nat × Cursor) :=
  let digits := c.rest.takeWhile Char.isDigit
  if digits.isEmpty ∨ 9 < digits.length then .error .malformedDirective
  else .ok (digits.foldl (fun n d => n * 10 + (d.toNat - 48)) 0, c.skip digits.length)

/-- Reads a directive up to the end of its line. -/
def directive (c : Cursor) : Except Fault (Token × Cursor) := do
  let c := c.skip 1
  let name := c.rest.takeWhile isWord
  let c := c.skip name.length
  let (token, c) ←
    if !(atGap c.rest) then .error .malformedDirective
    else if name = "YAML".toList then do
      let (major, c) ← versionNumber (c.skipWhile isBlank)
      if c.rest.head? ≠ some '.' then .error .malformedDirective
      else do
        let (minor, c) ← versionNumber (c.skip 1)
        .ok (Token.version major minor, c)
    else if name = "TAG".toList then do
      let c := c.skipWhile isBlank
      if c.rest.head? ≠ some '!' then .error .malformedDirective
      else
        let (handle, c) := handleAt c
        if handle ≠ ['!'] ∧ handle.getLast? ≠ some '!' then .error .malformedDirective
        else if !(c.rest.head?.any isBlank) then .error .malformedDirective
        else do
          let (start, c) ← tagTextAt true (c.skipWhile isBlank)
          if start.isEmpty ∨ !(atGap c.rest) then .error .malformedDirective
          else .ok (Token.tagDirective (String.ofList handle) start, c)
    else .error .malformedDirective
  let c := c.skipWhile isBlank
  let c := if c.rest.head? = some '#' then c.skipWhile (! isBreak ·) else c
  if !(atBreak c.rest) then .error .malformedDirective
  else .ok (token, c.skipBreak)

end LayeredConfig.Yaml.Property
