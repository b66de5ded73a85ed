import LayeredConfig.Decimal.Shortest
import LayeredConfig.Value
/-!
# Values as JSON

Documents as indented JSON. A number or a truth value as a key becomes a text; other keys that are
not texts have no JSON form. Floats that are not finite become null, and a tagged value an object
whose only key is the tag.
-/

namespace LayeredConfig.Json

/-- Floats are written without an exponent from `1e-5` to below `1e16`, and exponents with a sign.
-/
def floatLayout : Decimal.Layout := ⟨-5, 16, true⟩

/-- A hexadecimal digit. -/
def hexDigit (n : Nat) : Char := Char.ofNat (if n < 10 then 48 + n else 87 + n)

/-- A character in a JSON text. -/
def escaped (c : Char) : List Char :=
  match c.toNat with
  | 0x08 => ['\\', 'b']
  | 0x09 => ['\\', 't']
  | 0x0A => ['\\', 'n']
  | 0x0C => ['\\', 'f']
  | 0x0D => ['\\', 'r']
  | 0x22 => ['\\', '"']
  | 0x5C => ['\\', '\\']
  | n => if n < 0x20 then ['\\', 'u', '0', '0', hexDigit (n / 16), hexDigit (n % 16)] else [c]

/-- A text in quotes. -/
def quoted (s : String) : String := "\"" ++ String.ofList (s.toList.flatMap escaped) ++ "\""

/-- A finite float as text. -/
def floatText? : Binary64 → Option String
  | .finite negative significand exponent => some (floatLayout.number negative significand exponent)
  | _ => none

/-- The key of an object. -/
def key? : Value → Option String
  | .string s => some s
  | .bool b => some (if b then "true" else "false")
  | .integer n => some (toString n)
  | .float x => floatText? x
  | _ => none

/-- Two spaces for each level. -/
def margin (level : Nat) : String := String.ofList (List.replicate (2 * level) ' ')

/-- Some members between brackets, each on its own line. -/
def bracketed (opening closing : Char) (level : Nat) (members : List String) : String :=
  if members.isEmpty then String.ofList [opening, closing]
  else
    String.singleton opening ++ "\n" ++
      ",\n".intercalate (members.map (margin (level + 1) ++ ·)) ++ "\n" ++ margin level ++
      String.singleton closing

mutual

/-- A value at some level of nesting. -/
def value? (level : Nat) : Value → Option String
  | .null => some "null"
  | .bool b => some (if b then "true" else "false")
  | .integer n => some (toString n)
  | .float x => some ((floatText? x).getD "null")
  | .string s => some (quoted s)
  | .sequence vs => (items? (level + 1) vs).map (bracketed '[' ']' level)
  | .mapping es => (members? (level + 1) es).map (bracketed '\x7b' '\x7d' level)
  | .tagged t v =>
    (value? (level + 1) v).map fun s =>
      bracketed '\x7b' '\x7d' level [quoted ("!" ++ t) ++ ": " ++ s]

/-- The items of an array. -/
def items? (level : Nat) : List Value → Option (List String)
  | [] => some []
  | v :: rest => (value? level v).bind fun s => (items? level rest).map (s :: ·)

/-- The members of an object. -/
def members? (level : Nat) : List (Value × Value) → Option (List String)
  | [] => some []
  | (k, v) :: rest =>
    (key? k).bind fun name => (value? level v).bind fun s =>
      (members? level rest).map fun ms => (quoted name ++ ": " ++ s) :: ms

end

/-- Documents under their names as one object. No answer means that a key has no JSON form. -/
def documents? (ds : Dict Document) : Option String :=
  let value (d : Document) : Value := .mapping (d.entries.map fun e => (.string e.1, e.2))
  value? 0 (.mapping (ds.entries.map fun e => (.string e.1, value e.2)))

end LayeredConfig.Json
