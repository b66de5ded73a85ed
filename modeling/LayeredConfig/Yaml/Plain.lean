import LayeredConfig.Value
import LayeredConfig.Yaml.Cursor
/-!
# What a plain scalar stands for

A scalar without quotes is null, a truth value, an integer, a float or a text, by its spelling alone
(`Plain.ofText`). Integers are decimal, hexadecimal, octal or binary; a decimal one has no leading
zeros. Integers from 64 to 128 bits are recognised but stand for no value, and decimal ones beyond
that are floats.
-/

namespace LayeredConfig.Yaml

/-- What a plain scalar stands for. -/
inductive Plain
  | null
  | bool (b : Bool)
  | integer (n : Int)
  /-- An integer beyond 64 bits. -/
  | wide
  | float (x : Binary64)
  | text
  deriving DecidableEq, Inhabited

namespace Plain

/-- The spellings of null, apart from the empty scalar. -/
def isNull (s : List Char) : Bool :=
  s = ['~'] ∨ s = ['n', 'u', 'l', 'l'] ∨ s = ['N', 'u', 'l', 'l'] ∨ s = ['N', 'U', 'L', 'L']

/-- The spellings of the truth values. -/
def bool? (s : List Char) : Option Bool :=
  if s = "true".toList ∨ s = "True".toList ∨ s = "TRUE".toList then some true
  else if s = "false".toList ∨ s = "False".toList ∨ s = "FALSE".toList then some false
  else none

/-- Reads on in a number whose leading digits have been read. -/
def digitsFrom (base : Nat) : Nat → List Char → Option Nat
  | n, [] => some n
  | n, c :: rest =>
    match digit? c with
    | some d => if d < base then digitsFrom base (n * base + d) rest else none
    | none => none

/-- A number in some base, of one digit at least. -/
def natural? (base : Nat) (s : List Char) : Option Nat :=
  if s.isEmpty then none else digitsFrom base 0 s

/-- Whether a text is a decimal number but for leading zeros. -/
def hasLeadingZero (s : List Char) : Bool :=
  let s := match s with
    | '-' :: rest => rest
    | '+' :: rest => rest
    | _ => s
  match s with
  | '0' :: d :: rest => (d :: rest).all Char.isDigit
  | _ => false

/-- A number without its sign. -/
def magnitude? (s : List Char) : Option Nat :=
  match s with
  | '0' :: 'x' :: rest => natural? 16 rest
  | '0' :: 'o' :: rest => natural? 8 rest
  | '0' :: 'b' :: rest => natural? 2 rest
  | _ => if hasLeadingZero s then none else natural? 10 s

/-- An integer of any size, with its sign. -/
def signed? (s : List Char) : Option (Bool × Nat) :=
  match s with
  | '-' :: rest => (magnitude? rest).map (true, ·)
  | '+' :: rest => (magnitude? rest).map (false, ·)
  | _ => (magnitude? s).map (false, ·)

/-- An integer that fits some number of bits: from `-2 ^ (bits - 1)` to below `2 ^ bits`. -/
def fits (bits : Nat) : Bool × Nat → Bool
  | (true, n) => n ≤ Nat.pow 2 (bits - 1)
  | (false, n) => n < Nat.pow 2 bits

/-- An integer that a plain scalar spells, of 128 bits at most. -/
def integer? (s : List Char) : Option Plain :=
  match signed? s with
  | some (negative, n) =>
    if fits 64 (negative, n) then some (.integer (if negative then -n else n))
    else if fits 128 (negative, n) then some .wide
    else none
  | none => none

/-- The exponent of a decimal number: nothing, or a mark, a sign and digits. -/
def exponent? (s : List Char) : Option Int :=
  let number (s : List Char) : Option Int := (natural? 10 s).map Int.ofNat
  match s with
  | [] => some 0
  | c :: rest =>
    if c = 'e' ∨ c = 'E' then
      match rest with
      | '-' :: rest => (number rest).map (- ·)
      | '+' :: rest => number rest
      | _ => number rest
    else none

/-- A decimal number without a sign: digits with at most one point between or beside them, and an
exponent. -/
def decimal? (negative : Bool) (s : List Char) : Option Binary64 :=
  let whole := s.takeWhile Char.isDigit
  let after := s.dropWhile Char.isDigit
  let (part, tail) := match after with
    | '.' :: rest => (rest.takeWhile Char.isDigit, rest.dropWhile Char.isDigit)
    | _ => ([], after)
  match natural? 10 (whole ++ part), exponent? tail with
  | some n, some e => some (.ofDecimal negative n (e - part.length))
  | _, _ => none

/-- A float that a plain scalar spells. Decimal numbers beyond the greatest float are no floats. -/
def float? (s : List Char) : Option Binary64 :=
  let infinity (s : List Char) : Bool :=
    s = ".inf".toList ∨ s = ".Inf".toList ∨ s = ".INF".toList
  if s = ".nan".toList ∨ s = ".NaN".toList ∨ s = ".NAN".toList then some .nan
  else
    let number := match s with
      | '-' :: rest => if infinity rest then some (.infinite true) else finite? (decimal? true rest)
      | '+' :: rest =>
        if infinity rest then some (.infinite false) else finite? (decimal? false rest)
      | _ => if infinity s then some (.infinite false) else finite? (decimal? false s)
    number
where
  finite? : Option Binary64 → Option Binary64
    | some x => if x.isFinite then some x else none
    | none => none

/-- What a plain scalar stands for. -/
def ofText (s : List Char) : Plain :=
  if s.isEmpty ∨ isNull s then .null
  else match bool? s with
    | some b => .bool b
    | none =>
      match integer? s with
      | some p => p
      | none =>
        if hasLeadingZero s then .text
        else match float? s with
          | some x => .float x
          | none => .text

end Plain

end LayeredConfig.Yaml
