import LayeredConfig.Binary64
/-!
# Shortest decimal texts

A finite binary64 number is written with the fewest digits that read back as the same number; of two
such digit strings the nearer one counts, and of two equally near ones the even one. The layout of
the digits is a matter of the format that they are written in (`Layout`).
-/

namespace LayeredConfig.Decimal

/-- Digits without a leading or trailing zero, and the power of ten that the first one stands for.
-/
structure Digits where
  digits : List Nat
  leading : Int
  deriving DecidableEq

/-- The digits of a positive number, the last one first. -/
def digitsReversed (n : Nat) : List Nat :=
  if h : n = 0 then [] else (n % 10) :: digitsReversed (n / 10)
termination_by n
decreasing_by omega

/-- The reals that round to `significand * 2 ^ exponent`, as a lower and an upper end and the number
itself, all over one denominator, and whether the ends belong to them. -/
structure Interval where
  low : Nat
  value : Nat
  high : Nat
  den : Nat
  closed : Bool

/-- The interval of a positive number. Below a power of two, the next smaller number is half as far
away. -/
def interval (significand : Nat) (exponent : Int) : Interval :=
  let narrow := significand = Nat.pow 2 52 ∧ Binary64.minExponent < exponent
  let low := if narrow then 4 * significand - 1 else 4 * significand - 2
  let (up, down) :=
    if 0 ≤ exponent then (Nat.pow 2 exponent.toNat, 1) else (1, Nat.pow 2 (-exponent).toNat)
  { low := low * up, value := 4 * significand * up, high := (4 * significand + 2) * up,
    den := 4 * down, closed := significand % 2 = 0 }

/-- Whether `num / den` lies in the interval. -/
def Interval.admits (i : Interval) (num den : Nat) : Bool :=
  let below := compare (i.low * den) (num * i.den)
  let above := compare (num * i.den) (i.high * den)
  if i.closed then below != .gt && above != .gt else below == .lt && above == .lt

/-- The best multiple of `10 ^ position` in the interval: the multiples next to the number below and
above are the only candidates. -/
def Interval.onGrid (i : Interval) (position : Int) : Option Nat :=
  let (num, den) :=
    if 0 ≤ position then (Nat.pow 10 position.toNat, 1) else (1, Nat.pow 10 (-position).toNat)
  let q := i.value * den / (i.den * num)
  let lower := i.admits (q * num) den
  let upper := i.admits ((q + 1) * num) den
  let twice := 2 * (i.value * den)
  let middle := (2 * q + 1) * (i.den * num)
  if lower && upper then
    if twice < middle then some q
    else if middle < twice then some (q + 1)
    else if q % 2 = 0 then some q else some (q + 1)
  else if lower then some q
  else if upper then some (q + 1)
  else none

/-- Looks for a grid with a hit, from coarse to fine. -/
def search (i : Interval) : Nat → Int → Option (Nat × Int)
  | 0, _ => none
  | steps + 1, position =>
    match i.onGrid position with
    -- Zero is a hit on a grid that is too coarse to have another one.
    | some 0 => search i steps (position - 1)
    | some n => some (n, position)
    | none => search i steps (position - 1)

/-- The shortest digits of a positive number. The search starts above the leading digit, and
seventeen digits always suffice. -/
def shortest (significand : Nat) (exponent : Int) : Digits :=
  let i := interval significand exponent
  let guess : Int := ((digitsReversed i.value).length : Int) - (digitsReversed i.den).length + 1
  match search i 24 guess with
  | none => ⟨[], 0⟩
  | some (n, position) =>
    let ds := digitsReversed n
    ⟨(ds.dropWhile (· = 0)).reverse, position + ds.length - 1⟩

/-- How digits are laid out. -/
structure Layout where
  /-- The least power of ten of a leading digit that is written without an exponent. -/
  least : Int
  /-- The first power of ten of a leading digit that is written with an exponent again. -/
  bound : Int
  /-- Whether an exponent that is not negative carries a plus sign. -/
  signed : Bool

/-- A digit as a character. -/
def digitChar (d : Nat) : Char := Char.ofNat (48 + d)

/-- The digits as text. -/
def digitText (ds : List Nat) : String := String.ofList (ds.map digitChar)

/-- Some zeros. -/
def zeros (n : Int) : String := String.ofList (List.replicate n.toNat '0')

/-- Lays digits out: with a point and at least one digit on either side of it, or with one digit
before the point and an exponent. -/
def Layout.render (l : Layout) (d : Digits) : String :=
  if l.least ≤ d.leading ∧ d.leading < l.bound then
    if d.leading < 0 then "0." ++ zeros (-d.leading - 1) ++ digitText d.digits
    else
      let whole := d.digits.take (d.leading.toNat + 1)
      let part := d.digits.drop (d.leading.toNat + 1)
      digitText whole ++ zeros (d.leading + 1 - whole.length) ++ "." ++
        (if part.isEmpty then "0" else digitText part)
  else
    let mantissa :=
      if d.digits.length ≤ 1 then digitText d.digits
      else digitText (d.digits.take 1) ++ "." ++ digitText (d.digits.drop 1)
    mantissa ++ "e" ++ (if l.signed ∧ 0 ≤ d.leading then "+" else "") ++ toString d.leading

/-- A finite number as text; zero is `0.0`. -/
def Layout.number (l : Layout) (negative : Bool) (significand : Nat) (exponent : Int) : String :=
  (if negative then "-" else "") ++
    (if significand = 0 then "0.0" else l.render (shortest significand exponent))

end LayeredConfig.Decimal
