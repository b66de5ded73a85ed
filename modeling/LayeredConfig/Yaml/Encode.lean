import LayeredConfig.Decimal.Shortest
import LayeredConfig.Yaml.Fault
import LayeredConfig.Yaml.ScalarStyle
/-!
# From values to texts

Values are written in block style, two columns for each level; sequences stand at the column of the
key before them. `Value.faultOf?` tells which values cannot be written: a tag directly under a tag,
and a mapping of one entry whose key is tagged or another such mapping, unless a tag stands before
it.
-/

namespace LayeredConfig.Yaml

/-! ## What cannot be written -/

/-- A key that only a mapping of several entries, or a tagged one, may have. -/
def isHeavyKey : Value → Bool
  | .tagged .. => true
  | .mapping [_] => true
  | _ => false

mutual

/-- Why a value cannot be written. The flag tells whether a tag stands before it. -/
def faultOf? (underTag : Bool) : Value → Option Fault
  | .tagged _ v => if underTag then some .nestedTag else faultOf? true v
  | .sequence vs => faultOfItems? vs
  | .mapping [e] =>
    if !underTag && isHeavyKey e.1 then some .unwritableKey
    else (faultOf? false e.1).or (faultOf? false e.2)
  | .mapping es => faultOfEntries? es
  | _ => none

/-- Why one of some values cannot be written. -/
def faultOfItems? : List Value → Option Fault
  | [] => none
  | v :: rest => (faultOf? false v).or (faultOfItems? rest)

/-- Why one of some entries cannot be written. -/
def faultOfEntries? : List (Value × Value) → Option Fault
  | [] => none
  | (k, v) :: rest => ((faultOf? false k).or (faultOf? false v)).or (faultOfEntries? rest)

end

/-! ## Scalars -/

/-- Floats are written without an exponent from `1e-5` to below `1e16`, and exponents without a plus
sign. -/
def floatLayout : Decimal.Layout := ⟨-5, 16, false⟩

/-- A float as text. -/
def floatText : Binary64 → String
  | .nan => ".nan"
  | .infinite false => ".inf"
  | .infinite true => "-.inf"
  | .finite negative significand exponent => floatLayout.number negative significand exponent

/-- A value that is no text and no collection as text. -/
def atomText? : Value → Option String
  | .null => some "null"
  | .bool true => some "true"
  | .bool false => some "false"
  | .integer n => some (toString n)
  | .float x => some (floatText x)
  | _ => none

/-! ## Tags -/

/-- A tag as it is written: with an exclamation mark in front, unless it starts with one. -/
def tagText (tag : String) : List Char :=
  match tag.toList with
  | '!' :: rest => '!' :: rest
  | cs => '!' :: cs

/-- The bytes of a tag as it is written; those that stand for no letter of tags are spelled out. -/
def tagBytes (cs : List Char) : List Char :=
  cs.flatMap fun c =>
    if isWord c || ";/?:@&=+$,_.~*'()[]".toList.contains c then [c]
    else (String.ofList [c]).toUTF8.toList.flatMap fun b => '%' :: Pen.hexDigits 2 b.toNat

/-- A tag as it stands before a value. -/
def tagSign (tag : String) : List Char :=
  match tagText tag with
  | ['!'] => "!<%21>".toList
  | cs => '!' :: tagBytes (cs.drop 1)

/-- How many bytes a tag counts for in a key. -/
def tagLength : Option String → Nat
  | none => 0
  | some tag => (String.ofList (tagText tag)).utf8ByteSize

/-- Writes a tag. -/
def Pen.tag (tag : Option String) (p : Pen) : Pen :=
  match tag with
  | none => p
  | some t => (p.separate.put (tagSign t)).close

/-! ## Keys -/

/-- Whether a key stands on the line of its colon: it has one line and at most 128 bytes. -/
def isSimpleKey (tag : Option String) : Value → Bool
  | .string s => !(Traits.of s.toList).multiline && tagLength tag + s.utf8ByteSize ≤ 128
  | .sequence vs => vs.isEmpty && tagLength tag ≤ 128
  | .mapping es => es.isEmpty && tagLength tag ≤ 128
  | .tagged t v => isSimpleKey (some t) v
  | v => tagLength tag + ((atomText? v).getD "").utf8ByteSize ≤ 128

/-! ## Values -/

/-- The column inside a collection. -/
def inside (indent : Int) : Int := if indent < 0 then 0 else indent + 2

/-- The column inside a scalar. -/
def insideScalar (indent : Int) : Nat := if indent < 0 then 2 else (indent + 2).toNat

mutual

/-- Writes a value. `field` tells whether it is a key or a value of a mapping, `inKey` whether it
stands on the line of its colon. -/
def writeValue (indent : Int) (field inKey : Bool) (tag : Option String) : Value → Pen → Pen
  | .tagged t v, p => writeValue indent field inKey (some t) v p
  | .string s, p =>
    let cs := s.toList
    (p.tag tag).scalar (Style.ofText cs inKey) (insideScalar indent) cs
  | .sequence [], p => (((p.tag tag).separate.sign ['['] true false).sign [']'] false false)
  | .mapping [], p => (((p.tag tag).separate.sign ['\x7b'] true false).sign ['\x7d'] false false)
  | .sequence (v :: vs), p =>
    let p := p.tag tag
    -- After a key on the same line, a sequence is not indented.
    let column := if field && !p.fresh && 0 ≤ indent then indent else inside indent
    writeItems column (v :: vs) p
  | .mapping (e :: es), p => writeEntries (inside indent) (e :: es) (p.tag tag)
  | v, p => (p.tag tag).scalar .plain (insideScalar indent) ((atomText? v).getD "").toList

/-- Writes the items of a sequence. -/
def writeItems (column : Int) : List Value → Pen → Pen
  | [], p => p
  | v :: rest, p =>
    let p := (p.lineTo column.toNat).separate.sign ['-'] false true
    writeItems column rest (writeValue column false false none v p)

/-- Writes the entries of a mapping. -/
def writeEntries (column : Int) : List (Value × Value) → Pen → Pen
  | [], p => p
  | (k, v) :: rest, p =>
    let p := p.lineTo column.toNat
    let p :=
      if isSimpleKey none k then
        (writeValue column true true none k p).sign [':'] false false
      else
        let p := writeValue column true false none k (p.separate.sign ['?'] false true)
        (p.lineTo column.toNat).separate.sign [':'] false true
    writeEntries column rest (writeValue column true false none v p)

end

/-- The text of a value. -/
def encode (v : Value) : Except Fault String :=
  match faultOf? false v with
  | some f => .error f
  | none => .ok ((writeValue (-1) false false none v Pen.start).lineTo 0).text

/-- The value that a document is written as. -/
def valueOf (d : Document) : Value :=
  .mapping (d.entries.map fun e => (.string e.1, e.2))

end LayeredConfig.Yaml
