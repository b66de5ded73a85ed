import LayeredConfig.Dict
import LayeredConfig.Binary64
/-!
# Values and documents

A value is what a YAML node stands for. The entries of a mapping keep their order, which shows when
a value is written, but `Value.same` does not count it. A document gives values to names.
-/

namespace LayeredConfig

/-- A configuration value. A tag is kept without its leading exclamation mark. -/
inductive Value
  | null
  | bool (b : Bool)
  | integer (n : Int)
  | float (x : Binary64)
  | string (s : String)
  | sequence (items : List Value)
  | mapping (entries : List (Value × Value))
  | tagged (tag : String) (content : Value)

instance : Inhabited Value := ⟨.null⟩

namespace Value

/-! ## Sameness -/

mutual

/-- The same value: mappings count as sets of entries, and floats as numbers. -/
def same : Value → Value → Bool
  | .null, .null => true
  | .bool a, .bool b => a == b
  | .integer a, .integer b => a == b
  | .float a, .float b => a.same b
  | .string a, .string b => a == b
  | .sequence xs, .sequence ys => sameItems xs ys
  | .mapping xs, .mapping ys => xs.length == ys.length && sameEntries xs ys
  | .tagged s v, .tagged t w => s == t && same v w
  | _, _ => false

/-- The same values one by one. -/
def sameItems : List Value → List Value → Bool
  | [], [] => true
  | x :: xs, y :: ys => same x y && sameItems xs ys
  | _, _ => false

/-- Every entry of the first list has the same entry in the second one. -/
def sameEntries : List (Value × Value) → List (Value × Value) → Bool
  | [], _ => true
  | (k, v) :: rest, ys => ys.any (fun e => same k e.1 && same v e.2) && sameEntries rest ys

end

mutual

theorem same_refl : ∀ v : Value, same v v = true
  | .null => rfl
  | .bool _ | .integer _ | .string _ => by simp [same]
  | .float x => x.same_refl
  | .sequence vs => sameItems_refl vs
  | .mapping es => by simp [same, sameEntries_refl es es fun _ h => h]
  | .tagged _ v => by simp [same, same_refl v]

theorem sameItems_refl : ∀ vs : List Value, sameItems vs vs = true
  | [] => rfl
  | v :: rest => by simp [sameItems, same_refl v, sameItems_refl rest]

/-- Every entry is the same as itself, where it stands in the other list. -/
theorem sameEntries_refl : ∀ (es all : List (Value × Value)), (∀ e ∈ es, e ∈ all) →
    sameEntries es all = true
  | [], _, _ => rfl
  | (k, v) :: rest, all, h => by
    have hmem : (k, v) ∈ all := h _ (by simp)
    have hany : all.any (fun e => same k e.1 && same v e.2) = true :=
      List.any_eq_true.mpr ⟨(k, v), hmem, by simp [same_refl k, same_refl v]⟩
    simp [sameEntries, hany, sameEntries_refl rest all fun e he => h e (by simp [he])]

end

/-! ## Tags -/

/-- A tag as it is kept: one leading exclamation mark does not count, unless it is the whole tag. -/
def plainTag (tag : String) : String :=
  match tag.toList with
  | ['!'] => tag
  | '!' :: rest => String.ofList rest
  | _ => tag

/-- A value without the tags around it. -/
def untagged : Value → Value
  | .tagged _ v => v.untagged
  | v => v

/-! ## Entries under text keys -/

/-- Whether a key is this text. -/
def isKey (key : String) : Value → Bool
  | .string s => s == key
  | _ => false

/-- The value under a text key. -/
def find? (key : String) : List (Value × Value) → Option Value
  | [] => none
  | e :: rest => if e.1.isKey key then some e.2 else find? key rest

/-- Gives a text key a value: in its place if the key is there, else at the end. -/
def put (key : String) (value : Value) : List (Value × Value) → List (Value × Value)
  | [] => [(.string key, value)]
  | e :: rest => if e.1.isKey key then (e.1, value) :: rest else e :: put key value rest

/-- Changes the value under a text key, if the key is there. -/
def adjust (key : String) (f : Value → Value) : List (Value × Value) → List (Value × Value)
  | [] => []
  | e :: rest => if e.1.isKey key then (e.1, f e.2) :: rest else e :: adjust key f rest

/-- Takes a text key out. The last entry moves to the place that becomes free. -/
def takeOut (key : String) : List (Value × Value) → List (Value × Value)
  | [] => []
  | e :: rest =>
    if e.1.isKey key then
      match rest.getLast? with
      | none => []
      | some last => last :: rest.dropLast
    else e :: takeOut key rest

/-- The entries of a mapping, also of a tagged one. -/
def entries? : Value → Option (List (Value × Value))
  | .mapping es => some es
  | .tagged _ v => v.entries?
  | _ => none

/-- Changes the entries of a mapping, also of a tagged one, and nothing else. -/
def mapEntries (f : List (Value × Value) → List (Value × Value)) : Value → Value
  | .mapping es => .mapping (f es)
  | .tagged t v => .tagged t (v.mapEntries f)
  | v => v

end Value

/-- A configuration document: values under names. -/
abbrev Document := Dict Value

namespace Document

/-- The same entries one by one. -/
def sameFields : List (String × Value) → List (String × Value) → Bool
  | [], [] => true
  | x :: xs, y :: ys => x.1 == y.1 && x.2.same y.2 && sameFields xs ys
  | _, _ => false

/-- The same document: the same names with the same values. -/
def same (d e : Document) : Bool := sameFields d.entries e.entries

theorem sameFields_refl (es : List (String × Value)) : sameFields es es = true := by
  induction es with
  | nil => rfl
  | cons e rest ih => simp [sameFields, e.2.same_refl, ih]

@[simp] theorem same_refl (d : Document) : d.same d = true := sameFields_refl d.entries

end Document

end LayeredConfig
