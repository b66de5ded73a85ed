import LayeredConfig.Dict
import LayeredConfig.Text.Blank
/-!
# Names

Which names a store accepts that maps names to file paths: at most 250 bytes, and no character that
is blank or that separates or quotes paths.
-/

namespace LayeredConfig.Name

/-- The greatest length of a name, in bytes. -/
def maxBytes : Nat := 250

/-- Characters that no name has, beside the blank ones. -/
def isForbidden (c : Char) : Bool := ":?*<>\"'/\\".toList.contains c

/-- Whether a character may stand in a name. -/
def isNameCharacter (c : Char) : Bool := !isForbidden c && !Text.isBlank c

/-- Whether a name is accepted. -/
def isValid (name : String) : Bool :=
  !name.isEmpty && name.utf8ByteSize ≤ maxBytes && name.toList.all isNameCharacter

/-- Cuts a list at each occurrence of a separator. -/
def cut (separator : Char) : List Char → List (List Char)
  | [] => [[]]
  | c :: rest =>
    if c = separator then [] :: cut separator rest
    else match cut separator rest with
      | [] => [[c]]
      | part :: parts => (c :: part) :: parts

/-- The parts of a text between its separators. -/
def parts (separator : Char) (s : String) : List String :=
  (cut separator s.toList).map String.ofList

/-- The default collection. -/
def defaultCollection : String := ""

/-- The segments of a collection's name, one for each level of directories. -/
def segments (collection : String) : List String :=
  if collection.isEmpty then [] else parts '.' collection

/-- Whether a store that maps names to paths accepts a collection. -/
def isValidCollection (collection : String) : Bool := (segments collection).all isValid

/-- Names in ascending order, each once. -/
def sortedUnique (names : List String) : List String :=
  (Dict.ofList (names.map fun n => (n, ()))).keys

end LayeredConfig.Name
