import LayeredConfig.Name
/-!
# Paths as texts

A path is a text whose components are separated by slashes. Empty components do not count, and a
single dot counts only in front.
-/

namespace LayeredConfig.Path

/-- What a path starts with that is not a part of its body: a slash, or a dot that is a component.
-/
def head (s : List Char) : List Char :=
  match s with
  | '/' :: _ => ['/']
  | ['.'] => ['.']
  | '.' :: '/' :: _ => ['.']
  | _ => []

/-- The pieces of a path's body, the last one first, without the ones at its end that do not count.
-/
def pieces (s : List Char) : List (List Char) :=
  ((Name.cut '/' (s.drop (head s).length)).reverse).dropWhile fun p => p = [] ∨ p = ['.']

/-- The last component of a path, unless the path ends in two dots or has no component but a dot. -/
def fileName? (path : String) : Option String :=
  match pieces path.toList with
  | [] => none
  | p :: _ => if p = ['.', '.'] then none else some (String.ofList p)

/-- The path without its last component. The empty path and the root have none. -/
def parent? (path : String) : Option String :=
  let s := path.toList
  match pieces s with
  | [] => if head s = ['.'] then some "" else none
  | _ :: before =>
    let before := before.dropWhile fun p => p = [] ∨ p = ['.']
    some (String.ofList (head s ++ ['/'].intercalate before.reverse))

/-- Whether a path ends in a slash, and so asks for a directory. -/
def endsInSlash (path : String) : Bool := path.toList.getLast? = some '/'

/-- A path with one more component. -/
def join (path part : String) : String :=
  if path.isEmpty || endsInSlash path then path ++ part else path ++ "/" ++ part

/-- The components of a path as they are followed one by one. -/
def steps (path : String) : List String := (Name.parts '/' path).filter (! ·.isEmpty)

end LayeredConfig.Path
