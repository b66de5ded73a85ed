import LayeredConfig.Glob.Token
/-!
# Which names a glob admits

Names are matched byte by byte. The tokens of a glob are followed at all places of the name at once:
`Marks` tells for each place, before the first byte, after it, and so on, whether the tokens so far
lead there. A glob admits a name if its tokens lead to the end.
-/

namespace LayeredConfig.Glob

/-- For each place of a text whether it can be reached. -/
abbrev Marks := List Bool

/-- One step over a byte that passes a test. -/
def advance (p : UInt8 → Bool) (bytes : List UInt8) (marks : Marks) : Marks :=
  false :: List.zipWith (fun b m => m && p b) bytes marks

/-- Any number of steps. -/
def spread : Bool → Marks → Marks
  | _, [] => []
  | reached, m :: rest => (reached || m) :: spread (reached || m) rest

/-- The places that are reached in one way or the other. -/
def either (a b : Marks) : Marks := List.zipWith (· || ·) a b

/-- The bytes of a character. -/
def bytesOf (c : Char) : List UInt8 := (String.singleton c).toUTF8.toList

/-- Whether a byte is a slash. -/
def isSlash (b : UInt8) : Bool := b == 47

/-- Whether a byte belongs to a range: it is one of the bytes of its ends, or lies between the last
byte of the first character and the first byte of the last one. A range of one character has the bytes
of this character only. -/
def inRange (b : UInt8) (r : Char × Char) : Bool :=
  let first := bytesOf r.1
  let last := bytesOf r.2
  first.contains b || last.contains b ||
    (r.1 ≠ r.2 && first.getLastD 0 ≤ b && b ≤ last.headD 0)

mutual

/-- The places that a token leads to. -/
def Token.step (bytes : List UInt8) (marks : Marks) : Token → Marks
  | .literal c => (bytesOf c).foldl (fun m b => advance (· == b) bytes m) marks
  | .any => advance (fun _ => true) bytes marks
  | .zeroOrMore => spread false marks
  | .recursivePrefix => either marks (advance isSlash bytes (spread false marks))
  | .recursiveSuffix => spread false (advance isSlash bytes marks)
  | .recursiveZeroOrMore =>
    let below := advance isSlash bytes marks
    either below (advance isSlash bytes (spread false below))
  | .oneOf negated ranges => advance (fun b => ranges.any (inRange b) != negated) bytes marks
  | .alternates branches => stepBranches bytes marks branches

/-- The places that some tokens lead to. -/
def stepAll (bytes : List UInt8) (marks : Marks) : List Token → Marks
  | [] => marks
  | t :: rest => stepAll bytes (t.step bytes marks) rest

/-- The places that one of some branches leads to. -/
def stepBranches (bytes : List UInt8) (marks : Marks) : List (List Token) → Marks
  | [] => marks.map fun _ => false
  | ts :: rest => either (stepAll bytes marks ts) (stepBranches bytes marks rest)

end

/-- Whether a glob admits a name. Two stars alone admit all names. -/
def admits (g : Glob) (name : String) : Bool :=
  match g.tokens with
  -- On its own the token ends in no slash.
  | [.recursivePrefix] => true
  | tokens =>
    let bytes := name.toUTF8.toList
    (stepAll bytes (true :: bytes.map fun _ => false) tokens).getLastD false

/-! ## Paths -/

/-- Whether a token is a character that passes a test. -/
def Token.isLiteral (p : Char → Bool) : Token → Bool
  | .literal c => p c
  | _ => false

/-- Whether tokens end in a dot and other characters than dots and slashes. -/
def endsInExtension (tokens : List Token) : Bool :=
  match tokens.reverse.dropWhile (Token.isLiteral fun c => c ≠ '.' && c ≠ '/') with
  | .literal '.' :: _ => true
  | _ => false

/-- Whether tokens are a dot and other characters than dots and slashes. -/
def isExtension : List Token → Bool
  | .literal '.' :: rest => rest.all (Token.isLiteral fun c => c ≠ '.' && c ≠ '/')
  | _ => false

/-- Whether a glob is decided by the last component of a path, or by the extension of that: two
stars and a component, a star and an extension, or any tokens that are not all plain and end in an
extension. -/
def looksAtFileName (tokens : List Token) : Bool :=
  let body := match tokens with
    | .recursivePrefix :: rest => rest
    | _ => tokens
  match body with
  | .zeroOrMore :: rest =>
    if rest.all (Token.isLiteral fun _ => true) then isExtension rest else endsInExtension tokens
  | _ =>
    if body.all (Token.isLiteral fun _ => true) then
      body.length < tokens.length && !body.isEmpty && body.all (Token.isLiteral (· ≠ '/'))
    else endsInExtension tokens

/-- Whether a path ends in two dots, and so has no file name. -/
def endsInParent (path : List Char) : Bool :=
  path = ['.', '.'] || path.reverse.take 3 = ['.', '.', '/']

/-- Whether a glob admits a name as a path. A path without a file name is admitted by no glob that
looks at file names. -/
def admitsPath (g : Glob) (name : String) : Bool :=
  g.admits name && !(looksAtFileName g.tokens && endsInParent name.toList)

end LayeredConfig.Glob
