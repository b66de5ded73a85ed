import LayeredConfig.Failure
/-!
# Glob patterns

A glob is a pattern for names. `?` stands for one byte and `*` for any bytes; two stars between
slashes, or between a slash and an end, stand for any directories. Brackets hold a class of
characters, braces hold alternatives, and a backslash takes the next character as it is.
`Glob.ofText?` reads a glob, one character after the other.
-/

namespace LayeredConfig

/-- A part of a glob. -/
inductive Glob.Token
  | literal (c : Char)
  | any
  | zeroOrMore
  /-- Two stars at the start: nothing, or any directories with their last slash. -/
  | recursivePrefix
  /-- Two stars at the end, with the slash before them. -/
  | recursiveSuffix
  /-- Two stars between two slashes, which belong to it. -/
  | recursiveZeroOrMore
  | oneOf (negated : Bool) (ranges : List (Char × Char))
  | alternates (branches : List (List Token))

/-- A pattern for names. -/
structure Glob where
  tokens : List Glob.Token

namespace Glob

/-! ## Classes of characters -/

/-- A class whose end has not been read: its ranges, the last one first, and whether a dash waits
for the end of a range. -/
structure ClassDraft where
  negated : Bool
  ranges : List (Char × Char)
  dash : Bool

/-- One more character of a class. The first one is always a member. -/
def ClassDraft.add (k : ClassDraft) (c : Char) : Except GlobFault ClassDraft :=
  match k.ranges with
  | [] => .ok ⟨k.negated, [(c, c)], false⟩
  | (first, last) :: before =>
    if k.dash then
      if c < first then .error (.invalidRange first c)
      else .ok ⟨k.negated, (first, c) :: before, false⟩
    else if c = '-' then .ok ⟨k.negated, (first, last) :: before, true⟩
    else .ok ⟨k.negated, (c, c) :: (first, last) :: before, false⟩

/-- The class at its end. A dash that still waits is a member. -/
def ClassDraft.close (k : ClassDraft) : Token :=
  .oneOf k.negated ((if k.dash then ('-', '-') :: k.ranges else k.ranges).reverse)

/-! ## Alternatives -/

/-- Alternatives whose end has not been read: the tokens before them and the branches that are
complete, both from the last to the first. -/
structure OpenGroup where
  before : List Token
  branches : List (List Token)

/-- What has been read of a glob: the tokens of the innermost branch, the last one first, and the
groups that are open around it. -/
structure Draft where
  tokens : List Token
  groups : List OpenGroup

namespace Draft

/-- Adds a token. -/
def push (d : Draft) (t : Token) : Draft := { d with tokens := t :: d.tokens }

/-- Begins a group. -/
def enter (d : Draft) : Draft := ⟨[], ⟨d.tokens, []⟩ :: d.groups⟩

/-- Begins the next branch of a group. A comma outside of groups stands for itself. -/
def comma (d : Draft) : Draft :=
  match d.groups with
  | [] => d.push (.literal ',')
  | g :: gs => ⟨[], ⟨g.before, d.tokens.reverse :: g.branches⟩ :: gs⟩

/-- Ends a group. -/
def leave (d : Draft) : Except GlobFault Draft :=
  match d.groups with
  | [] => .error .unopenedAlternates
  | g :: gs => .ok ⟨.alternates (d.tokens.reverse :: g.branches).reverse :: g.before, gs⟩

/-- Whether two stars may stand for directories after a character. -/
def allowsDirectories (d : Draft) (before : Option Char) : Bool :=
  d.tokens.isEmpty || before = some '/' ||
    (!d.groups.isEmpty && (before = some ',' || before = some '\x7b'))

/-- Two stars that stand for directories, in the place of the slash before them. Directly after
other such stars they say nothing new. -/
def directories (d : Draft) (t : Token) : Draft :=
  match d.tokens with
  | [] => d.push .recursivePrefix
  | .recursivePrefix :: _ => d
  | .recursiveSuffix :: _ => d
  | _ :: rest => { d with tokens := t :: rest }

/-- Two stars that are not followed by a slash, between a character and what follows. -/
def stars (d : Draft) (before after : Option Char) : Draft :=
  let plain := (d.push .zeroOrMore).push .zeroOrMore
  if !d.allowsDirectories before then plain
  else match after with
    | none => d.directories .recursiveSuffix
    | some c =>
      if !d.tokens.isEmpty && !d.groups.isEmpty && (c = ',' || c = '\x7d') then
        d.directories .recursiveSuffix
      else plain

end Draft

/-! ## Reading -/

/-- Where in a glob the next character stands: in a class, or outside of classes after a character.
-/
inductive Mode
  | outside (before : Option Char)
  | inside (k : ClassDraft)

/-- Reads the rest of a glob. -/
def read : Mode → Draft → List Char → Except GlobFault Draft
  | .outside _, d, [] => .ok d
  | .inside _, _, [] => .error .unclosedClass
  | .inside k, d, c :: rest =>
    if c = ']' && !k.ranges.isEmpty then read (.outside (some ']')) (d.push k.close) rest
    else match k.add c with
      | .ok k => read (.inside k) d rest
      | .error f => .error f
  | .outside before, d, '*' :: '*' :: '/' :: rest =>
    if d.allowsDirectories before then
      read (.outside (some '/')) (d.directories .recursiveZeroOrMore) rest
    else
      let d := ((d.push .zeroOrMore).push .zeroOrMore).push (.literal '/')
      read (.outside (some '/')) d rest
  | .outside before, d, '*' :: '*' :: rest =>
    read (.outside (some '*')) (d.stars before rest.head?) rest
  | .outside _, d, '*' :: rest => read (.outside (some '*')) (d.push .zeroOrMore) rest
  | .outside _, d, '?' :: rest => read (.outside (some '?')) (d.push .any) rest
  | .outside _, d, '[' :: '!' :: rest => read (.inside ⟨true, [], false⟩) d rest
  | .outside _, d, '[' :: '^' :: rest => read (.inside ⟨true, [], false⟩) d rest
  | .outside _, d, '[' :: rest => read (.inside ⟨false, [], false⟩) d rest
  | .outside _, d, '\x7b' :: rest => read (.outside (some '\x7b')) d.enter rest
  | .outside _, d, '\x7d' :: rest =>
    match d.leave with
    | .ok d => read (.outside (some '\x7d')) d rest
    | .error f => .error f
  | .outside _, d, ',' :: rest => read (.outside (some ',')) d.comma rest
  | .outside _, _, ['\\'] => .error .danglingEscape
  | .outside _, d, '\\' :: c :: rest => read (.outside (some c)) (d.push (.literal c)) rest
  | .outside _, d, c :: rest => read (.outside (some c)) (d.push (.literal c)) rest

/-- The glob of a text. -/
def ofText? (text : String) : Except GlobFault Glob :=
  match read (.outside none) ⟨[], []⟩ text.toList with
  | .error f => .error f
  | .ok d => if d.groups.isEmpty then .ok ⟨d.tokens.reverse⟩ else .error .unclosedAlternates

end Glob

end LayeredConfig
