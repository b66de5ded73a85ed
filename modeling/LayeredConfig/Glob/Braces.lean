/-!
# Literal braces

Ignore patterns have no alternatives: a brace outside of a character class stands for itself, and a
backslash is put before it (`Glob.escapeBraces`).
-/

namespace LayeredConfig.Glob

/-- Puts a backslash before each brace that is not in a class. The flag tells whether the next
character is in a class. -/
def escapeFrom : Bool → List Char → List Char
  | _, [] => []
  | true, ']' :: rest => ']' :: escapeFrom false rest
  | true, c :: rest => c :: escapeFrom true rest
  | false, ['\\'] => ['\\']
  | false, '\\' :: c :: rest => '\\' :: c :: escapeFrom false rest
  | false, '[' :: '!' :: ']' :: rest => '[' :: '!' :: ']' :: escapeFrom true rest
  | false, '[' :: '^' :: ']' :: rest => '[' :: '^' :: ']' :: escapeFrom true rest
  | false, '[' :: '!' :: rest => '[' :: '!' :: escapeFrom true rest
  | false, '[' :: '^' :: rest => '[' :: '^' :: escapeFrom true rest
  | false, '[' :: ']' :: rest => '[' :: ']' :: escapeFrom true rest
  | false, '[' :: rest => '[' :: escapeFrom true rest
  | false, '\x7b' :: rest => '\\' :: '\x7b' :: escapeFrom false rest
  | false, '\x7d' :: rest => '\\' :: '\x7d' :: escapeFrom false rest
  | false, c :: rest => c :: escapeFrom false rest

/-- A glob with its braces as plain characters. -/
def escapeBraces (glob : String) : String := String.ofList (escapeFrom false glob.toList)

end LayeredConfig.Glob
