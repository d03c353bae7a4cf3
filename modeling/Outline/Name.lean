/-
# Names and reserved words

A name is a letter or an underscore followed by letters, digits and
underscores.  The reserved words have the shape of a name; to use one as a name
it is written with the prefix `@`.
-/

import Outline.Character

namespace Outline
namespace Name

/-- The reserved words, in alphabetical order. -/
def keywords : List String := [
  "abstract", "as", "base", "bool", "break", "byte", "case", "catch", "char", "checked",
  "class", "const", "continue", "decimal", "default", "delegate", "do", "double", "else",
  "enum", "event", "explicit", "extern", "false", "finally", "fixed", "float", "for",
  "foreach", "goto", "if", "implicit", "in", "int", "interface", "internal", "is", "lock",
  "long", "namespace", "new", "null", "object", "operator", "out", "override", "params",
  "private", "protected", "public", "readonly", "ref", "return", "sbyte", "sealed", "short",
  "sizeof", "stackalloc", "static", "string", "struct", "switch", "this", "throw", "true",
  "try", "typeof", "uint", "ulong", "unchecked", "unsafe", "ushort", "using", "virtual",
  "void", "volatile", "while"]

/-- A reserved word, in this exact spelling. -/
def isKeyword (s : String) : Bool := keywords.contains s

/-- The shape of a name; reserved words have it too. -/
def isIdentifier (s : String) : Bool :=
  match s.toList with
  | [] => false
  | c :: cs => Character.isNameStart c && cs.all Character.isWord

/-- The spelling under which `s` can be used as a name. -/
def escape (s : String) : String := if isKeyword s then "@" ++ s else s

theorem isIdentifier_of_isKeyword {s : String} (h : isKeyword s = true) :
    isIdentifier s = true := by
  have all : ∀ k ∈ keywords, isIdentifier k = true := by decide +kernel
  exact all s (List.contains_iff_mem.1 h)

end Name
end Outline
