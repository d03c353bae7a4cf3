/-
# Type names

A type as it is written in a declaration: `int`, `List<string>`, `byte[]`, `Guid?`.
-/

namespace Outline
namespace Tree

/-- A type as it is written in a declaration. -/
structure TypeName where
  text : String
  deriving DecidableEq, Repr, Inhabited

namespace TypeName

/-- The generic type `base<a, b>`. -/
def generic (base : String) (arguments : List TypeName) : TypeName :=
  ⟨base ++ "<" ++ ", ".intercalate (arguments.map (·.text)) ++ ">"⟩

/-- The array type `t[]`. -/
def array (t : TypeName) : TypeName := ⟨t.text ++ "[]"⟩

/-- The nullable type `t?`. -/
def nullable (t : TypeName) : TypeName := ⟨t.text ++ "?"⟩

/-- The type of a method that returns nothing. -/
def void : TypeName := ⟨"void"⟩

end TypeName
end Tree
end Outline
