/-
# Positions in a source

Offsets and lengths count bytes of the UTF-8 form of a text.  Lines and columns
count from one; columns count characters, and only a line feed ends a line.  An
offset past the end has the line and the column of the end.
-/

namespace Outline

/-- A line and a column, both counted from one. -/
structure Position where
  line : Nat := 1
  column : Nat := 1
  deriving DecidableEq, Repr

/-- The position after a character at the given position. -/
def Position.after (p : Position) (c : Char) : Position :=
  if c = '\n' then ⟨p.line + 1, 1⟩ else ⟨p.line, p.column + 1⟩

/-- The number of bytes that characters take. -/
def byteSize (cs : List Char) : Nat := cs.foldr (fun c n => c.utf8Size + n) 0

@[simp] theorem byteSize_nil : byteSize [] = 0 := rfl

@[simp] theorem byteSize_cons (c : Char) (cs : List Char) :
    byteSize (c :: cs) = c.utf8Size + byteSize cs := rfl

@[simp] theorem byteSize_append (cs ds : List Char) :
    byteSize (cs ++ ds) = byteSize cs + byteSize ds := by
  induction cs with
  | nil => simp
  | cons c cs ih => rw [List.cons_append, byteSize_cons, ih, byteSize_cons, Nat.add_assoc]

/-- The position `offset` bytes after the start of a text at position `p`. -/
def positionFrom (p : Position) (offset : Nat) : List Char → Position
  | [] => p
  | c :: cs => if offset < c.utf8Size then p else positionFrom (p.after c) (offset - c.utf8Size) cs

/-- A text under compilation and its place among the sources. -/
structure Source where
  text : String
  index : Nat := 0
  deriving DecidableEq, Repr

/-- The line and the column of an offset. -/
def Source.lineCol (s : Source) (offset : Nat) : Position := positionFrom {} offset s.text.toList

/-- A range of bytes in one of the sources, with the position of its start. -/
structure Location where
  source : Nat
  offset : Nat
  length : Nat
  line : Nat
  column : Nat
  deriving DecidableEq, Repr

/-- The range of `length` bytes at `offset`. -/
def Source.location (s : Source) (offset length : Nat) : Location :=
  let p := s.lineCol offset
  ⟨s.index, offset, length, p.line, p.column⟩

end Outline
