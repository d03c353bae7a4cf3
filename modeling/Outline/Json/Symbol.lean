/-
# Symbols

Bytes are read as UTF-8, one character after the other.  Where no character
starts, a byte is kept as *stray*, and reading goes on after it.  The characters of
a text in UTF-8 come back as they are.
-/

namespace Outline
namespace Json

/-- A character, or a byte that is part of none. -/
inductive Symbol
  | char (c : Char)
  | stray
  deriving DecidableEq, Repr

/-- The number of bytes that a symbol takes. -/
def Symbol.size : Symbol → Nat
  | char c => c.utf8Size
  | stray => 1

/-- The symbols of a text. -/
def ofChars (cs : List Char) : List Symbol := cs.map .char

/-- The symbols of bytes from a place on. -/
def symbolsFrom (bytes : ByteArray) (i : Nat) : List Symbol :=
  if _h : i < bytes.size then
    match bytes.utf8DecodeChar? i with
    | some c => .char c :: symbolsFrom bytes (i + c.utf8Size)
    | none => .stray :: symbolsFrom bytes (i + 1)
  else []
termination_by bytes.size - i
decreasing_by
  · have := c.utf8Size_pos
    omega
  · omega

/-- The symbols of bytes. -/
def symbols (bytes : ByteArray) : List Symbol := symbolsFrom bytes 0

theorem size_utf8Encode_singleton (c : Char) : [c].utf8Encode.size = c.utf8Size := by
  simp [List.utf8Encode_singleton]

theorem symbolsFrom_append (before : ByteArray) (cs : List Char) :
    symbolsFrom (before ++ cs.utf8Encode) before.size = ofChars cs := by
  induction cs generalizing before with
  | nil =>
    rw [symbolsFrom]
    simp [ofChars]
  | cons c cs ih =>
    have found : (before ++ (c :: cs).utf8Encode).utf8DecodeChar? before.size = some c := by
      rw [ByteArray.utf8DecodeChar?_eq_utf8DecodeChar?_extract,
        ByteArray.extract_append_eq_right rfl ByteArray.size_append]
      exact List.utf8DecodeChar?_utf8Encode_cons
    have inside : before.size < (before ++ (c :: cs).utf8Encode).size := by
      have := ByteArray.le_size_of_utf8DecodeChar?_eq_some found
      have := c.utf8Size_pos
      omega
    have rest := ih (before ++ [c].utf8Encode)
    rw [ByteArray.append_assoc, ← List.utf8Encode_append, List.singleton_append,
      ByteArray.size_append, size_utf8Encode_singleton] at rest
    rw [symbolsFrom, dif_pos inside, found]
    exact congrArg (Symbol.char c :: ·) rest

/-- The symbols of a text in UTF-8 are its characters. -/
theorem symbols_toUTF8 (s : String) : symbols s.toUTF8 = ofChars s.toList := by
  have h := symbolsFrom_append ByteArray.empty s.toList
  simpa [symbols] using h

end Json
end Outline
