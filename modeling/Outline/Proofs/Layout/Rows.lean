/-
# Rows of code

How deep a line of code stands is settled by the fragment that it belongs to: it is the
number of blocks and indented parts around it.  A page adds its own level to each depth,
writes the rows behind what it holds already and is at its level again afterwards.

| fragment | rows |
| --- | --- |
| `line s` | `s` at depth zero |
| `blank` | an empty row |
| `block h fs c` | `h` at depth zero, `fs` one deeper, `c` at depth zero if there is one |
| `indented fs` | `fs` one deeper |
| `sequence fs` | `fs` |
-/

import Outline.Layout.Fragment

namespace Outline
namespace Layout

/-! ### Rows -/

/-- A line of code with its depth, or an empty line. -/
inductive Row
  | line (depth : Nat) (text : String)
  | blank
  deriving DecidableEq, Repr

/-- The row one level deeper; an empty one has no depth. -/
def Row.deeper : Row → Row
  | line depth s => line (depth + 1) s
  | blank => blank

mutual

/-- The rows of a fragment, from the top down. -/
def Fragment.rows : Fragment → List Row
  | .line s => [.line 0 s]
  | .blank => [.blank]
  | .block header body close =>
    .line 0 header :: (Fragment.rowsAll body).map Row.deeper ++ close.toList.map (.line 0)
  | .indented body => (Fragment.rowsAll body).map Row.deeper
  | .sequence parts => Fragment.rowsAll parts

/-- The rows of fragments, one after the other. -/
def Fragment.rowsAll : List Fragment → List Row
  | [] => []
  | f :: fs => f.rows ++ Fragment.rowsAll fs

end

/-! ### The text of rows -/

/-- One step of indentation. -/
def Indent.unit : Indent → String
  | spaces width => String.ofList (List.replicate width ' ')
  | tab => "\t"

theorem ofList_replicate_mul (width n : Nat) (c : Char) :
    String.ofList (List.replicate (width * n) c)
      = String.join (List.replicate n (String.ofList (List.replicate width c))) := by
  induction n with
  | zero => rfl
  | succ n ih =>
    rw [List.replicate_succ, String.join_cons, ← ih, ← String.ofList_append,
      List.replicate_append_replicate, Nat.mul_succ, Nat.add_comm]

/-- A line is indented with as many units as its level says. -/
theorem Indent.pad_eq_join (i : Indent) (level : Nat) :
    i.pad level = String.join (List.replicate level i.unit) := by
  cases i with
  | spaces width => exact ofList_replicate_mul width level ' '
  | tab =>
    have h := ofList_replicate_mul 1 level '\t'
    rwa [Nat.one_mul] at h

/-- The text of a row on a page at a level. -/
def Row.text (i : Indent) (level : Nat) : Row → String
  | line depth s => String.join (List.replicate (level + depth) i.unit) ++ s ++ "\n"
  | blank => "\n"

/-- A row one deeper is the row on a page one level deeper. -/
theorem Row.text_deeper (i : Indent) (level : Nat) (r : Row) :
    r.deeper.text i level = r.text i (level + 1) := by
  cases r with
  | line depth s => rw [deeper, text, text, Nat.add_assoc, Nat.add_comm 1 depth]
  | blank => rfl

/-- The text of rows on a page at a level, one row after the other. -/
def rowsText (i : Indent) (level : Nat) (rows : List Row) : String :=
  String.join (rows.map (Row.text i level))

section

variable (i : Indent) (level : Nat)

theorem rowsText_cons (r : Row) (rows : List Row) :
    rowsText i level (r :: rows) = r.text i level ++ rowsText i level rows := by
  rw [rowsText, List.map_cons, String.join_cons, rowsText]

theorem rowsText_append (rows more : List Row) :
    rowsText i level (rows ++ more) = rowsText i level rows ++ rowsText i level more := by
  rw [rowsText, List.map_append, String.join_append, rowsText, rowsText]

theorem rowsText_singleton (r : Row) : rowsText i level [r] = r.text i level := by
  rw [rowsText_cons]
  exact String.append_empty

theorem rowsText_deeper (rows : List Row) :
    rowsText i level (rows.map Row.deeper) = rowsText i (level + 1) rows := by
  rw [rowsText, List.map_map, rowsText]
  exact congrArg String.join (List.map_congr_left fun r _ => r.text_deeper i level)

/-- The text of fragments is that of each, one after the other. -/
theorem rowsText_rowsAll (fs : List Fragment) :
    rowsText i level (Fragment.rowsAll fs)
      = String.join (fs.map fun f => rowsText i level f.rows) := by
  induction fs with
  | nil => rfl
  | cons f fs ih => rw [Fragment.rowsAll, rowsText_append, ih, List.map_cons, String.join_cons]

end

/-! ### Pages -/

namespace Page

/-- The page with some more text. -/
def append (p : Page) (s : String) : Page := { p with text := p.text ++ s }

theorem append_empty (p : Page) : p.append "" = p := by
  rw [append, String.append_empty]

theorem append_append (p : Page) (s t : String) : (p.append s).append t = p.append (s ++ t) := by
  simp only [append, String.append_assoc]

/-- What is written one level deeper is written, and then the level is the old one. -/
theorem shallower_append_deeper (p : Page) (s : String) :
    (p.deeper.append s).shallower = p.append s := rfl

theorem line_eq_append (p : Page) (s : String) :
    p.line s = p.append ((Row.line 0 s).text p.indent p.level) := by
  rw [line, append, Row.text, Indent.pad_eq_join, Nat.add_zero, String.append_assoc,
    String.append_assoc, String.append_assoc]

mutual

/-- A fragment adds its rows to a page. -/
theorem put_eq_append (p : Page) : ∀ f : Fragment,
    p.put f = p.append (rowsText p.indent p.level f.rows)
  | .line s => by rw [put, Fragment.rows, rowsText_singleton, line_eq_append]
  | .blank => by
    rw [put, Fragment.rows, rowsText_singleton]
    rfl
  | .block header body close => by
    have hbody : ((p.line header).deeper.putAll body).shallower
        = (p.line header).append (rowsText p.indent (p.level + 1) (Fragment.rowsAll body)) := by
      rw [putAll_eq_append (p.line header).deeper body]
      exact shallower_append_deeper (p.line header) _
    have hopen : ((p.line header).deeper.putAll body).shallower
        = p.append (rowsText p.indent p.level
            (.line 0 header :: (Fragment.rowsAll body).map Row.deeper)) := by
      rw [hbody, line_eq_append, append_append, rowsText_cons, rowsText_deeper]
    cases close with
    | none =>
      rw [put, Fragment.rows, Option.toList_none, List.map_nil, List.append_nil]
      exact hopen
    | some c =>
      rw [put, Fragment.rows, Option.toList_some, List.map_singleton, rowsText_append,
        rowsText_singleton, ← append_append]
      show (((p.line header).deeper.putAll body).shallower).line c = _
      rw [hopen]
      exact line_eq_append _ c
  | .indented body => by
    rw [put, Fragment.rows, rowsText_deeper, putAll_eq_append p.deeper body]
    exact shallower_append_deeper p _
  | .sequence parts => putAll_eq_append p parts

/-- Fragments add their rows to a page. -/
theorem putAll_eq_append (p : Page) : ∀ fs : List Fragment,
    p.putAll fs = p.append (rowsText p.indent p.level (Fragment.rowsAll fs))
  | [] => (append_empty p).symm
  | f :: fs => by
    rw [putAll, Fragment.rowsAll, rowsText_append, ← append_append, ← put_eq_append p f,
      putAll_eq_append (p.put f) fs, put_eq_append p f]
    rfl

end

/-- Fragments are written one by one. -/
theorem putAll_eq_foldl (p : Page) (fs : List Fragment) : p.putAll fs = fs.foldl put p := by
  induction fs generalizing p with
  | nil => rfl
  | cons f fs ih => rw [putAll, List.foldl_cons, ih]

/-- Lists of fragments are written one by one. -/
theorem putAll_flatten (p : Page) (fss : List (List Fragment)) :
    p.putAll fss.flatten = fss.foldl putAll p := by
  induction fss generalizing p with
  | nil => rfl
  | cons fs fss ih => rw [List.flatten_cons, putAll_append, ih, List.foldl_cons]

/-- **A fragment is written at its depth, and the page keeps its level.**  Whatever is on
the page, the text that is added is that of the fragment's rows.  So a declaration is
written as its fragments are, one by one, and fragments are written alike one by one, in a
sequence, and in lists of any lengths, each by itself or as a sequence of its own. -/
theorem put_writes_rows (p : Page) (f : Fragment) :
    (p.put f).level = p.level ∧ (p.put f).indent = p.indent ∧
      p.text.toList <+: (p.put f).text.toList ∧
      (p.put f).text = p.text ++ String.join (f.rows.map (Row.text p.indent p.level)) ∧
      (∀ {α : Type} [Layable α] (format : Format) (a : α),
        p.emit format a = (Layable.fragments format a).foldl put p) ∧
      (∀ fs : List Fragment, p.put (.sequence fs) = fs.foldl put p ∧
        (fs.foldl put p).text = p.text ++
          String.join (fs.map fun g => String.join (g.rows.map (Row.text p.indent p.level)))) ∧
      ∀ fss : List (List Fragment), p.put (.sequence fss.flatten) = fss.foldl putAll p ∧
        p.putAll (fss.map .sequence) = fss.foldl putAll p := by
  have h := p.put_eq_append f
  refine ⟨by rw [h]; rfl, by rw [h]; rfl, ?_, by rw [h]; rfl, fun format a => ?_, fun fs => ?_,
    fun fss => ?_⟩
  · rw [h, append, String.toList_append]
    exact List.prefix_append _ _
  · exact p.putAll_eq_foldl _
  · have hfs := p.putAll_eq_append fs
    rw [rowsText_rowsAll] at hfs
    refine ⟨p.putAll_eq_foldl fs, ?_⟩
    rw [← putAll_eq_foldl, hfs]
    rfl
  · refine ⟨p.putAll_flatten fss, ?_⟩
    rw [putAll_eq_foldl, List.foldl_map]
    rfl

end Page
end Layout
end Outline
