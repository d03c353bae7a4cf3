/-
# Positions are exact

The line and the column of an offset are counted in the text before it, and they grow with the
offset.

| offset | line | column |
| --- | --- | --- |
| between characters | 1 and the line feeds before | 1 and the characters since the last of them |
| past the end | the line of the end | the column of the end |

The line can be looked up by halves in the table of the places where lines start: what is left of
the table always holds the place where the starts pass the offset (`partitionFrom?_eq`).  Character
by character a position only grows (`pair_lt_after`), so two offsets never have the same one.
-/

import Mathlib.Data.List.Induction
import Mathlib.Data.Prod.Lex
import Mathlib.Data.Set.Function
import Outline.Proofs.Source.Slice

namespace Outline

open Slice (OnBoundary onBoundary_iff)

/-! ### Counting -/

theorem foldl_after_line (cs : List Char) (p : Position) :
    (cs.foldl Position.after p).line = p.line + cs.count '\n' := by
  induction cs generalizing p with
  | nil => rfl
  | cons c cs ih =>
    rw [List.foldl_cons, ih, List.count_cons, Position.after]
    by_cases hc : c = '\n'
    · simp only [hc, if_true, beq_self_eq_true]
      omega
    · simp [hc]

/-- The column counts the characters since the last line feed. -/
theorem foldl_after_column (cs : List Char) :
    (cs.foldl Position.after {}).column = 1 + (cs.reverse.takeWhile (· ≠ '\n')).length := by
  induction cs using List.reverseRecOn with
  | nil => rfl
  | append_singleton cs c ih =>
    rw [List.foldl_append, List.foldl_cons, List.foldl_nil, Position.after, List.reverse_append,
      List.reverse_singleton, List.singleton_append]
    by_cases hc : c = '\n'
    · rw [if_pos hc, List.takeWhile_cons_of_neg (by simpa using hc)]
      rfl
    · rw [if_neg hc, List.takeWhile_cons_of_pos (by simpa using hc), List.length_cons, ih]
      rfl

/-- **The position of an offset** is counted in the text before it. -/
theorem Source.lineCol_eq {s : Source} {before after : List Char}
    (h : s.text.toList = before ++ after) :
    s.lineCol (byteSize before)
      = ⟨1 + before.count '\n', 1 + (before.reverse.takeWhile (· ≠ '\n')).length⟩ := by
  rw [Source.lineCol, h, Slice.positionFrom_append, ← foldl_after_column]
  exact congrArg₂ Position.mk (foldl_after_line before {}) rfl

theorem positionFrom_past {p : Position} {offset : Nat} {cs : List Char}
    (h : byteSize cs ≤ offset) : positionFrom p offset cs = cs.foldl Position.after p := by
  induction cs generalizing p offset with
  | nil => rfl
  | cons c cs ih =>
    rw [byteSize_cons] at h
    rw [positionFrom, if_neg (by omega), ih (by omega), List.foldl_cons]

/-- An offset past the end has the position of the end. -/
theorem Source.lineCol_past {s : Source} {offset : Nat} (h : s.text.utf8ByteSize ≤ offset) :
    s.lineCol offset = s.lineCol s.text.utf8ByteSize := by
  have hsize := Slice.byteSize_toList s.text
  rw [Source.lineCol, Source.lineCol, positionFrom_past (hsize.le.trans h),
    positionFrom_past hsize.le]

/-! ### Order -/

/-- The line and the column, to be compared in this order. -/
def Position.pair (p : Position) : Nat ×ₗ Nat := toLex (p.line, p.column)

/-- A character takes a position further: to the next line, or on in its own. -/
theorem Position.pair_lt_after (p : Position) (c : Char) : p.pair < (p.after c).pair := by
  rw [pair, pair, Prod.Lex.toLex_lt_toLex, after]
  split
  · exact .inl (Nat.lt_succ_self _)
  · exact .inr ⟨rfl, Nat.lt_succ_self _⟩

theorem Position.pair_le_foldl (p : Position) (cs : List Char) :
    p.pair ≤ (cs.foldl Position.after p).pair := by
  induction cs generalizing p with
  | nil => exact le_rfl
  | cons c cs ih => exact (p.pair_lt_after c).le.trans (ih _)

theorem Position.pair_lt_foldl (p : Position) (c : Char) (cs : List Char) :
    p.pair < ((c :: cs).foldl Position.after p).pair :=
  (p.pair_lt_after c).trans_le (pair_le_foldl _ cs)

/-- Of two starts of a text, the one with fewer bytes starts the other. -/
theorem exists_append_of_byteSize_le {first second rest rest' : List Char}
    (h : first ++ rest = second ++ rest') (hle : byteSize first ≤ byteSize second) :
    ∃ between, second = first ++ between := by
  rcases List.append_eq_append_iff.1 h with ⟨between, hsecond, -⟩ | ⟨between, rfl, -⟩
  · exact ⟨between, hsecond⟩
  · cases between with
    | nil => exact ⟨[], by rw [List.append_nil, List.append_nil]⟩
    | cons c cs =>
      have := byteSize_pos (List.cons_ne_nil c cs)
      rw [byteSize_append] at hle
      omega

/-- **Positions grow with the offset.** -/
theorem Source.strictMonoOn_lineCol (s : Source) :
    StrictMonoOn (fun i => (s.lineCol i).pair) {i | OnBoundary s.text i} := by
  intro i hi j hj hlt
  obtain ⟨first, rest, htext, rfl⟩ := onBoundary_iff.1 hi
  obtain ⟨second, rest', htext', rfl⟩ := onBoundary_iff.1 hj
  obtain ⟨between, rfl⟩ :=
    exists_append_of_byteSize_le (String.ofList_injective (htext.symm.trans htext')) hlt.le
  obtain ⟨c, cs, rfl⟩ : ∃ c cs, between = c :: cs := by
    refine List.exists_cons_of_ne_nil ?_
    rintro rfl
    rw [List.append_nil] at hlt
    exact lt_irrefl _ hlt
  have hfirst : s.lineCol (byteSize first) = first.foldl Position.after {} := by
    rw [Source.lineCol, htext, String.toList_ofList, Slice.positionFrom_append]
  have hsecond : s.lineCol (byteSize (first ++ c :: cs))
      = (c :: cs).foldl Position.after (first.foldl Position.after {}) := by
    rw [Source.lineCol, htext', String.toList_ofList, Slice.positionFrom_append, List.foldl_append]
  show (s.lineCol _).pair < (s.lineCol _).pair
  rw [hfirst, hsecond]
  exact Position.pair_lt_foldl _ c cs

/-! ### The table of lines -/

namespace Slice

variable {α : Type} {p : α → Bool} {xs : List α}

/-- Goes on searching a table for the place where a test stops holding, which is at `base` or up to
`size` places further on. -/
def partitionFrom? (p : α → Bool) (xs : List α) (base size : Nat) : Option Nat :=
  if size ≤ 1 then do
    let x ← xs[base]?
    pure (if p x then base + 1 else base)
  else do
    let x ← xs[base + size / 2]?
    partitionFrom? p xs (if p x then base + size / 2 else base) (size - size / 2)
termination_by size

/-- The place where a test stops holding in a table, searched by halves. -/
def partitionPoint? (p : α → Bool) (xs : List α) : Option Nat :=
  if xs.isEmpty then some 0 else partitionFrom? p xs 0 xs.length

/-- The line and the column of an offset, with the line looked up by halves. -/
def lookUpLineCol? (text : String) (offset : Nat) : Option Position := do
  let stop := min offset text.utf8ByteSize
  let line ← minus? (← partitionPoint? (· ≤ stop) (lineStarts text)) 1
  let start ← (lineStarts text)[line]?
  let before ← slice? text start stop
  pure ⟨line + 1, before.length + 1⟩

/-- **The search finds the place**, as each step keeps it in what is left of the table. -/
theorem partitionFrom?_eq {n : Nat} (hn : ∀ i x, xs[i]? = some x → (p x = true ↔ i < n))
    {base size : Nat} (hpos : 0 < size) (hlength : base + size ≤ xs.length) (hlow : base ≤ n)
    (hhigh : n ≤ base + size) : partitionFrom? p xs base size = some n := by
  induction size using Nat.strongRecOn generalizing base with
  | ind size ih =>
    rw [partitionFrom?]
    split
    · have hx := List.getElem?_eq_getElem (l := xs) (i := base) (by omega)
      have hp := hn _ _ hx
      rw [hx, Option.bind_eq_bind, Option.bind_some]
      refine congrArg some ?_
      split
      · have := hp.1 ‹_›
        omega
      · have := mt hp.2 ‹_›
        omega
    · have hx := List.getElem?_eq_getElem (l := xs) (i := base + size / 2) (by omega)
      have hp := hn _ _ hx
      rw [hx, Option.bind_eq_bind, Option.bind_some]
      split
      · have := hp.1 ‹_›
        exact ih _ (by omega) (by omega) (by omega) (by omega) (by omega)
      · have := mt hp.2 ‹_›
        exact ih _ (by omega) (by omega) (by omega) hlow (by omega)

/-- In a table where a test holds at the start only, it holds at the places that `takeWhile`
takes. -/
theorem lt_length_takeWhile_iff (h : xs.Pairwise fun x y => p y = true → p x = true) {i : Nat}
    {x : α} (hx : xs[i]? = some x) : p x = true ↔ i < (xs.takeWhile p).length := by
  induction xs generalizing i with
  | nil => cases hx
  | cons y ys ih =>
    obtain ⟨hy, hys⟩ := List.pairwise_cons.1 h
    by_cases hp : p y = true
    · rw [List.takeWhile_cons_of_pos hp, List.length_cons]
      cases i with
      | zero =>
        obtain rfl := Option.some.inj hx
        exact iff_of_true hp (Nat.succ_pos _)
      | succ i => exact (ih hys hx).trans Nat.succ_lt_succ_iff.symm
    · rw [List.takeWhile_cons_of_neg hp]
      refine iff_of_false ?_ (Nat.not_lt_zero i)
      rcases List.mem_cons.1 (List.mem_of_getElem? hx) with rfl | hmem
      · exact hp
      · exact fun hpx => hp (hy x hmem hpx)

theorem partitionPoint?_eq (h : xs.Pairwise fun x y => p y = true → p x = true) :
    partitionPoint? p xs = some (xs.takeWhile p).length := by
  rw [partitionPoint?]
  cases xs with
  | nil => rfl
  | cons y ys =>
    refine partitionFrom?_eq (fun i x => lt_length_takeWhile_iff h) (Nat.succ_pos _)
      (Nat.zero_add _).le (Nat.zero_le _) ?_
    rw [Nat.zero_add]
    exact (List.takeWhile_prefix p).length_le

theorem pairwise_lineStartsFrom (offset : Nat) (cs : List Char) :
    (offset :: lineStartsFrom offset cs).Pairwise (· < ·) := by
  refine List.pairwise_cons.2 ⟨fun i hi => (lineStartsFrom_bounds hi).1, ?_⟩
  induction cs generalizing offset with
  | nil => exact .nil
  | cons c cs ih =>
    rw [lineStartsFrom]
    split
    · exact List.pairwise_cons.2 ⟨fun i hi => (lineStartsFrom_bounds hi).1, ih _⟩
    · exact ih _

/-- The search comes to the same line as the passage through the table. -/
theorem lookUpLineCol?_eq_lineCol? (text : String) (offset : Nat) :
    lookUpLineCol? text offset = lineCol? text offset := by
  have hsearch (stop : Nat) : partitionPoint? (· ≤ stop) (lineStarts text)
      = some ((lineStarts text).takeWhile (· ≤ stop)).length := by
    refine partitionPoint?_eq ((pairwise_lineStartsFrom 0 text.toList).imp fun {x y} hlt hy => ?_)
    rw [decide_eq_true_eq] at hy ⊢
    exact hlt.le.trans hy
  rw [lookUpLineCol?, lineCol?]
  simp only [hsearch, Option.bind_eq_bind, Option.bind_some]

theorem lineCol?_past {text : String} {offset : Nat} (h : text.utf8ByteSize ≤ offset) :
    lineCol? text offset = lineCol? text text.utf8ByteSize := by
  rw [lineCol?, lineCol?, Nat.min_eq_right h, Nat.min_self]

end Slice

/-! ### Exactness -/

/-- **Positions are exact.**  In every text: at an offset between two characters, or at one of the
ends, the position is found without failing, and it counts the line feeds before the offset and the
characters since the last of them; an offset past the end has the position of the end; and the
positions of the offsets between characters grow with the offset, so no two of them are the same. -/
theorem Source.positions_exact (s : Source) :
    (∀ offset, OnBoundary s.text offset →
      Slice.lookUpLineCol? s.text offset = some (s.lineCol offset) ∧
      ∃ before after, s.text = String.ofList (before ++ after) ∧ offset = byteSize before ∧
        s.lineCol offset
          = ⟨1 + before.count '\n', 1 + (before.reverse.takeWhile (· ≠ '\n')).length⟩) ∧
    (∀ offset, s.text.utf8ByteSize ≤ offset →
      Slice.lookUpLineCol? s.text offset = some (s.lineCol offset) ∧
      s.lineCol offset = s.lineCol s.text.utf8ByteSize) ∧
    StrictMonoOn (fun i => (s.lineCol i).pair) {i | OnBoundary s.text i} ∧
    Set.InjOn s.lineCol {i | OnBoundary s.text i} := by
  refine ⟨fun offset h => ⟨?_, ?_⟩, fun offset h => ⟨?_, s.lineCol_past h⟩,
    s.strictMonoOn_lineCol, fun i hi j hj h => ?_⟩
  · rw [Slice.lookUpLineCol?_eq_lineCol?, Slice.lineCol?_eq h]
  · obtain ⟨before, after, htext, rfl⟩ := onBoundary_iff.1 h
    exact ⟨before, after, htext, rfl, s.lineCol_eq (by rw [htext, String.toList_ofList])⟩
  · rw [Slice.lookUpLineCol?_eq_lineCol?, Slice.lineCol?_past h,
      Slice.lineCol?_eq (Slice.onBoundary_size s.text), s.lineCol_past h]
  · exact s.strictMonoOn_lineCol.injOn hi hj (congrArg Position.pair h)

/-- A character of two bytes, an empty line and a line without an end. -/
def unevenSource : Source := ⟨"é\n\nz", 0⟩

/-- The hypotheses of `Source.positions_exact` are satisfiable: at the start of the last line, and
past the end. -/
theorem positions_exact_unevenSource :
    OnBoundary unevenSource.text 2 ∧ OnBoundary unevenSource.text 4 ∧
    Slice.lookUpLineCol? unevenSource.text 2 = some ⟨1, 2⟩ ∧
    Slice.lookUpLineCol? unevenSource.text 4 = some ⟨3, 1⟩ ∧
    (unevenSource.lineCol 2).pair < (unevenSource.lineCol 4).pair ∧
    unevenSource.text.utf8ByteSize ≤ 9 ∧ unevenSource.lineCol 9 = ⟨3, 2⟩ := by
  have h2 : OnBoundary unevenSource.text 2 := by decide
  have h4 : OnBoundary unevenSource.text 4 := by decide
  obtain ⟨hexact, hpast, hgrow, -⟩ := Source.positions_exact unevenSource
  exact ⟨h2, h4, (hexact 2 h2).1, (hexact 4 h4).1, hgrow h2 h4 (by decide), by decide,
    (hpast 9 (by decide)).2⟩

end Outline
