/-
# Slices of a text

A slice is taken between two byte offsets.  It fails unless both stand between
characters of the text and in their order.  The places of lines and of words are
computed here with slices, as sums of bytes; they come to what is read off the
characters, so none of these slices fails.

| function | slices |
| --- | --- |
| `lineCol?` | the line up to the offset |
| `mentions?` | the text before and after each match |
-/

import Outline.Parser.Local
import Outline.Source.Position

namespace Outline

/-- A difference that must not fall below zero. -/
def minus? (a b : Nat) : Option Nat := if b ≤ a then some (a - b) else none

theorem minus?_of_le {a b : Nat} (h : b ≤ a) : minus? a b = some (a - b) := if_pos h

theorem byteSize_pos {cs : List Char} (h : cs ≠ []) : 0 < byteSize cs := by
  cases cs with
  | nil => exact absurd rfl h
  | cons c cs =>
    have := c.utf8Size_pos
    rw [byteSize_cons]
    omega

namespace Slice

/-- Whether an offset stands between two characters of a text, or at one of its ends. -/
def OnBoundary (text : String) (i : Nat) : Prop := String.Pos.Raw.IsValid text ⟨i⟩

instance (text : String) (i : Nat) : Decidable (OnBoundary text i) :=
  inferInstanceAs (Decidable (String.Pos.Raw.IsValid text ⟨i⟩))

/-- The text between two offsets. -/
def slice? (text : String) (i j : Nat) : Option String :=
  if h : OnBoundary text i ∧ OnBoundary text j ∧ i ≤ j then
    some (text.extract ⟨⟨i⟩, h.1⟩ ⟨⟨j⟩, h.2.1⟩)
  else none

theorem utf8ByteSize_ofList (cs : List Char) : (String.ofList cs).utf8ByteSize = byteSize cs := by
  induction cs with
  | nil => rfl
  | cons c cs ih =>
    rw [byteSize_cons, ← ih, String.ofList_cons, String.utf8ByteSize_append,
      String.utf8ByteSize_singleton]

theorem byteSize_toList (text : String) : byteSize text.toList = text.utf8ByteSize := by
  rw [← utf8ByteSize_ofList, String.ofList_toList]

theorem size_utf8Encode (cs : List Char) : cs.utf8Encode.size = byteSize cs := by
  rw [← utf8ByteSize_ofList, ← String.size_toByteArray, String.toByteArray_ofList]

/-- The offsets on a boundary are the sizes of the starts of a text. -/
theorem onBoundary_iff {text : String} {i : Nat} :
    OnBoundary text i ↔ ∃ before after, text = String.ofList (before ++ after) ∧
      i = byteSize before := by
  unfold OnBoundary
  rw [String.Pos.Raw.isValid_iff_exists_append]
  constructor
  · rintro ⟨before, after, rfl, hi⟩
    refine ⟨before.toList, after.toList, by simp, ?_⟩
    rw [byteSize_toList]
    exact congrArg String.Pos.Raw.byteIdx hi
  · rintro ⟨before, after, rfl, rfl⟩
    refine ⟨String.ofList before, String.ofList after, String.ofList_append, ?_⟩
    rw [← utf8ByteSize_ofList]
    rfl

theorem onBoundary_le {text : String} {i : Nat} (h : OnBoundary text i) :
    i ≤ text.utf8ByteSize := by
  obtain ⟨before, after, rfl, rfl⟩ := onBoundary_iff.1 h
  rw [utf8ByteSize_ofList, byteSize_append]
  exact Nat.le_add_right _ _

theorem onBoundary_size (text : String) : OnBoundary text text.utf8ByteSize :=
  onBoundary_iff.2 ⟨text.toList, [], by simp, (byteSize_toList text).symm⟩

/-- The bytes after the start of a text are those of its rest. -/
theorem extract_ofList_append (before rest : List Char) (n : Nat) :
    (String.ofList (before ++ rest)).toByteArray.extract (byteSize before) (byteSize before + n)
      = rest.utf8Encode.extract 0 n := by
  rw [String.toByteArray_ofList, List.utf8Encode_append]
  have hrest := ByteArray.extract_append_size_add' (b := rest.utf8Encode) (i := 0) (j := n)
    (size_utf8Encode before).symm
  rwa [Nat.add_zero] at hrest

/-- A text is sliced where it is put together. -/
theorem slice?_append (before inside after : List Char) :
    slice? (String.ofList (before ++ inside ++ after)) (byteSize before)
      (byteSize (before ++ inside)) = some (String.ofList inside) := by
  have hi : OnBoundary (String.ofList (before ++ inside ++ after)) (byteSize before) :=
    onBoundary_iff.2 ⟨before, inside ++ after, by rw [List.append_assoc], rfl⟩
  have hj : OnBoundary (String.ofList (before ++ inside ++ after)) (byteSize (before ++ inside)) :=
    onBoundary_iff.2 ⟨before ++ inside, after, rfl, rfl⟩
  have hle : byteSize before ≤ byteSize (before ++ inside) := by
    rw [byteSize_append]
    omega
  rw [slice?, dif_pos ⟨hi, hj, hle⟩]
  refine congrArg some (String.toByteArray_inj.1 ?_)
  rw [String.toByteArray_extract]
  show (String.ofList (before ++ inside ++ after)).toByteArray.extract (byteSize before)
    (byteSize (before ++ inside)) = _
  rw [List.append_assoc, byteSize_append, extract_ofList_append, List.utf8Encode_append,
    String.toByteArray_ofList, ByteArray.extract_append_eq_left (size_utf8Encode inside).symm]

/-! ### Lines -/

/-- Where lines start after the line feeds of characters at an offset. -/
def lineStartsFrom (offset : Nat) : List Char → List Nat
  | [] => []
  | c :: cs =>
    let next := offset + c.utf8Size
    if c = '\n' then next :: lineStartsFrom next cs else lineStartsFrom next cs

/-- Where the lines of a text start. -/
def lineStarts (text : String) : List Nat := 0 :: lineStartsFrom 0 text.toList

/-- The line and the column of an offset: the number of the last line that starts no
further on, and the characters in it that come before the offset. -/
def lineCol? (text : String) (offset : Nat) : Option Position := do
  let stop := min offset text.utf8ByteSize
  let line ← minus? ((lineStarts text).takeWhile (· ≤ stop)).length 1
  let start ← (lineStarts text)[line]?
  let before ← slice? text start stop
  pure ⟨line + 1, before.length + 1⟩

theorem lineStartsFrom_append (offset : Nat) (cs ds : List Char) :
    lineStartsFrom offset (cs ++ ds) =
      lineStartsFrom offset cs ++ lineStartsFrom (offset + byteSize cs) ds := by
  induction cs generalizing offset with
  | nil => rfl
  | cons c cs ih =>
    rw [List.cons_append, lineStartsFrom, lineStartsFrom, byteSize_cons, ← Nat.add_assoc, ih]
    split
    · rfl
    · rfl

theorem lineStartsFrom_bounds {offset i : Nat} {cs : List Char} (h : i ∈ lineStartsFrom offset cs) :
    offset < i ∧ i ≤ offset + byteSize cs := by
  induction cs generalizing offset with
  | nil => cases h
  | cons c cs ih =>
    have hc := c.utf8Size_pos
    rw [lineStartsFrom] at h
    rw [byteSize_cons]
    have later : i ∈ lineStartsFrom (offset + c.utf8Size) cs →
        offset < i ∧ i ≤ offset + (c.utf8Size + byteSize cs) := by
      intro hi
      obtain ⟨h1, h2⟩ := ih hi
      omega
    split at h
    · obtain rfl | hi := List.mem_cons.1 h
      · omega
      · exact later hi
    · exact later h

/-- The lines that start no further on than an offset start in the text before it. -/
theorem takeWhile_lineStarts (before after : List Char) :
    (lineStarts (String.ofList (before ++ after))).takeWhile (· ≤ byteSize before)
      = 0 :: lineStartsFrom 0 before := by
  rw [lineStarts, String.toList_ofList, lineStartsFrom_append, Nat.zero_add, ← List.cons_append,
    List.takeWhile_append_of_pos]
  · have hnil : (lineStartsFrom (byteSize before) after).takeWhile (· ≤ byteSize before) = [] := by
      cases hs : lineStartsFrom (byteSize before) after with
      | nil => rfl
      | cons i is =>
        have hi : i ∈ lineStartsFrom (byteSize before) after := by
          rw [hs]
          exact List.mem_cons_self
        have := (lineStartsFrom_bounds hi).1
        exact List.takeWhile_cons_of_neg (by simpa using this)
    rw [hnil, List.append_nil]
  · intro i hi
    obtain rfl | hi := List.mem_cons.1 hi
    · simp
    · have := (lineStartsFrom_bounds hi).2
      simp only [decide_eq_true_eq]
      omega

/-- The position of an offset is read off the characters before it. -/
theorem positionFrom_append (p : Position) (before after : List Char) :
    positionFrom p (byteSize before) (before ++ after) = before.foldl Position.after p := by
  induction before generalizing p with
  | nil =>
    cases after with
    | nil => rfl
    | cons c cs => exact if_pos c.utf8Size_pos
  | cons c cs ih =>
    rw [List.cons_append, positionFrom, byteSize_cons, if_neg (by omega), Nat.add_sub_cancel_left,
      ih, List.foldl_cons]

/-- Going on from a line that was started.  `finished` comes before the line, which has
the characters `line` so far; what follows ends in a line of its own or in this one. -/
theorem exists_line (before finished line : List Char) (n : Nat) :
    ∃ finished' line', finished ++ line ++ before = finished' ++ line' ∧
      (byteSize finished :: lineStartsFrom (byteSize (finished ++ line)) before).getLast?
        = some (byteSize finished') ∧
      before.foldl Position.after ⟨n, line.length + 1⟩ =
        ⟨n + (lineStartsFrom (byteSize (finished ++ line)) before).length, line'.length + 1⟩ := by
  induction before generalizing finished line n with
  | nil => exact ⟨finished, line, List.append_nil _, rfl, rfl⟩
  | cons c cs ih =>
    have hsize : byteSize (finished ++ line) + c.utf8Size = byteSize (finished ++ line ++ [c]) := by
      simp [Nat.add_assoc]
    rw [lineStartsFrom, List.foldl_cons, Position.after, hsize]
    dsimp only
    split
    · obtain ⟨finished', line', h1, h2, h3⟩ := ih (finished ++ line ++ [c]) [] (n + 1)
      rw [List.append_nil] at h1 h2 h3
      refine ⟨finished', line', by rw [← h1, List.append_assoc _ [c]]; rfl, ?_, ?_⟩
      · rw [List.getLast?_cons_cons]
        exact h2
      · rw [List.length_nil] at h3
        rw [h3, List.length_cons, Nat.add_right_comm, Nat.add_assoc]
    · obtain ⟨finished', line', h1, h2, h3⟩ := ih finished (line ++ [c]) n
      rw [← List.append_assoc] at h1 h2 h3
      refine ⟨finished', line', by rw [← h1, List.append_assoc _ [c]]; rfl, h2, ?_⟩
      rw [← h3, List.length_append]
      rfl

/-- **Positions are computed without failing.**  At an offset between two characters the
line and the column are sliced out of the text. -/
theorem lineCol?_eq {s : Source} {offset : Nat} (h : OnBoundary s.text offset) :
    lineCol? s.text offset = some (s.lineCol offset) := by
  obtain ⟨text, index⟩ := s
  obtain ⟨before, after, rfl, rfl⟩ := onBoundary_iff.1 h
  obtain ⟨finished, line, hsplit, hlast, hpos⟩ := exists_line before [] [] 1
  rw [List.nil_append, byteSize_nil] at hlast
  rw [List.nil_append, byteSize_nil] at hpos
  rw [List.nil_append, List.nil_append] at hsplit
  have hstop : min (byteSize before) (String.ofList (before ++ after)).utf8ByteSize
      = byteSize before := by
    rw [utf8ByteSize_ofList, byteSize_append]
    omega
  have hstart : (lineStarts (String.ofList (before ++ after)))[(lineStartsFrom 0 before).length]?
      = some (byteSize finished) := by
    rw [lineStarts, String.toList_ofList, lineStartsFrom_append, ← List.cons_append,
      List.getElem?_append_left (by simp), ← hlast, List.getLast?_eq_getElem?]
    rfl
  have hslice : slice? (String.ofList (before ++ after)) (byteSize finished) (byteSize before)
      = some (String.ofList line) := by
    rw [hsplit]
    exact slice?_append finished line after
  have hlineCol : Source.lineCol ⟨String.ofList (before ++ after), index⟩ (byteSize before)
      = ⟨1 + (lineStartsFrom 0 before).length, line.length + 1⟩ := by
    rw [Source.lineCol, String.toList_ofList, positionFrom_append]
    exact hpos
  rw [lineCol?, hstop, takeWhile_lineStarts, List.length_cons, minus?_of_le (by omega)]
  simp only [Option.bind_eq_bind, Option.bind_some, Nat.add_sub_cancel]
  rw [hstart, Option.bind_some, hslice, Option.bind_some, hlineCol, String.length_ofList,
    Nat.add_comm 1]
  rfl

/-! ### Words -/

/-- Where a word stands in characters at an offset, from left to right and without
overlap; `skip` characters still belong to the match before. -/
def matchesFrom (word : List Char) (skip offset : Nat) : List Char → List Nat
  | [] => []
  | c :: cs =>
    let next := offset + c.utf8Size
    match skip with
    | k + 1 => matchesFrom word k next cs
    | 0 =>
      if word.isPrefixOf (c :: cs) then offset :: matchesFrom word (word.length - 1) next cs
      else matchesFrom word 0 next cs

/-- Whether a word at an offset has no letter, digit or underscore next to it. -/
def standsAlone? (text word : String) (i : Nat) : Option Bool := do
  let before ← slice? text 0 i
  let after ← slice? text (i + word.utf8ByteSize) text.utf8ByteSize
  pure (!before.toList.getLast?.any Character.isWord && !after.toList.head?.any Character.isWord)

/-- Whether a word stands alone anywhere in a text. -/
def mentions? (text word : String) : Option Bool :=
  (matchesFrom word.toList 0 0 text.toList).anyM (standsAlone? text word)

theorem standsAlone?_eq (before word after : List Char) :
    standsAlone? (String.ofList (before ++ word ++ after)) (String.ofList word) (byteSize before)
      = some (!before.getLast?.any Character.isWord && !after.head?.any Character.isWord) := by
  have hbefore := slice?_append [] before (word ++ after)
  have hafter := slice?_append (before ++ word) after []
  rw [List.nil_append, byteSize_nil, ← List.append_assoc] at hbefore
  rw [List.append_nil, byteSize_append before word] at hafter
  rw [standsAlone?, utf8ByteSize_ofList, utf8ByteSize_ofList, hbefore, hafter]
  simp only [Option.bind_eq_bind, Option.bind_some, String.toList_ofList]
  rfl

theorem matchesFrom_anyM (word before cs : List Char) (skip : Nat) :
    (matchesFrom word skip (byteSize before) cs).anyM
        (standsAlone? (String.ofList (before ++ cs)) (String.ofList word))
      = some (Parser.mentionsFrom word skip before.getLast? cs) := by
  induction cs generalizing before skip with
  | nil => rfl
  | cons c cs ih =>
    have rest := fun k => ih (before ++ [c]) k
    rw [List.append_assoc, List.singleton_append, byteSize_append, byteSize_cons, byteSize_nil,
      Nat.add_zero, List.getLast?_concat] at rest
    rw [matchesFrom.eq_def, Parser.mentionsFrom.eq_def]
    cases skip with
    | succ k => exact rest k
    | zero =>
      dsimp only
      split
      · rename_i hprefix
        obtain ⟨after, hafter⟩ := List.isPrefixOf_iff_prefix.1 hprefix
        have halone := standsAlone?_eq before word after
        rw [List.append_assoc, hafter] at halone
        have hdrop : (c :: cs).drop word.length = after := by rw [← hafter, List.drop_left]
        rw [hdrop]
        show (standsAlone? _ _ _ >>= fun found => _) = _
        rw [halone, Option.bind_eq_bind, Option.bind_some]
        cases !before.getLast?.any Character.isWord && !after.head?.any Character.isWord with
        | true => rfl
        | false => exact rest _
      · exact rest 0

/-- **Words are looked for without failing.**  The text before and after each match is
sliced between characters. -/
theorem mentions?_eq (text word : String) :
    mentions? text word = some (Parser.mentions text word) := by
  have h := matchesFrom_anyM word.toList [] text.toList 0
  rw [List.nil_append, String.ofList_toList, String.ofList_toList] at h
  exact h

end Slice
end Outline
