/-
# Words among the bytes of a text

A word stands in a text wherever the bytes of the text are those of the word.  No character starts
inside another one, so these places are between characters (`occursAt_iff`).

| places of a word | what they are |
| --- | --- |
| `OccursAt` | all of them |
| `matchesIn` | those that are looked at: from left to right, none of them in another (`Scans`) |
| `StandsAloneAt` | those with no letter, digit or underscore next to them |

A place that is not looked at starts in a match, behind a character of the word.  If all characters
of the word are word characters, it does not stand alone there, and what is looked at is enough.
-/

import Outline.Proofs.Parser.Mentions
import Outline.Proofs.Source.Position

namespace Outline
namespace Slice

variable {text word : String} {i : Nat}

/-! ### Places of a word -/

/-- The bytes of a word stand in a text from a byte on. -/
def OccursAt (text word : String) (i : Nat) : Prop :=
  text.toByteArray.extract i (i + word.utf8ByteSize) = word.toByteArray

/-- A word stands at a byte of a text, no word character ends there, and none starts where the word
ends. -/
structure StandsAloneAt (text word : String) (i : Nat) : Prop where
  occurs : OccursAt text word i
  before : ∀ c j, OccursAt text (.singleton c) j → j + c.utf8Size = i → Character.isWord c = false
  after : ∀ c, OccursAt text (.singleton c) (i + word.utf8ByteSize) → Character.isWord c = false

/-- A word that is not empty stands on boundaries only: it starts with a byte that starts a
character, and no character has such a byte inside. -/
theorem OccursAt.onBoundary (h : OccursAt text word i) (hne : word ≠ "") : OnBoundary text i := by
  have hpos : 0 < word.toByteArray.size := by
    rw [String.size_toByteArray]
    exact Nat.pos_of_ne_zero (mt String.utf8ByteSize_eq_zero_iff.1 hne)
  have hbytes : text.toByteArray.extract i (i + word.utf8ByteSize) = word.toByteArray := h
  have hlt : i < text.utf8ByteSize := by
    have hsize := congrArg ByteArray.size hbytes
    rw [ByteArray.size_extract, String.size_toByteArray (s := text)] at hsize
    omega
  have hfirst : text.getUTF8Byte ⟨i⟩ hlt = word.toByteArray[0] := by
    simp only [← hbytes, ByteArray.getElem_extract, Nat.add_zero]
    rfl
  refine String.Pos.Raw.isValid_iff_isUTF8FirstByte.2 (.inr ⟨hlt, ?_⟩)
  rw [hfirst]
  exact word.isValidUTF8.isUTF8FirstByte_getElem_zero hpos

/-- **A word stands where it can be read.** -/
theorem occursAt_iff (hne : word ≠ "") : OccursAt text word i ↔
    ∃ before after, text.toList = before ++ (word.toList ++ after) ∧ i = byteSize before := by
  constructor
  · intro h
    obtain ⟨before, rest, rfl, rfl⟩ := onBoundary_iff.1 (h.onBoundary hne)
    rw [OccursAt, extract_ofList_append] at h
    have hsplit : word.toList.utf8Encode ++ rest.utf8Encode.extract word.utf8ByteSize
        rest.utf8Encode.size = rest.utf8Encode := by
      rw [String.utf8Encode_toList, ← h, ByteArray.extract_append_extract, Nat.zero_min,
        ByteArray.extract_zero_max_size]
    obtain ⟨after, rfl⟩ := List.isPrefix_of_utf8Encode_append_eq_utf8Encode _ hsplit
    exact ⟨before, after, String.toList_ofList, rfl⟩
  · rintro ⟨before, after, htext, rfl⟩
    rw [← String.ofList_toList (s := text), htext, OccursAt, extract_ofList_append,
      List.utf8Encode_append, String.utf8Encode_toList]
    exact ByteArray.extract_append_eq_left String.size_toByteArray.symm

theorem OccursAt.onBoundary_end (h : OccursAt text word i) (hne : word ≠ "") :
    OnBoundary text (i + word.utf8ByteSize) := by
  obtain ⟨before, after, htext, rfl⟩ := (occursAt_iff hne).1 h
  refine onBoundary_iff.2 ⟨before ++ word.toList, after, ?_, ?_⟩
  · rw [List.append_assoc, ← htext, String.ofList_toList]
  · rw [byteSize_append, byteSize_toList]

theorem occursAt_singleton_iff {c : Char} : OccursAt text (.singleton c) i ↔
    ∃ before after, text.toList = before ++ c :: after ∧ i = byteSize before := by
  rw [occursAt_iff String.singleton_ne_empty, String.toList_singleton]
  rfl

/-- The starts of a text are told apart by their bytes. -/
theorem append_inj_of_byteSize {before before' after after' : List Char}
    (h : before ++ after = before' ++ after') (hsize : byteSize before = byteSize before') :
    before = before' ∧ after = after' := by
  obtain ⟨between, rfl⟩ := exists_append_of_byteSize_le h hsize.le
  obtain rfl : between = [] := by
    by_contra hne
    have := byteSize_pos hne
    rw [byteSize_append] at hsize
    omega
  rw [List.append_nil] at h ⊢
  exact ⟨rfl, List.append_cancel_left h⟩

/-- The character before an offset. -/
theorem getLast?_eq_some_iff_occursAt {before after : List Char} {c : Char}
    (htext : text.toList = before ++ after) : before.getLast? = some c ↔
      ∃ j, OccursAt text (.singleton c) j ∧ j + c.utf8Size = byteSize before := by
  constructor
  · intro h
    obtain ⟨start, rfl⟩ := List.getLast?_eq_some_iff.1 h
    refine ⟨byteSize start, occursAt_singleton_iff.2 ⟨start, after, ?_, rfl⟩, ?_⟩
    · rw [htext, List.append_assoc, List.singleton_append]
    · rw [byteSize_append, byteSize_cons, byteSize_nil, Nat.add_zero]
  · rintro ⟨j, hoccurs, hend⟩
    obtain ⟨start, rest, hstart, rfl⟩ := occursAt_singleton_iff.1 hoccurs
    rw [htext, List.append_cons start] at hstart
    obtain ⟨rfl, -⟩ := append_inj_of_byteSize hstart
      (by rw [byteSize_append, byteSize_cons, byteSize_nil, Nat.add_zero, hend])
    exact List.getLast?_concat

/-- The character at an offset. -/
theorem head?_eq_some_iff_occursAt {before after : List Char} {c : Char}
    (htext : text.toList = before ++ after) :
    after.head? = some c ↔ OccursAt text (.singleton c) (byteSize before) := by
  rw [occursAt_singleton_iff, List.head?_eq_some_iff]
  constructor
  · rintro ⟨rest, rfl⟩
    exact ⟨before, rest, htext, rfl⟩
  · rintro ⟨start, rest, hstart, hsize⟩
    exact ⟨rest, (append_inj_of_byteSize (htext.symm.trans hstart) hsize).2⟩

/-- **A word stands alone** at a byte where it stands between other characters than those of
words. -/
theorem standsAloneAt_iff (hne : word ≠ "") : StandsAloneAt text word i ↔
    ∃ before after, text.toList = before ++ (word.toList ++ after) ∧ i = byteSize before ∧
      before.getLast?.any Character.isWord = false ∧ after.head?.any Character.isWord = false := by
  have hany (o : Option Char) : o.any Character.isWord = false ↔
      ∀ c, o = some c → Character.isWord c = false := by cases o <;> simp
  have hend (before : List Char) :
      byteSize before + word.utf8ByteSize = byteSize (before ++ word.toList) := by
    rw [byteSize_append, byteSize_toList]
  constructor
  · rintro ⟨hoccurs, hbefore, hafter⟩
    obtain ⟨before, after, htext, rfl⟩ := (occursAt_iff hne).1 hoccurs
    refine ⟨before, after, htext, rfl, (hany _).2 fun c hc => ?_, (hany _).2 fun c hc => ?_⟩
    · obtain ⟨j, hj, hsize⟩ := (getLast?_eq_some_iff_occursAt htext).1 hc
      exact hbefore c j hj hsize
    · rw [← List.append_assoc] at htext
      rw [hend] at hafter
      exact hafter c ((head?_eq_some_iff_occursAt htext).1 hc)
  · rintro ⟨before, after, htext, rfl, hbefore, hafter⟩
    refine ⟨(occursAt_iff hne).2 ⟨before, after, htext, rfl⟩, fun c j hj hsize => ?_,
      fun c hc => ?_⟩
    · exact (hany _).1 hbefore c ((getLast?_eq_some_iff_occursAt htext).2 ⟨j, hj, hsize⟩)
    · rw [← List.append_assoc] at htext
      rw [hend] at hc
      exact (hany _).1 hafter c ((head?_eq_some_iff_occursAt htext).2 hc)

/-! ### Matches -/

/-- Where a word is looked at in a text: these are the places around which `mentions?` slices. -/
def matchesIn (text word : String) : List Nat := matchesFrom word.toList 0 0 text.toList

/-- Places of a word in a text are those that are met from left to right, each after the end of the
one before: the word stands there, they lie apart, and wherever it stands it starts in one of
them. -/
structure Scans (text word : String) (places : List Nat) : Prop where
  occurs : ∀ i ∈ places, OccursAt text word i
  apart : places.Pairwise fun i j => i + word.utf8ByteSize ≤ j
  covers : ∀ i, OccursAt text word i → ∃ j ∈ places, j ≤ i ∧ i < j + word.utf8ByteSize

section

variable {ws : List Char}

/-- A match ends with the rest of its word. -/
theorem byteSize_of_starts (hne : ws ≠ []) {c : Char} {cs : List Char} (h : ws <+: c :: cs) :
    byteSize ws = c.utf8Size + byteSize (cs.take (ws.length - 1)) := by
  obtain ⟨rest, hrest⟩ := h
  cases ws with
  | nil => exact absurd rfl hne
  | cons d ds =>
    rw [List.cons_append] at hrest
    obtain ⟨rfl, rfl⟩ := List.cons.inj hrest
    rw [List.length_cons, Nat.add_sub_cancel, List.take_left, byteSize_cons]

/-- The word stands at every match, and none starts in what belongs to the match before. -/
theorem exists_of_mem_matchesFrom {skip offset i : Nat} {cs : List Char}
    (h : i ∈ matchesFrom ws skip offset cs) :
    ∃ before after, cs = before ++ (ws ++ after) ∧ i = offset + byteSize before ∧
      byteSize (cs.take skip) ≤ byteSize before := by
  induction cs generalizing skip offset with
  | nil => cases skip <;> cases h
  | cons c cs ih =>
    have later {k : Nat} (hk : i ∈ matchesFrom ws k (offset + c.utf8Size) cs) :
        ∃ before after, c :: cs = before ++ (ws ++ after) ∧ i = offset + byteSize before ∧
          byteSize ((c :: cs).take (k + 1)) ≤ byteSize before := by
      obtain ⟨before, after, hcs, hi, hle⟩ := ih hk
      refine ⟨c :: before, after, by rw [hcs, List.cons_append], ?_, ?_⟩
      · rw [hi, byteSize_cons, Nat.add_assoc]
      · rw [List.take_succ_cons, byteSize_cons, byteSize_cons]
        exact Nat.add_le_add_left hle _
    rw [matchesFrom.eq_def] at h
    cases skip with
    | succ k => exact later h
    | zero =>
      dsimp only at h
      split at h
      · rename_i hprefix
        rcases List.mem_cons.1 h with rfl | hlater
        · obtain ⟨after, hafter⟩ := List.isPrefixOf_iff_prefix.1 hprefix
          exact ⟨[], after, hafter.symm, rfl, Nat.zero_le _⟩
        · obtain ⟨before, after, hcs, hi, -⟩ := later hlater
          exact ⟨before, after, hcs, hi, Nat.zero_le _⟩
      · obtain ⟨before, after, hcs, hi, -⟩ := later h
        exact ⟨before, after, hcs, hi, Nat.zero_le _⟩

/-- Matches lie apart. -/
theorem pairwise_matchesFrom (hne : ws ≠ []) (skip offset : Nat) (cs : List Char) :
    (matchesFrom ws skip offset cs).Pairwise fun i j => i + byteSize ws ≤ j := by
  induction cs generalizing skip offset with
  | nil => cases skip <;> exact .nil
  | cons c cs ih =>
    rw [matchesFrom.eq_def]
    cases skip with
    | succ k => exact ih k _
    | zero =>
      dsimp only
      split
      · rename_i hprefix
        refine List.pairwise_cons.2 ⟨fun j hj => ?_, ih _ _⟩
        obtain ⟨before, -, -, rfl, hle⟩ := exists_of_mem_matchesFrom hj
        rw [byteSize_of_starts hne (List.isPrefixOf_iff_prefix.1 hprefix)]
        omega
      · exact ih 0 _

/-- Wherever the word stands, unless it starts in what belongs to the match before, it starts in a
match. -/
theorem exists_match_of_append (hne : ws ≠ []) (skip offset : Nat) {cs before after : List Char}
    (hcs : cs = before ++ (ws ++ after)) (hskip : byteSize (cs.take skip) ≤ byteSize before) :
    ∃ j ∈ matchesFrom ws skip offset cs,
      j ≤ offset + byteSize before ∧ offset + byteSize before < j + byteSize ws := by
  induction cs generalizing skip offset before with
  | nil => exact absurd (List.append_eq_nil_iff.1 (List.append_eq_nil_iff.1 hcs.symm).2).1 hne
  | cons c cs ih =>
    have hpos := byteSize_pos hne
    have hc := c.utf8Size_pos
    rw [matchesFrom.eq_def]
    cases before with
    | nil =>
      cases skip with
      | succ k =>
        -- the word would start in what belongs to the match before
        rw [List.take_succ_cons, byteSize_cons, byteSize_nil] at hskip
        omega
      | zero =>
        have hprefix : ws.isPrefixOf (c :: cs) = true :=
          List.isPrefixOf_iff_prefix.2 ⟨after, hcs.symm⟩
        dsimp only
        rw [if_pos hprefix]
        exact ⟨offset, List.mem_cons_self, Nat.le_refl _, Nat.add_lt_add_left hpos offset⟩
    | cons d before =>
      obtain ⟨rfl, htail⟩ := List.cons.inj hcs
      rw [byteSize_cons, ← Nat.add_assoc]
      cases skip with
      | succ k =>
        rw [List.take_succ_cons, byteSize_cons, byteSize_cons] at hskip
        exact ih k _ htail (Nat.le_of_add_le_add_left hskip)
      | zero =>
        dsimp only
        split
        · rename_i hprefix
          -- a place in the rest of this match is covered by it, a later one by a later match
          by_cases hinside : byteSize (cs.take (ws.length - 1)) ≤ byteSize before
          · obtain ⟨j, hj, hle, hlt⟩ := ih _ (offset + c.utf8Size) htail hinside
            exact ⟨j, List.mem_cons_of_mem offset hj, hle, hlt⟩
          · have hsize := byteSize_of_starts hne (List.isPrefixOf_iff_prefix.1 hprefix)
            exact ⟨offset, List.mem_cons_self, by omega, by omega⟩
        · exact ih 0 _ htail (Nat.zero_le _)

end

/-- **Matches are met from left to right** and leave nothing out but what starts in them. -/
theorem scans_matchesIn (text : String) (hne : word ≠ "") :
    Scans text word (matchesIn text word) := by
  have hlist : word.toList ≠ [] := mt String.toList_eq_nil_iff.1 hne
  refine ⟨fun i hi => ?_, ?_, fun i hi => ?_⟩
  · obtain ⟨before, after, htext, rfl, -⟩ := exists_of_mem_matchesFrom hi
    exact (occursAt_iff hne).2 ⟨before, after, htext, Nat.zero_add _⟩
  · have := pairwise_matchesFrom hlist 0 0 text.toList
    rwa [byteSize_toList] at this
  · obtain ⟨before, after, htext, rfl⟩ := (occursAt_iff hne).1 hi
    have := exists_match_of_append hlist 0 0 htext (Nat.zero_le _)
    rwa [Nat.zero_add, byteSize_toList] at this

end Slice

namespace Parser

open Slice (OccursAt OnBoundary StandsAloneAt Scans matchesIn mentions? standsAloneAt_iff)

/-- **Every whole word is found.**  Whatever the text is, a word of letters, digits and underscores
is mentioned in it if and only if it stands alone at some byte; the places that are looked at are
met from left to right without overlap, and they and all others where the word stands start and end
between characters, so that nothing is sliced inside a character. -/
theorem mentions_exact {text word : String} (hne : word ≠ "")
    (hword : ∀ c ∈ word.toList, Character.isWord c = true) :
    (mentions text word = true ↔ ∃ i, StandsAloneAt text word i) ∧
    Scans text word (matchesIn text word) ∧
    mentions? text word = some (mentions text word) ∧
    ∀ i, OccursAt text word i → OnBoundary text i ∧ OnBoundary text (i + word.utf8ByteSize) := by
  have hlist : word.toList ≠ [] := mt String.toList_eq_nil_iff.1 hne
  refine ⟨?_, Slice.scans_matchesIn text hne, Slice.mentions?_eq text word,
    fun i h => ⟨h.onBoundary hne, h.onBoundary_end hne⟩⟩
  calc mentions text word = true
      ↔ StandsAlone word.toList none text.toList :=
        ⟨standsAlone_of_mentionsFrom, mentionsFrom_of_standsAlone hlist hword fun h => absurd rfl h⟩
    _ ↔ ∃ i, StandsAloneAt text word i := by
        constructor
        · rintro ⟨before, after, htext, hbefore, hafter⟩
          rw [Option.or_none] at hbefore
          exact ⟨_, (standsAloneAt_iff hne).2 ⟨before, after, htext, rfl, hbefore, hafter⟩⟩
        · rintro ⟨i, hi⟩
          obtain ⟨before, after, htext, -, hbefore, hafter⟩ := (standsAloneAt_iff hne).1 hi
          exact ⟨before, after, htext, by rwa [Option.or_none], hafter⟩

/-- The hypotheses of `mentions_exact` are satisfiable: in `éééé éé` the word `éé` of four bytes is
looked at from the bytes 0, 4 and 9, not from the byte 2, and stands alone at the last of them; in
`ééé` it does not stand alone. -/
theorem mentions_exact_overlapping :
    "éé" ≠ "" ∧ (∀ c ∈ "éé".toList, Character.isWord c = true) ∧
    matchesIn "éééé éé" "éé" = [0, 4, 9] ∧ OccursAt "éééé éé" "éé" 2 ∧
    (∃ i, StandsAloneAt "éééé éé" "éé" i) ∧ ¬∃ i, StandsAloneAt "ééé" "éé" i := by
  have hne : "éé" ≠ "" := by decide
  have hword : ∀ c ∈ "éé".toList, Character.isWord c = true :=
    List.all_eq_true.1 (by decide +kernel)
  refine ⟨hne, hword, by decide, by unfold OccursAt; decide,
    (mentions_exact hne hword).1.1 (by decide +kernel), fun h => ?_⟩
  exact absurd ((mentions_exact hne hword).1.2 h) (by decide +kernel)

end Parser
end Outline
