/-
# The checks of a block by index

The same checks on the lexemes of the whole file, with every operation that can fail
made explicit: a lexeme is read at an index, a slice is taken between two indices, and
a number is made smaller.  Where nothing fails the value is `some`.  Each check is
shown to come to what the check of the block comes to, so for a block that was closed
no index is out of range and no depth falls below zero.

| operation | fails |
| --- | --- |
| `ls[i]?` | if `i` is not the index of a lexeme |
| `minus? a b` | if `a < b` |
| `slice? ls i j` | unless `i ≤ j ≤ ls.length` |
| `mentions? text name` | unless the places of the name in the text are between characters |
-/

import Outline.Proofs.Parser.Check
import Outline.Proofs.Source.Slice

namespace Outline
namespace Parser
namespace Indexed

/-- The lexemes from an index up to another one. -/
def slice? (ls : List Lexeme) (first last : Nat) : Option (List Lexeme) :=
  if first ≤ last ∧ last ≤ ls.length then some ((ls.drop first).take (last - first)) else none

theorem drop_of_getElem? {ls : List Lexeme} {i : Nat} {l : Lexeme} (h : ls[i]? = some l) :
    ls.drop i = l :: ls.drop (i + 1) := by
  obtain ⟨hi, rfl⟩ := List.getElem?_eq_some_iff.1 h
  exact List.drop_eq_getElem_cons hi

/-- A cursor that stands on an index of the lexemes of a file. -/
structure StandsOn (ls : List Lexeme) (c : Cursor) : Prop where
  index_le : c.index ≤ ls.length
  ahead : c.ahead = ls.drop c.index

/-- Whatever is passed from the start of a file is passed on its lexemes. -/
theorem standsOn_of_passes {ls ms : List Lexeme} {c : Cursor} (h : Cursor.Passes ⟨0, ls⟩ ms c) :
    StandsOn ls c := by
  rcases h with ⟨ha, hi⟩
  dsimp only at ha hi
  refine ⟨?_, ?_⟩
  · rw [hi, ha, List.length_append]
    omega
  · rw [hi, ha, Nat.zero_add, List.drop_left]

/-- The lexemes that are passed are those at the next indices. -/
theorem StandsOn.getElem? {ls : List Lexeme} {c : Cursor} (h : StandsOn ls c) (i : Nat) :
    ls[c.index + i]? = c.ahead[i]? := by
  rw [h.ahead, List.getElem?_drop]

/-! ### Angles -/

/-- The index of the `>` that closes the open angles, from the index `i` on. -/
def angleClose (depth i : Nat) : List Lexeme → Option (Option Nat)
  | [] => some none
  | l :: ls =>
    if l.isPunct "<" then angleClose (depth + 1) (i + 1) ls
    else if l.isPunct ">" then do
      let d ← minus? depth 1
      if d = 0 then return some i else angleClose d (i + 1) ls
    else if l.isOneOf ["\x7b", "\x7d", ";", "("] then return none
    else angleClose depth (i + 1) ls

theorem angleClose_eq {depth : Nat} (hd : 1 ≤ depth) (i : Nat) (ls : List Lexeme) :
    angleClose depth (i + 1) ls = some ((angleLength depth ls).map (i + ·)) := by
  have later : ∀ (i : Nat) (o : Option Nat),
      o.map (i + 1 + ·) = (o.map (· + 1)).map (i + ·) := by
    intro i o
    cases o with
    | none => rfl
    | some n =>
      refine congrArg some ?_
      show i + 1 + n = i + (n + 1)
      omega
  induction ls generalizing depth i with
  | nil => rfl
  | cons l ls ih =>
    rw [angleClose, angleLength]
    split
    · rw [ih (Nat.le_succ_of_le hd), later]
    split
    · rw [minus?_of_le hd, Option.bind_eq_bind, Option.bind_some]
      by_cases h1 : depth ≤ 1
      · rw [if_pos (by omega), if_pos h1]
        rfl
      · rw [if_neg (by omega), if_neg h1, ih (by omega), later]
    split
    · rfl
    · rw [ih hd, later]

/-- How many lexemes the type arguments that are next take, if a `.` follows. -/
def qualifyingArguments? (ls : List Lexeme) (c : Cursor) : Option (Option Nat) :=
  if c.atPunct "<" then do
    let close ← angleClose 0 c.index (ls.drop c.index)
    match close with
    | some i => do
      let n ← minus? i c.index
      pure (if ls[i + 1]?.any (·.isPunct ".") then some n else none)
    | none => pure none
  else some none

theorem qualifyingArguments?_eq {ls : List Lexeme} {c : Cursor} (h : StandsOn ls c) :
    qualifyingArguments? ls c = some (qualifyingArguments c) := by
  rw [qualifyingArguments?, qualifyingArguments, ← h.ahead]
  split
  · rename_i ha
    rcases Cursor.exists_head?_of_any ha with ⟨l, hl, hp⟩
    rcases c with ⟨i, ms⟩
    cases ms with
    | nil => cases hl
    | cons m ms =>
      obtain rfl := Option.some.inj hl
      rw [angleClose, if_pos hp, Nat.zero_add, angleClose_eq (Nat.le_refl 1)]
      show _ = some (match angleLength 1 ms with | some n => _ | none => _)
      cases angleLength 1 ms with
      | none => rfl
      | some n =>
        have hdot : ls[i + n + 1]? = (Cursor.drop (n + 1) ⟨i, m :: ms⟩).head? := by
          rw [Nat.add_assoc, show ls[i + (n + 1)]? = _ from h.getElem? (n + 1), Cursor.head?,
            Cursor.drop, List.head?_drop]
        simp only [Option.map_some, Option.bind_eq_bind, Option.bind_some,
          minus?_of_le (Nat.le_add_right i n), Nat.add_sub_cancel_left, hdot]
        rfl
  · rfl

/-! ### Statements -/

/-- The lexeme before the index `i`. -/
def before? (ls : List Lexeme) (i : Nat) : Option Lexeme := do
  let j ← minus? i 1
  ls[j]?

/-- The lexeme before the index `i`; none at the index `first`. -/
def previous? (ls : List Lexeme) (first i : Nat) : Option (Option Lexeme) :=
  if i = first then some none else (before? ls i).map some

/-- A semicolon that is missing before the index `i`. -/
def missingBefore? (ls : List Lexeme) (i : Nat) : Option (List Finding) := do
  let _ ← before? ls i
  pure [missingAfter (i - 1)]

/-- Goes on checking the statements of a block that starts at `first`: `n` lexemes from
the index `i` on, each with the one before it. -/
def statementsFrom (ls : List Lexeme) (first : Nat) (s : StatementState) :
    Nat → Nat → Option (List Finding)
  | _, 0 => some []
  | i, n + 1 => do
    let l ← ls[i]?
    let previous ← previous? ls first i
    let found ← if { s with previous }.missesSemicolon l then missingBefore? ls i else pure []
    let more ← statementsFrom ls first ({ s with previous }.step l) (i + 1) n
    pure (found ++ more)

/-- Checks the statements of the block between two braces. -/
def statements (ls : List Lexeme) (first last : Nat) : Option (List Finding) := do
  let n ← minus? (last + 1) first
  statementsFrom ls first {} first n

theorem before?_eq {ls : List Lexeme} {i : Nat} (hi : 0 < i) : before? ls i = ls[i - 1]? := by
  rw [before?, minus?_of_le hi]
  rfl

theorem missingBefore?_eq {ls : List Lexeme} {i : Nat} (hi : 0 < i) (hn : i ≤ ls.length) :
    missingBefore? ls i = some [missingAfter (i - 1)] := by
  rw [missingBefore?, before?_eq hi, List.getElem?_eq_getElem (by omega)]
  rfl

theorem previous?_eq {ls : List Lexeme} {first i : Nat} (hi : first ≤ i) (hn : i ≤ ls.length) :
    previous? ls first i = some (if i = first then none else ls[i - 1]?) := by
  unfold previous?
  split
  · rfl
  · rw [before?_eq (by omega), List.getElem?_eq_getElem (by omega)]
    rfl

theorem statementsFrom_eq {ls : List Lexeme} {first i n : Nat} {s : StatementState}
    (hi : first ≤ i) (hn : i + n ≤ ls.length)
    (hs : s.previous = if i = first then none else ls[i - 1]?) :
    statementsFrom ls first s i n =
      some (checkStatementsFrom s i ((ls.drop i).take n)) := by
  induction n generalizing i s with
  | zero =>
    rw [statementsFrom, List.take_zero]
    rfl
  | succ n ih =>
    have hl : ls[i]? = some ls[i] := List.getElem?_eq_getElem (by omega)
    have hnext : (s.step ls[i]).previous = if i + 1 = first then none else ls[i + 1 - 1]? := by
      rw [if_neg (by omega), Nat.add_sub_cancel, hl]
      rfl
    rw [statementsFrom, hl, drop_of_getElem? hl, List.take_succ_cons, checkStatementsFrom,
      previous?_eq hi (by omega), ← hs]
    simp only [Option.bind_eq_bind, Option.bind_some]
    rw [ih (Nat.le_succ_of_le hi) (by omega) hnext]
    cases hm : s.missesSemicolon ls[i] with
    | true =>
      -- a semicolon is missed only after a lexeme of the block
      have hpos : i ≠ first := by
        intro h
        rw [if_pos h] at hs
        simp [StatementState.missesSemicolon, StatementState.isOpen, hs] at hm
      have hpos : 0 < i := by omega
      rw [if_pos rfl, missingBefore?_eq hpos (show i ≤ ls.length by omega)]
      rfl
    | false => rfl

theorem statements_eq {ls : List Lexeme} {first last : Nat} (h : first ≤ last)
    (hl : last < ls.length) :
    statements ls first last =
      some (checkStatements first ((ls.drop first).take (last + 1 - first))) := by
  rw [statements, minus?_of_le (by omega), Option.bind_eq_bind, Option.bind_some]
  exact statementsFrom_eq (Nat.le_refl _) (by omega) (by simp)

/-! ### Locals -/

/-- The index after the qualifiers that start at the index `j`. -/
def qualifiersEnd (body : List Lexeme) (j : Nat) : Option Nat :=
  if _h : j + 1 < body.length then do
    let a ← body[j]?
    let b ← body[j + 1]?
    if a.isPunct "." && b.isName then qualifiersEnd body (j + 2) else pure j
  else some j
termination_by body.length - j

/-- The index after the type arguments that go on at the index `j`; none if they have
no end. -/
def argumentsEnd (body : List Lexeme) (depth j : Nat) : Option (Option Nat) :=
  if _h : j < body.length then do
    let l ← body[j]?
    if l.isPunct "<" then argumentsEnd body (depth + 1) (j + 1)
    else if l.isPunct ">" then do
      let d ← minus? depth 1
      if d = 0 then pure (some (j + 1)) else argumentsEnd body d (j + 1)
    else if l.isOneOf [";", "\x7b", "\x7d", "="] then pure none
    else argumentsEnd body depth (j + 1)
  else some none
termination_by body.length - j

/-- The index after the nullable signs and array brackets that start at the index `j`. -/
def suffixesEnd (body : List Lexeme) (j : Nat) : Nat :=
  if _h : j < body.length then
    if body[j]?.any (·.isPunct "?") then suffixesEnd body (j + 1)
    else if body[j]?.any (·.isPunct "[") && body[j + 1]?.any (·.isPunct "]") then
      suffixesEnd body (j + 2)
    else j
  else j
termination_by body.length - j

/-- The index after the qualifiers that follow the lexeme, if it is a name. -/
def qualifiersEnd? (body : List Lexeme) (l : Lexeme) (j : Nat) : Option Nat :=
  if l.isName then qualifiersEnd body j else some j

/-- The index after the type arguments that start at the index `j`, if they do. -/
def argumentsEnd? (body : List Lexeme) (j : Nat) : Option (Option Nat) :=
  if body[j]?.any (·.isPunct "<") then argumentsEnd body 0 j else some (some j)

/-- The index after the type that starts at the index `i`. -/
def localTypeEnd (body : List Lexeme) (i : Nat) : Option (Option Nat) := do
  let l ← body[i]?
  if startsLocalType l then
    let j ← qualifiersEnd? body l (i + 1)
    let k ← argumentsEnd? body j
    pure (k.map (suffixesEnd body))
  else pure none

/-- The local that is declared at the index `i`: the index of its name, and how it starts. -/
def localDeclaration (body : List Lexeme) (i : Nat) : Option (Option (Nat × LocalStart)) := do
  let named ← localTypeEnd body i
  pure <| named.bind fun j =>
    body[j]?.bind fun l =>
      if l.isName then (localStart? (body.drop (j + 1))).map (j, ·) else none

theorem qualifiersEnd_eq {body : List Lexeme} {j : Nat} (hj : j ≤ body.length) :
    ∃ k, qualifiersEnd body j = some k ∧ j ≤ k ∧ k ≤ body.length ∧
      dropQualifiers (body.drop j) = body.drop k := by
  induction hn : body.length - j using Nat.strongRecOn generalizing j with
  | ind n ih =>
    by_cases h : j + 1 < body.length
    · have ha : body[j]? = some body[j] := List.getElem?_eq_getElem (by omega)
      have hb : body[j + 1]? = some body[j + 1] := List.getElem?_eq_getElem h
      rw [qualifiersEnd, dif_pos h, ha, hb, drop_of_getElem? ha, drop_of_getElem? hb,
        dropQualifiers]
      simp only [Option.bind_eq_bind, Option.bind_some]
      split
      · obtain ⟨k, hk, hjk, hkl, hd⟩ := ih (body.length - (j + 2)) (by omega)
          (show j + 2 ≤ body.length by omega) rfl
        exact ⟨k, hk, by omega, hkl, hd⟩
      · exact ⟨j, rfl, Nat.le_refl _, by omega, by rw [drop_of_getElem? ha, drop_of_getElem? hb]⟩
    · refine ⟨j, by rw [qualifiersEnd, dif_neg h], Nat.le_refl _, hj, ?_⟩
      by_cases hl : j < body.length
      · have ha : body[j]? = some body[j] := List.getElem?_eq_getElem hl
        have he : body.drop (j + 1) = [] := List.drop_eq_nil_of_le (by omega)
        rw [drop_of_getElem? ha, he]
        rfl
      · rw [List.drop_eq_nil_of_le (by omega)]
        rfl

/-- Type arguments are dropped where they end, and no depth falls below zero. -/
theorem argumentsEnd_eq {body : List Lexeme} {depth j : Nat} (hd : 1 ≤ depth)
    (hj : j ≤ body.length) :
    ∃ r, argumentsEnd body depth j = some r ∧ (∀ k ∈ r, j ≤ k ∧ k ≤ body.length) ∧
      dropArguments depth (body.drop j) = r.map body.drop := by
  induction hn : body.length - j using Nat.strongRecOn generalizing depth j with
  | ind n ih =>
    by_cases h : j < body.length
    · have hl : body[j]? = some body[j] := List.getElem?_eq_getElem h
      have later : ∀ {depth : Nat}, 1 ≤ depth → ∃ r, argumentsEnd body depth (j + 1) = some r ∧
          (∀ k ∈ r, j ≤ k ∧ k ≤ body.length) ∧
          dropArguments depth (body.drop (j + 1)) = r.map body.drop := by
        intro depth hd
        obtain ⟨r, hr, hk, hm⟩ := ih (body.length - (j + 1)) (by omega) hd
          (show j + 1 ≤ body.length by omega) rfl
        exact ⟨r, hr, fun k hkr => ⟨by have := (hk k hkr).1; omega, (hk k hkr).2⟩, hm⟩
      rw [argumentsEnd, dif_pos h, hl, drop_of_getElem? hl, dropArguments]
      simp only [Option.bind_eq_bind, Option.bind_some]
      split
      · exact later (Nat.le_succ_of_le hd)
      split
      · rw [minus?_of_le hd, Option.bind_some]
        by_cases h1 : depth ≤ 1
        · rw [if_pos (show depth - 1 = 0 by omega), if_pos h1]
          refine ⟨some (j + 1), rfl, fun k hk => ?_, rfl⟩
          obtain rfl := Option.some.inj hk
          omega
        · rw [if_neg (show ¬depth - 1 = 0 by omega), if_neg h1]
          exact later (by omega)
      split
      · exact ⟨none, rfl, by simp, rfl⟩
      · exact later hd
    · refine ⟨none, by rw [argumentsEnd, dif_neg h], by simp, ?_⟩
      rw [List.drop_eq_nil_of_le (by omega)]
      rfl

theorem dropSuffixes_nullable {l : Lexeme} (h : l.isPunct "?" = true) (ls : List Lexeme) :
    dropSuffixes (l :: ls) = dropSuffixes ls := by
  cases ls <;> simp [dropSuffixes, h]

theorem dropSuffixes_other {l : Lexeme} {ls : List Lexeme} (h : l.isPunct "?" = false)
    (hb : (l.isPunct "[" && ls.head?.any (·.isPunct "]")) = false) :
    dropSuffixes (l :: ls) = l :: ls := by
  cases ls with
  | nil => simp [dropSuffixes, h]
  | cons m ls =>
    rw [List.head?_cons, Option.any_some] at hb
    simp [dropSuffixes, h, hb]

theorem suffixesEnd_eq {body : List Lexeme} {j : Nat} (hj : j ≤ body.length) :
    j ≤ suffixesEnd body j ∧ suffixesEnd body j ≤ body.length ∧
      dropSuffixes (body.drop j) = body.drop (suffixesEnd body j) := by
  induction hn : body.length - j using Nat.strongRecOn generalizing j with
  | ind n ih =>
    by_cases h : j < body.length
    · have ha : body[j]? = some body[j] := List.getElem?_eq_getElem h
      have later : ∀ k, j < k → k ≤ body.length → j ≤ suffixesEnd body k ∧
          suffixesEnd body k ≤ body.length ∧
          dropSuffixes (body.drop k) = body.drop (suffixesEnd body k) := by
        intro k hjk hk
        obtain ⟨h1, h2, h3⟩ := ih (body.length - k) (by omega) hk rfl
        exact ⟨by omega, h2, h3⟩
      have hb : body[j + 1]? = (body.drop (j + 1)).head? := by rw [List.head?_drop]
      rw [suffixesEnd, dif_pos h, ha, hb, drop_of_getElem? ha]
      simp only [Option.any_some]
      split
      · rw [dropSuffixes_nullable ‹_›]
        exact later (j + 1) (by omega) h
      rename_i hq
      split
      · rename_i hs
        rw [Bool.and_eq_true] at hs
        cases hd : body.drop (j + 1) with
        | nil => simp [hd] at hs
        | cons m ls =>
          have hm : body[j + 1]? = some m := by rw [hb, hd, List.head?_cons]
          have hlt : j + 1 < body.length := (List.getElem?_eq_some_iff.1 hm).1
          have hls : ls = body.drop (j + 2) := by
            have := drop_of_getElem? hm
            rw [hd] at this
            exact (List.cons.inj this).2
          rw [hd, List.head?_cons, Option.any_some] at hs
          have hb' : body[j].isPunct "?" = false := by simpa using hq
          rw [dropSuffixes, if_neg hq, hs.1, hs.2, hls]
          exact later (j + 2) (by omega) hlt
      · rename_i hs
        rw [dropSuffixes_other (by simpa using hq) (by simpa using hs), drop_of_getElem? ha]
        exact ⟨Nat.le_refl _, hj, rfl⟩
    · rw [suffixesEnd, dif_neg h, List.drop_eq_nil_of_le (by omega)]
      exact ⟨Nat.le_refl _, hj, rfl⟩

/-- Type arguments that are next are dropped where they end. -/
theorem argumentsEnd?_eq {body : List Lexeme} {j : Nat} (hj : j ≤ body.length) :
    ∃ r, argumentsEnd? body j = some r ∧
      (∀ k ∈ r, j ≤ k ∧ k ≤ body.length) ∧ dropArguments? (body.drop j) = r.map body.drop := by
  unfold argumentsEnd?
  by_cases h : j < body.length
  · have hl : body[j]? = some body[j] := List.getElem?_eq_getElem h
    rw [hl, drop_of_getElem? hl, dropArguments?, Option.any_some]
    split
    · rename_i ha
      obtain ⟨r, hr, hk, hm⟩ := argumentsEnd_eq (Nat.le_refl 1) (show j + 1 ≤ body.length from h)
      refine ⟨r, ?_, fun k hkr => ⟨Nat.le_of_succ_le (hk k hkr).1, (hk k hkr).2⟩, hm⟩
      rw [argumentsEnd, dif_pos h, hl, Option.bind_eq_bind, Option.bind_some, if_pos ha]
      exact hr
    · refine ⟨some j, rfl, fun k hk => ?_, by rw [Option.map_some, drop_of_getElem? hl]⟩
      obtain rfl := Option.some.inj hk
      exact ⟨Nat.le_refl _, hj⟩
  · rw [List.getElem?_eq_none (by omega), List.drop_eq_nil_of_le (by omega)]
    refine ⟨some j, rfl, fun k hk => ?_, ?_⟩
    · obtain rfl := Option.some.inj hk
      exact ⟨Nat.le_refl _, hj⟩
    · rw [Option.map_some, List.drop_eq_nil_of_le (by omega)]
      rfl

/-- The type of a local is dropped where it ends. -/
theorem localTypeEnd_eq {body : List Lexeme} {i : Nat} (hi : i < body.length) :
    ∃ r, localTypeEnd body i = some r ∧ (∀ k ∈ r, i ≤ k ∧ k ≤ body.length) ∧
      dropLocalType (body.drop i) = r.map body.drop := by
  have hl : body[i]? = some body[i] := List.getElem?_eq_getElem hi
  rw [localTypeEnd, hl, drop_of_getElem? hl, dropLocalType]
  simp only [Option.bind_eq_bind, Option.bind_some]
  split
  · obtain ⟨j, hj, hij, hjl, hd⟩ : ∃ j, qualifiersEnd? body body[i] (i + 1) = some j ∧
          i + 1 ≤ j ∧ j ≤ body.length ∧ (if body[i].isName then dropQualifiers (body.drop (i + 1))
            else body.drop (i + 1)) = body.drop j := by
      unfold qualifiersEnd?
      split
      · exact qualifiersEnd_eq hi
      · exact ⟨i + 1, rfl, Nat.le_refl _, hi, rfl⟩
    obtain ⟨r, hr, hk, hm⟩ := argumentsEnd?_eq hjl
    rw [hj, Option.bind_some, hr, Option.bind_some, hd, hm]
    refine ⟨r.map (suffixesEnd body), rfl, fun k hkr => ?_, ?_⟩
    · obtain ⟨m, hmr, rfl⟩ := Option.map_eq_some_iff.1 hkr
      obtain ⟨h1, h2, -⟩ := suffixesEnd_eq (hk m hmr).2
      have := (hk m hmr).1
      exact ⟨by omega, h2⟩
    · cases r with
      | none => rfl
      | some m => exact congrArg some (suffixesEnd_eq (hk m rfl).2).2.2
  · exact ⟨none, rfl, by simp, rfl⟩

/-- A local is declared at an index as it is declared by the lexemes from there on. -/
theorem localDeclaration_cases {body : List Lexeme} {i : Nat} (hi : i < body.length) :
    (localDeclaration? (body.drop i) = none ∧ localDeclaration body i = some none) ∨
      ∃ k l start, body[i + k]? = some l ∧
        localDeclaration? (body.drop i) = some (k, l.text, start) ∧
        localDeclaration body i = some (some (i + k, start)) := by
  obtain ⟨r, hr, hk, hm⟩ := localTypeEnd_eq hi
  rw [localDeclaration, hr, localDeclaration?, hm]
  simp only [Option.bind_eq_bind, Option.bind_some]
  cases r with
  | none => exact .inl ⟨rfl, rfl⟩
  | some j =>
    obtain ⟨hij, hjl⟩ := hk j rfl
    simp only [Option.map_some, Option.bind_some]
    by_cases h : j < body.length
    · have hl : body[j]? = some body[j] := List.getElem?_eq_getElem h
      have hn : i + (j - i) = j := by omega
      rw [hl, drop_of_getElem? hl, Option.bind_some]
      cases hb : body[j].isName with
      | false => exact .inl (by simp [hb])
      | true =>
        cases hs : localStart? (body.drop (j + 1)) with
        | none => exact .inl (by simp [hb, hs])
        | some start =>
          refine .inr ⟨j - i, body[j], start, by rw [hn, hl], ?_, by simp [hn]⟩
          simp [hb, hs]
          omega
    · have hd : body.drop j = [] := List.drop_eq_nil_of_le (by omega)
      rw [List.getElem?_eq_none (by omega), hd]
      exact .inl ⟨rfl, rfl⟩

/-- Whether a statement starts at an index of a body. -/
def fresh? (body : List Lexeme) (i : Nat) : Option Bool :=
  if i = 0 then some true else do
    let j ← minus? i 1
    let l ← body[j]?
    pure (l.isOneOf [";", "\x7b", "\x7d"])

/-- Whether a lexeme mentions a local. -/
def mentionsLocal? (name : String) (l : Lexeme) : Option Bool :=
  if l.isWord name then some true
  else if l.kind == .interpolated then Slice.mentions? l.text name
  else some false

/-- What is said of the local that is declared at the index `i` of a body, whose first
lexeme has the given index in the file. -/
def unmentioned (body : List Lexeme) (index i : Nat) : Option (List Finding) := do
  let declared ← localDeclaration body i
  match declared with
  | none => pure []
  | some (j, start) =>
    let l ← body[j]?
    let mentioned ← (body.take j ++ body.drop (j + 1)).anyM (mentionsLocal? l.text)
    pure <| if mentioned then []
      else ((start.cause? l.text).map fun cause => Finding.mk cause (.whole (index + j))).toList

/-- Goes on through a body: `n` lexemes from the index `i` on. -/
def localsFrom (body : List Lexeme) (index : Nat) : Nat → Nat → Option (List Finding)
  | _, 0 => some []
  | i, n + 1 => do
    let fresh ← fresh? body i
    let found ← if fresh then unmentioned body index i else some []
    let more ← localsFrom body index (i + 1) n
    pure (found ++ more)

/-- Checks the locals of the block between two braces. -/
def locals (ls : List Lexeme) (first last : Nat) : Option (List Finding) := do
  let body ← slice? ls (first + 1) last
  localsFrom body (first + 1) 0 body.length

theorem anyM_mentionsLocal? (name : String) (ls : List Lexeme) :
    ls.anyM (mentionsLocal? name) = some (ls.any (mentionsLocal · name)) := by
  have one : ∀ l, mentionsLocal? name l = some (mentionsLocal l name) := by
    intro l
    unfold mentionsLocal? mentionsLocal
    split
    · simp [*]
    split
    · simp [Slice.mentions?_eq, *]
    · simp [*]
  induction ls with
  | nil => rfl
  | cons l ls ih =>
    show (mentionsLocal? name l >>= fun found => _) = _
    rw [one, Option.bind_eq_bind, Option.bind_some, List.any_cons]
    cases mentionsLocal l name with
    | true => rfl
    | false => exact ih

theorem unmentioned_eq {body : List Lexeme} {index i : Nat} (hi : i < body.length) :
    unmentioned body index i = some (match localDeclaration? (body.drop i) with
      | some (before, name, start) =>
        if isMentioned body (i + before) name then []
        else ((start.cause? name).map fun cause =>
          Finding.mk cause (.whole (index + i + before))).toList
      | none => []) := by
  rw [unmentioned]
  obtain ⟨h, h'⟩ | ⟨k, l, start, hl, h, h'⟩ := localDeclaration_cases hi
  · rw [h, h']
    rfl
  · rw [h, h', Option.bind_eq_bind, Option.bind_some]
    simp only [hl, anyM_mentionsLocal?, Option.bind_eq_bind, Option.bind_some, ← Nat.add_assoc]
    rfl

theorem fresh?_eq {body : List Lexeme} {i : Nat} (hi : i < body.length) :
    fresh? body i = some (if i = 0 then true
      else body[i - 1]?.any (·.isOneOf [";", "\x7b", "\x7d"])) := by
  unfold fresh?
  split
  · rfl
  · have hl : body[i - 1]? = some body[i - 1] := List.getElem?_eq_getElem (by omega)
    rw [minus?_of_le (by omega), Option.bind_eq_bind, Option.bind_some, hl]
    rfl

theorem localsFrom_eq {body : List Lexeme} {index i n : Nat} (hn : i + n = body.length) :
    localsFrom body index i n = some (checkLocalsFrom body index i
      (if i = 0 then true else body[i - 1]?.any (·.isOneOf [";", "\x7b", "\x7d"]))
        (body.drop i)) := by
  induction n generalizing i with
  | zero =>
    rw [List.drop_eq_nil_of_le (by omega)]
    rfl
  | succ n ih =>
    have hl : body[i]? = some body[i] := List.getElem?_eq_getElem (by omega)
    rw [localsFrom, fresh?_eq (show i < body.length by omega), ih (by omega), drop_of_getElem? hl,
      checkLocalsFrom, ← drop_of_getElem? hl, Nat.add_sub_cancel, hl]
    simp only [Option.bind_eq_bind, Option.bind_some, Option.any_some, if_neg (Nat.succ_ne_zero i)]
    generalize (if i = 0 then true
      else body[i - 1]?.any (·.isOneOf [";", "\x7b", "\x7d"])) = fresh
    cases fresh with
    | true =>
      rw [if_pos rfl, if_pos rfl, unmentioned_eq (show i < body.length by omega)]
      rfl
    | false => rfl

theorem slice?_eq {ls : List Lexeme} {first last : Nat} (h : first ≤ last)
    (hl : last ≤ ls.length) : slice? ls first last = some ((ls.drop first).take (last - first)) :=
  if_pos ⟨h, hl⟩

theorem locals_eq {ls : List Lexeme} {first last : Nat} (h : first < last)
    (hl : last ≤ ls.length) : locals ls first last =
      some (checkLocals (first + 1) ((ls.drop (first + 1)).take (last - (first + 1)))) := by
  rw [locals, slice?_eq h hl, Option.bind_eq_bind, Option.bind_some, localsFrom_eq (Nat.zero_add _)]
  rfl

/-! ### Accessors -/

/-- Goes on through accessors of a block that starts at `first`: `n` lexemes from the
index `i` on, each with the one before it.  Where an accessor starts, the one after it
is read too. -/
def accessorsFrom (ls : List Lexeme) (first : Nat) (s : AccessorState) :
    Nat → Nat → Option (List Finding × List (Nat × Nat))
  | i, 0 => do
    let found ← if s.inExpression then missingBefore? ls i else some []
    pure (found, [])
  | i, n + 1 => do
    let l ← ls[i]?
    let before ← before? ls i
    let previous := if i = first + 1 then none else some before
    let next ← if { s with previous }.startsAccessor l then (ls[i + 1]?).map some else some none
    let (found, blocks) ← accessorsFrom ls first ({ s with previous }.step i l).1 (i + 1) n
    pure ({ s with previous }.missing i l next ++ found,
      ({ s with previous }.step i l).2.toList ++ blocks)

/-- Checks the statements and the locals of the block between two braces. -/
def block (ls : List Lexeme) (first last : Nat) : Option (List Finding) := do
  let found ← statements ls first last
  let more ← locals ls first last
  pure (found ++ more)

/-- Checks the accessors between two braces, and their blocks. -/
def accessors (ls : List Lexeme) (first last : Nat) : Option (List Finding) := do
  let n ← minus? last (first + 1)
  let (found, blocks) ← accessorsFrom ls first {} (first + 1) n
  let checked ← blocks.mapM fun b => block ls b.1 b.2
  pure (found ++ checked.flatten)

/-- All that is asked of the lexeme after an accessor is whether it goes on. -/
theorem missing_congr {s : AccessorState} {i : Nat} {l : Lexeme} {next next' : Option Lexeme}
    (h : s.startsAccessor l = true → next.any (·.isOneOf [";", "\x7b", "=>"])
      = next'.any (·.isOneOf [";", "\x7b", "=>"])) :
    s.missing i l next = s.missing i l next' := by
  unfold AccessorState.missing
  split
  · rw [h ‹_›]
  · rfl

theorem accessorsFrom_eq {ls : List Lexeme} {first i n : Nat} {s : AccessorState}
    (hi : first < i) (hn : i + n < ls.length) (hz : ls[i + n]?.any (·.isPunct "\x7d") = true)
    (hs : s.previous = if i = first + 1 then none else ls[i - 1]?) :
    accessorsFrom ls first s i n =
      some (checkAccessorsFrom s i ((ls.drop i).take n)) := by
  induction n generalizing i s with
  | zero =>
    rw [accessorsFrom, List.take_zero, checkAccessorsFrom]
    cases h : s.inExpression with
    | true =>
      rw [if_pos rfl, if_pos rfl, missingBefore?_eq (by omega) (by omega)]
      rfl
    | false => rfl
  | succ n ih =>
    have hl : ls[i]? = some ls[i] := List.getElem?_eq_getElem (by omega)
    have hb : ls[i - 1]? = some ls[i - 1] := List.getElem?_eq_getElem (by omega)
    have hm : ls[i + 1]? = some ls[i + 1] := List.getElem?_eq_getElem (by omega)
    have hprevious : { s with previous := if i = first + 1 then none else some ls[i - 1] } = s := by
      rw [← hb, ← hs]
    have hnext : (s.step i ls[i]).1.previous
        = if i + 1 = first + 1 then none else ls[i + 1 - 1]? := by
      rw [if_neg (by omega), Nat.add_sub_cancel, hl]
      unfold AccessorState.step
      split
      · rfl
      · split <;> rfl
      · rfl
    have after : ls[i + 1]?.any (·.isOneOf [";", "\x7b", "=>"])
        = ((ls.drop (i + 1)).take n).head?.any (·.isOneOf [";", "\x7b", "=>"]) := by
      cases n with
      | zero =>
        -- the closing brace of the block, which is not among its accessors
        rw [Nat.zero_add] at hz
        rw [hm, Option.any_some] at hz ⊢
        rw [List.take_zero, List.head?_nil, Option.any_none]
        have hkind : ls[i + 1].text = "\x7d" := by
          simp only [Lexeme.isPunct, Bool.and_eq_true, beq_iff_eq] at hz
          exact hz.2
        simp [Lexeme.isOneOf, hkind]
      | succ n => rw [drop_of_getElem? hm, List.take_succ_cons, List.head?_cons, hm]
    have hz' : ls[i + 1 + n]?.any (·.isPunct "\x7d") = true := by
      rwa [Nat.add_assoc, Nat.add_comm 1 n]
    have rest := ih (Nat.lt_succ_of_lt hi) (by omega) hz' hnext
    rw [accessorsFrom, hl, before?_eq (Nat.zero_lt_of_lt hi), hb]
    simp only [Option.bind_eq_bind, Option.bind_some]
    rw [hprevious, rest, drop_of_getElem? hl, List.take_succ_cons, checkAccessorsFrom]
    cases hstart : s.startsAccessor ls[i] with
    | true =>
      rw [if_pos rfl, hm]
      refine congrArg some (Prod.ext (congrArg (· ++ _) (missing_congr fun _ => ?_)) rfl)
      rw [← after, hm]
    | false =>
      refine congrArg some (Prod.ext (congrArg (· ++ _) (missing_congr fun h => ?_)) rfl)
      rw [hstart] at h
      cases h

/-- The lexemes between two braces are those of their block without the braces. -/
theorem inner_eq {ls : List Lexeme} {first last : Nat} (h : first < last)
    (hl : last < ls.length) :
    ((ls.drop first).take (last + 1 - first)).tail.dropLast
      = (ls.drop (first + 1)).take (last - (first + 1)) := by
  have hf : ls[first]? = some ls[first] := List.getElem?_eq_getElem (by omega)
  rw [drop_of_getElem? hf, show last + 1 - first = last - first + 1 by omega,
    List.take_succ_cons, List.tail_cons, List.dropLast_eq_take, List.take_take, List.length_take,
    List.length_drop]
  congr 1
  omega

theorem block_eq {ls : List Lexeme} {first last : Nat} (h : first < last)
    (hl : last < ls.length) :
    block ls first last =
      some (Block.check ⟨first, (ls.drop first).take (last + 1 - first)⟩) := by
  rw [block, statements_eq (Nat.le_of_lt h) hl, locals_eq h (Nat.le_of_lt hl), Block.check,
    Block.inner, inner_eq h hl]
  rfl

/-- A block inside of another one is a block of the file. -/
theorem slice_eq {ls : List Lexeme} {first last k m : Nat} (hk : first ≤ k) (hm : m ≤ last) :
    (Block.mk first ((ls.drop first).take (last + 1 - first))).slice k m
      = ⟨k, (ls.drop k).take (m + 1 - k)⟩ := by
  unfold Block.slice
  congr 1
  show ((((ls.drop first).take (last + 1 - first)).drop (k - first)).take (m + 1 - k)) = _
  rw [List.drop_take, List.drop_drop, List.take_take]
  congr 1
  · omega
  · rw [Nat.add_sub_cancel' hk]

theorem accessors_eq {ls : List Lexeme} {first last : Nat} (h : first < last)
    (hl : last < ls.length) (hz : ls[last]?.any (·.isPunct "\x7d") = true) :
    accessors ls first last =
      some (checkAccessors ⟨first, (ls.drop first).take (last + 1 - first)⟩) := by
  have hn : first + 1 + (last - (first + 1)) = last := by omega
  have hfrom := accessorsFrom_eq (s := {}) (Nat.lt_succ_self first) (n := last - (first + 1))
    (by rwa [hn]) (by rwa [hn]) (by rw [if_pos rfl])
  obtain ⟨-, hin⟩ := checkAccessorsFrom_inside {} (first + 1) (first + 1)
    ((ls.drop (first + 1)).take (last - (first + 1)))
    (by simp [AccessorState.OpenedIn]) (Nat.le_refl _)
  rw [List.length_take, List.length_drop, Nat.min_eq_left (by omega), hn] at hin
  rw [accessors, minus?_of_le h, Option.bind_eq_bind, Option.bind_some, hfrom, checkAccessors,
    Block.inner, inner_eq h hl]
  generalize checkAccessorsFrom {} (first + 1)
    ((ls.drop (first + 1)).take (last - (first + 1))) = found at hin ⊢
  have hblocks : ∀ bs : List (Nat × Nat), (∀ b ∈ bs, first + 1 ≤ b.1 ∧ b.1 < b.2 ∧ b.2 < last) →
      bs.mapM (fun b => block ls b.1 b.2) = some (bs.map fun b =>
        ((Block.mk first ((ls.drop first).take (last + 1 - first))).slice b.1 b.2).check) := by
    intro bs hbs
    induction bs with
    | nil => rfl
    | cons b bs ih =>
      obtain ⟨h1, h2, h3⟩ := hbs b List.mem_cons_self
      rw [List.mapM_cons, block_eq h2 (by omega), ih fun x hx => hbs x (List.mem_cons_of_mem b hx),
        List.map_cons, slice_eq (by omega) (by omega)]
      rfl
  obtain ⟨found, blocks⟩ := found
  simp only [Option.bind_eq_bind, Option.bind_some, hblocks blocks hin, List.flatMap_def]
  rfl

/-! ### Blocks that are next -/

/-- Skips the block that is next and, if it is closed, checks it between its braces. -/
def checkedBlock? (ls : List Lexeme) (check : List Lexeme → Nat → Nat → Option (List Finding))
    (c : Cursor) : Option (Step Unit) := do
  let s := skipGroup c
  if s.value then
    let last ← minus? s.rest.index 1
    let found ← check ls c.index last
    pure ⟨(), s.rest, s.found ++ found⟩
  else pure ⟨(), s.rest, s.found⟩

/-- The braces of a block that is closed are lexemes of the file. -/
theorem closed_bounds {ls : List Lexeme} {c : Cursor} (h : StandsOn ls c)
    (hb : c.atPunct "\x7b" = true) (hv : (skipGroup c).value = true) :
    ∃ last, (skipGroup c).rest.index = last + 1 ∧ c.index < last ∧ last < ls.length ∧
      ls[last]?.any (·.isPunct "\x7d") = true := by
  rcases skipGroup_closed (b := .brace) hv hb with ⟨first, ms, l, hp, hl⟩
  have hi := hp.index
  rw [List.length_append, List.length_cons, List.length_singleton] at hi
  have hlast : ls[c.index + (ms.length + 1)]? = some l := by
    rw [h.getElem?, hp.ahead, List.append_assoc, List.getElem?_append_right (by simp)]
    simp
  refine ⟨c.index + (ms.length + 1), by omega, by omega, ?_, ?_⟩
  · exact (List.getElem?_eq_some_iff.1 hlast).1
  · rw [hlast]
    exact hl

theorem checkedBlock?_eq {ls : List Lexeme} {c : Cursor} (h : StandsOn ls c)
    (hb : c.atPunct "\x7b" = true)
    {check : List Lexeme → Nat → Nat → Option (List Finding)} {check' : Block → List Finding}
    (hc : ∀ first last, first < last → last < ls.length →
      ls[last]?.any (·.isPunct "\x7d") = true →
      check ls first last = some (check' ⟨first, (ls.drop first).take (last + 1 - first)⟩)) :
    checkedBlock? ls check c = some (checkedBlock check' c) := by
  rw [checkedBlock?, checkedBlock]
  split
  · rename_i hv
    rcases closed_bounds h hb hv with ⟨last, hi, hlt, hlen, hz⟩
    rw [hi, minus?_of_le (by omega), Nat.add_sub_cancel]
    simp only [Option.bind_eq_bind, Option.bind_some]
    rw [hc c.index last hlt hlen hz, h.ahead]
    rfl
  · rfl

end Indexed
end Parser
end Outline
