/-
# What is written is read back

A value that is written over several lines is read as itself, whatever blanks stand
before it and wherever it ends, if all its numbers are natural numbers below `2^64`
and all its parts have a meaning.

| part | why it is read back |
| --- | --- |
| string | each character is written as one part that stands for it |
| number | its digits are all digits that stand there, and no zero leads them |
| array, object | after a value there is a comma, or a blank before the bracket |
-/

import Mathlib.Data.List.Basic
import Outline.Json.Reader

namespace Outline
namespace Json

@[simp] theorem ofChars_nil : ofChars [] = [] := rfl

@[simp] theorem ofChars_cons (c : Char) (cs : List Char) :
    ofChars (c :: cs) = .char c :: ofChars cs := rfl

@[simp] theorem ofChars_append (cs ds : List Char) :
    ofChars (cs ++ ds) = ofChars cs ++ ofChars ds := List.map_append

theorem ofChars_comma : ofChars ",".toList = [.char ','] := rfl

/-! ### Strings -/

theorem hexValue_hexDigit : ∀ n < 16, hexValue (hexDigit n) = some n := by decide

/-- A character below U+0020 is written by its number, if no letter stands for it. -/
theorem stringParts_number (c : Char) (hc : c.toNat < 0x20) (rest : List Symbol) :
    stringParts (ofChars ['\\', 'u', '0', '0', hexDigit (c.toNat / 16), hexDigit (c.toNat % 16)]
        ++ rest)
      = (stringParts rest).map fun (ps, after) => (.unit c.toNat :: ps, after) := by
  have hhigh := hexValue_hexDigit (c.toNat / 16) (by omega)
  have hlow := hexValue_hexDigit (c.toNat % 16) (by omega)
  have hzero : hexValue '0' = some 0 := by decide
  have hsum : 0 * 4096 + 0 * 256 + c.toNat / 16 * 16 + c.toNat % 16 = c.toNat := by omega
  simp only [ofChars_cons, ofChars_nil, List.cons_append, List.nil_append, stringParts, hhigh,
    hlow, hzero, Option.bind_eq_bind, Option.bind_some, hsum]
  cases stringParts rest <;> rfl

/-- A letter after a backslash stands for a character. -/
theorem stringParts_letter {e c : Char} (he : e ≠ 'u') (h : unescape e = some c)
    (rest : List Symbol) : stringParts (ofChars ['\\', e] ++ rest)
      = (stringParts rest).map fun (ps, after) => (.char c :: ps, after) := by
  have hnumber : ∀ (a b d f : Char) (after : List Symbol),
      rest = .char a :: .char b :: .char d :: .char f :: after → e = 'u' → False :=
    fun _ _ _ _ _ _ h => he h
  simp only [ofChars_cons, ofChars_nil, List.cons_append, List.nil_append]
  rw [stringParts.eq_3 _ _ hnumber, h]
  cases stringParts rest <;> rfl

/-- Any other character stands for itself. -/
theorem stringParts_plain {c : Char} (hquote : c ≠ '"') (hbackslash : c ≠ '\\')
    (hcontrol : ¬ c.toNat < 0x20) (rest : List Symbol) : stringParts (ofChars [c] ++ rest)
      = (stringParts rest).map fun (ps, after) => (.char c :: ps, after) := by
  simp only [ofChars_cons, ofChars_nil, List.cons_append, List.nil_append]
  rw [stringParts, if_neg hquote, if_neg (not_or.2 ⟨hcontrol, hbackslash⟩)]
  · cases stringParts rest <;> rfl
  · exact fun _ _ _ _ _ _ h => hbackslash h
  · exact fun _ _ _ h => hbackslash h

/-- A character is written as a letter after a backslash, by its number, or as it is. -/
theorem escapeChar_cases (c : Char) :
    (∃ e, escapeChar c = ['\\', e] ∧ e ≠ 'u' ∧ unescape e = some c) ∨
    (c.toNat < 0x20 ∧ escapeChar c
      = ['\\', 'u', '0', '0', hexDigit (c.toNat / 16), hexDigit (c.toNat % 16)]) ∨
    (c ≠ '"' ∧ c ≠ '\\' ∧ ¬ c.toNat < 0x20 ∧ escapeChar c = [c]) := by
  unfold escapeChar
  split_ifs with hquote hbackslash hn hr ht hb hf hcontrol
  · exact .inl ⟨'"', rfl, by decide, by rw [hquote]; rfl⟩
  · exact .inl ⟨'\\', rfl, by decide, by rw [hbackslash]; rfl⟩
  · exact .inl ⟨_, rfl, by decide, by rw [hn]; rfl⟩
  · exact .inl ⟨_, rfl, by decide, by rw [hr]; rfl⟩
  · exact .inl ⟨_, rfl, by decide, by rw [ht]; rfl⟩
  · exact .inl ⟨_, rfl, by decide, by rw [hb]; rfl⟩
  · exact .inl ⟨_, rfl, by decide, by rw [hf]; rfl⟩
  · exact .inr (.inl ⟨hcontrol, rfl⟩)
  · exact .inr (.inr ⟨hquote, hbackslash, hcontrol, rfl⟩)

/-- A small code unit stands for the character of its number. -/
theorem joinParts_unit {c : Char} (hc : c.toNat < 0xD800) (ps : List StringPart) :
    joinParts (.unit c.toNat :: ps) = (joinParts ps).map (c :: ·) := by
  rw [joinParts.eq_def]
  simp only [if_pos (Or.inl hc), Char.ofNat_toNat]

/-- **A character between quotes** is written as one part of a string, which stands for
it. -/
theorem stringParts_escapeChar (c : Char) : ∃ p,
    (∀ rest, stringParts (ofChars (escapeChar c) ++ rest)
      = (stringParts rest).map fun (ps, after) => (p :: ps, after)) ∧
    ∀ ps, joinParts (p :: ps) = (joinParts ps).map (c :: ·) := by
  obtain ⟨e, hwritten, he, hletter⟩ | ⟨hcontrol, hwritten⟩
    | ⟨hquote, hbackslash, hcontrol, hwritten⟩ := escapeChar_cases c
  all_goals rw [hwritten]
  · exact ⟨.char c, stringParts_letter he hletter, fun _ => rfl⟩
  · exact ⟨.unit c.toNat, stringParts_number c hcontrol, joinParts_unit (by omega)⟩
  · exact ⟨.char c, stringParts_plain hquote hbackslash hcontrol, fun _ => rfl⟩

/-- **What is written between quotes** is read up to the closing quote, and joined it is
the text. -/
theorem stringParts_escaped (cs : List Char) (rest : List Symbol) : ∃ ps,
    stringParts (ofChars (cs.flatMap escapeChar) ++ .char '"' :: rest) = some (ps, rest) ∧
      joinParts ps = some cs := by
  induction cs with
  | nil => exact ⟨[], by simp [stringParts], rfl⟩
  | cons c cs ih =>
    obtain ⟨ps, hparts, hjoin⟩ := ih
    obtain ⟨p, hp, hpjoin⟩ := stringParts_escapeChar c
    refine ⟨p :: ps, ?_, by rw [hpjoin, hjoin, Option.map_some]⟩
    rw [List.flatMap_cons, ofChars_append, List.append_assoc, hp, hparts, Option.map_some]

theorem ofChars_quote (s : String) (rest : List Symbol) : ofChars (quote s).toList ++ rest
    = .char '"' :: (ofChars (s.toList.flatMap escapeChar) ++ .char '"' :: rest) := by
  simp [quote]

/-! ### Numbers -/

/-- What follows a value that is written: nothing, a comma, or a new line. -/
def Stops : List Symbol → Prop
  | [] => True
  | .char c :: _ => c = ',' ∨ c = '\n'
  | .stray :: _ => False

/-- There a number ends. -/
theorem Stops.ends {rest : List Symbol} (h : Stops rest) :
    digits rest = ([], rest) ∧ skipFraction rest = some rest ∧ skipExponent rest = some rest := by
  match rest, h with
  | [], _ => exact ⟨rfl, rfl, rfl⟩
  | .char _ :: _, .inl rfl => exact ⟨rfl, rfl, rfl⟩
  | .char _ :: _, .inr rfl => exact ⟨rfl, rfl, rfl⟩

theorem digits_append {ds : List Char} (hd : ∀ d ∈ ds, d.isDigit = true) {rest : List Symbol}
    (h : Stops rest) : digits (ofChars ds ++ rest) = (ds, rest) := by
  induction ds with
  | nil => exact h.ends.1
  | cons d ds ih =>
    rw [ofChars_cons, List.cons_append, digits, if_pos (hd d List.mem_cons_self),
      ih fun c hc => hd c (List.mem_cons_of_mem d hc)]

/-- No zero leads the digits of a number that is not zero. -/
theorem head?_toDigits {n : Nat} (h : 0 < n) : (Nat.toDigits 10 n).head? ≠ some '0' := by
  induction n using Nat.strongRecOn with
  | ind n ih =>
    by_cases hn : n < 10
    · have hdigit : ∀ k < 10, 0 < k → k.digitChar ≠ '0' := by decide
      rw [Nat.toDigits_of_lt_base hn, List.head?_cons, Ne, Option.some.injEq]
      exact hdigit n hn h
    · rw [Nat.toDigits_of_base_le (by decide) (by omega),
        List.head?_append_of_ne_nil _ Nat.toDigits_ne_nil]
      exact ih (n / 10) (by omega) (by omega)

/-- So a zero stands alone. -/
theorem toDigits_ne_zero_cons (n : Nat) (d : Char) (ds : List Char) :
    Nat.toDigits 10 n ≠ '0' :: d :: ds := by
  intro h
  rcases Nat.eq_zero_or_pos n with rfl | hn
  · cases h
  · exact head?_toDigits hn (by rw [h]; rfl)

/-- **The digits of a number** are read as the number. -/
theorem unsignedNumber_toDigits {n : Nat} (hn : n < UInt64.size) {rest : List Symbol}
    (h : Stops rest) :
    unsignedNumber (ofChars (Nat.toDigits 10 n) ++ rest) = some (some n, rest) := by
  have hdigits : digits (ofChars (Nat.toDigits 10 n) ++ rest) = (Nat.toDigits 10 n, rest) :=
    digits_append (fun d => Nat.isDigit_of_mem_toDigits (by decide) (by decide)) h
  have hvalue : (Nat.toDigits 10 n).foldl (fun n d => n * 10 + (d.toNat - '0'.toNat)) 0 = n := by
    have hof := Nat.ofDigitChars_toDigits (n := n) (show 1 < 10 by decide) (by decide)
    simpa only [Nat.ofDigitChars, Nat.mul_comm] using hof
  rw [unsignedNumber, hdigits]
  split
  · rename_i heq
    exact absurd (Prod.mk.inj heq).1 Nat.toDigits_ne_nil
  · rename_i heq
    exact absurd (Prod.mk.inj heq).1 (toDigits_ne_zero_cons n _ _)
  · rename_i heq
    obtain ⟨rfl, rfl⟩ := Prod.mk.inj heq
    simp only [h.ends.2.1, h.ends.2.2, Option.bind_eq_bind, Option.bind_some, hvalue,
      beq_self_eq_true, Bool.true_and, decide_eq_true hn, if_true]

theorem ne_of_isDigit {c d : Char} (hc : c.isDigit = true) (hd : d.isDigit = false) : c ≠ d := by
  rintro rfl
  exact Bool.noConfusion (hc.symm.trans hd)

/-- A digit starts a number without a sign. -/
theorem number_of_isDigit {c : Char} (hc : c.isDigit = true) {cs after : List Symbol} {n : Nat}
    (h : unsignedNumber (.char c :: cs) = some (some n, after)) :
    number (.char c :: cs) = some (.natural n, after) := by
  rw [number.eq_def]
  split
  · rename_i heq
    exact absurd (Symbol.char.inj (List.cons.inj heq).1) (ne_of_isDigit hc rfl)
  · rw [h]
    rfl

/-! ### Blanks -/

theorem skipBlanks_append {bs : List Symbol} (hb : ∀ b ∈ bs, isBlank b = true)
    (cs : List Symbol) : skipBlanks (bs ++ cs) = skipBlanks cs := by
  rw [skipBlanks, List.dropWhile_append_of_pos hb, skipBlanks]

theorem skipBlanks_cons {c : Char} (hc : isBlank (.char c) = false) (cs : List Symbol) :
    skipBlanks (.char c :: cs) = .char c :: cs := by
  rw [skipBlanks, List.dropWhile_cons, hc]
  rfl

theorem isBlank_newLine (level : Nat) :
    ∀ b ∈ ofChars (newLine level).toList, isBlank b = true := by
  intro b hb
  simp only [newLine, String.toList_append, String.toList_ofList, ofChars_append,
    List.mem_append] at hb
  rcases hb with hb | hb
  · have hline : ofChars "\n".toList = [.char '\n'] := rfl
    rw [hline, List.mem_singleton] at hb
    rw [hb]
    rfl
  · obtain ⟨c, hc, rfl⟩ := List.mem_map.1 hb
    rw [(List.mem_replicate.1 hc).2]
    rfl

theorem skipBlanks_newLine (level : Nat) {c : Char} (hc : isBlank (.char c) = false)
    (cs : List Symbol) :
    skipBlanks (ofChars (newLine level).toList ++ .char c :: cs) = .char c :: cs := by
  rw [skipBlanks_append (isBlank_newLine level), skipBlanks_cons hc]

theorem stops_newLine (level : Nat) (cs : List Symbol) :
    Stops (ofChars (newLine level).toList ++ cs) := by
  have hline : "\n".toList = ['\n'] := rfl
  simp [newLine, hline, Stops]

/-! ### Values by their first characters -/

/-- The value at the start of a text, and what follows it. -/
def valueHere (cs : List Symbol) : Option (Json × List Symbol) :=
  match cs with
  | .char '"' :: rest => do
    let (parts, after) ← stringParts rest
    match joinParts parts with
    | some text => some (.string (String.ofList text), after)
    | none => some (.unrepresentable, after)
  | .char '[' :: rest =>
    match skipBlanks rest with
    | .char ']' :: after => some (.array [], after)
    | _ => (items rest).map fun (vs, after) => (.array vs, after)
  | .char '\x7b' :: rest =>
    match skipBlanks rest with
    | .char '\x7d' :: after => some (.object [], after)
    | _ => (fields rest).map fun (fs, after) => (match fs with
      | some fs => .object fs
      | none => .unrepresentable, after)
  | .char 'n' :: .char 'u' :: .char 'l' :: .char 'l' :: after => some (.null, after)
  | .char 't' :: .char 'r' :: .char 'u' :: .char 'e' :: after => some (.bool true, after)
  | .char 'f' :: .char 'a' :: .char 'l' :: .char 's' :: .char 'e' :: after =>
    some (.bool false, after)
  | rest => number rest

/-- Only what follows the blanks counts. -/
theorem value_eq (cs : List Symbol) : value cs = valueHere (skipBlanks cs) := by
  rw [value]
  split
  case h_7 => rw [valueHere] <;> assumption
  all_goals
    rename_i h
    rw [h]
    rfl

section

variable {cs rest after : List Symbol}

/-- Blanks before a value are passed over. -/
theorem value_blanks {bs : List Symbol} (hb : ∀ b ∈ bs, isBlank b = true) :
    value (bs ++ cs) = value cs := by
  rw [value_eq, skipBlanks_append hb, ← value_eq]

/-- A character that is no blank starts a value. -/
theorem value_cons {c : Char} (hc : isBlank (.char c) = false) :
    value (.char c :: cs) = valueHere (.char c :: cs) := by
  rw [value_eq, skipBlanks_cons hc]

theorem value_null : value (ofChars "null".toList ++ after) = some (.null, after) :=
  value_cons rfl

theorem value_bool (b : Bool) :
    value (ofChars (if b then "true" else "false").toList ++ after) = some (.bool b, after) := by
  cases b with
  | true => exact value_cons rfl
  | false => exact value_cons rfl

theorem value_string (s : String) :
    value (ofChars (quote s).toList ++ after) = some (.string s, after) := by
  obtain ⟨ps, hparts, hjoin⟩ := stringParts_escaped s.toList after
  rw [ofChars_quote, value_cons rfl, valueHere, hparts]
  simp only [Option.bind_eq_bind, Option.bind_some, hjoin, String.ofList_toList]

/-- A digit starts a number. -/
theorem value_digit {c : Char} (hc : c.isDigit = true) :
    value (.char c :: cs) = number (.char c :: cs) := by
  have hother (d : Char) (hd : d.isDigit = false) : c ≠ d := ne_of_isDigit hc hd
  have hblank : isBlank (.char c) = false := by
    simp [isBlank, hother ' ' rfl, hother '\n' rfl, hother '\t' rfl, hother '\r' rfl]
  rw [value_cons hblank, valueHere.eq_def]
  split <;> rename_i h
  all_goals first
    | rfl
    | exact absurd (Symbol.char.inj (List.cons.inj h).1) (hother _ rfl)

theorem value_natural {n : Nat} (hn : n < UInt64.size) (h : Stops after) :
    value (ofChars (toString n).toList ++ after) = some (.natural n, after) := by
  have hread := unsignedNumber_toDigits hn h
  have htext : (toString n).toList = Nat.toDigits 10 n := by
    rw [show toString n = n.repr from rfl, Nat.repr_eq_ofList_toDigits, String.toList_ofList]
  rw [htext]
  obtain ⟨c, cs, hcs⟩ := List.exists_cons_of_ne_nil (Nat.toDigits_ne_nil (n := n) (b := 10))
  have hc : c.isDigit = true := by
    refine Nat.isDigit_of_mem_toDigits (n := n) (b := 10) (by decide) (by decide) ?_
    rw [hcs]
    exact List.mem_cons_self
  rw [hcs, ofChars_cons, List.cons_append] at hread ⊢
  rw [value_digit hc, number_of_isDigit hc hread]

/-- No value starts with a closing bracket. -/
theorem value_closing (h : skipBlanks cs = .char ']' :: rest) : value cs = none := by
  rw [value_eq, h]
  rfl

theorem value_emptyArray : value (ofChars "[]".toList ++ after) = some (.array [], after) :=
  value_cons rfl

/-- Items between brackets. -/
theorem value_array {vs : List Json} (h : items cs = some (vs, after)) :
    value (.char '[' :: cs) = some (.array vs, after) := by
  -- With a bracket at its start there would be no first item.
  have hopen : ∀ rest, skipBlanks cs ≠ .char ']' :: rest := by
    intro rest hclose
    rw [items, value_closing hclose] at h
    cases h
  rw [value_cons rfl, valueHere, h]
  split
  · exact absurd ‹_› (hopen _)
  · rfl

theorem value_emptyObject :
    value (ofChars "\x7b\x7d".toList ++ after) = some (.object [], after) :=
  value_cons rfl

/-- Fields between braces. -/
theorem value_object {fs : List (String × Json)} (h : fields cs = some (some fs, after)) :
    value (.char '\x7b' :: cs) = some (.object fs, after) := by
  have hopen : ∀ rest, skipBlanks cs ≠ .char '\x7d' :: rest := by
    intro rest hclose
    rw [fields, hclose] at h
    cases h
  rw [value_cons rfl, valueHere, h]
  split
  · exact absurd ‹_› (hopen _)
  · rfl

/-- The last item. -/
theorem items_last {v : Json} (hv : value cs = some (v, rest))
    (hrest : skipBlanks rest = .char ']' :: after) : items cs = some ([v], after) := by
  simp only [items, hv, hrest]

/-- An item and more after a comma. -/
theorem items_cons {v : Json} {vs : List Json} {next : List Symbol}
    (hv : value cs = some (v, .char ',' :: next)) (hlength : next.length < cs.length)
    (h : items next = some (vs, after)) : items cs = some (v :: vs, after) := by
  have hskip : skipBlanks (.char ',' :: next) = .char ',' :: next := skipBlanks_cons rfl _
  rw [items, hv]
  simp only [hskip, dif_pos hlength, h, Option.map_some]

/-- How reading goes on after a field, in a text of the given length. -/
def fieldsAfter (length : Nat) (field : String × Json) (rest : List Symbol) :
    Option (Option (List (String × Json)) × List Symbol) :=
  match skipBlanks rest with
  | .char '\x7d' :: after => some (some [field], after)
  | .char ',' :: next =>
    if next.length < length then
      (fields next).map fun (fs, after) => (do return field :: (← fs), after)
    else none
  | _ => none

/-- A name, a colon and a value are read as a field. -/
theorem fields_eq {bs whole : List Symbol} (hb : ∀ b ∈ bs, isBlank b = true) (name : String)
    {v : Json} (hv : value cs = some (v, rest))
    (hwhole : whole = bs ++ (ofChars (quote name).toList ++ (ofChars ": ".toList ++ cs))) :
    cs.length < whole.length ∧ fields whole = fieldsAfter whole.length (name, v) rest := by
  obtain ⟨ps, hparts, hjoin⟩ := stringParts_escaped name.toList (ofChars ": ".toList ++ cs)
  have hstart : skipBlanks whole = .char '"' :: (ofChars (name.toList.flatMap escapeChar)
      ++ .char '"' :: (ofChars ": ".toList ++ cs)) := by
    rw [hwhole, skipBlanks_append hb, ofChars_quote]
    exact skipBlanks_cons rfl _
  have hcolon : skipBlanks (ofChars ": ".toList ++ cs) = .char ':' :: .char ' ' :: cs :=
    skipBlanks_cons rfl _
  have hlength : cs.length + 1 < whole.length := by
    rw [hwhole, ofChars_quote]
    simp only [List.length_append, List.length_cons]
    omega
  have hspace : value (.char ' ' :: cs) = some (v, rest) := by
    rw [← hv]
    exact value_blanks (show ∀ b ∈ [Symbol.char ' '], isBlank b = true by simp [isBlank])
  refine ⟨by omega, ?_⟩
  -- The name is quoted, so it is a text, and what follows it is shorter than the whole.
  rw [fields, hstart]
  simp only [hparts, hcolon, List.length_cons, dif_pos hlength, hspace, hjoin, Option.map_some,
    String.ofList_toList, dite_eq_ite]
  rfl

/-- The last field. -/
theorem fields_last {bs : List Symbol} (hb : ∀ b ∈ bs, isBlank b = true) (name : String)
    {v : Json} (hv : value cs = some (v, rest))
    (hrest : skipBlanks rest = .char '\x7d' :: after) :
    fields (bs ++ (ofChars (quote name).toList ++ (ofChars ": ".toList ++ cs)))
      = some (some [(name, v)], after) := by
  rw [(fields_eq hb name hv rfl).2, fieldsAfter, hrest]
  rfl

/-- A field and more after a comma. -/
theorem fields_cons {bs next : List Symbol} (hb : ∀ b ∈ bs, isBlank b = true) (name : String)
    {v : Json} (hv : value cs = some (v, .char ',' :: next)) (hlength : next.length < cs.length)
    {fs : List (String × Json)} (h : fields next = some (some fs, after)) :
    fields (bs ++ (ofChars (quote name).toList ++ (ofChars ": ".toList ++ cs)))
      = some (some ((name, v) :: fs), after) := by
  obtain ⟨hwhole, hfields⟩ := fields_eq hb name hv rfl
  have hcomma : skipBlanks (.char ',' :: next) = .char ',' :: next := skipBlanks_cons rfl _
  simp only [hfields, fieldsAfter, hcomma, if_pos (Nat.lt_trans hlength hwhole), h]
  rfl

end

/-! ### All values -/

mutual

/-- Whether a value is made of natural numbers below `2^64` and of parts that have a
meaning. -/
def isPlain : Json → Bool
  | natural n => n < UInt64.size
  | otherNumber _ | unrepresentable => false
  | array vs => arePlain vs
  | object fs => fieldsArePlain fs
  | _ => true

/-- Whether some values are. -/
def arePlain : List Json → Bool
  | [] => true
  | v :: vs => isPlain v && arePlain vs

/-- Whether the values of some fields are. -/
def fieldsArePlain : List (String × Json) → Bool
  | [] => true
  | (_, v) :: fs => isPlain v && fieldsArePlain fs

end

theorem arePlain_eq_all (vs : List Json) : arePlain vs = vs.all isPlain := by
  induction vs with
  | nil => rfl
  | cons v vs ih => rw [arePlain, ih, List.all_cons]

theorem fieldsArePlain_eq_all (fs : List (String × Json)) :
    fieldsArePlain fs = fs.all (·.2.isPlain) := by
  induction fs with
  | nil => rfl
  | cons f fs ih => rw [fieldsArePlain, ih, List.all_cons]

/-! The induction is on the value.  What follows it is general, since a value stands inside
others; a number alone needs that nothing of it is read as a further digit. -/

mutual

/-- **A value that is written over several lines** is read as itself. -/
theorem value_prettyAt (level : Nat) {after : List Symbol} : ∀ v : Json, isPlain v = true →
    Stops after → value (ofChars (prettyAt level v).toList ++ after) = some (v, after)
  | .null, _, _ => value_null
  | .bool b, _, _ => value_bool b
  | .natural n, h, hafter => value_natural (of_decide_eq_true h) hafter
  | .otherNumber _, h, _ => by cases h
  | .string s, _, _ => value_string s
  | .array [], _, _ => value_emptyArray
  | .array (v :: vs), h, _ => by
    have hitems := items_prettyItems (level + 1) level after (v :: vs) (by simp) h
    simp only [prettyAt, String.toList_append, ofChars_append, List.append_assoc]
    exact value_array hitems
  | .object [], _, _ => value_emptyObject
  | .object (f :: fs), h, _ => by
    have hfields := fields_prettyFields (level + 1) level after (f :: fs) (by simp) h
    simp only [prettyAt, String.toList_append, ofChars_append, List.append_assoc]
    exact value_object hfields
  | .unrepresentable, h, _ => by cases h

/-- Items that are written on lines of their own, up to the closing bracket. -/
theorem items_prettyItems (level outer : Nat) (after : List Symbol) : ∀ vs : List Json, vs ≠ [] →
    arePlain vs = true → items (ofChars (prettyItems level vs).toList
      ++ (ofChars (newLine outer).toList ++ .char ']' :: after)) = some (vs, after)
  | [], hne, _ => absurd rfl hne
  | [v], _, h => by
    have hvalue := (value_blanks (isBlank_newLine level)).trans (value_prettyAt level v
      (Bool.and_eq_true_iff.1 h).1 (stops_newLine outer (.char ']' :: after)))
    simp only [prettyItems, String.toList_append, ofChars_append, List.append_assoc]
    exact items_last hvalue (skipBlanks_newLine outer rfl after)
  | v :: w :: vs, _, h => by
    have hitems := items_prettyItems level outer after (w :: vs) (by simp)
      (Bool.and_eq_true_iff.1 h).2
    have hvalue (next) := (value_blanks (isBlank_newLine level)).trans (value_prettyAt level v
      (Bool.and_eq_true_iff.1 h).1 (show Stops (.char ',' :: next) from .inl rfl))
    simp only [prettyItems, String.toList_append, ofChars_append, ofChars_comma,
      List.append_assoc, List.cons_append, List.nil_append]
    refine items_cons (hvalue _) ?_ hitems
    simp only [List.length_append, List.length_cons]
    omega

/-- Fields that are written on lines of their own, up to the closing brace. -/
theorem fields_prettyFields (level outer : Nat) (after : List Symbol) :
    ∀ fs : List (String × Json), fs ≠ [] → fieldsArePlain fs = true →
    fields (ofChars (prettyFields level fs).toList
      ++ (ofChars (newLine outer).toList ++ .char '\x7d' :: after)) = some (some fs, after)
  | [], hne, _ => absurd rfl hne
  | [(name, v)], _, h => by
    have hvalue := value_prettyAt level v (Bool.and_eq_true_iff.1 h).1
      (stops_newLine outer (.char '\x7d' :: after))
    simp only [prettyFields, String.toList_append, ofChars_append, List.append_assoc]
    exact fields_last (isBlank_newLine level) name hvalue (skipBlanks_newLine outer rfl after)
  | (name, v) :: f :: fs, _, h => by
    have hfields := fields_prettyFields level outer after (f :: fs) (by simp)
      (Bool.and_eq_true_iff.1 h).2
    have hvalue (next) := value_prettyAt level v (Bool.and_eq_true_iff.1 h).1
      (show Stops (.char ',' :: next) from .inl rfl)
    simp only [prettyFields, String.toList_append, ofChars_append, ofChars_comma,
      List.append_assoc, List.cons_append, List.nil_append]
    refine fields_cons (isBlank_newLine level) name (hvalue _) ?_ hfields
    simp only [List.length_append, List.length_cons]
    omega

end

/-- **What is written over several lines is read back.** -/
theorem parse_pretty {v : Json} (h : isPlain v = true) : parse v.pretty.toList = some v := by
  have hvalue := value_prettyAt 0 v h (show Stops [] from trivial)
  rw [List.append_nil] at hvalue
  rw [parse, parseSymbols, pretty, hvalue]
  rfl

end Json
end Outline
