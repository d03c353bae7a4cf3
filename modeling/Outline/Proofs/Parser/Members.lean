/-
# Members are accepted

A well formed member is parsed as the one symbol that it declares, without a fault, and
a list of members as their symbols in the order of writing.
-/

import Outline.Parser.Member
import Outline.Proofs.Parser.Bodies

namespace Outline

namespace Tree

/-- The kind of the symbol of a member. -/
def Member.Kind.symbolKind : Member.Kind → MemberKind
  | field => .field
  | constructor => .constructor
  | property => .property
  | method => .method

/-- Whether what has the modifiers belongs to its type alone. -/
def Modifiers.isStatic (ms : Modifiers) : Bool := ms.contains .static || ms.contains .const

/-- The symbol that a member declares. -/
def Member.symbol (m : Member) : MemberSymbol where
  kind := m.kind.symbolKind
  name := if m.kind = .constructor then ".ctor" else Name.unescape m.name
  isStatic := m.modifiers.isStatic

end Tree

namespace Parser

open Outline.Tree
open Lexeme (mark)

variable {tol : Tolerance}

/-! ### What starts a member -/

theorem isKeyword_of_startsType {l : Lexeme} (h : startsType l = true) {k : String}
    (hk : k ∉ builtinTypes) : l.isKeyword k = false := by
  rw [Bool.eq_false_iff]
  intro hl
  simp only [Lexeme.isKeyword, Bool.and_eq_true, beq_iff_eq] at hl
  simp only [startsType, Lexeme.isKeywordOf, Lexeme.isName, hl.1, hl.2, Bool.or_eq_true,
    Bool.and_eq_true, List.contains_iff_mem] at h
  obtain h | h := h
  · exact hk h.2
  · cases h.1

theorem isWord_of_startsType {l : Lexeme} (h : startsType l = true) {w : String}
    (hw : w ∈ "record" :: modifierWords) : l.isWord w = false := by
  rw [Bool.eq_false_iff]
  intro hl
  simp only [Lexeme.isWord, Bool.and_eq_true, beq_iff_eq] at hl
  simp only [startsType, Lexeme.isKeywordOf, Lexeme.isName, hl.1, hl.2, Bool.or_eq_true,
    Bool.and_eq_true] at h
  obtain h | h := h
  · cases h.1
  · rw [List.contains_iff_mem.2 hw] at h
    cases h.2

theorem isKeywordOf_of_isKeyword {l : Lexeme} {ks : List String}
    (h : ∀ k ∈ ks, l.isKeyword k = false) : l.isKeywordOf ks = false := by
  rw [Bool.eq_false_iff]
  intro hl
  rw [Lexeme.isKeywordOf, Bool.and_eq_true, List.contains_iff_mem] at hl
  have := h l.text hl.2
  simp [Lexeme.isKeyword, hl.1] at this

theorem isWordOf_of_isWord {l : Lexeme} {ws : List String} (h : ∀ w ∈ ws, l.isWord w = false) :
    l.isWordOf ws = false := by
  rw [Bool.eq_false_iff]
  intro hl
  rw [Lexeme.isWordOf, Bool.and_eq_true, List.contains_iff_mem] at hl
  have := h l.text hl.2
  simp [Lexeme.isWord, hl.1] at this

/-- A lexeme that starts a type, and no member but one with a type. -/
structure StartsTyped (l : Lexeme) : Prop where
  punct : ∀ p ∈ ["[", "\x7d", "~", "=", ";"], l.isPunct p = false
  keyword : ∀ k ∉ builtinTypes, l.isKeyword k = false
  record : l.isWord "record" = false
  modifier : ∀ next, isModifier l next = false

theorem startsTyped_paren : StartsTyped (mark "(") where
  punct := by decide
  keyword _ _ := rfl
  record := rfl
  modifier _ := rfl

theorem startsTyped_of_startsType {l : Lexeme} (h : startsType l = true) : StartsTyped l where
  punct p _ := isPunct_of_isWordy (isWordy_of_startsType h) p
  keyword k hk := isKeyword_of_startsType h hk
  record := isWord_of_startsType h (by decide)
  modifier next := by
    have free : ∀ k ∈ modifierKeywords, k ∉ builtinTypes := by decide
    rw [isModifier, isKeywordOf_of_isKeyword fun k hk => isKeyword_of_startsType h (free k hk),
      isWordOf_of_isWord fun w hw => isWord_of_startsType h (List.mem_cons_of_mem _ hw)]
    rfl

theorem TypeTail.head?_ne {ls : List Lexeme} (h : TypeTail ls) :
    ls.head?.any (·.isPunct "(") = false := by
  cases h with
  | nil => rfl
  | qualified hs _ _ => exact isPunct_of_not_mem hs (by decide)
  | arguments _ _ _ => rfl

theorem TypeSuffixes.head?_ne {ls : List Lexeme} (h : TypeSuffixes ls) :
    ls.head?.any (·.isPunct "(") = false := by
  cases h with
  | nil => rfl
  | sign hs _ => exact isPunct_of_not_mem hs (by decide)
  | array _ _ => rfl

/-- How a type starts: with a lexeme of its own, which no parenthesis follows if it is a
name. -/
theorem TypeForm.exists_start {ls : List Lexeme} (h : TypeForm ls) :
    ∃ l rest, ls = l :: rest ∧ StartsTyped l ∧
      (l.isName = true → rest.head?.any (·.isPunct "(") = false) := by
  cases h with
  | @named l tail suffixes h ht hs =>
    refine ⟨l, tail ++ suffixes, rfl, startsTyped_of_startsType h, fun _ => ?_⟩
    cases tail with
    | nil => exact hs.head?_ne
    | cons t ts => exact ht.head?_ne
  | @tuple ms suffixes h hs =>
    exact ⟨mark "(", _, rfl, startsTyped_paren, fun hn => by cases hn⟩

/-! ### Attributes and modifiers -/

theorem mem_modifierWords (m : Modifier) : m.keyword ∈ modifierKeywords ++ modifierWords := by
  cases m <;> decide

theorem accepts_attributeSpelling {as : List Attribute} (h : ∀ a ∈ as, a.WellFormed)
    {after : List Lexeme} (ha : after.head?.any (·.isPunct "[") = false) (i : Nat) :
    Accepts tol attributes i (attributeSpelling as) after fun _ => True := by
  refine accepts_attributes (fun g hg => ?_) ha i
  obtain ⟨a, hm, rfl⟩ := List.mem_map.1 hg
  exact (h a hm).wellNested

theorem wellFormed_no_attributes : ∀ a ∈ ([] : List Attribute), a.WellFormed :=
  fun _ h => absurd h List.not_mem_nil

/-- Words that are modifiers in front of lexemes: a last one that is not reserved stands
before a word. -/
structure Modifies (ws : List String) (ls : List Lexeme) : Prop where
  words : ∀ w ∈ ws, w ∈ modifierKeywords ++ modifierWords
  last : ∀ w ∈ ws.getLast?, Name.isKeyword w = false → ls.head?.any isWordy = true

theorem modifies_words {ms : Modifiers} {ls : List Lexeme} (h : ms.StandBefore ls) :
    Modifies ms.words ls where
  words w hw := by
    obtain ⟨m, -, rfl⟩ := List.mem_map.1 hw
    exact mem_modifierWords m
  last := h

theorem accepts_modifierSpelling {ms : Modifiers} {after : List Lexeme} (h : ms.StandBefore after)
    (ha : ∀ l ∈ after.head?, isModifier l after.tail.head? = false) (i : Nat) :
    Accepts tol modifiers i ms.spelling after (· = ms.words) :=
  accepts_modifiers (modifies_words h).words h ha i

theorem head?_words (ws : List String) {p : String} {after : List Lexeme}
    (h : after.head?.any (·.isPunct p) = false) :
    (ws.map Lexeme.word ++ after).head?.any (·.isPunct p) = false := by
  cases ws with
  | nil => exact h
  | cons w ws => exact isPunct_of_isWordy (isWordy_word w) p

/-- Attributes and modifiers before anything else. -/
theorem accepts_modified {β : Type} {as : List Attribute} (ha : ∀ a ∈ as, a.WellFormed)
    {ws : List String} {ls after : List Lexeme} (hw : Modifies ws (ls ++ after))
    (hs : (ls ++ after).head?.any (·.isPunct "[") = false)
    (hm : ∀ l ∈ (ls ++ after).head?, isModifier l (ls ++ after).tail.head? = false)
    {i : Nat} {f : Unit → List String → Parser β} {good : β → Prop}
    (h : ∀ j, Accepts tol (f () ws) j ls after good) :
    Accepts tol (attributes >>= fun u => modifiers >>= f u) i
      (attributeSpelling as ++ (ws.map .word ++ ls)) after good := by
  have hnone : (ws.map Lexeme.word ++ ls ++ after).head?.any (·.isPunct "[") = false := by
    rw [List.append_assoc]
    exact head?_words ws hs
  refine .bind (accepts_attributeSpelling ha hnone i) fun _ _ => ?_
  refine .bind (accepts_modifiers hw.words hw.last hm _) fun ws hws => ?_
  rw [hws]
  exact h _

/-- Attributes and modifiers of a tree before anything else. -/
theorem accepts_prefix {β : Type} {as : List Attribute} (ha : ∀ a ∈ as, a.WellFormed)
    {ms : Modifiers} {ls after : List Lexeme} (hms : ms.StandBefore (ls ++ after))
    (hs : (ls ++ after).head?.any (·.isPunct "[") = false)
    (hm : ∀ l ∈ (ls ++ after).head?, isModifier l (ls ++ after).tail.head? = false)
    {i : Nat} {f : Unit → List String → Parser β} {good : β → Prop}
    (h : ∀ j, Accepts tol (f () ms.words) j ls after good) :
    Accepts tol (attributes >>= fun u => modifiers >>= f u) i
      (attributeSpelling as ++ (ms.spelling ++ ls)) after good :=
  accepts_modified ha (modifies_words hms) hs hm h

theorem keyword_injective {a b : Modifier} (h : a.keyword = b.keyword) : a = b := by
  have all : ∀ a ∈ Modifier.all, ∀ b ∈ Modifier.all, a.keyword = b.keyword → a = b := by decide
  exact all a a.mem_all b b.mem_all h

theorem contains_words (ms : Modifiers) (m : Modifier) :
    ms.words.contains m.keyword = ms.contains m := by
  rw [Bool.eq_iff_iff, Modifiers.contains, Modifiers.words, List.contains_iff_mem,
    List.contains_iff_mem, List.mem_map]
  constructor
  · rintro ⟨a, ha, hk⟩
    exact keyword_injective hk ▸ ha
  · exact fun h => ⟨m, h, rfl⟩

/-- Whether a member is static is told by its words. -/
theorem static_words (ms : Modifiers) :
    (ms.words.contains "static" || ms.words.contains "const") = ms.isStatic := by
  rw [Modifiers.isStatic, ← contains_words, ← contains_words]
  rfl

/-! ### Members -/

section

variable {entries : EntryParser} {owner : String} {as : List Attribute} {ms : Modifiers}
  {type tail after : List Lexeme} {name : String}

/-- Whether a member with these words as modifiers belongs to its type alone. -/
def isStaticBy (words : List String) : Bool := words.contains "static" || words.contains "const"

/-- The entry of a member with these words as modifiers. -/
def declaredBy (words : List String) (kind : MemberKind) (name : String) : Entry :=
  .member ⟨kind, name, isStaticBy words⟩

/-- What is left of a member that starts with a type. -/
def typed (symbol : MemberKind → String → Entry) : Parser (List Entry) := do
  let text ← look Cursor.text
  if ← typeReference then typedMember symbol
  else
    reportHere (.invalidMember text)
    skipMember
    return []

/-- What is left of a member after its modifiers. -/
def afterModifiers (entries : EntryParser) (owner : String) (words : List String) :
    Parser (List Entry) := do
  let symbol := declaredBy words
  if ← look (fun c => c.atPunct "\x7d" || c.atEnd) then return []
  if ← look atTypeKeyword then
    return [.nested (← typeDeclaration entries none words)]
  if ← look (·.atKeyword "delegate") then
    return ((← delegateDeclaration none).map .nested).toList
  if ← look (·.atPunct "~") then
    destructor
    return [symbol .destructor "Finalize"]
  if ← look (·.atKeyword "event") then
    return ((← event).map (symbol .event)).toList
  if ← look (fun c => c.atWord owner && c.next.atPunct "(") then
    constructor
    return [symbol .constructor ".ctor"]
  if ← look (fun c => c.atKeyword "implicit" || c.atKeyword "explicit") then
    return [symbol .operator (← conversion)]
  typed symbol

theorem member_eq : member entries owner
    = attributes >>= fun _ => modifiers >>= afterModifiers entries owner := rfl

/-- After modifiers, what starts like a type is parsed as one. -/
theorem afterModifiers_typed {l : Lexeme} {ls : List Lexeme} (h : StartsTyped l)
    (hp : l.isName = true → ls.head?.any (·.isPunct "(") = false) (words : List String) (i : Nat) :
    afterModifiers entries owner words ⟨i, l :: ls⟩ = typed (declaredBy words) ⟨i, l :: ls⟩ := by
  have hfree : ∀ k ∉ builtinTypes, Cursor.atKeyword ⟨i, l :: ls⟩ k = false := h.keyword
  have hpunct : ∀ p ∈ ["[", "\x7d", "~", "=", ";"], Cursor.atPunct ⟨i, l :: ls⟩ p = false := h.punct
  have hend : (Cursor.atPunct ⟨i, l :: ls⟩ "\x7d" || Cursor.atEnd ⟨i, l :: ls⟩) = false := by
    rw [hpunct _ (by decide)]
    rfl
  have htype : atTypeKeyword ⟨i, l :: ls⟩ = false := by
    have free : ∀ k ∈ ["class", "struct", "interface", "enum"], k ∉ builtinTypes := by decide
    have hk : l.isKeywordOf ["class", "struct", "interface", "enum"] = false :=
      isKeywordOf_of_isKeyword fun k hk => h.keyword k (free k hk)
    show (l.isKeywordOf _ || (l.isWord "record" && _)) = false
    rw [hk, h.record]
    rfl
  have howner : (Cursor.atWord ⟨i, l :: ls⟩ owner && Cursor.atPunct (Cursor.next ⟨i, l :: ls⟩) "(")
      = false := by
    rw [Bool.and_eq_false_imp]
    exact fun hw => hp (Bool.and_eq_true_iff.1 hw).1
  have hconversion : (Cursor.atKeyword ⟨i, l :: ls⟩ "implicit"
      || Cursor.atKeyword ⟨i, l :: ls⟩ "explicit") = false := by
    rw [hfree _ (by decide), hfree _ (by decide)]
    rfl
  exact (lookIf_of_false hend).trans <| (lookIf_of_false htype).trans <|
    (lookIf_of_false (hfree _ (by decide))).trans <|
    (lookIf_of_false (hpunct _ (by decide))).trans <|
    (lookIf_of_false (hfree _ (by decide))).trans <| (lookIf_of_false howner).trans <|
    lookIf_of_false hconversion

/-- A member with modifiers and a type is accepted if what follows its type is, a word first.
What it declares is given by the symbol of each of its names. -/
theorem accepts_modifiedType (declared : (MemberKind → String → Entry) → List Entry)
    (ha : ∀ a ∈ as, a.WellFormed) (ht : TypeForm type) {ws : List String} (hw : Modifies ws type)
    (hword : tail.head?.any isWordy = true)
    (htail : ∀ symbol j, Accepts tol (typedMember symbol) j tail after (· = declared symbol))
    (i : Nat) :
    Accepts tol (member entries owner) i (attributeSpelling as ++ (ws.map .word ++ (type ++ tail)))
      after (· = declared (declaredBy ws)) := by
  obtain ⟨l, rest, rfl, hstart, hparen⟩ := ht.exists_start
  obtain ⟨k, ks, rfl⟩ : ∃ k ks, tail = k :: ks := by
    cases tail with
    | nil => cases hword
    | cons k ks => exact ⟨k, ks, rfl⟩
  have hcons : l :: rest ++ k :: ks ++ after = l :: (rest ++ k :: (ks ++ after)) := by simp
  have hnoParen : l.isName = true →
      (rest ++ k :: (ks ++ after)).head?.any (·.isPunct "(") = false := by
    cases rest with
    | nil => exact fun _ => isPunct_of_isWordy hword "("
    | cons r rs => exact hparen
  have hsame : ∀ j, afterModifiers entries owner ws ⟨j, l :: rest ++ k :: ks ++ after⟩
      = typed (declaredBy ws) ⟨j, l :: rest ++ k :: ks ++ after⟩ := by
    rw [hcons]
    exact afterModifiers_typed hstart hnoParen ws
  have htype : ∀ j, Accepts tol typeReference j (l :: rest) (k :: ks ++ after) (· = true) :=
    accepts_typeReference ht hword
  rw [member_eq]
  refine accepts_modified ha ⟨hw.words, hw.last⟩ ?_ ?_ fun j => .of_here (hsame j) <| .look <|
    .bind (htype j) fun b hb => ?_
  · exact hstart.punct "[" (by decide)
  · rw [hcons]
    rintro _ ⟨⟩
    exact hstart.modifier _
  · subst hb
    exact htail _ _

/-- A member without attributes is accepted if what follows its type is. -/
theorem accepts_bareType (declared : (MemberKind → String → Entry) → List Entry)
    (ht : TypeForm type) {ws : List String} (hw : Modifies ws type)
    (hword : tail.head?.any isWordy = true)
    (htail : ∀ symbol j, Accepts tol (typedMember symbol) j tail after (· = declared symbol))
    (i : Nat) :
    Accepts tol (member entries owner) i (ws.map .word ++ (type ++ tail)) after
      (· = declared (declaredBy ws)) :=
  have h := accepts_modifiedType declared wellFormed_no_attributes ht hw hword htail i
  h

/-- A member of a tree with a type is accepted if what follows its type is. -/
theorem accepts_typed (declared : (MemberKind → String → Entry) → List Entry)
    (ha : ∀ a ∈ as, a.WellFormed) (ht : TypeForm type) (hms : ms.StandBefore type)
    (htail : ∀ symbol j, Accepts tol (typedMember symbol) j (.name name :: tail) after
      (· = declared symbol)) (i : Nat) :
    Accepts tol (member entries owner) i
      (attributeSpelling as ++ (ms.spelling ++ (type ++ (.name name :: tail)))) after
      (· = declared fun kind name => .member ⟨kind, name, ms.isStatic⟩) := by
  rw [← static_words]
  exact accepts_modifiedType declared ha ht (modifies_words hms) rfl htail i

/-- What is left of a member after its type and its name. -/
def namedMember (symbol : MemberKind → String → Entry) (name : String) : Parser (List Entry) := do
  if ← look (·.atOneOf ["<", "("]) then
    method
    return [symbol .method name]
  else if ← look (·.atOneOf ["\x7b", "=>"]) then
    accessors
    return [symbol .property name]
  else
    let more ← (moreFields : Parser _)
    expect ";" .semicolon
    return (name :: more).map (symbol .field)

theorem accepts_typedMember {symbol : MemberKind → String → Entry} {good : List Entry → Prop}
    (hd : (tail ++ after).head?.any (·.isPunct ".") = false)
    (hq : ∀ i, qualifyingArguments ⟨i, tail ++ after⟩ = none)
    (h : ∀ j, Accepts tol (namedMember symbol name) j tail after good) (i : Nat) :
    Accepts tol (typedMember symbol) i (.name name :: tail) after good := by
  refine .lookElse rfl <| .lookElse rfl <| .lookElse rfl <|
    .bind (accepts_memberName? hd hq i) fun a hn => ?_
  subst hn
  exact h _

end

/-! ### Fields -/

/-- The lexemes of the first value of a field. -/
def initial : Option (List Lexeme) → List Lexeme
  | some ls => mark "=" :: ls
  | none => []

theorem assigned_eq_initial (value : Option String) :
    assigned "=" value = initial (value.map lexemes) := by cases value <;> rfl

section

variable {value : Option (List Lexeme)} {ls : List Lexeme}

/-- The value of a field is passed, and nothing is found. -/
theorem nextField_initial (h : ∀ v ∈ value, Expression [",", ";"] v)
    (hs : ls.head?.any (·.isOneOf [",", ";"]) = true) (i : Nat) :
    nextField ⟨i, initial value ++ ls⟩ = nextField ⟨i + (initial value).length, ls⟩ := by
  cases value with
  | none => rfl
  | some v =>
    have hnone : ∀ j, Cursor.atPunct ⟨j, ls⟩ "=" = false :=
      fun _ => head?_isPunct_of_not_mem hs (by decide)
    have hskip := skipExpression_of_expression (h v rfl) hs (i + 1)
    have hlength : i + (initial (some v)).length = i + 1 + v.length := by
      rw [initial, List.length_cons]
      omega
    have hvalue : nextField ⟨i, mark "=" :: (v ++ ls)⟩ = _ :=
      eat_bind_of_atPunct (atPunct_mark "=" i _) _
    have hhere : nextField ⟨i + 1 + v.length, ls⟩ = _ := eat_bind_of_not_atPunct (hnone _) _
    rw [hlength, initial, List.cons_append, hvalue, hhere, if_pos rfl, if_neg Bool.false_ne_true]
    exact bind_of_eq hskip

theorem moreFields_of_none {c : Cursor} (h : (nextField c).value = none) :
    moreFields c = (nextField c).map fun _ => [] := by
  rw [moreFields]
  split
  · rename_i name hname
    rw [h] at hname
    cases hname
  · rfl

/-- Where fields go on does not depend on the value before. -/
theorem moreFields_initial (h : ∀ v ∈ value, Expression [",", ";"] v)
    (hs : ls.head?.any (·.isOneOf [",", ";"]) = true) (i : Nat) :
    moreFields ⟨i, initial value ++ ls⟩ = moreFields ⟨i + (initial value).length, ls⟩ := by
  have hnext := nextField_initial h hs i
  cases hn : (nextField ⟨i + (initial value).length, ls⟩).value with
  | none => rw [moreFields_of_none hn, moreFields_of_none (hnext ▸ hn), hnext]
  | some name =>
    have hgo : (nextField ⟨i + (initial value).length, ls⟩).value ≠ none := by simp [hn]
    have hturn : fieldTurn ⟨i, initial value ++ ls⟩
        = fieldTurn ⟨i + (initial value).length, ls⟩ := congrArg (Step.map Option.toList) hnext
    rw [(goesOn_moreFields hgo).eq, (goesOn_moreFields (hnext ▸ hgo)).eq, hturn]

end

/-- The lexemes of fields after a comma each, with their first values. -/
def spellFields (fields : List (String × Option (List Lexeme))) : List Lexeme :=
  fields.flatMap fun f => mark "," :: .name f.1 :: initial f.2

theorem head?_spellFields (fields : List (String × Option (List Lexeme))) (after : List Lexeme) :
    (spellFields fields ++ mark ";" :: after).head?.any (·.isOneOf [",", ";"]) = true := by
  cases fields <;> rfl

/-- **Names of fields are accepted** after a comma each, and the values are passed. -/
theorem accepts_spellFields {value : Option (List Lexeme)}
    {fields : List (String × Option (List Lexeme))} (hv : ∀ v ∈ value, Expression [",", ";"] v)
    (h : ∀ f ∈ fields, ∀ v ∈ f.2, Expression [",", ";"] v) (i : Nat) (after : List Lexeme) :
    Accepts tol moreFields i (initial value ++ spellFields fields) (mark ";" :: after)
      (· = fields.map (·.1)) := by
  induction fields generalizing value i with
  | nil =>
    have hend : moreFields ⟨i, initial value ++ mark ";" :: after⟩
        = (⟨[], ⟨i + (initial value).length, mark ";" :: after⟩, []⟩ : Step (List String)) := by
      rw [moreFields_initial hv rfl, moreFields_of_none rfl]
      rfl
    rw [spellFields, List.flatMap_nil, List.append_nil]
    exact .of_eq hend rfl rfl
  | cons f fields ih =>
    have hturn : ∀ j, Accepts tol fieldTurn j [mark ",", .name f.1]
        (initial f.2 ++ spellFields fields ++ mark ";" :: after) (· = [f.1]) :=
      fun _ => .of_eq rfl rfl rfl
    have hgo : ∀ j ls, (nextField ⟨j, [mark ",", .name f.1] ++ ls⟩).value ≠ none :=
      fun j ls h => by cases (show some f.1 = none from h)
    have hmore := ih (h f List.mem_cons_self) (fun g hg => h g (List.mem_cons_of_mem f hg))
    have hspelled : spellFields (f :: fields)
        = [mark ",", .name f.1] ++ (initial f.2 ++ spellFields fields) := by
      simp [spellFields]
    have hlist : ∀ j, Accepts tol moreFields j (spellFields (f :: fields)) (mark ";" :: after)
        (· = (f :: fields).map (·.1)) := by
      intro j
      rw [hspelled]
      refine .of_goesOn (goesOn_moreFields (hgo j _)) (hturn j) (hmore (j + 2)) ?_
      rintro _ _ rfl rfl
      rfl
    have heq : moreFields ⟨i, initial value ++ (spellFields (f :: fields) ++ mark ";" :: after)⟩
        = (moreFields ⟨i + (initial value).length, spellFields (f :: fields) ++ mark ";" :: after⟩
          : Step (List String)).before [] := by
      rw [moreFields_initial hv (head?_spellFields _ after)]
      rfl
    exact .of_before heq rfl (hlist _)

theorem accepts_lastField {initializer : Option String}
    (h : ∀ s ∈ initializer, IsExpression [",", ";"] s) (i : Nat) (after : List Lexeme) :
    Accepts tol moreFields i (assigned "=" initializer) (mark ";" :: after) (· = []) := by
  have hv : ∀ v ∈ initializer.map lexemes, Expression [",", ";"] v := by
    intro v hv
    obtain ⟨s, hs, rfl⟩ := Option.map_eq_some_iff.1 hv
    exact (h s hs).2
  have : Accepts tol moreFields i (initial _ ++ spellFields []) _ _ :=
    accepts_spellFields hv (fun _ h => by cases h) i after
  rwa [← assigned_eq_initial, spellFields, List.flatMap_nil, List.append_nil] at this

/-- Names of fields without values are accepted. -/
theorem accepts_moreFields (names : List String) (i : Nat) (after : List Lexeme) :
    Accepts tol moreFields i (names.flatMap fun n => [mark ",", .name n]) (mark ";" :: after)
      (· = names) := by
  have hf : ∀ f ∈ names.map fun n => (n, (none : Option (List Lexeme))), ∀ v ∈ f.2,
      Expression [",", ";"] v := by
    intro f hf v hv
    obtain ⟨n, -, rfl⟩ := List.mem_map.1 hf
    cases hv
  have : Accepts tol moreFields i (initial none ++ spellFields _) _ _ :=
    accepts_spellFields (fun _ h => by cases h) hf i after
  simpa [spellFields, List.flatMap_map, initial, Function.comp_def] using this

/-- **Fields are accepted** after their type, if what follows the first name is. -/
theorem accepts_fieldNames {symbol : MemberKind → String → Entry} {name : String}
    {tail after : List Lexeme} {more : List String}
    (hs : (tail ++ [mark ";"]).head?.any (·.isOneOf ["=", ",", ";"]) = true)
    (h : ∀ j, Accepts tol moreFields j tail (mark ";" :: after) (· = more)) (i : Nat) :
    Accepts tol (typedMember symbol) i (.name name :: (tail ++ [mark ";"])) after
      (· = (name :: more).map (symbol .field)) := by
  have hhead := head?_append_isOneOf hs after
  refine accepts_typedMember (head?_isPunct_of_not_mem hhead (by decide)) (fun _ =>
    qualifyingArguments_of_not_open (head?_isPunct_of_not_mem hhead (by decide))) (fun k => ?_) i
  refine .lookElse (atOneOf_of_disjoint hhead (by decide)) <|
    .lookElse (atOneOf_of_disjoint hhead (by decide)) <| .bind (h k) fun more hmore => ?_
  refine .before_nothing (.expect ";" .semicolon) fun _ _ => .pure ?_
  rw [hmore]

theorem accepts_field {d : FieldDecl} (h : d.WellFormed) (entries : EntryParser) (owner : String)
    (i : Nat) (after : List Lexeme) :
    Accepts tol (member entries owner) i d.spelling after
      (· = [.member (Member.field d).symbol]) := by
  have hs : (assigned "=" d.initializer ++ [mark ";"]).head?.any (·.isOneOf ["=", ",", ";"])
      = true := by
    cases d.initializer <;> rfl
  exact accepts_typed (fun symbol => [symbol .field (Name.unescape d.name)]) h.attributes h.type.2
    h.modifiers
    (fun symbol j => accepts_fieldNames hs (accepts_lastField h.initializer · after) j) i

/-! ### Properties -/

/-- **A property is accepted** after its type, if its accessors are. -/
theorem accepts_propertyName {symbol : MemberKind → String → Entry} {name : String}
    {tail after : List Lexeme} (hs : tail.head?.any (·.isOneOf ["\x7b", "=>"]) = true)
    (h : ∀ j, Accepts tol accessors j tail after fun _ => True) (i : Nat) :
    Accepts tol (typedMember symbol) i (.name name :: tail) after
      (· = [symbol .property name]) := by
  have hhead := head?_append_isOneOf hs after
  refine accepts_typedMember (head?_isPunct_of_not_mem hhead (by decide)) (fun _ =>
    qualifyingArguments_of_not_open (head?_isPunct_of_not_mem hhead (by decide))) (fun k => ?_) i
  exact .lookElse (atOneOf_of_disjoint hhead (by decide)) <| .lookThen hhead <|
    .before_nothing (h k) fun _ _ => .pure rfl

theorem accepts_property {p : PropertyDecl} (h : p.WellFormed) (entries : EntryParser)
    (owner : String) (i : Nat) {after : List Lexeme}
    (ha : after.head?.any (·.isPunct "=") = false) :
    Accepts tol (member entries owner) i p.spelling after
      (· = [.member (Member.property p).symbol]) := by
  have hs : p.tail.head?.any (·.isOneOf ["\x7b", "=>"]) = true := by
    unfold PropertyDecl.tail
    cases p.body <;> rfl
  exact accepts_typed (fun symbol => [symbol .property (Name.unescape p.name)]) h.attributes
    h.type.2 h.modifiers (fun symbol j => accepts_propertyName hs (accepts_accessors h ha) j) i

/-! ### Methods -/

/-- Names with commas between them, from the first on. -/
theorem commaSeparated_names (n : String) (ns : List String) :
    Lexer.commaSeparated ((n :: ns).map ([.name ·]))
      = .name n :: ns.flatMap fun m => [mark ",", .name m] := by
  induction ns generalizing n with
  | nil => rfl
  | cons m ms ih =>
    have : Lexer.commaSeparated ((n :: m :: ms).map ([.name ·]))
        = .name n :: mark "," :: Lexer.commaSeparated ((m :: ms).map ([.name ·])) := by
      simp [Lexer.commaSeparated]
    rw [this, ih]
    rfl

theorem angled_names {names : List String} :
    Angled (Lexer.commaSeparated (names.map ([.name ·]))) := by
  induction names with
  | nil => exact .nil
  | cons n ns ih =>
    cases ns with
    | nil => exact .plain rfl .nil
    | cons m ms => exact .plain rfl (.plain rfl ih)

/-- Each name after a comma is counted. -/
theorem typeParametersFrom_names (names : List String) (arity i : Nat) (after : List Lexeme) :
    typeParametersFrom arity 1 i
        (names.flatMap (fun m => [mark ",", .name m]) ++ mark ">" :: after)
      = ⟨arity + names.length,
          ⟨i + (names.flatMap fun m => [mark ",", Lexeme.name m]).length + 1, after⟩, []⟩ := by
  induction names generalizing arity i with
  | nil => rfl
  | cons n ns ih =>
    have hcount : arity + (n :: ns).length = arity + 1 + ns.length := by
      rw [List.length_cons]
      omega
    have hindex : i + ((n :: ns).flatMap fun m => [mark ",", Lexeme.name m]).length + 1
        = i + 2 + (ns.flatMap fun m => [mark ",", Lexeme.name m]).length + 1 := by
      simp only [List.flatMap_cons, List.length_append, List.length_cons, List.length_nil]
      omega
    rw [hcount, hindex]
    exact ih (arity + 1) (i + 2)

/-- **Type parameters are accepted** and counted. -/
theorem accepts_typeParameters? {names : List String} (i : Nat) {after : List Lexeme}
    (ha : after.head?.any (·.isPunct "<") = false) :
    Accepts tol typeParameters? i (typeParameterSpelling names) after (· = names.length) := by
  cases names with
  | nil => exact .lookElse ha <| .pure rfl
  | cons n ns =>
    have hspelled : typeParameterSpelling (n :: ns)
        = mark "<" :: .name n :: (ns.flatMap (fun m => [mark ",", .name m]) ++ [mark ">"]) := by
      rw [typeParameterSpelling, if_neg (by simp), commaSeparated_names]
      rfl
    have hparsed : typeParameters ⟨i, typeParameterSpelling (n :: ns) ++ after⟩
        = ⟨1 + ns.length, ⟨i + (typeParameterSpelling (n :: ns)).length, after⟩, []⟩ := by
      have hindex : i + (typeParameterSpelling (n :: ns)).length
          = i + 2 + (ns.flatMap fun m => [mark ",", Lexeme.name m]).length + 1 := by
        rw [hspelled]
        simp only [List.length_append, List.length_cons, List.length_nil]
        omega
      rw [hindex, hspelled, ← typeParametersFrom_names, List.cons_append, List.cons_append,
        List.append_assoc]
      rfl
    refine .lookThen ?_ <| .of_eq hparsed (Nat.add_comm 1 _) rfl
    rw [hspelled]
    rfl

theorem qualifyingArguments_typeParameters (names : List String) (i : Nat) (ls : List Lexeme) :
    qualifyingArguments ⟨i, typeParameterSpelling names ++ mark "(" :: ls⟩ = none := by
  unfold typeParameterSpelling
  split
  · rfl
  · generalize hm : Lexer.commaSeparated (names.map ([.name ·])) = ms
    have ha : Angled ms := hm ▸ angled_names
    have hl : angleLength 1 (ms ++ mark ">" :: mark "(" :: ls) = some (1 + ms.length) := by
      rw [angleLength_of_angled ha (Nat.le_refl 1)]
      rfl
    have hd : Cursor.atPunct
        (Cursor.drop (1 + ms.length + 1) ⟨i, mark "<" :: (ms ++ mark ">" :: mark "(" :: ls)⟩) "."
        = false := by
      have : (mark "<" :: (ms ++ mark ">" :: mark "(" :: ls)).drop (1 + ms.length + 1)
          = mark "(" :: ls := by
        rw [List.drop_succ_cons, Nat.add_comm, List.drop_append]
        simp
      rw [Cursor.atPunct, Cursor.head?, Cursor.drop, this]
      rfl
    rw [angles, List.cons_append, List.append_assoc, qualifyingArguments,
      if_pos (atPunct_mark "<" i _)]
    simp only [Cursor.next, List.singleton_append, hl, hd]
    rfl

theorem accepts_constraints_none {after : List Lexeme}
    (h : after.head?.any (·.isWord "where") = false) (i : Nat) :
    Accepts tol constraints i [] after fun _ => True := .lookElse h <| .pure trivial

/-- What follows the name of a method is accepted if its body is. -/
theorem accepts_afterMethod {names : List String} {ms bs after : List Lexeme} (hm : WellNested ms)
    (hw : (bs ++ after).head?.any (·.isWord "where") = false)
    (hbody : ∀ j, Accepts tol body j bs after fun _ => True) (i : Nat) :
    Accepts tol Parser.method i (typeParameterSpelling names ++ (grouped .paren ms ++ bs)) after
      fun _ => True := by
  refine .bind (accepts_typeParameters? i rfl) fun _ _ => ?_
  refine .lookThen rfl <| .bind (accepts_skipGroup .paren hm _ _) fun b hb => ?_
  subst hb
  exact .after_nothing (accepts_constraints_none hw _) fun _ _ => hbody _

/-- **A method is accepted** after its type, if its body is. -/
theorem accepts_methodName {symbol : MemberKind → String → Entry} {name : String}
    {names : List String} {ms bs after : List Lexeme} (hm : WellNested ms)
    (hw : (bs ++ after).head?.any (·.isWord "where") = false)
    (hbody : ∀ j, Accepts tol body j bs after fun _ => True) (i : Nat) :
    Accepts tol (typedMember symbol) i
      (.name name :: (typeParameterSpelling names ++ (grouped .paren ms ++ bs))) after
      (· = [symbol .method name]) := by
  refine accepts_typedMember ?_ (fun _ => ?_) (fun k => ?_) i
  · unfold typeParameterSpelling
    split <;> rfl
  · simp only [grouped_paren, List.append_assoc, List.cons_append]
    exact qualifyingArguments_typeParameters _ _ _
  · refine .lookThen ?_ <| .before_nothing (accepts_afterMethod hm hw hbody k) fun _ _ => .pure rfl
    unfold typeParameterSpelling
    split <;> rfl

theorem accepts_method {m : MethodDecl} (h : m.WellFormed) (entries : EntryParser) (owner : String)
    (i : Nat) (after : List Lexeme) :
    Accepts .harmless (member entries owner) i m.spelling after
      (· = [.member (Member.method m).symbol]) := by
  have hsymbol : (Member.method m).symbol = ⟨.method, m.name, m.modifiers.isStatic⟩ := by
    rw [← Name.unescape_of_isIdentifier h.name.1]
    rfl
  have hw : (m.body.spelling ++ after).head?.any (·.isWord "where") = false := by
    cases m.body <;> rfl
  rw [hsymbol]
  exact accepts_typed (fun symbol => [symbol .method m.name]) h.attributes h.result.2 h.modifiers
    (fun symbol j => accepts_methodName (wellNested_parameters h.parameters) hw
      (accepts_body h.body · after) j) i

/-! ### Constructors -/

theorem accepts_requiredParens {ls : List Lexeme} (h : WellNested ls) (i : Nat)
    (after : List Lexeme) : Accepts tol requiredParens i (grouped .paren ls) after fun _ => True :=
  .lookThen rfl <| .before_nothing (accepts_skipGroup .paren h i after) fun _ _ => .pure trivial

/-- What follows the name of a constructor is accepted. -/
theorem accepts_afterConstructor {c : ConstructorDecl} {owner : String} (h : c.WellFormed owner)
    (i : Nat) (after : List Lexeme) :
    Accepts .harmless Parser.constructor i (.name c.name :: (parameterSpelling c.parameters
      ++ ((c.delegation.map (·.spelling)).getD [] ++ grouped .brace (c.body.flatMap lexemes))))
      after fun _ => True := by
  have hparameters := accepts_skipGroup (t := .harmless) .paren (wellNested_parameters h.parameters)
  have hbody := accepts_block h.body.nested h.body.ended
  refine .advance <| .bind (hparameters _ _) fun _ _ => ?_
  cases hd : c.delegation with
  | none => exact .eat_not rfl <| hbody _ after
  | some d =>
    have hword : ∀ j ls, (Cursor.atKeyword ⟨j, .word d.parts.1 :: ls⟩ "base"
        || Cursor.atKeyword ⟨j, .word d.parts.1 :: ls⟩ "this") = true := by
      cases d with
      | base => exact fun _ _ => rfl
      | this => exact fun _ _ => rfl
    have hparens : ∀ j after, Accepts .harmless requiredParens j _ after _ :=
      accepts_requiredParens (wellNested_listSpelling (h.delegation d hd))
    exact .eat <| .lookThen (hword _ _) <| .advance <| .bind (hparens _ _) fun _ _ => hbody _ after

theorem accepts_constructor {c : ConstructorDecl} {owner : String} (h : c.WellFormed owner)
    (entries : EntryParser) (i : Nat) (after : List Lexeme) :
    Accepts .harmless (member entries owner) i c.spelling after
      (· = [.member (Member.constructor c).symbol]) := by
  refine accepts_prefix h.attributes ?_ rfl ?_ fun j => ?_
  · exact fun _ _ _ => rfl
  · rintro _ ⟨⟩
    rw [isModifier]
    exact Bool.and_false _
  have htype : ∀ ls, atTypeKeyword ⟨j, .name c.name :: mark "(" :: ls⟩ = false :=
    fun ls => Bool.and_false _
  have howner : ∀ ls, (Cursor.atWord ⟨j, .name c.name :: mark "(" :: ls⟩ owner
      && Cursor.atPunct (Cursor.next ⟨j, .name c.name :: mark "(" :: ls⟩) "(") = true := by
    intro ls
    rw [h.name]
    simp [Cursor.atWord, Cursor.head?, Lexeme.isWord, Lexeme.name, Cursor.next, Cursor.atPunct,
      Lexeme.isPunct, mark]
  refine .lookElse rfl <| .lookElse (htype _) <| .lookElse rfl <| .lookElse rfl <| .lookElse rfl <|
    .lookThen (howner _) <| .before_nothing (accepts_afterConstructor h j after) fun _ _ => .pure ?_
  rw [static_words]
  rfl

/-! ### Lists of members -/

/-- Lexemes of which the first neither ends what stands in braces nor goes on what stands
before it. -/
def Starts (ls : List Lexeme) : Prop :=
  ∃ l rest, ls = l :: rest ∧ ∀ p ∈ ["\x7d", "=", ";"], l.isPunct p = false

theorem Starts.of_isWordy {l : Lexeme} (h : isWordy l = true) (ls : List Lexeme) :
    Starts (l :: ls) := ⟨l, ls, rfl, fun p _ => isPunct_of_isWordy h p⟩

theorem Starts.ne_nil {ls : List Lexeme} (h : Starts ls) : ls ≠ [] := by
  obtain ⟨l, rest, rfl, -⟩ := h
  exact List.cons_ne_nil l rest

theorem Starts.head?_eq {ls : List Lexeme} (h : Starts ls) {p : String}
    (hp : p ∈ ["\x7d", "=", ";"]) (after : List Lexeme) :
    (ls ++ after).head?.any (·.isPunct p) = false := by
  obtain ⟨l, rest, rfl, hl⟩ := h
  exact hl p hp

/-- What starts so is neither at the end of a block nor of a file. -/
theorem Starts.goes {ls : List Lexeme} (h : Starts ls) (i : Nat) (after : List Lexeme) :
    (Cursor.atPunct ⟨i, ls ++ after⟩ "\x7d" || Cursor.atEnd ⟨i, ls ++ after⟩) = false := by
  obtain ⟨l, rest, rfl, hl⟩ := h
  exact Bool.or_eq_false_iff.2 ⟨hl "\x7d" (by decide), rfl⟩

theorem starts_words (ws : List String) {ls : List Lexeme} (h : Starts ls) :
    Starts (ws.map .word ++ ls) := by
  cases ws with
  | nil => exact h
  | cons w ws => exact .of_isWordy (isWordy_word w) _

theorem starts_prefix (as : List Attribute) (ms : Modifiers) {ls : List Lexeme}
    (h : Starts ls) : Starts (attributeSpelling as ++ (ms.spelling ++ ls)) := by
  cases as with
  | cons a as => exact ⟨mark "[", _, rfl, by decide⟩
  | nil => exact starts_words ms.words h

theorem starts_typed (as : List Attribute) (ms : Modifiers) {type : List Lexeme}
    (h : TypeForm type) (tail : List Lexeme) :
    Starts (attributeSpelling as ++ (ms.spelling ++ (type ++ tail))) := by
  have subset : ∀ p ∈ ["\x7d", "=", ";"], p ∈ ["[", "\x7d", "~", "=", ";"] := by decide
  obtain ⟨l, rest, rfl, hl, -⟩ := h.exists_start
  exact starts_prefix as ms ⟨l, _, rfl, fun p hp => hl.punct p (subset p hp)⟩

theorem starts_spelling {m : Member} {owner : String} (h : m.WellFormed owner) :
    Starts m.spelling := by
  cases m with
  | field d => exact starts_typed _ _ h.type.2 _
  | constructor c => exact starts_prefix _ _ (.of_isWordy rfl _)
  | property p => exact starts_typed _ _ h.type.2 _
  | method m => exact starts_typed _ _ h.result.2 _

/-- **A member is accepted** as the symbol that it declares. -/
theorem accepts_member {m : Member} {owner : String} (h : m.WellFormed owner)
    (entries : EntryParser) (i : Nat) {after : List Lexeme}
    (ha : after.head?.any (·.isPunct "=") = false) :
    Accepts .harmless (member entries owner) i m.spelling after (· = [.member m.symbol]) := by
  cases m with
  | field d => exact accepts_field h entries owner i after
  | constructor c => exact accepts_constructor h entries i after
  | property p => exact accepts_property h entries owner i ha
  | method m => exact accepts_method h entries owner i after

theorem accepts_memberEnd (owner : String) (i : Nat) (after : List Lexeme) :
    Accepts tol (memberList owner) i [] (mark "\x7d" :: after) (· = []) := by
  have hend : memberList owner ⟨i, mark "\x7d" :: after⟩ = ⟨[], ⟨i, mark "\x7d" :: after⟩, []⟩ := by
    rw [memberList, atPunct_mark]
    rfl
  exact .of_eq hend rfl rfl

/-- A member that takes something is a turn of its list. -/
theorem memberTurn_of_accepts {owner : String} {i : Nat} {ls after : List Lexeme}
    {good : List Entry → Prop} (hs : Starts ls)
    (hm : Accepts tol (member memberList owner) i ls after good) :
    memberTurn owner ⟨i, ls ++ after⟩ = member memberList owner ⟨i, ls ++ after⟩ := by
  have := List.length_pos_iff.2 hs.ne_nil
  unfold memberTurn
  dsimp only
  rw [if_neg]
  rw [hm.rest]
  dsimp only
  omega

/-- **Members are accepted** one after the other. -/
theorem accepts_memberMore {owner : String} {i : Nat} {ls ms after : List Lexeme}
    {one more both : List Entry → Prop} (hs : Starts ls)
    (hm : Accepts tol (member memberList owner) i ls (ms ++ after) one)
    (hn : Accepts tol (memberList owner) (i + ls.length) ms after more)
    (hb : ∀ as bs, one as → more bs → both (as ++ bs)) :
    Accepts tol (memberList owner) i (ls ++ ms) after both :=
  .of_goesOn (goesOn_memberList owner (hs.goes i _)) (.of_here (memberTurn_of_accepts hs hm) hm) hn
    hb

/-- No `=` follows a member in front of others. -/
theorem head?_flatMap_starts {α : Type} {spell : α → List Lexeme} {members : List α}
    {ls : List Lexeme} (hs : ∀ m ∈ members, Starts (spell m))
    (hls : ls.head?.any (·.isPunct "=") = false) :
    (members.flatMap spell ++ ls).head?.any (·.isPunct "=") = false := by
  cases members with
  | nil => exact hls
  | cons m ms =>
    rw [List.flatMap_cons, List.append_assoc]
    exact (hs m List.mem_cons_self).head?_eq (by decide) _

/-- **Members are accepted** as their symbols, in the order of writing, if each of them is
where no `=` follows. -/
theorem accepts_each {α : Type} {spell : α → List Lexeme} {symbol : α → MemberSymbol}
    {members : List α} {owner : String} (hs : ∀ m ∈ members, Starts (spell m))
    (h : ∀ m ∈ members, ∀ i after, after.head?.any (·.isPunct "=") = false →
      Accepts tol (member memberList owner) i (spell m) after (· = [.member (symbol m)]))
    (i : Nat) (after : List Lexeme) :
    Accepts tol (memberList owner) i (members.flatMap spell) (mark "\x7d" :: after)
      (· = members.map (.member <| symbol ·)) := by
  induction members generalizing i with
  | nil => exact accepts_memberEnd owner i after
  | cons m members ih =>
    obtain ⟨hstart, hstarts⟩ := List.forall_mem_cons.1 hs
    obtain ⟨hm, hmembers⟩ := List.forall_mem_cons.1 h
    have hnext : (members.flatMap spell ++ mark "\x7d" :: after).head?.any (·.isPunct "=")
        = false := head?_flatMap_starts hstarts rfl
    rw [List.flatMap_cons]
    refine accepts_memberMore hstart (hm i _ hnext) (ih hstarts hmembers _) ?_
    rintro as bs rfl rfl
    rfl

/-- **The members of a type are accepted** as their symbols, in the order of writing. -/
theorem accepts_memberList {members : List Member} {owner : String}
    (h : ∀ m ∈ members, m.WellFormed owner) (i : Nat) (after : List Lexeme) :
    Accepts .harmless (memberList owner) i (members.flatMap (·.spelling)) (mark "\x7d" :: after)
      (· = members.map (.member ·.symbol)) :=
  accepts_each (fun m hm => starts_spelling (h m hm))
    (fun m hm i _ ha => accepts_member (h m hm) memberList i ha) i after

end Parser
end Outline
