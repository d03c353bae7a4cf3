/-
# Source files are accepted

Items that declare types are parsed one after the other, in a file and in the blocks of
namespaces.  So a source file with usings and one item at its top level is parsed as
these usings and the types of the item, without a fault; the item is a type, or a
namespace in either of its forms.
-/

import Outline.Proofs.Parser.Types

namespace Outline

/-- The symbols of what stands at the top level. -/
def Tree.TopLevel.symbols : TopLevel → List (TypeSymbol Unit)
  | namespaceDecl n => n.members.map (·.symbol (some n.name))
  | typeDecl t => [t.symbol none]

namespace Parser

open Outline.Tree
open Lexeme (mark)
open Lexer (dotted)

variable {tol : Tolerance}

/-! ### What items declare -/

/-- Items declare usings and types, whose places are left open. -/
structure Declares (usings : List String) (types : List (TypeSymbol Unit)) (items : List Item) :
    Prop where
  usings : items.filterMap (·.imported?) = usings
  types : (items.filterMap (·.type?)).map (·.unplaced) = types

theorem Declares.nil : Declares [] [] [] := ⟨rfl, rfl⟩

theorem Declares.type {t : Declared} {s : TypeSymbol Unit} (h : t.unplaced = s) :
    Declares [] [s] [.type t] := ⟨rfl, congrArg (fun s => [s]) h⟩

theorem Declares.imported (name : String) : Declares [name] [] [.imported name] := ⟨rfl, rfl⟩

theorem Declares.scope (name : String) : Declares [] [] [.fileNamespace name] := ⟨rfl, rfl⟩

/-- Items one after the other declare what each of them does. -/
theorem Declares.append {us vs : List String} {ss ts : List (TypeSymbol Unit)}
    {items more : List Item} (h : Declares us ss items) (h' : Declares vs ts more) :
    Declares (us ++ vs) (ss ++ ts) (items ++ more) := by
  constructor
  · rw [List.filterMap_append, h.usings, h'.usings]
  · rw [List.filterMap_append, List.map_append, h.types, h'.types]

/-- Items that are types and nothing else, whose places are left open. -/
def OnlyTypes (types : List (TypeSymbol Unit)) (items : List Item) : Prop :=
  ∃ ts : List Declared, items = ts.map .type ∧ ts.map (·.unplaced) = types

namespace OnlyTypes

theorem nil : OnlyTypes [] [] := ⟨[], rfl, rfl⟩

theorem type {t : Declared} {s : TypeSymbol Unit} (h : t.unplaced = s) :
    OnlyTypes [s] [.type t] := ⟨[t], rfl, congrArg (fun s => [s]) h⟩

/-- Types one after the other. -/
theorem append {ss ts : List (TypeSymbol Unit)} {items more : List Item} (h : OnlyTypes ss items)
    (h' : OnlyTypes ts more) : OnlyTypes (ss ++ ts) (items ++ more) := by
  obtain ⟨ds, rfl, rfl⟩ := h
  obtain ⟨es, rfl, rfl⟩ := h'
  exact ⟨ds ++ es, List.map_append.symm, List.map_append⟩

/-- Types alone import nothing. -/
theorem declares {ts : List (TypeSymbol Unit)} {items : List Item} (h : OnlyTypes ts items) :
    Declares [] ts items := by
  obtain ⟨ds, rfl, rfl⟩ := h
  induction ds with
  | nil => exact .nil
  | cons d ds ih => exact (Declares.type rfl).append ih

theorem fileNamespace {ts : List (TypeSymbol Unit)} {items : List Item} (h : OnlyTypes ts items) :
    items.filterMap (·.fileNamespace?) = [] := by
  obtain ⟨ds, rfl, -⟩ := h
  induction ds with
  | nil => rfl
  | cons d ds ih => exact ih

end OnlyTypes

/-! ### Types in a namespace -/

/-- Lexemes with which the declaration of a type can start. -/
structure StartDeclaration (ls : List Lexeme) : Prop where
  atUsing : ∀ i, atUsing ⟨i, ls⟩ = false
  atAlias : ∀ i, atAlias ⟨i, ls⟩ = false
  atNamespace : ∀ i, Cursor.atKeyword ⟨i, ls⟩ "namespace" = false
  atPunct : ∀ i, Cursor.atPunct ⟨i, ls⟩ "\x7d" = false
  atEnd : ∀ i, Cursor.atEnd ⟨i, ls⟩ = false

/-- A declaration starts with a lexeme that ends no namespace. -/
theorem StartDeclaration.goes {ls : List Lexeme} (h : StartDeclaration ls) (i : Nat) :
    (Cursor.atEnd ⟨i, ls⟩ || Cursor.atPunct ⟨i, ls⟩ "\x7d" || Cursor.atKeyword ⟨i, ls⟩ "namespace")
      = false := by
  rw [Bool.or_eq_false_iff, Bool.or_eq_false_iff]
  exact ⟨⟨h.atEnd i, h.atPunct i⟩, h.atNamespace i⟩

/-- The words that start declarations, `extern` unless an alias follows. -/
theorem startDeclaration_words {w : String}
    (hw : w ∈ modifierKeywords ++ modifierWords ++ declarationWords) {ls : List Lexeme}
    (hl : w = "extern" → ls.head?.any (·.isWord "alias") = false) :
    StartDeclaration (.word w :: ls) := by
  have words : ∀ w ∈ modifierKeywords ++ modifierWords ++ declarationWords,
      (Lexeme.word w).isKeyword "using" = false ∧ (Lexeme.word w).isWord "global" = false ∧
        (Lexeme.word w).isKeyword "namespace" = false ∧
        ((Lexeme.word w).isKeyword "extern" = true → w = "extern") := by
    decide
  obtain ⟨hu, hg, hn, he⟩ := words w hw
  refine ⟨fun _ => ?_, fun _ => ?_, fun _ => hn, fun _ => isPunct_of_isWordy (isWordy_word w) _,
    fun _ => rfl⟩
  · show (((Lexeme.word w).isKeyword "using" && _) || ((Lexeme.word w).isWord "global" && _))
      = false
    rw [hu, hg]
    rfl
  · exact Bool.and_eq_false_imp.2 fun h => hl (he h)

/-- Modifiers may stand in front of the word. -/
theorem startDeclaration_modifiers (ms : Modifiers) {word : String} (h : word ∈ declarationWords)
    (ls : List Lexeme) : StartDeclaration (ms.spelling ++ (.word word :: ls)) := by
  have noAlias : ∀ w ∈ modifierKeywords ++ modifierWords ++ declarationWords,
      (Lexeme.word w).isWord "alias" = false := by decide
  have noExtern : ∀ w ∈ declarationWords, w ≠ "extern" := by decide
  have hwords : ∀ w ∈ ms.words, w ∈ modifierKeywords ++ modifierWords := by
    intro w hw
    obtain ⟨m, -, rfl⟩ := List.mem_map.1 hw
    exact mem_modifierWords m
  unfold Modifiers.spelling
  cases hw : ms.words with
  | nil =>
    exact startDeclaration_words (List.mem_append_right _ h) fun he => absurd he (noExtern _ h)
  | cons w ws =>
    rw [hw] at hwords
    refine startDeclaration_words (List.mem_append_left _ (hwords w List.mem_cons_self)) fun _ => ?_
    cases ws with
    | nil => exact noAlias word (List.mem_append_right _ h)
    | cons v vs =>
      have hv := hwords v (List.mem_cons_of_mem w List.mem_cons_self)
      exact noAlias v (List.mem_append_left _ hv)

section

variable {as : List Attribute} {ms : Modifiers} {ls after : List Lexeme}
  {symbol : Option String → TypeSymbol Unit}

theorem DeclaresType.starts (h : DeclaresType tol ms.words after symbol ls) :
    Starts (attributeSpelling as ++ (ms.spelling ++ ls)) := by
  obtain ⟨word, -, rest, rfl⟩ := h.exists_word
  exact starts_prefix as ms (.of_isWordy (isWordy_word word) rest)

theorem DeclaresType.startDeclaration (h : DeclaresType tol ms.words after symbol ls) :
    StartDeclaration (attributeSpelling as ++ (ms.spelling ++ ls) ++ after) := by
  obtain ⟨word, hword, rest, rfl⟩ := h.exists_word
  unfold attributeSpelling
  cases as with
  | cons a as =>
    have square : (mark "[").isPunct "\x7d" = false := by decide
    exact ⟨fun _ => rfl, fun _ => rfl, fun _ => rfl, fun _ => square, fun _ => rfl⟩
  | nil =>
    have := startDeclaration_modifiers ms hword (rest ++ after)
    simpa using this

/-- **A type is accepted in a namespace** as the symbol that it declares there. -/
theorem accepts_namespaceMember (ha : ∀ a ∈ as, a.WellFormed)
    (h : DeclaresType tol ms.words after symbol ls) (namespaceName : Option String) (i : Nat) :
    Accepts tol (namespaceMember namespaceName) i (attributeSpelling as ++ (ms.spelling ++ ls))
      after (OnlyTypes [symbol namespaceName]) := by
  obtain ⟨word, hword, rest, hls⟩ := h.exists_word
  have hnone : (ms.spelling ++ ls ++ after).head?.any (·.isPunct "[") = false := by
    rw [List.append_assoc, hls]
    exact head?_words _ (isPunct_of_isWordy (isWordy_word _) "[")
  have hstart : StartDeclaration (ms.spelling ++ ls ++ after) := by
    rw [List.append_assoc, hls]
    exact startDeclaration_modifiers _ hword _
  refine .bind (accepts_attributeSpelling ha hnone i) fun _ _ => ?_
  refine .lookElse (hstart.goes _) <| .bind (accepts_modifierSpelling ?_ ?_ _) fun words hw => ?_
  · rw [hls]
    exact fun _ _ _ => isWordy_word _
  · rw [hls]
    rintro _ ⟨⟩
    exact isModifier_of_mem_declarationWords hword _
  · subst hw
    cases h with
    | type _ hk h =>
      exact .lookThen (hk _) <| .before_nothing (h namespaceName _) fun t ht => .pure (.type ht)
    | delegate h =>
      refine .lookElse rfl <| .lookThen rfl <| .before_nothing (h namespaceName _) ?_
      rintro _ ⟨t, rfl, ht⟩
      exact .pure (.type ht)

/-! ### Items one after the other -/

/-- **A type in a namespace** is read by one turn. -/
theorem accepts_namespaceTurn (ha : ∀ a ∈ as, a.WellFormed)
    (h : DeclaresType tol ms.words after symbol ls) (full : String) (late : Bool) (i : Nat) :
    Accepts tol (namespaceTurn full late) i (attributeSpelling as ++ (ms.spelling ++ ls)) after
      (OnlyTypes [symbol (some full)]) := by
  have hstart : StartDeclaration (attributeSpelling as ++ (ms.spelling ++ ls) ++ after) :=
    h.startDeclaration
  refine .of_here ?_ (accepts_namespaceMember ha h (some full) i)
  unfold namespaceTurn namespaceItem
  rw [hstart.atUsing, hstart.atNamespace]
  rfl

/-- **A type in a file** is read as one item. -/
theorem accepts_fileItem (ha : ∀ a ∈ as, a.WellFormed)
    (h : DeclaresType tol ms.words after symbol ls) (fileNamespace : Option String) (late : Bool)
    (i : Nat) :
    Accepts tol (fileItem fileNamespace late) i (attributeSpelling as ++ (ms.spelling ++ ls)) after
      (OnlyTypes [symbol fileNamespace]) := by
  have hstart : StartDeclaration (attributeSpelling as ++ (ms.spelling ++ ls) ++ after) :=
    h.startDeclaration
  refine .of_here ?_ (accepts_namespaceMember ha h fileNamespace i)
  unfold fileItem
  rw [hstart.atUsing, hstart.atAlias, hstart.atNamespace, hstart.atPunct]
  rfl

/-- A type without attributes at the top level is accepted. -/
theorem accepts_bareItem (h : DeclaresType tol ms.words after symbol ls)
    (fileNamespace : Option String) (late : Bool) (i : Nat) :
    Accepts tol (fileItem fileNamespace late) i (ms.spelling ++ ls) after
      (OnlyTypes [symbol fileNamespace]) :=
  have h := accepts_fileItem wellFormed_no_attributes h fileNamespace late i
  h

end

section

variable {i : Nat} {ls ms after : List Lexeme} {ss ts : List (TypeSymbol Unit)}

/-- A namespace ends with its brace, where no semicolon follows. -/
theorem accepts_namespaceEnd (full : String) (late : Bool) (i : Nat)
    (ha : after.head?.any (·.isPunct ";") = false) :
    Accepts tol (namespaceItems full late) i [mark "\x7d"] after (OnlyTypes []) := by
  have hend : namespaceItems full late ⟨i, mark "\x7d" :: after⟩ = ⟨[], ⟨i + 1, after⟩, []⟩ := by
    rw [namespaceItems, if_pos (atPunct_mark "\x7d" i after)]
    have hsemicolon : Cursor.atPunct ⟨i + 1, after⟩ ";" = false := ha
    show (eat ";" ⟨i + 1, after⟩).map _ = _
    rw [eat_of_not_atPunct hsemicolon]
    rfl
  exact .of_eq hend .nil rfl

/-- **The items of a namespace are accepted** one after the other. -/
theorem accepts_namespaceMore {full : String} {late : Bool} (hs : Starts ls)
    (h : Accepts tol (namespaceTurn full late) i ls (ms ++ after) (OnlyTypes ss))
    (hn : ∀ late, Accepts tol (namespaceItems full late) (i + ls.length) ms after (OnlyTypes ts)) :
    Accepts tol (namespaceItems full late) i (ls ++ ms) after (OnlyTypes (ss ++ ts)) :=
  .of_goesOn (goesOn_namespaceItems full late (hs.goes i _)) h (hn _) fun _ _ h h' => h.append h'

theorem accepts_fileEnd (fileNamespace : Option String) (late : Bool) (i : Nat) :
    Accepts tol (fileItems fileNamespace late) i [] [] (OnlyTypes []) := by
  have hend : fileItems fileNamespace late ⟨i, []⟩ = ⟨[], ⟨i, []⟩, []⟩ := by
    rw [fileItems]
    rfl
  exact .of_eq hend .nil rfl

/-- **The items of a file are accepted** one after the other. -/
theorem accepts_fileMore {fileNamespace : Option String} {late : Bool} (hs : Starts ls)
    (h : Accepts tol (fileItem fileNamespace late) i ls (ms ++ after) (OnlyTypes ss))
    (hn : ∀ late, Accepts tol (fileItems fileNamespace late) (i + ls.length) ms after
      (OnlyTypes ts)) :
    Accepts tol (fileItems fileNamespace late) i (ls ++ ms) after (OnlyTypes (ss ++ ts)) := by
  have hend := (Bool.or_eq_false_iff.1 (hs.goes i (ms ++ after))).2
  have hgo := goesOn_fileItems fileNamespace late hend
  rw [h.value.fileNamespace] at hgo
  exact .of_goesOn hgo h (hn _) fun _ _ h h' => h.append h'

end

/-- What follows a type in a list of types. -/
theorem head?_types {types : List TypeDecl} (ht : ∀ t ∈ types, t.Shaped) {after : List Lexeme}
    (h : after.head?.any (·.isPunct ";") = false) :
    (types.flatMap (·.spelling) ++ after).head?.any (·.isPunct ";") = false := by
  cases types with
  | nil => exact h
  | cons t ts =>
    have hd : DeclaresType .harmless t.modifiers.words [] t.symbol _ :=
      declaresType_typeDecl (ht t List.mem_cons_self) rfl
    rw [List.flatMap_cons, List.append_assoc]
    exact hd.starts.head?_eq (by decide) _

/-- **The block of a namespace is accepted** as the types in it. -/
theorem accepts_namespaceItems {types : List TypeDecl} (h : ∀ t ∈ types, t.Shaped)
    (full : String) (late : Bool) (i : Nat) {after : List Lexeme}
    (ha : after.head?.any (·.isPunct ";") = false) :
    Accepts .harmless (namespaceItems full late) i
      (types.flatMap (·.spelling) ++ [mark "\x7d"]) after
      (OnlyTypes (types.map (·.symbol (some full)))) := by
  induction types generalizing late i with
  | nil => exact accepts_namespaceEnd full late i ha
  | cons t types ih =>
    have hrest : ∀ s ∈ types, s.Shaped := fun s hs => h s (List.mem_cons_of_mem t hs)
    have hnext : (types.flatMap (·.spelling) ++ [mark "\x7d"] ++ after).head?.any (·.isPunct ";")
        = false := by
      rw [List.append_assoc]
      exact head?_types hrest rfl
    have ht := h t List.mem_cons_self
    have hd := declaresType_typeDecl ht hnext
    rw [List.flatMap_cons, List.append_assoc]
    exact accepts_namespaceMore hd.starts (accepts_namespaceTurn ht.attributes hd full late i)
      fun late => ih hrest late _

/-! ### Names with dots -/

theorem dotted_cons_cons (m n : String) (ns : List String) :
    dotted (m :: n :: ns) = .name m :: mark "." :: dotted (n :: ns) := by
  simp [dotted]

theorem dotted_singleton (n : String) : dotted [n] = [.name n] := by simp [dotted]

theorem dotted_cons (n : String) (ns : List String) : ∃ ls, dotted (n :: ns) = .name n :: ls := by
  cases ns with
  | nil => exact ⟨[], dotted_singleton n⟩
  | cons m ms => exact ⟨_, dotted_cons_cons n m ms⟩

/-- A name is gone on with the names after it. -/
theorem accepts_qualifiedTail (n : String) (ns : List String) (start : String) (i : Nat)
    {after : List Lexeme} (ha : after.head?.any (·.isOneOf [".", "::"]) = false) :
    Accepts tol (qualifiedTail (start ++ n)) i (dotted (n :: ns)).tail after
      (· = start ++ ".".intercalate (n :: ns)) := by
  induction ns generalizing n start i with
  | nil =>
    have stop : qualifiedTail (start ++ n) ⟨i, after⟩ = ⟨start ++ n, ⟨i, after⟩, []⟩ := by
      have hq : ¬atQualifier ⟨i, after⟩ = true := by
        rw [atQualifier, show Cursor.atOneOf ⟨i, after⟩ [".", "::"] = false from ha]
        exact Bool.false_ne_true
      rw [qualifiedTail, dif_neg hq]
    rw [dotted_singleton]
    exact .of_eq stop (by simp) rfl
  | cons m ms ih =>
    obtain ⟨ls, hls⟩ := dotted_cons m ms
    have hm := ih m (start ++ n ++ ".") (i + 2)
    rw [hls] at hm
    have hq : atQualifier ⟨i, mark "." :: .name m :: (ls ++ after)⟩ = true := rfl
    have next : qualifiedTail (start ++ n) ⟨i, [mark ".", .name m] ++ (ls ++ after)⟩
        = (qualifiedTail (start ++ n ++ "." ++ m) ⟨i + 2, ls ++ after⟩).before [] := by
      rw [List.cons_append, List.singleton_append, qualifiedTail, dif_pos hq]
      rfl
    have hjoin : start ++ n ++ "." ++ ".".intercalate (m :: ms)
        = start ++ ".".intercalate (n :: m :: ms) := by
      rw [String.intercalate_cons_cons]
      simp only [String.append_assoc]
    rw [dotted_cons_cons, hls, List.tail_cons, ← hjoin]
    exact .of_before next rfl hm

/-- **The name of a namespace is accepted.** -/
theorem accepts_namespacePath {names : List String} (hn : names ≠ []) (i : Nat)
    {after : List Lexeme} (ha : after.head?.any (·.isOneOf [".", "::"]) = false) :
    Accepts tol namespacePath i (dotted names) after (· = ".".intercalate names) := by
  cases names with
  | nil => exact absurd rfl hn
  | cons n ns =>
    obtain ⟨ls, hls⟩ := dotted_cons n ns
    have htail : ∀ j, Accepts tol _ j _ _ _ := fun j => accepts_qualifiedTail n ns "" j ha
    simp only [hls, List.tail_cons, String.empty_append] at htail
    have hname : Accepts tol qualifiedName? i (.name n :: ls) after
        (· = some (".".intercalate (n :: ns))) := by
      refine .bind (.name? n) fun a ha => ?_
      subst ha
      exact .before_nothing (htail _) fun b hb => .pure (congrArg some hb)
    rw [hls]
    refine .before_nothing hname fun a ha => ?_
    subst ha
    exact .pure rfl

/-! ### Usings -/

/-- The name of a using is put together up to its semicolon. -/
theorem usingNameFrom_of_goes {ls : List Lexeme} (h : ∀ l ∈ ls, endsUsing l = false) (i : Nat)
    (after : List Lexeme) : usingNameFrom i (ls ++ mark ";" :: after)
      = ⟨String.join (ls.map (·.text)), ⟨i + ls.length, mark ";" :: after⟩, []⟩ := by
  induction ls generalizing i with
  | nil => rfl
  | cons l ls ih =>
    have hl : endsUsing l = false := h l List.mem_cons_self
    rw [List.cons_append, usingNameFrom, hl, if_neg Bool.false_ne_true,
      ih fun k hk => h k (List.mem_cons_of_mem l hk)]
    simp [Step.map, String.join_cons, Nat.add_assoc, Nat.add_comm 1]

theorem endsUsing_dotted {names : List String} : ∀ l ∈ dotted names, endsUsing l = false := by
  induction names with
  | nil => simp [dotted]
  | cons n ns ih =>
    cases ns with
    | nil =>
      rw [dotted_singleton]
      exact List.forall_mem_cons.2 ⟨rfl, fun _ h => absurd h List.not_mem_nil⟩
    | cons m ms =>
      rw [dotted_cons_cons]
      exact List.forall_mem_cons.2 ⟨rfl, List.forall_mem_cons.2 ⟨rfl, ih⟩⟩

/-- The texts of names with dots are the name as it is written. -/
theorem join_dotted (names : List String) :
    String.join ((dotted names).map (·.text)) = ".".intercalate names := by
  induction names with
  | nil => rfl
  | cons n ns ih =>
    cases ns with
    | nil => simp [dotted, Lexeme.name]
    | cons m ms =>
      rw [dotted_cons_cons, String.intercalate_cons_cons, ← ih]
      simp [Lexeme.name, mark, String.append_assoc]

/-- A name with dots is no alias. -/
theorem accepts_usingTarget {names : List String} (hn : names ≠ []) (i : Nat)
    (after : List Lexeme) :
    Accepts tol usingTarget i (dotted names) (mark ";" :: after) (· = ".".intercalate names) := by
  have hname : Accepts tol usingName i (dotted names) (mark ";" :: after)
      (· = ".".intercalate names) :=
    .of_eq (usingNameFrom_of_goes endsUsing_dotted i after) (join_dotted names) rfl
  cases names with
  | nil => exact absurd rfl hn
  | cons n ns =>
    have hstatic : Cursor.atKeyword ⟨i, dotted (n :: ns) ++ mark ";" :: after⟩ "static"
        = false := by
      obtain ⟨ls, hls⟩ := dotted_cons n ns
      rw [hls]
      rfl
    have halias : (Cursor.atName ⟨i, dotted (n :: ns) ++ mark ";" :: after⟩
        && Cursor.atPunct (Cursor.next ⟨i, dotted (n :: ns) ++ mark ";" :: after⟩) "=")
        = false := by
      cases ns with
      | nil =>
        rw [dotted_singleton]
        rfl
      | cons m ms =>
        rw [dotted_cons_cons]
        rfl
    exact .lookElse hstatic <| .lookElse halias hname

/-- A name with dots is read as names and dots. -/
theorem lexemes_dotted {name : String} (h : Name.IsDotted name) :
    ∃ names, names ≠ [] ∧ name = ".".intercalate names ∧ lexemes name = dotted names := by
  obtain ⟨names, hne, rfl, hn⟩ := h
  exact ⟨names, hne, rfl, (Lexer.reads_dotted hn).alone.2⟩

theorem isEmpty_of_isDotted {name : String} (h : Name.IsDotted name) : name.isEmpty = false := by
  rw [Bool.eq_false_iff]
  intro he
  obtain ⟨names, hne, hname, hl⟩ := lexemes_dotted h
  rw [String.isEmpty_iff.1 he] at hl
  cases names with
  | nil => exact hne rfl
  | cons n ns =>
    obtain ⟨ls, hls⟩ := dotted_cons n ns
    rw [hls, show lexemes "" = [] by decide +kernel] at hl
    cases hl

/-- **A using is accepted.** -/
theorem accepts_usingDirective {name : String} (h : Name.IsDotted name) (i : Nat)
    (after : List Lexeme) :
    Accepts tol usingDirective i (usingSpelling name) after (· = [.imported name]) := by
  obtain ⟨names, hne, hname, hl⟩ := lexemes_dotted h
  have htarget : Accepts tol usingTarget _ _ _ _ := accepts_usingTarget hne (i + 1) after
  have hempty := isEmpty_of_isDotted h
  unfold usingSpelling
  rw [hl]
  refine .look <| .lookElse rfl <| .advance <| .bind htarget fun a ha => ?_
  rw [ha, ← hname, hempty]
  exact .before_nothing (.expect ";" .semicolon) fun _ _ => .pure rfl

/-- A file goes on after a using as it did before. -/
theorem accepts_usingItem {name : String} (h : Name.IsDotted name) (i : Nat)
    (after : List Lexeme) :
    Accepts tol (fileItem none false) i (usingSpelling name) after (· = [.imported name]) ∧
      GoesOn (fileItems none false) (fileItems none false) (fileItem none false)
        ⟨i, usingSpelling name ++ after⟩ := by
  have hat : atUsing ⟨i, usingSpelling name ++ after⟩ = true := by
    obtain ⟨names, hne, -, hl⟩ := lexemes_dotted h
    cases names with
    | nil => exact absurd rfl hne
    | cons n ns =>
      obtain ⟨ks, hks⟩ := dotted_cons n ns
      rw [usingSpelling, hl, hks]
      rfl
  have hitem : Accepts tol (fileItem none false) i (usingSpelling name) after
      (· = [.imported name]) := by
    refine .of_here ?_ (accepts_usingDirective h i _)
    rw [fileItem, if_pos hat]
    rfl
  have hgo := goesOn_fileItems (c := ⟨i, usingSpelling name ++ after⟩) none false rfl
  rw [hitem.value, hat] at hgo
  exact ⟨hitem, hgo⟩

/-- **Usings are accepted** before all that the rest of a file declares. -/
theorem accepts_usings {usings : List String} (h : ∀ name ∈ usings, Name.IsDotted name)
    {types : List (TypeSymbol Unit)} {ls after : List Lexeme}
    (hls : ∀ j, Accepts .harmless (fileItems none false) j ls after (Declares [] types)) (i : Nat) :
    Accepts .harmless (fileItems none false) i (usings.flatMap usingSpelling ++ ls) after
      (Declares usings types) := by
  induction usings generalizing i with
  | nil => exact hls i
  | cons name names ih =>
    obtain ⟨hname, hnames⟩ := List.forall_mem_cons.1 h
    have hrest := ih hnames
    rw [List.flatMap_cons, List.append_assoc]
    generalize names.flatMap usingSpelling ++ ls = ms at hrest
    obtain ⟨hitem, hgo⟩ := accepts_usingItem hname i (ms ++ after)
    exact .of_goesOn hgo hitem (hrest _) fun as bs ha hb =>
      ha ▸ (Declares.imported name).append hb

/-! ### Files -/

/-- Types are accepted at the top level of a file. -/
theorem accepts_fileTypes {types : List TypeDecl} (h : ∀ t ∈ types, t.Shaped)
    (fileNamespace : Option String) (late : Bool) (i : Nat) :
    Accepts .harmless (fileItems fileNamespace late) i (types.flatMap (·.spelling)) []
      (OnlyTypes (types.map (·.symbol fileNamespace))) := by
  induction types generalizing late i with
  | nil => exact accepts_fileEnd fileNamespace late i
  | cons t types ih =>
    have hrest : ∀ s ∈ types, s.Shaped := fun s hs => h s (List.mem_cons_of_mem t hs)
    have ht := h t List.mem_cons_self
    have hnext : (types.flatMap (·.spelling) ++ ([] : List Lexeme)).head?.any (·.isPunct ";")
        = false := head?_types hrest rfl
    have hd := declaresType_typeDecl ht hnext
    rw [List.flatMap_cons]
    exact accepts_fileMore hd.starts (accepts_fileItem ht.attributes hd fileNamespace late i)
      fun late => ih hrest late _

/-- A namespace is accepted up to its body if its body is. -/
theorem accepts_namespaceDeclaration {names : List String} (hn : names ≠ []) {items : ItemParser}
    {place : NamespacePlace} {ls after : List Lexeme} {good : List Item → Prop}
    (ha : (ls ++ after).head?.any (·.isOneOf [".", "::"]) = false)
    (hls : ∀ keyword j, Accepts tol (namespaceBody items place keyword (".".intercalate names)) j ls
      after good) (i : Nat) :
    Accepts tol (namespaceDeclaration items place) i
      (.word "namespace" :: (dotted names ++ ls)) after good := by
  refine .look <| .advance <| .bind (accepts_namespacePath hn _ ha) fun a hn => ?_
  rw [hn]
  exact hls _ _

/-- **A namespace with a block is accepted** as what is in the block. -/
theorem accepts_blockNamespace {names : List String} (hn : names ≠ []) (place : NamespacePlace)
    {ms after : List Lexeme} {good : List Item → Prop}
    (h : ∀ j, Accepts tol (namespaceItems (place.qualify (".".intercalate names)) false) j
      (ms ++ [mark "\x7d"]) after good) (i : Nat) :
    Accepts tol (namespaceDeclaration (fun name => namespaceItems name false) place) i
      (.word "namespace" :: (dotted names ++ grouped .brace ms)) after good :=
  accepts_namespaceDeclaration hn rfl (fun _ _ => .eat_not rfl <| .eat <| h _) i

theorem namespaceTurn_namespace (full : String) (late : Bool) (i : Nat) (ls : List Lexeme) :
    namespaceTurn full late ⟨i, .word "namespace" :: ls⟩
      = namespaceDeclaration (fun name => namespaceItems name false) (.block full)
        ⟨i, .word "namespace" :: ls⟩ := rfl

theorem fileItem_namespace (fileNamespace : Option String) (late : Bool) (i : Nat)
    (ls : List Lexeme) : fileItem fileNamespace late ⟨i, .word "namespace" :: ls⟩
      = namespaceDeclaration (fun name => namespaceItems name false)
        (.file fileNamespace.isSome late) ⟨i, .word "namespace" :: ls⟩ := rfl

/-- A namespace without a block is accepted up to its semicolon. -/
theorem accepts_fileScope {names : List String} (hn : names ≠ []) (i : Nat) (after : List Lexeme) :
    Accepts .harmless (fileItem none false) i
      (.word "namespace" :: (dotted names ++ [mark ";"])) after
      (· = [.fileNamespace (".".intercalate names)]) := by
  have hbody : ∀ keyword j, Accepts .harmless (namespaceBody (fun name => namespaceItems name false)
      (.file false false) keyword (".".intercalate names)) j [mark ";"] after
      (· = [.fileNamespace (".".intercalate names)]) :=
    fun keyword j => .eat <| .after_nothing (.report (Tolerance.allows_needs _ _)) fun _ _ =>
      .pure rfl
  exact .of_here (fileItem_namespace none false i _) (accepts_namespaceDeclaration hn rfl hbody i)

/-- After a namespace without a block, a file goes on in it. -/
theorem goesOn_fileScope {names : List String} (hn : names ≠ []) (i : Nat) (after : List Lexeme) :
    GoesOn (fileItems none false) (fileItems (some (".".intercalate names)) true)
      (fileItem none false) ⟨i, .word "namespace" :: (dotted names ++ [mark ";"]) ++ after⟩ := by
  have hgo := goesOn_fileItems none false
    (c := ⟨i, .word "namespace" :: (dotted names ++ [mark ";"]) ++ after⟩) rfl
  rwa [(accepts_fileScope hn i after).value] at hgo

/-- **A namespace in either form is accepted** as the types in it. -/
theorem accepts_namespace {name : String} (hn : Name.IsDotted name) (form : NamespaceForm)
    {ls : List Lexeme} {types : List (TypeSymbol Unit)}
    (hfile : ∀ late j, Accepts .harmless (fileItems (some name) late) j ls [] (OnlyTypes types))
    (hblock : ∀ j, Accepts .harmless (namespaceItems name false) j (ls ++ [mark "\x7d"]) []
      (OnlyTypes types)) (i : Nat) :
    Accepts .harmless (fileItems none false) i (namespaceSpelling name form ls) []
      (Declares [] types) := by
  obtain ⟨names, hne, rfl, hl⟩ := lexemes_dotted hn
  unfold namespaceSpelling
  rw [hl]
  cases form with
  | fileScoped =>
    have := Accepts.of_goesOn (goesOn_fileScope hne i _) (accepts_fileScope hne i _) (hfile _ _)
      fun as bs ha hb => ha ▸ Declares.append (.scope (".".intercalate names)) hb.declares
    simpa using this
  | block =>
    have hitem := Accepts.of_here (fileItem_namespace none false i _)
      (accepts_blockNamespace hne (.file false false) hblock i)
    have := accepts_fileMore (.of_isWordy rfl _) hitem fun late => accepts_fileEnd none late _
    rw [List.append_nil, List.append_nil] at this
    exact this.mono fun _ => OnlyTypes.declares

/-- The one item of a source file is accepted as the types that it declares. -/
theorem accepts_topLevel {item : TopLevel} (h : item.WellFormed) (i : Nat) :
    Accepts .harmless (fileItems none false) i item.spelling [] (Declares [] item.symbols) := by
  cases item with
  | typeDecl t =>
    have ht : t.Shaped := TypeDecl.WellFormed.shaped h
    have := accepts_fileTypes (List.forall_mem_singleton.2 ht) none false i
    rw [List.flatMap_singleton] at this
    exact this.mono fun _ => OnlyTypes.declares
  | namespaceDecl n =>
    have ht : ∀ t ∈ n.members, t.Shaped := fun t ht => (h.2 t ht).shaped
    have := accepts_namespace h.1 n.form (fun late j => accepts_fileTypes ht _ late j)
      (fun j => accepts_namespaceItems ht n.name false j rfl) i
    rwa [← NamespaceDecl.spelling_eq] at this

/-- **A source file is accepted** as its usings and the symbols of its one item. -/
theorem accepts_parseFile {usings : List String} {item : TopLevel}
    (hu : ∀ name ∈ usings, Name.IsDotted name) (hi : item.WellFormed) :
    Accepts .harmless (fileItems none false) 0 (CompilationUnit.spelling ⟨usings, [item]⟩) []
      (Declares usings item.symbols) := by
  have := accepts_usings hu (accepts_topLevel hi) 0
  simpa [CompilationUnit.spelling] using this

end Parser
end Outline
