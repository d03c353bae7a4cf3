/-
# Usings and types, listed

Lexemes that are by themselves a using directive (`IsUsing`), or the declaration of a type
(`IsType`), are the same among others.  A list of usings and types is passed part by part,
in the block of a namespace and in a file, and each part leaves the same in both.  The two
loops differ in what they find: after the word `namespace` and a name, a using comes too late
in a file.

| loop | usings | types |
| --- | --- | --- |
| `namespaceItems` | passed | passed |
| `fileItems` after a file-scoped namespace | passed, each with a fault | passed |
-/

import Outline.Proofs.Parser.Enclosure
import Outline.Proofs.Parser.Files

namespace Outline
namespace Parser

open Lexeme (mark)
open Lexer (dotted)

/-! ### Faults one by one -/

/-- The causes of the faults among findings. -/
def faults (found : List Finding) : List Cause := (found.map (·.cause)).filter (·.isFault)

@[simp] theorem faults_append (f g : List Finding) : faults (f ++ g) = faults f ++ faults g := by
  simp [faults]

theorem faults_eq_nil {found : List Finding} : faults found = [] ↔ hasFault found = false := by
  simp [faults, hasFault]

theorem faults_map_finding (f : Frame) (found : List Finding) :
    faults (found.map f.finding) = faults found := by
  rw [faults, List.map_map]
  rfl

/-- From the token `i` on, a parser goes on through `ls` up to `after`, comes to a value that is
`good`, and finds faults of these causes. -/
structure Yields {α : Type} (p : Parser α) (i : Nat) (ls after : List Lexeme) (good : α → Prop)
    (causes : List Cause) : Prop where
  value : good (p ⟨i, ls ++ after⟩).value
  rest : (p ⟨i, ls ++ after⟩).rest = ⟨i + ls.length, after⟩
  found : faults (p ⟨i, ls ++ after⟩).found = causes

namespace Yields

variable {α : Type} {p q : Parser α} {i : Nat} {ls ms after : List Lexeme} {good good' : α → Prop}
  {fs gs : List Cause}

theorem of_accepts (h : Accepts .harmless p i ls after good) : Yields p i ls after good [] := by
  refine ⟨h.value, h.rest, faults_eq_nil.2 ?_⟩
  have hc := h.found
  simpa [Tolerance.covers, Tolerance.harmless, hasFault] using hc

theorem accepts (h : Yields p i ls after good []) : Accepts .harmless p i ls after good := by
  refine ⟨h.value, h.rest, ?_⟩
  have hc := faults_eq_nil.1 h.found
  simpa [Tolerance.covers, Tolerance.harmless, hasFault] using hc

theorem mono (h : Yields p i ls after good fs) (hg : ∀ a, good a → good' a) :
    Yields p i ls after good' fs := ⟨hg _ h.value, h.rest, h.found⟩

/-- A parser that goes on as another one from where it is. -/
theorem of_here (h : p ⟨i, ls ++ after⟩ = q ⟨i, ls ++ after⟩) (hq : Yields q i ls after good fs) :
    Yields p i ls after good fs :=
  ⟨by rw [h]; exact hq.value, by rw [h, hq.rest], by rw [h]; exact hq.found⟩

/-- What is passed after a fault. -/
theorem reported {cause : Cause} (hc : cause.isFault = true) (h : Yields p i ls after good fs) :
    Yields (reportHere cause >>= fun _ => p) i ls after good (cause :: fs) := by
  refine ⟨h.value, h.rest, ?_⟩
  have hone : faults (reportHere cause ⟨i, ls ++ after⟩).found = [cause] := by
    simp [reportHere, bind_apply, Parser.look, report, Step.before, faults, hc]
  rw [bind_apply, Step.before, faults_append, hone]
  exact congrArg (cause :: ·) h.found

/-- A loop goes on through what a turn goes on through and what is left. -/
theorem of_goesOn {γ : Type} {loop next turn : Parser (List γ)} {one more both : List γ → Prop}
    (h : GoesOn loop next turn ⟨i, ls ++ (ms ++ after)⟩)
    (ht : Yields turn i ls (ms ++ after) one fs) (hn : Yields next (i + ls.length) ms after more gs)
    (hb : ∀ as bs, one as → more bs → both (as ++ bs)) :
    Yields loop i (ls ++ ms) after both (fs ++ gs) := by
  have heq := h.eq
  rw [ht.rest, ← List.append_assoc] at heq
  have hgood := hb _ _ ht.value hn.value
  have hfound := ht.found
  rw [← List.append_assoc] at hgood hfound
  constructor
  · rw [heq]
    exact hgood
  · rw [heq, List.length_append, ← Nat.add_assoc]
    exact hn.rest
  · rw [heq, Step.before, faults_append, hfound]
    exact congrArg (fs ++ ·) hn.found

/-- **What ends with a closer** and passes all its lexemes without a fault does so among others. -/
theorem of_closes {g : α → α} (hstart : after.head?.any (·.isPunct ";") = false)
    (hp : Frame.ClosesAt ⟨i, after, hstart⟩ g p p ⟨0, ls⟩)
    (hw : (p ⟨0, ls⟩).rest = ⟨ls.length, []⟩) (hf : hasFault (p ⟨0, ls⟩).found = false) :
    Yields p i ls after (· = g (p ⟨0, ls⟩).value) [] := by
  have heq : p ⟨i, ls ++ after⟩ = Frame.step ⟨i, after, hstart⟩ g (p ⟨0, ls⟩) := hp.eq hf
  refine ⟨by rw [heq]; rfl, ?_, ?_⟩
  · rw [heq, Frame.step, hw]
    rfl
  · rw [heq, Frame.step, faults_map_finding, faults_eq_nil.2 hf]

end Yields

/-! ### One using, one type -/

/-- Lexemes that are a using directive. -/
structure IsUsing (ls : List Lexeme) : Prop where
  starts : atUsing ⟨0, ls⟩ = true
  whole : (usingDirective ⟨0, ls⟩).rest = ⟨ls.length, []⟩
  faultless : hasFault (usingDirective ⟨0, ls⟩).found = false

/-- Lexemes that are the declaration of a type, with its attributes and modifiers. -/
structure IsType (ls : List Lexeme) : Prop where
  declares : (namespaceMember none ⟨0, ls⟩).value.isEmpty = false
  whole : (namespaceMember none ⟨0, ls⟩).rest = ⟨ls.length, []⟩
  faultless : hasFault (namespaceMember none ⟨0, ls⟩).found = false

instance (ls : List Lexeme) : Decidable (IsUsing ls) :=
  decidable_of_iff (_ ∧ _ ∧ _) ⟨fun ⟨hs, hw, hf⟩ => ⟨hs, hw, hf⟩, fun ⟨hs, hw, hf⟩ => ⟨hs, hw, hf⟩⟩

instance (ls : List Lexeme) : Decidable (IsType ls) :=
  decidable_of_iff (_ ∧ _ ∧ _) ⟨fun ⟨hd, hw, hf⟩ => ⟨hd, hw, hf⟩, fun ⟨hd, hw, hf⟩ => ⟨hd, hw, hf⟩⟩

/-- The namespace that a using imports. -/
def usingsOf (ls : List Lexeme) : List String :=
  (usingDirective ⟨0, ls⟩).value.filterMap (·.imported?)

/-- The type that is declared in the namespace `full`, its place left open. -/
def typesOf (full : String) (ls : List Lexeme) : List (TypeSymbol Unit) :=
  ((namespaceMember (some full) ⟨0, ls⟩).value.filterMap (·.type?)).map (·.unplaced)

/-- Items that are usings and types, whose places are left open. -/
structure Lists (usings : List String) (types : List (TypeSymbol Unit)) (items : List Item) :
    Prop where
  declares : Declares usings types items
  fileNamespaces : items.filterMap (·.fileNamespace?) = []

theorem Lists.append {us vs : List String} {ss ts : List (TypeSymbol Unit)} {items more : List Item}
    (h : Lists us ss items) (h' : Lists vs ts more) : Lists (us ++ vs) (ss ++ ts) (items ++ more) :=
  ⟨h.declares.append h'.declares, by rw [List.filterMap_append, h.fileNamespaces,
    h'.fileNamespaces, List.append_nil]⟩

theorem OnlyTypes.lists {ts : List (TypeSymbol Unit)} {items : List Item} (h : OnlyTypes ts items) :
    Lists [] ts items := ⟨h.declares, h.fileNamespace⟩

/-- A using imports one namespace. -/
theorem IsUsing.imports {ls : List Lexeme} (h : IsUsing ls) :
    ∃ name, (usingDirective ⟨0, ls⟩).value = [.imported name] ∧ usingsOf ls = [name] := by
  have hgives : ∃ name, (usingDirective ⟨0, ls⟩).value = [.imported name] :=
    (gives_placedUsing false ⟨0, ls⟩).resolve_right fun hf =>
      Bool.false_ne_true (h.faultless.symm.trans hf)
  obtain ⟨name, hname⟩ := hgives
  exact ⟨name, hname, by rw [usingsOf, hname]; rfl⟩

theorem IsUsing.yields {ls after : List Lexeme} (h : IsUsing ls) (i : Nat)
    (ha : after.head?.any (·.isPunct ";") = false) :
    Yields usingDirective i ls after (Lists (usingsOf ls) []) [] := by
  obtain ⟨name, hname, hlist⟩ := h.imports
  have hframe := Yields.of_closes (i := i) ha (Frame.closes_usingDirective _) h.whole h.faultless
  refine hframe.mono fun is his => ?_
  rw [his, hname, hlist]
  exact ⟨⟨rfl, rfl⟩, rfl⟩

/-! ### The namespace around a type -/

/-- A type that is declared in another namespace. -/
def Item.within (namespaceName : Option String) : Item → Item
  | .type t => .type { t with namespaceName }
  | i => i

theorem bind_map {α β γ : Type} {p : Parser α} {f : α → Parser γ} {g : α → Parser β} {k : β → γ}
    {c : Cursor} (h : f (p c).value (p c).rest = (g (p c).value (p c).rest).map k) :
    (p >>= f) c = ((p >>= g) c).map k := by
  rw [bind_apply, bind_apply, h]
  rfl

theorem ite_map {α β : Type} {b : Prop} [Decidable b] {p p' : Parser β} {q q' : Parser α}
    {k : α → β} {c : Cursor} (h : b → p c = (q c).map k) (h' : ¬b → p' c = (q' c).map k) :
    (if b then p else p') c = ((if b then q else q') c).map k := by
  split
  · exact h ‹_›
  · exact h' ‹_›

theorem delegateDeclaration_within (namespaceName : Option String) (c : Cursor) :
    delegateDeclaration namespaceName c
      = (delegateDeclaration none c).map (Option.map fun t => { t with namespaceName }) := by
  refine bind_map <| bind_map <| ite_map (fun _ => bind_map <| bind_map ?_) fun _ => rfl
  generalize name? _ = s
  cases s.value <;> rfl

theorem modifiedType_within (namespaceName : Option String) (mods : List String) (c : Cursor) :
    modifiedType namespaceName mods c
      = (modifiedType none mods c).map (List.map (Item.within namespaceName)) := by
  refine bind_map <| ite_map (fun _ => rfl) fun _ => bind_map <| ite_map (fun _ => ?_) fun _ => rfl
  show (delegateDeclaration namespaceName >>= fun o => pure (o.map Item.type).toList) c
    = ((delegateDeclaration none >>= fun o => pure (o.map Item.type).toList) c).map _
  rw [bindPure_apply, bindPure_apply, delegateDeclaration_within]
  cases hv : (delegateDeclaration none c).value <;> simp [Step.map, hv, Item.within]

/-- **The namespace around a type** is its namespace and nothing else. -/
theorem namespaceMember_within (namespaceName : Option String) (c : Cursor) :
    namespaceMember namespaceName c
      = (namespaceMember none c).map (List.map (Item.within namespaceName)) :=
  bind_map <| bind_map <| ite_map (fun _ => rfl) fun _ => bind_map <| modifiedType_within _ _ _

namespace IsType

variable {ls after : List Lexeme}

theorem atStop_eq (h : IsType ls) : Frame.atStop (attributes ⟨0, ls⟩).rest = false :=
  Bool.eq_false_iff.2 fun hs => by
    have hd := h.declares
    rw [Frame.namespaceMember_of_atStop none hs] at hd
    cases hd

/-- A type among other lexemes. -/
theorem closesAt (h : IsType ls) (f : Frame) (full : String) :
    f.ClosesAt (List.map f.item) (namespaceMember (some full)) (namespaceMember (some full))
      ⟨0, ls⟩ := Frame.closesAt_namespaceMember (some full) h.atStop_eq

theorem yields (h : IsType ls) (full : String) (i : Nat)
    (ha : after.head?.any (·.isPunct ";") = false) :
    Yields (namespaceMember (some full)) i ls after (Lists [] (typesOf full ls)) [] := by
  have hfull := namespaceMember_within (some full) ⟨0, ls⟩
  have hf : hasFault (namespaceMember (some full) ⟨0, ls⟩).found = false := by
    rw [hfull]
    exact h.faultless
  have hw : (namespaceMember (some full) ⟨0, ls⟩).rest = ⟨ls.length, []⟩ := by
    rw [hfull]
    exact h.whole
  have htypes : ∀ j ∈ (namespaceMember (some full) ⟨0, ls⟩).value,
      ∃ t, j = .type t ∧ t.namespaceName = some full :=
    (gives_namespaceMember (some full) ⟨0, ls⟩).resolve_right fun hn =>
      Bool.false_ne_true (hf.symm.trans hn)
  refine (Yields.of_closes ha (h.closesAt _ full) hw hf).mono fun is his => OnlyTypes.lists ?_
  rw [his, typesOf]
  generalize (namespaceMember (some full) ⟨0, ls⟩).value = items at htypes
  induction items with
  | nil => exact .nil
  | cons j items ih =>
    obtain ⟨⟨t, rfl, -⟩, hrest⟩ := List.forall_mem_cons.1 htypes
    exact (OnlyTypes.type (TypeSymbol.unplaced_map _ t)).append (ih hrest)

end IsType

/-! ### What a type starts with -/

/-- The words that a using starts with. -/
theorem head_of_atUsing {c : Cursor} (h : atUsing c = true) :
    ∃ i ls, c = ⟨i, ⟨.keyword, "using"⟩ :: ls⟩ ∨ c = ⟨i, ⟨.identifier, "global"⟩ :: ls⟩ := by
  obtain ⟨i, _ | ⟨⟨kind, text⟩, ls⟩⟩ := c
  · cases h
  · simp only [atUsing, Cursor.atKeyword, Cursor.atWord, Cursor.head?, List.head?_cons,
      Option.any_some, Lexeme.isKeyword, Lexeme.isWord, Bool.or_eq_true, Bool.and_eq_true,
      beq_iff_eq] at h
    rcases h with ⟨⟨rfl, rfl⟩, -⟩ | ⟨⟨rfl, rfl⟩, -⟩
    · exact ⟨i, ls, .inl rfl⟩
    · exact ⟨i, ls, .inr rfl⟩

/-- The words that an external alias starts with. -/
theorem heads_of_atAlias {c : Cursor} (h : atAlias c = true) :
    ∃ i ls, c = ⟨i, ⟨.keyword, "extern"⟩ :: ⟨.identifier, "alias"⟩ :: ls⟩ := by
  obtain ⟨i, _ | ⟨⟨kind, text⟩, _ | ⟨⟨kind', text'⟩, ls⟩⟩⟩ := c
  · cases h
  · simp [atAlias, Cursor.atWord, Cursor.next, Cursor.head?] at h
  · simp only [atAlias, Cursor.atKeyword, Cursor.atWord, Cursor.next, Cursor.head?,
      List.head?_cons, Option.any_some, Lexeme.isKeyword, Lexeme.isWord, Bool.and_eq_true,
      beq_iff_eq] at h
    obtain ⟨⟨rfl, rfl⟩, rfl, rfl⟩ := h
    exact ⟨i, ls, rfl⟩

/-- Neither a using nor an external alias is a type. -/
theorem hasFault_of_directive {c : Cursor} (h : (atUsing c || atAlias c) = true) :
    hasFault (namespaceMember none c).found = true := by
  rcases Bool.or_eq_true_iff.1 h with h | h
  · obtain ⟨i, ls, rfl | rfl⟩ := head_of_atUsing h
    all_goals exact Frame.hasFault_namespaceMember rfl rfl rfl rfl
  · obtain ⟨i, ls, rfl⟩ := heads_of_atAlias h
    exact Frame.hasFault_namespaceMember rfl rfl rfl rfl

theorem IsType.startDeclaration {ls after : List Lexeme} (h : IsType ls)
    (ha : after.head?.any (·.isPunct ";") = false) : StartDeclaration (ls ++ after) := by
  have hdirective : (atUsing ⟨0, ls⟩ || atAlias ⟨0, ls⟩) = false := Bool.eq_false_iff.2 fun hd =>
    Bool.false_ne_true (h.faultless.symm.trans (hasFault_of_directive hd))
  have hstop : Frame.atStop ⟨0, ls⟩ = false := by
    cases hs : Cursor.atPunct ⟨0, ls⟩ "[" with
    | true =>
      obtain ⟨-, -, hk, hb⟩ := Frame.not_at_of_atSquare hs
      rw [Frame.atStop, Cursor.atEnd_of_any hs, hk, hb]
      rfl
    | false =>
      have hattributes := h.atStop_eq
      rwa [Frame.attributes_of_not_atSquare hs] at hattributes
  have hf : hasFault (namespaceMember (some "") ⟨0, ls⟩).found = false := by
    rw [namespaceMember_within]
    exact h.faultless
  have sees (i : Nat) {k : Cursor → Bool} (hk : ∀ f : Frame, f.Sees k) :
      k ⟨i, ls ++ after⟩ = k ⟨0, ls⟩ := hk ⟨i, after, ha⟩ ⟨0, ls⟩ ((h.closesAt _ "").unseen hf)
  obtain ⟨hu, hx⟩ := Bool.or_eq_false_iff.1 hdirective
  obtain ⟨hs, hk⟩ := Bool.or_eq_false_iff.1 hstop
  obtain ⟨he, hb⟩ := Bool.or_eq_false_iff.1 hs
  exact ⟨fun i => (sees i fun _ => Frame.sees_atUsing).trans hu,
    fun i => (sees i fun _ => Frame.sees_atAlias).trans hx,
    fun i => (sees i fun _ => Frame.sees_atKeyword _).trans hk,
    fun i => (sees i fun _ => Frame.sees_atPunct _).trans hb,
    fun i => (sees i fun _ => Frame.sees_atEnd).trans he⟩

/-- Lexemes that do not start with a semicolon. -/
def NoSemicolon (ls : List Lexeme) : Prop := ls.head?.any (·.isPunct ";") = false

theorem NoSemicolon.append {ls ms : List Lexeme} (h : NoSemicolon ls) (h' : NoSemicolon ms) :
    NoSemicolon (ls ++ ms) := by
  cases ls with
  | nil => exact h'
  | cons l ls => exact h

theorem IsUsing.atUsing {ls after : List Lexeme} (h : IsUsing ls) (ha : NoSemicolon after)
    (i : Nat) : atUsing ⟨i, ls ++ after⟩ = true :=
  have hcloses := Frame.closes_usingDirective (f := ⟨i, after, ha⟩) ⟨0, ls⟩
  (Frame.sees_atUsing _ (hcloses.unseen h.faultless)).trans h.starts

theorem IsUsing.noSemicolon {ls : List Lexeme} (h : IsUsing ls) : NoSemicolon ls := by
  obtain ⟨i, ms, hc | hc⟩ := head_of_atUsing h.starts
  all_goals
    obtain ⟨-, rfl⟩ := Cursor.mk.inj hc
    rfl

theorem IsType.noSemicolon {ls : List Lexeme} (h : IsType ls) : NoSemicolon ls :=
  Bool.eq_false_iff.2 fun hs => by
    have hf := Frame.hasFault_of_atSemicolon (c := ⟨0, ls⟩) hs
    rw [h.faultless] at hf
    cases hf

/-! ### Part by part -/

/-- A loop passes some lexemes as a part of its own, wherever they stand. -/
structure PassesPart (loop turn : Bool → Parser (List Item)) (part : List Lexeme)
    (usings : List String) (types : List (TypeSymbol Unit)) (causes : List Cause) : Prop where
  starts : NoSemicolon part
  yields : ∀ late i after, NoSemicolon after →
    Yields (turn late) i part after (Lists usings types) causes
  goesOn : ∀ late i after, NoSemicolon after →
    ∃ anew, GoesOn (loop late) (loop anew) (turn late) ⟨i, part ++ after⟩

theorem noSemicolon_flatten {parts : List (List Lexeme)} (h : ∀ part ∈ parts, NoSemicolon part) :
    NoSemicolon parts.flatten := by
  induction parts with
  | nil => rfl
  | cons part parts ih =>
    exact (h part List.mem_cons_self).append (ih fun p hp => h p (List.mem_cons_of_mem part hp))

/-- **A loop passes its parts** one after the other, and leaves what each of them leaves. -/
theorem yields_parts {loop turn : Bool → Parser (List Item)} {us : List Lexeme → List String}
    {ss : List Lexeme → List (TypeSymbol Unit)} {fs : List Lexeme → List Cause}
    {parts : List (List Lexeme)} {ms after : List Lexeme} {vs : List String}
    {ts : List (TypeSymbol Unit)} {gs : List Cause}
    (hparts : ∀ part ∈ parts, PassesPart loop turn part (us part) (ss part) (fs part))
    (hms : NoSemicolon (ms ++ after))
    (hend : ∀ late i, Yields (loop late) i ms after (Lists vs ts) gs) (late : Bool) (i : Nat) :
    Yields (loop late) i (parts.flatten ++ ms) after
      (Lists (parts.flatMap us ++ vs) (parts.flatMap ss ++ ts)) (parts.flatMap fs ++ gs) := by
  induction parts generalizing late i with
  | nil => exact hend late i
  | cons part parts ih =>
    have hrest : ∀ p ∈ parts, PassesPart loop turn p (us p) (ss p) (fs p) :=
      fun p hp => hparts p (List.mem_cons_of_mem part hp)
    have hnext : NoSemicolon (parts.flatten ++ ms ++ after) := by
      rw [List.append_assoc]
      exact (noSemicolon_flatten fun p hp => (hrest p hp).starts).append hms
    obtain ⟨-, hturn, hgoes⟩ := hparts part List.mem_cons_self
    obtain ⟨anew, hgo⟩ := hgoes late i _ hnext
    have := Yields.of_goesOn hgo (hturn late i _ hnext) (ih hrest anew _)
      fun _ _ (h : Lists _ _ _) (h' : Lists _ _ _) => h.append h'
    simpa only [List.flatten_cons, List.flatMap_cons, List.append_assoc] using this

section

variable {ls : List Lexeme} (full : String)

theorem not_atClose_of_atUsing {c : Cursor} (h : atUsing c = true) :
    (c.atPunct "\x7d" || c.atEnd) = false := by
  obtain ⟨i, ls, rfl | rfl⟩ := head_of_atUsing h <;> rfl

/-- A file goes on in its namespace after what declares none. -/
theorem goesOn_fileItems_within {c : Cursor} (he : c.atEnd = false)
    (hn : (fileItem (some full) true c).value.filterMap (·.fileNamespace?) = []) :
    GoesOn (fileItems (some full) true) (fileItems (some full) true) (fileItem (some full) true)
      c := by
  have hgo := goesOn_fileItems (some full) true he
  rwa [hn] at hgo

theorem IsUsing.passes_block (h : IsUsing ls) :
    PassesPart (fun _ => namespaceItems full false) (fun _ => namespaceTurn full false) ls
      (usingsOf ls) [] [] where
  starts := h.noSemicolon
  yields _ i after ha := by
    refine .of_here ?_ (h.yields i ha)
    unfold namespaceTurn namespaceItem
    rw [h.atUsing ha i]
    rfl
  goesOn _ i after ha := by
    have hat := h.atUsing ha i
    have hgo := goesOn_namespaceItems full false (not_atClose_of_atUsing hat)
    rw [hat] at hgo
    exact ⟨false, hgo⟩

theorem IsType.passes_block (h : IsType ls) :
    PassesPart (namespaceItems full) (namespaceTurn full) ls [] (typesOf full ls) [] where
  starts := h.noSemicolon
  yields late i after ha := by
    have hstart := h.startDeclaration ha
    refine .of_here ?_ (h.yields full i ha)
    unfold namespaceTurn namespaceItem
    rw [hstart.atUsing, hstart.atNamespace]
    rfl
  goesOn late i after ha :=
    have hstart := h.startDeclaration ha
    ⟨_, goesOn_namespaceItems full late (by rw [hstart.atPunct, hstart.atEnd]; rfl)⟩

theorem IsUsing.yields_fileItem (h : IsUsing ls) (i : Nat) {after : List Lexeme}
    (ha : NoSemicolon after) :
    Yields (fileItem (some full) true) i ls after (Lists (usingsOf ls) []) [.lateUsing] := by
  refine .of_here ?_ (Yields.reported rfl (h.yields i ha))
  unfold fileItem
  rw [h.atUsing ha i]
  rfl

theorem IsType.yields_fileItem (h : IsType ls) (i : Nat) {after : List Lexeme}
    (ha : NoSemicolon after) :
    Yields (fileItem (some full) true) i ls after (Lists [] (typesOf full ls)) [] := by
  have hstart := h.startDeclaration ha
  refine .of_here ?_ (h.yields full i ha)
  unfold fileItem
  rw [hstart.atUsing, hstart.atAlias, hstart.atNamespace, hstart.atPunct]
  rfl

/-- After a file-scoped namespace each using is a fault. -/
theorem IsUsing.passes_file (h : IsUsing ls) :
    PassesPart (fun _ => fileItems (some full) true) (fun _ => fileItem (some full) true) ls
      (usingsOf ls) [] [.lateUsing] where
  starts := h.noSemicolon
  yields _ i _ ha := h.yields_fileItem full i ha
  goesOn _ i _ ha :=
    have he := (Bool.or_eq_false_iff.1 (not_atClose_of_atUsing (h.atUsing ha i))).2
    ⟨true, goesOn_fileItems_within full he (h.yields_fileItem full i ha).value.fileNamespaces⟩

theorem IsType.passes_file (h : IsType ls) :
    PassesPart (fun _ => fileItems (some full) true) (fun _ => fileItem (some full) true) ls []
      (typesOf full ls) [] where
  starts := h.noSemicolon
  yields _ i _ ha := h.yields_fileItem full i ha
  goesOn _ i _ ha :=
    have hstart := h.startDeclaration ha
    ⟨true, goesOn_fileItems_within full (hstart.atEnd i)
      (h.yields_fileItem full i ha).value.fileNamespaces⟩

end

theorem flatMap_nothing {α β : Type} (as : List α) : as.flatMap (fun _ => ([] : List β)) = [] :=
  List.flatMap_eq_nil_iff.2 fun _ _ => rfl

section

variable {names : List String} {usings types : List (List Lexeme)}
  (hu : ∀ part ∈ usings, IsUsing part) (ht : ∀ part ∈ types, IsType part)

include hu ht

/-- Usings and types in the block of a namespace. -/
theorem yields_namespaceItems (full : String) (i : Nat) :
    Yields (namespaceItems full false) i (usings.flatten ++ (types.flatten ++ [mark "\x7d"])) []
      (Lists (usings.flatMap usingsOf) (types.flatMap (typesOf full))) [] := by
  have hend (late : Bool) (j : Nat) :
      Yields (namespaceItems full late) j [mark "\x7d"] [] (Lists [] []) [] :=
    (Yields.of_accepts (accepts_namespaceEnd full late j rfl)).mono fun _ h => h.lists
  have hbrace : NoSemicolon ([mark "\x7d"] ++ []) := rfl
  have htypes := yields_parts (fun part hp => (ht part hp).passes_block full) hbrace hend
  have hnext : NoSemicolon (types.flatten ++ [mark "\x7d"] ++ []) := by
    rw [List.append_assoc]
    exact (noSemicolon_flatten fun p hp => (ht p hp).noSemicolon).append rfl
  have := yields_parts (fun part hp => (hu part hp).passes_block full) hnext
    (fun _ j => htypes false j) false i
  simpa [flatMap_nothing] using this

/-- Usings and types after a file-scoped namespace. -/
theorem yields_fileItems (full : String) (i : Nat) :
    Yields (fileItems (some full) true) i (usings.flatten ++ types.flatten) []
      (Lists (usings.flatMap usingsOf) (types.flatMap (typesOf full)))
      (usings.map fun _ => .lateUsing) := by
  have hend (_ : Bool) (j : Nat) :
      Yields (fileItems (some full) true) j [] [] (Lists [] []) [] :=
    (Yields.of_accepts (accepts_fileEnd (some full) true j)).mono fun _ h => h.lists
  have hnone : NoSemicolon ([] ++ []) := rfl
  have htypes := yields_parts (fun part hp => (ht part hp).passes_file full) hnone hend
  have hnext : NoSemicolon (types.flatten ++ [] ++ []) := by
    rw [List.append_nil, List.append_nil]
    exact noSemicolon_flatten fun p hp => (ht p hp).noSemicolon
  have := yields_parts (fun part hp => (hu part hp).passes_file full) hnext
    htypes true i
  simpa [flatMap_nothing, List.map_eq_flatMap] using this

variable (hn : names ≠ [])

include hn

/-- **Usings and types in a namespace with a block** are passed without a fault. -/
theorem yields_blockForm (i : Nat) : Yields (fileItems none false) i
    (.word "namespace" :: (dotted names
      ++ grouped .brace (usings.flatten ++ types.flatten))) []
    (Declares (usings.flatMap usingsOf) (types.flatMap (typesOf (".".intercalate names)))) [] := by
  have hblock (j : Nat) : Accepts .harmless (namespaceItems (".".intercalate names) false) j
      (usings.flatten ++ types.flatten ++ [mark "\x7d"]) []
      (Lists (usings.flatMap usingsOf) (types.flatMap (typesOf (".".intercalate names)))) := by
    have := (yields_namespaceItems hu ht (".".intercalate names) j).accepts
    rwa [← List.append_assoc] at this
  have hitem := Accepts.of_here (fileItem_namespace none false i _)
    (accepts_blockNamespace hn (.file false false) hblock i)
  have hgo := goesOn_fileItems none false (c := ⟨i, .word "namespace" :: (dotted names
    ++ grouped .brace (usings.flatten ++ types.flatten)) ++ []⟩) rfl
  rw [hitem.value.fileNamespaces] at hgo
  have := Accepts.of_goesOn hgo hitem (accepts_fileEnd none _ _)
    fun as bs ha hb => ha.declares.append hb.declares
  exact .of_accepts (by simpa using this)

/-- **Usings and types after a file-scoped namespace** are the same, and each using is a fault. -/
theorem yields_fileForm (i : Nat) : Yields (fileItems none false) i
    (.word "namespace" :: (dotted names ++ mark ";" :: (usings.flatten ++ types.flatten))) []
    (Declares (usings.flatMap usingsOf) (types.flatMap (typesOf (".".intercalate names))))
    (usings.map fun _ => .lateUsing) := by
  have := Yields.of_goesOn (goesOn_fileScope hn i _) (.of_accepts (accepts_fileScope hn i _))
    (yields_fileItems hu ht (".".intercalate names) _) fun as bs ha (hb : Lists _ _ _) =>
      ha ▸ Declares.append (.scope (".".intercalate names)) hb.declares
  simpa using this

end

end Parser
end Outline
