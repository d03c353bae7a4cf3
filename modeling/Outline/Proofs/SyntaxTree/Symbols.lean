/-
# The symbols of a tree

Every type of a tree, at any depth, stands where its name does, and in the order in which they are
read, each before those nested in it, they stand further and further on.  What is known of a type
without errors is known of all types of a tree without errors.

| type | stands at |
| --- | --- |
| with a name | the name, or the `@` before it |
| without a name | the end of the word that declares it, before the token after it ends |
-/

import Outline.Proofs.Compiler.EntryPoint
import Outline.Proofs.Parser.Symbols
import Outline.Proofs.SyntaxTree.Names

namespace Outline

namespace TypeSymbol

variable {P Q : Type}

/-- What is known of a type without faults: it has a name, and so have its members; what is nested
in it has no namespace; and an enum has static constants and nothing else. -/
structure IsComplete (t : TypeSymbol P) : Prop where
  name : t.name ≠ ""
  members : ∀ m ∈ t.members, m.name ≠ ""
  nested : ∀ u ∈ t.nested, u.namespaceName = none
  enum : t.kind = .enum →
    t.nested = [] ∧ ∀ m ∈ t.members, m.kind = .enumMember ∧ m.isStatic = true

/-! ### Types at any depth -/

mutual

theorem sites_map (f : P → Q) : ∀ t : TypeSymbol P,
    (t.map f).sites = t.sites.map fun x => (x.1, f x.2)
  | ⟨_, _, _, _, _, _, nested, _⟩ => by
    rw [map, sites, sites, List.map_cons, allSites_mapAll f nested]

theorem allSites_mapAll (f : P → Q) : ∀ ts : List (TypeSymbol P),
    allSites (mapAll f ts) = (allSites ts).map fun x => (x.1, f x.2)
  | [] => rfl
  | t :: ts => by
    rw [mapAll, allSites, allSites, List.map_append, sites_map f t, allSites_mapAll f ts]

end

theorem IsComplete.map {t : TypeSymbol P} (f : P → Q) (h : t.IsComplete) :
    (t.map f).IsComplete where
  name := by
    rw [name_map]
    exact h.name
  members := by
    rw [members_map]
    exact h.members
  nested := by
    rw [nested_map]
    refine List.forall_mem_map.2 fun u hu => ?_
    rw [namespaceName_map]
    exact h.nested u hu
  enum hkind := by
    rw [kind_map] at hkind
    obtain ⟨hnested, hmembers⟩ := h.enum hkind
    rw [nested_map, hnested, members_map]
    exact ⟨rfl, hmembers⟩

/-- What is nested in a type with its places mapped is nested in the type. -/
theorem Within.exists_of_map {f : P → Q} {u : TypeSymbol Q} {t : TypeSymbol P}
    (h : u.Within (t.map f)) : ∃ v : TypeSymbol P, v.Within t ∧ v.map f = u := by
  generalize ht : t.map f = t' at h
  induction h generalizing t with
  | refl => exact ⟨t, .refl t, ht⟩
  | nested hv _ ih =>
    subst ht
    rw [nested_map] at hv
    obtain ⟨w, hw, rfl⟩ := List.mem_map.1 hv
    obtain ⟨v, hvw, hvu⟩ := ih rfl
    exact ⟨v, .nested hw hvw, hvu⟩

theorem sites_subset_allSites {t : TypeSymbol P} {ts : List (TypeSymbol P)} (h : t ∈ ts) :
    t.sites ⊆ allSites ts := by
  induction ts with
  | nil => cases h
  | cons u ts ih =>
    rw [allSites]
    rcases List.mem_cons.1 h with rfl | h
    · exact List.subset_append_left _ _
    · exact fun x hx => List.mem_append_right _ (ih h hx)

/-- A type is at one of the sites of every type that it is nested in. -/
theorem Within.mem_sites {t u : TypeSymbol P} (h : u.Within t) : (u.name, u.place) ∈ t.sites := by
  induction h with
  | refl t =>
    rw [sites_eq]
    exact List.mem_cons_self
  | nested hv _ ih =>
    rw [sites_eq]
    exact List.mem_cons_of_mem _ (sites_subset_allSites hv ih)

mutual

theorem exists_of_mem_sites {x : String × P} : ∀ t : TypeSymbol P, x ∈ t.sites →
    ∃ u : TypeSymbol P, u.Within t ∧ x = (u.name, u.place)
  | ⟨a, b, c, d, e, m, nested, p⟩, h => by
    rw [sites] at h
    rcases List.mem_cons.1 h with rfl | h
    · exact ⟨_, .refl _, rfl⟩
    · obtain ⟨v, hv, u, hu, hx⟩ := exists_of_mem_allSites nested h
      exact ⟨u, .nested hv hu, hx⟩

theorem exists_of_mem_allSites {x : String × P} : ∀ ts : List (TypeSymbol P), x ∈ allSites ts →
    ∃ t ∈ ts, ∃ u : TypeSymbol P, u.Within t ∧ x = (u.name, u.place)
  | [], h => absurd h List.not_mem_nil
  | t :: ts, h => by
    rw [allSites] at h
    rcases List.mem_append.1 h with h | h
    · exact ⟨t, List.mem_cons_self, exists_of_mem_sites t h⟩
    · obtain ⟨v, hv, hu⟩ := exists_of_mem_allSites ts h
      exact ⟨v, List.mem_cons_of_mem t hv, hu⟩

end

end TypeSymbol

namespace Parser

/-- What is nested in a well-formed type is well-formed. -/
theorem WellFormed.within {all : List Lexeme} {t u : Declared} (h : WellFormed all t)
    (hu : u.Within t) : WellFormed all u := by
  induction hu with
  | refl => exact h
  | nested hv _ ih =>
    cases h with
    | intro _ _ _ _ hnested => exact ih (hnested _ hv)

end Parser

namespace SyntaxTree

open Outline.Language (Version)
open Outline.Parser (Edge Declared WellFormed StandsAt NamesAll itemTypes parseFile hasFault
  wellFormed_parseFile)
open TypeSymbol (allSites)
open Slice (slice?)

/-! ### Order -/

theorem exists_token {text : String} {i : Nat} (h : i < (lexemes text).length) :
    ∃ t, (tokens text)[i]? = some t ∧ t.span.start < t.span.stop := by
  have hlt : i < (tokens text).length := by rwa [← map_lexeme_tokens, List.length_map] at h
  exact ⟨_, List.getElem?_eq_getElem hlt, (token_spec (List.getElem_mem hlt)).1⟩

theorem stop_le_start {text : String} {i j : Nat} {t u : Token} (h : i < j)
    (ht : (tokens text)[i]? = some t) (hu : (tokens text)[j]? = some u) :
    t.span.stop ≤ u.span.start := by
  obtain ⟨hi, rfl⟩ := List.getElem?_eq_some_iff.1 ht
  obtain ⟨hj, rfl⟩ := List.getElem?_eq_some_iff.1 hu
  exact List.pairwise_iff_getElem.1 (pairwise_tokens text) i j hi hj h

/-- An edge where a type may stand is before one of a later token. -/
theorem edgeOffset_lt_of_token_lt {text : String} {e e' : Edge} (h : e.token < e'.token)
    (he : StandsAt (lexemes text) e) (he' : StandsAt (lexemes text) e') :
    edgeOffset (spans text) text.utf8ByteSize e
      < edgeOffset (spans text) text.utf8ByteSize e' := by
  obtain ⟨t, ht, htlt⟩ := exists_token he.token_lt
  obtain ⟨u, hu, hult⟩ := exists_token he'.token_lt
  have hle := stop_le_start h ht hu
  have hfirst := edgeOffset_of_getElem? ht
  have hlater := edgeOffset_of_getElem? hu
  cases e with
  | start i =>
    have hstart : edgeOffset (spans text) text.utf8ByteSize (.start i) = t.span.start := by
      have hi : (tokens text)[i]? = some t := ht
      simp [edgeOffset, spans, hi]
    omega
  | stop i =>
    cases e' with
    | stop j =>
      have hstop : edgeOffset (spans text) text.utf8ByteSize (.stop j) = u.span.stop := by
        have hj : (tokens text)[j]? = some u := hu
        simp [edgeOffset, spans, hj]
      omega
    | start j =>
      -- no name follows the word of a type without a name, so there is a token in between
      obtain ⟨l, hl, hn⟩ := he'
      have hne : j ≠ i + 1 := by
        rintro rfl
        rw [he.2 l hl] at hn
        cases hn
      have hij : i + 1 < j := Nat.lt_of_le_of_ne h (Ne.symm hne)
      obtain ⟨v, hv, hvlt⟩ :=
        exists_token (Nat.lt_trans hij (List.getElem?_eq_some_iff.1 hl).1)
      have hbefore := stop_le_start (Nat.lt_succ_self i) ht hv
      have hafter := stop_le_start hij hv hu
      omega

theorem namesAll_lexemes (text : String) : NamesAll (lexemes text) := by
  intro l hl hn htext
  have := isIdentifier_of_mem_lexemes hl hn
  rw [htext] at this
  cases this

theorem wellFormed_lexemes (text : String) :
    ∀ t ∈ itemTypes (parseFile (lexemes text)).value, WellFormed (lexemes text) t :=
  wellFormed_parseFile (namesAll_lexemes text)

/-- The sites of a tree are those that are declared, with their edges turned into offsets. -/
theorem allSites_types (version : Version) (s : Source) : allSites (parse version s).types
    = (allSites (itemTypes (parseFile (lexemes s.text)).value)).map fun x =>
        (x.1, edgeOffset (spans s.text) s.text.utf8ByteSize x.2) := by
  rw [types_eq, ← TypeSymbol.mapAll_eq_map, TypeSymbol.allSites_mapAll]

theorem standsAt_of_mem_allSites {text : String} {x : String × Edge}
    (h : x ∈ allSites (itemTypes (parseFile (lexemes text)).value)) :
    StandsAt (lexemes text) x.2 := by
  obtain ⟨t, ht, u, hu, rfl⟩ := TypeSymbol.exists_of_mem_allSites _ h
  cases (wellFormed_lexemes text t ht).within hu with
  | intro hplace => exact hplace

/-- **The types of a tree stand further and further on**, each before those nested in it. -/
theorem pairwise_sites (version : Version) (s : Source) :
    (allSites (parse version s).types).Pairwise fun x y => x.2 < y.2 := by
  rw [allSites_types, List.pairwise_map]
  refine (sited_parseFile (lexemes s.text)).ordered.imp_of_mem fun hx hy h => ?_
  exact edgeOffset_lt_of_token_lt h (standsAt_of_mem_allSites hx) (standsAt_of_mem_allSites hy)

/-! ### Names -/

/-- A token that is a name is spelled as the name, or with the prefix. -/
theorem slice?_name {text : String} {k : Token} {name : String} (hk : k ∈ tokens text)
    (hname : k.lexeme = .name name) :
    slice? text k.span.start (k.span.start + name.utf8ByteSize) = some name ∨
      slice? text k.span.start (k.span.start + ("@" ++ name).utf8ByteSize)
        = some ("@" ++ name) := by
  obtain ⟨p, hl, hstands⟩ := exists_of_mem_tokens hk
  have hstop : k.span.stop = k.span.start + (String.ofList p.text).utf8ByteSize := by
    obtain ⟨before, after, -, hspan⟩ := hstands
    rw [hspan, Slice.utf8ByteSize_ofList, byteSize_append]
  have hslice := hstands.slice?
  rw [hstop] at hslice
  have hlexeme : k.lexeme.text = name := by rw [hname, Lexeme.name]
  rcases Lexer.lexeme?_text hl with htext | htext
  · left
    rwa [htext, hlexeme, String.ofList_toList] at hslice
  · right
    have hat : String.ofList p.text = "@" ++ name := by
      rw [htext, hlexeme, ← String.toList_inj]
      simp
    rwa [hat] at hslice

/-- **The name of a type stands at its place.** -/
theorem slice?_site {version : Version} {s : Source} {x : String × Nat}
    (h : x ∈ allSites (parse version s).types) (hname : x.1 ≠ "") :
    slice? s.text x.2 (x.2 + x.1.utf8ByteSize) = some x.1 ∨
      slice? s.text x.2 (x.2 + ("@" ++ x.1).utf8ByteSize) = some ("@" ++ x.1) := by
  rw [allSites_types] at h
  obtain ⟨y, hy, rfl⟩ := List.mem_map.1 h
  obtain ⟨k, hk, hlexeme, hoffset⟩ := exists_nameToken_of_site hy hname
  rw [hoffset]
  exact slice?_name hk hlexeme

/-! ### Trees without errors -/

/-- **The types of a tree without errors are complete**, at any depth. -/
theorem isComplete_of_hasErrors {version : Version} {s : Source} {t u : TypeSymbol Nat}
    (ht : t ∈ (parse version s).types) (hu : u.Within t)
    (he : (parse version s).hasErrors = false) : u.IsComplete := by
  rw [types_eq] at ht
  obtain ⟨d, hd, rfl⟩ := List.mem_map.1 ht
  obtain ⟨v, hv, rfl⟩ := hu.exists_of_map
  have hsite := TypeSymbol.sites_subset_allSites hd hv.mem_sites
  have hname : v.name ≠ "" := by
    rcases (sited_parseFile _).named _ hsite with hahead | hmissing
    · intro hempty
      have := isIdentifier_of_standsAhead hahead
      rw [hempty] at this
      cases this
    · exact absurd ((hasFault_lexemes he).symm.trans hmissing.2) Bool.false_ne_true
  cases (wellFormed_lexemes s.text d hd).within hv with
  | intro _ hmembers henum hglobal _ => exact .map _ ⟨hname, hmembers, hglobal, henum⟩

/-- **The types of a tree are placed.**  For every version and source: the types of the tree, each
before those nested in it, stand further and further on; what has a name stands where its name
does, or the `@` before it; and if there are no errors, then all types and members have names, what
is nested in a type has no namespace, and an enum has static constants and nothing else. -/
theorem types_placed (version : Version) (s : Source) :
    (allSites (parse version s).types).Pairwise (fun x y => x.2 < y.2) ∧
    (∀ x ∈ allSites (parse version s).types, x.1 ≠ "" →
      slice? s.text x.2 (x.2 + x.1.utf8ByteSize) = some x.1 ∨
        slice? s.text x.2 (x.2 + ("@" ++ x.1).utf8ByteSize) = some ("@" ++ x.1)) ∧
    ((parse version s).hasErrors = false →
      ∀ t ∈ (parse version s).types, ∀ u : TypeSymbol Nat, u.Within t → u.IsComplete) :=
  ⟨pairwise_sites version s, fun _ => slice?_site, fun he _ ht _ hu =>
    isComplete_of_hasErrors ht hu he⟩

/-- A type in a namespace with a type and an enum nested in it, one of them named by a reserved
word. -/
def nestedSource : Source := ⟨"namespace N { class A { class @if { int x; } enum E { X } } }", 0⟩

/-- The hypotheses of `types_placed` are satisfiable, and `@if` is named at the `@`. -/
theorem types_placed_nestedSource :
    allSites (parse .latest nestedSource).types = [("A", 20), ("if", 30), ("E", 50)] ∧
    (slice? nestedSource.text 30 32 = some "if" ∨ slice? nestedSource.text 30 33 = some "@if") ∧
    (parse .latest nestedSource).hasErrors = false ∧
    ∀ t ∈ (parse .latest nestedSource).types, ∀ u : TypeSymbol Nat, u.Within t →
      u.IsComplete := by
  have hsites : allSites (parse .latest nestedSource).types
      = [("A", 20), ("if", 30), ("E", 50)] := by decide +kernel
  have herrors : (parse .latest nestedSource).hasErrors = false := by decide +kernel
  obtain ⟨-, hnames, hcomplete⟩ := types_placed .latest nestedSource
  exact ⟨hsites, hnames ("if", 30) (by rw [hsites]; decide) (by decide), herrors,
    hcomplete herrors⟩

end SyntaxTree
end Outline
