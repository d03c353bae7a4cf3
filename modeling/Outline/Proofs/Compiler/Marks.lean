/-
# What reports of repeated types mark

A type that repeats another one is reported where its name stands, over as many bytes as the name
has.  A name that is written after `@` is one byte shorter than what stands there, so the mark ends
one byte before its token does.  If the last character takes more bytes than one, this is inside
of the character.

| written | name | marked | ends between characters |
| --- | --- | --- | --- |
| `Box` | `Box` | `Box` | yes |
| `@Box` | `Box` | `@Bo` | yes |
| `@é` | `é` | `@` and half of `é` | no |

No phase but the check reports repeated types, and it sees all trees or none
(`Compilation.Underway`), so this holds for phases in any order.
-/

import Mathlib.Data.List.Induction
import Outline.Proofs.Compiler.Codes
import Outline.Proofs.Compiler.Duplicates

namespace Outline

open Outline.Language (Version)
open Slice (OnBoundary slice? slice?_append onBoundary_iff)

/-! ### Marks -/

/-- A location marks a name of a source as far as the characters of the name go: it starts where
the token of the name does. -/
structure Location.MarksName (l : Location) (s : Source) (name : String) (k : Token) : Prop where
  source : l.source = s.index
  token : k ∈ tokens s.text
  named : k.lexeme = .name name
  start : l.offset = k.span.start
  /-- The token is the name, and all of it is marked, or the name after `@`, and all but one byte
  of it is. -/
  spelled : (slice? s.text k.span.start k.span.stop = some name ∧
      l.offset + l.length = k.span.stop) ∨
    (slice? s.text k.span.start k.span.stop = some ("@" ++ name) ∧
      l.offset + l.length + 1 = k.span.stop)
  /-- The mark ends between characters if it ends with the token, or if the last character of the
  name takes one byte. -/
  boundary : OnBoundary s.text (l.offset + l.length) ↔
    l.offset + l.length = k.span.stop ∨ ∀ c ∈ name.toList.getLast?, c.utf8Size = 1

/-- An offset inside of a character is on no boundary. -/
theorem Slice.not_onBoundary_inside {before after : List Char} {c : Char} {i : Nat}
    (hlt : byteSize before < i) (hle : i < byteSize before + c.utf8Size) :
    ¬OnBoundary (String.ofList (before ++ c :: after)) i := by
  intro h
  obtain ⟨left, right, htext, rfl⟩ := onBoundary_iff.1 h
  have hlist := congrArg String.toList htext
  rw [String.toList_ofList, String.toList_ofList] at hlist
  rcases List.append_eq_append_iff.1 hlist with ⟨more, rfl, hmore⟩ | ⟨more, rfl, hmore⟩
  · -- the offset is past the text before the character, so the character is before it
    cases more with
    | nil => simp at hlt
    | cons d more =>
      obtain rfl := (List.cons.inj hmore).1
      simp only [byteSize_append, byteSize_cons] at hle
      omega
  · rw [byteSize_append] at hlt
    omega

/-- Where a name ends that starts one byte early, at the sign before it: between characters if its
last character takes one byte. -/
theorem Slice.onBoundary_early_iff (before name after : List Char) :
    OnBoundary (String.ofList (before ++ '@' :: name ++ after)) (byteSize (before ++ name)) ↔
      ∀ c ∈ name.getLast?, c.utf8Size = 1 := by
  rcases List.eq_nil_or_concat name with rfl | ⟨init, c, rfl⟩
  · refine iff_of_true ?_ fun c hc => by cases hc
    exact onBoundary_iff.2 ⟨before, '@' :: after, by simp, by simp⟩
  · have hsplit : before ++ '@' :: (init.concat c) ++ after
        = before ++ '@' :: init ++ c :: after := by simp
    have hend : byteSize (before ++ init.concat c) + 1
        = byteSize (before ++ '@' :: init) + c.utf8Size := by
      simp only [List.concat_eq_append, byteSize_append, byteSize_cons, byteSize_nil]
      have : '@'.utf8Size = 1 := rfl
      omega
    have hpos := c.utf8Size_pos
    rw [hsplit, List.concat_eq_append, List.getLast?_concat]
    rw [List.concat_eq_append] at hend
    constructor
    · intro h d hd
      obtain rfl := Option.some.inj hd
      by_contra hwide
      exact not_onBoundary_inside (by omega) (by omega) h
    · intro hone
      have hc := hone c rfl
      exact onBoundary_iff.2 ⟨before ++ '@' :: init, c :: after, rfl, by omega⟩

/-- **The mark of a name** that stands on a token, as many bytes as the name has. -/
theorem Source.marksName {s : Source} {name : String} {k : Token} (hk : k ∈ tokens s.text)
    (hname : k.lexeme = .name name) :
    (s.location k.span.start name.utf8ByteSize).MarksName s name k := by
  obtain ⟨p, hl, before, after, htext, hspan⟩ := exists_of_mem_tokens hk
  obtain ⟨text, index⟩ := s
  obtain rfl : text = String.ofList (before ++ p.text ++ after) := by
    rw [← htext, String.ofList_toList]
  have hstart : k.span.start = byteSize before := by rw [hspan]
  have hstop : k.span.stop = byteSize (before ++ p.text) := by rw [hspan]
  have hslice := slice?_append before p.text after
  have hsize := Slice.byteSize_toList name
  have hend : k.span.start + name.utf8ByteSize = byteSize (before ++ name.toList) := by
    rw [byteSize_append, hsize, ← hstart]
  have hlexeme : k.lexeme.text = name := by rw [hname]; rfl
  have htoken := Lexer.lexeme?_text hl
  rw [hlexeme] at htoken
  rcases htoken with hp | hp
  · have hwhole : k.span.start + name.utf8ByteSize = k.span.stop := by rw [hend, hstop, hp]
    refine ⟨rfl, hk, hname, rfl, .inl ⟨?_, hwhole⟩, iff_of_true ?_ (.inl hwhole)⟩
    · rw [hstart, hstop, hslice, hp, String.ofList_toList]
    · show OnBoundary _ (k.span.start + name.utf8ByteSize)
      rw [hend, ← hp]
      exact onBoundary_iff.2 ⟨before ++ p.text, after, rfl, rfl⟩
  · have hshort : k.span.start + name.utf8ByteSize + 1 = k.span.stop := by
      rw [hend, hstop, hp, byteSize_append, byteSize_append, byteSize_cons]
      have : '@'.utf8Size = 1 := rfl
      omega
    have hne : k.span.start + name.utf8ByteSize ≠ k.span.stop := by omega
    refine ⟨rfl, hk, hname, rfl, .inr ⟨?_, hshort⟩, ?_⟩
    · rw [hstart, hstop, hslice, hp, String.ofList_cons, String.ofList_toList]
      rfl
    · refine Iff.trans ?_ (or_iff_right hne).symm
      show OnBoundary _ (k.span.start + name.utf8ByteSize) ↔ _
      rw [hend, hp]
      exact Slice.onBoundary_early_iff before name.toList after

namespace Compilation

variable {σ : Type} {disk : Disk (StateM σ)} {finder : Finder (StateM σ)} {profile : Profile}
  {sources : List String} {output : Option Path}

/-! ### Reports of repeated types -/

/-- What is reported of types that are declared twice. -/
def repeatReports (c : Compilation) : List Diagnostic := c.diagnostics.filter (·.code == "CS0101")

theorem repeatReports_report {c : Compilation} {ds : List Diagnostic}
    (h : ∀ d ∈ ds, (d.code == "CS0101") = false) :
    (c.report ds).repeatReports = c.repeatReports := by
  rw [repeatReports, report, List.filter_append,
    List.filter_eq_nil_iff.2 fun d hd => Bool.eq_false_iff.1 (h d hd), List.append_nil]
  rfl

/-- **No phase but the check reports repeated types.** -/
theorem repeatReports_run (c : Compilation) (next : Phase) (s : σ) :
    (c.run disk finder next s).1.repeatReports
      = c.repeatReports ++ if next = .declare then duplicates [] c.declarations else [] := by
  cases next with
  | parse =>
    have hsources : (c.report (c.parsed.flatMap (·.diagnostics))).repeatReports = c.repeatReports :=
      repeatReports_report fun d hd => Diagnostic.isOfSource_ne (isOfSource_parsed hd) rfl
    rw [if_neg (by decide), List.append_nil]
    exact hsources
  | references =>
    have hmissing : ∀ d ∈ (References.resolve finder c.profile.references c.profile.anchors
        s).1.diagnostics, (d.code == "CS0101") = false := fun d hd => by
      rw [References.code_resolve hd]
      decide
    rw [if_neg (by decide), List.append_nil]
    exact repeatReports_report hmissing
  | declare =>
    have hall : (duplicates [] c.declarations).filter (·.code == "CS0101")
        = duplicates [] c.declarations := List.filter_eq_self.2 fun d hd => by
      obtain ⟨_, _, rfl⟩ := exists_of_mem_duplicates hd
      rfl
    have hentry : (if c.lacksEntryPoint then [noEntryPoint] else []).filter (·.code == "CS0101")
        = [] := by cases c.lacksEntryPoint <;> rfl
    have hchecks : c.checks.filter (·.code == "CS0101") = duplicates [] c.declarations := by
      rw [checks, List.filter_append, hall, hentry, List.append_nil]
    rw [if_pos rfl, ← hchecks]
    exact List.filter_append _ _
  | emit =>
    rw [if_neg (by decide), List.append_nil, run]
    rcases c.emit_cases disk s with ⟨-, h⟩ | ⟨-, h⟩ | ⟨p, e, -, h⟩
    · rw [h]
    · rw [h]
      rfl
    · rw [h]
      exact repeatReports_report fun d hd => by
        rw [List.mem_singleton.1 hd]
        rfl

/-! ### Runs -/

/-- A compilation of sources that may have gone through some phases: none of the sources is
parsed, or all of them are. -/
structure Underway (given : Profile) (texts : List String) (c : Compilation) : Prop where
  profile : c.profile = given
  parsed : (c.sources = texts ∧ c.trees = []) ∨
    (c.sources = [] ∧ c.trees = (start given texts none).parsed)

theorem Underway.start : Underway profile sources (start profile sources output) :=
  ⟨rfl, .inl ⟨rfl, rfl⟩⟩

theorem Underway.parse {c : Compilation} (h : Underway profile sources c) :
    Underway profile sources c.parse := by
  refine ⟨h.profile, .inr ⟨rfl, ?_⟩⟩
  show c.trees ++ c.parsed = _
  rcases h.parsed with ⟨hs, ht⟩ | ⟨hs, ht⟩
  · rw [ht, Compilation.parsed, hs, h.profile]
    rfl
  · rw [ht, c.parsed.eq_nil_of_length_eq_zero (by simp [Compilation.parsed, hs]), List.append_nil]

theorem Underway.run {c : Compilation} (h : Underway profile sources c) (next : Phase) (s : σ) :
    Underway profile sources (c.run disk finder next s).1 := by
  cases next with
  | parse => exact h.parse
  | references | declare => exact ⟨h.profile, h.parsed⟩
  | emit =>
    rw [Compilation.run]
    rcases c.emit_cases disk s with ⟨-, he⟩ | ⟨-, he⟩ | ⟨p, e, -, he⟩ <;>
      exact ⟨by rw [he]; exact h.profile, by rw [he]; exact h.parsed⟩

/-- The check sees all declarations or none. -/
theorem Underway.mem_duplicates {c : Compilation} (h : Underway profile sources c)
    {d : Diagnostic} (hd : d ∈ duplicates [] c.declarations) :
    d ∈ duplicates [] (Compilation.start profile sources output).parse.declarations := by
  rcases h.parsed with ⟨-, ht⟩ | ⟨-, ht⟩
  · rw [declarations, ht] at hd
    cases hd
  · rwa [declarations, ht] at hd

/-- **Whatever phases a run goes through**, it reports repeated types as the check does that sees
all of them. -/
theorem underway_runAll (phases : List Phase) (s : σ) :
    Underway profile sources ((start profile sources output).runAll disk finder phases s).1 ∧
      ∀ d ∈ ((start profile sources output).runAll disk finder phases s).1.repeatReports,
        d ∈ duplicates [] (start profile sources output).parse.declarations := by
  induction phases using List.reverseRecOn with
  | nil => exact ⟨.start, fun _ h => absurd h List.not_mem_nil⟩
  | append_singleton done next ih =>
    obtain ⟨hunderway, hreports⟩ := ih
    rw [runAll_append_singleton]
    refine ⟨hunderway.run next _, fun d hd => ?_⟩
    rw [repeatReports_run] at hd
    rcases List.mem_append.1 hd with hd | hd
    · exact hreports d hd
    · split at hd
      · exact hunderway.mem_duplicates hd
      · cases hd

/-- A declaration that repeats others stands after them. -/
theorem exists_of_mem_repeated {ds : List (Source × TypeSymbol Nat)} {x : Source × TypeSymbol Nat}
    (h : x ∈ repeated ds) :
    ∃ before after, ds = before ++ x :: after ∧ repeats (before.map (·.2)) x.2 = true := by
  obtain ⟨⟨y, i⟩, hy, rfl⟩ := List.mem_map.1 h
  obtain ⟨hmem, hrepeats⟩ := List.mem_filter.1 hy
  obtain ⟨-, hi, hyi⟩ := List.mem_zipIdx hmem
  refine ⟨ds.take i, ds.drop (i + 1), ?_, hrepeats⟩
  simp only [Nat.sub_zero] at hyi
  rw [hyi, List.getElem_cons_drop, List.take_append_drop]

/-- A diagnostic that marks the name of a declaration that repeats one before it. -/
def MarksRepeated (profile : Profile) (sources : List String) (d : Diagnostic) : Prop :=
  ∃ i text t before after, sources[i]? = some text ∧
    t ∈ (SyntaxTree.parse profile.version ⟨text, i⟩).types ∧
    (start profile sources none).parse.declarations = before ++ (⟨text, i⟩, t) :: after ∧
    repeats (before.map (·.2)) t = true ∧
    ∃ l k, d.location = some l ∧ t.place = k.span.start ∧ l.MarksName ⟨text, i⟩ t.name k

/-- **A repeated type is marked from the start of its name on.**  Whatever the sources are and
whatever phases a run goes through, in any order: every report of a repeated type points into the
source of a declaration that repeats one before it.  What it marks starts with the token of the
name and ends with it, unless the name is written after `@`; then it ends one byte early, and
between characters only if the last of the name takes one byte. -/
theorem repeated_marked (disk : Disk (StateM σ)) (finder : Finder (StateM σ)) (profile : Profile)
    (sources : List String) (output : Option Path) (phases : List Phase) (s : σ) :
    ∀ d ∈ ((start profile sources output).runAll disk finder phases s).1.diagnostics,
      d.code = "CS0101" → MarksRepeated profile sources d := by
  intro d hd hcode
  have hall := (underway_runAll phases s).2 d (List.mem_filter.2 ⟨hd, beq_iff_eq.2 hcode⟩)
  have htrees : ∀ x ∈ (start profile sources output).parse.declarations, ∃ i text,
      sources[i]? = some text ∧ x.1 = ⟨text, i⟩ ∧
        x.2 ∈ (SyntaxTree.parse profile.version ⟨text, i⟩).types := by
    intro x hx
    obtain ⟨tree, htree, hx⟩ := List.mem_flatMap.1 hx
    obtain ⟨i, hi, rfl⟩ := List.mem_mapIdx.1 htree
    obtain ⟨t, ht, rfl⟩ := List.mem_map.1 hx
    exact ⟨i, _, List.getElem?_eq_getElem hi, SyntaxTree.source_parse profile.version _, ht⟩
  rw [duplicates_eq_map_repeated fun x hx => by
    obtain ⟨i, text, -, -, ht⟩ := htrees x hx
    exact SyntaxTree.IsParsed.unmarked ⟨_, _, rfl⟩ ht] at hall
  obtain ⟨⟨source, t⟩, ht, rfl⟩ := List.mem_map.1 hall
  obtain ⟨before, after, hsplit, hrepeats⟩ := exists_of_mem_repeated ht
  obtain ⟨i, text, hi, rfl, htype⟩ := htrees (source, t) (by rw [hsplit]; simp)
  have hname : t.name ≠ "" := fun hempty => by
    simp [repeats, hempty] at hrepeats
  obtain ⟨k, hk, hlexeme, hplace⟩ := SyntaxTree.exists_nameToken htype hname
  refine ⟨i, text, t, before, after, hi, htype, hsplit, hrepeats, _, k, rfl, hplace, ?_⟩
  dsimp only
  rw [hplace]
  exact Source.marksName hk hlexeme

/-- The second of two types named `é`, one after the other and both after `@`, is marked from its
`@` on. -/
theorem repeated_marked_verbatim :
    let sources := ["class @é \x7b \x7d class @é \x7b \x7d"]
    let run := ((start {} sources none).runAll FileTree.disk (Finder.byName FileTree.disk)
      Phase.all ({} : FileTree)).1
    ∃ d ∈ run.diagnostics, d.code = "CS0101" ∧ MarksRepeated {} sources d := by
  intro sources run
  have hreported : ∃ d ∈ run.diagnostics, d.code = "CS0101" := by decide +kernel
  obtain ⟨d, hd, hcode⟩ := hreported
  exact ⟨d, hd, hcode, repeated_marked FileTree.disk (Finder.byName FileTree.disk) {} sources none
    Phase.all {} d hd hcode⟩

/-- Its mark is the span of no token of the source, and ends inside of the `é`. -/
theorem not_marked_whole_verbatim :
    let text := "class @é \x7b \x7d class @é \x7b \x7d"
    let run := ((start {} [text] none).runAll FileTree.disk (Finder.byName FileTree.disk)
      Phase.all ({} : FileTree)).1
    ∃ d ∈ run.diagnostics, d.code = "CS0101" ∧ ∃ l, d.location = some l ∧
      (∀ k ∈ tokens text, k.span ≠ ⟨l.offset, l.offset + l.length⟩) ∧
      ¬OnBoundary text (l.offset + l.length) := by
  intro text run
  have hreported : ∃ d ∈ run.diagnostics, d.code = "CS0101" ∧
      d.location = some ⟨0, 20, 2, 1, 20⟩ := by decide +kernel
  obtain ⟨d, hd, hcode, hl⟩ := hreported
  refine ⟨d, hd, hcode, _, hl, by decide +kernel, ?_⟩
  have hinside : ¬OnBoundary (String.ofList ("class @é \x7b \x7d class @".toList ++ 'é' ::
      " \x7b \x7d".toList)) 22 := Slice.not_onBoundary_inside (by decide) (by decide)
  exact hinside

end Compilation

end Outline
