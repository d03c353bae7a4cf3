/-
# Files in a frame

Usings, external aliases and file-scoped namespaces are what an item of a file does to the
items after it.  A file without them and without a fault stands by itself (`Standalone`):
with more lexemes after it, its items are the same, and then come those of what is after
(`fileItems_cursor`).

Attributes at the end of such a file are the one thing that goes on.  They are attributes
of what is after instead, which is passed over in the same way.
-/

import Outline.Proofs.Frame.Namespaces
import Outline.Proofs.Parser.Places
import Outline.Proofs.Parser.Recorded

namespace Outline
namespace Parser

/-- Where the items of a file start. -/
def itemStarts (fileNamespace : Option String) (late : Bool) (c : Cursor) : List Cursor :=
  if c.atEnd then []
  else
    let s := fileItem fileNamespace late c
    let current := (s.value.filterMap (·.fileNamespace?)).getLast?.or fileNamespace
    let isMember := !(atUsing c || atAlias c || c.atPunct "\x7d")
    if _h : s.rest.remaining < c.remaining then
      c :: itemStarts current (late || isMember) s.rest
    else [c]
termination_by c.remaining
decreasing_by exact _h

/-- From a cursor on, a file has no fault and nothing that an item does to those after it. -/
structure Standalone (late : Bool) (c : Cursor) : Prop where
  faultless : hasFault (fileItems none late c).found = false
  imported : (fileItems none late c).value.filterMap (·.imported?) = []
  fileNamespaces : (fileItems none late c).value.filterMap (·.fileNamespace?) = []
  aliases : ∀ d ∈ itemStarts none late c, atAlias d = false

/-- An item of a file that stands by itself, and the rest of it. -/
structure StandaloneItem (late : Bool) (c : Cursor) : Prop where
  imports : atUsing c = false
  external : atAlias c = false
  brace : c.atPunct "\x7d" = false
  faultless : hasFault (fileItem none late c).found = false
  fileNamespaces : (fileItem none late c).value.filterMap (·.fileNamespace?) = []
  eq : fileItems none late c = ((fileItems none true (fileItem none late c).rest).map
    ((fileItem none late c).value ++ ·)).before (fileItem none late c).found
  rest : Standalone true (fileItem none late c).rest

/-- A using imports one namespace or has a fault. -/
theorem gives_placedUsing (late : Bool) (c : Cursor) :
    Gives (fun is => ∃ name, is = [Item.imported name]) (placedUsing late) c := by
  have directive (d : Cursor) :
      Gives (fun is => ∃ name, is = [Item.imported name]) usingDirective d := by
    refine .look <| .look <| .ite (fun _ => .bind <| .bind ?_) fun _ => ?_
    all_goals
      refine .bind <| .bind <| .ite (fun _ => .fault rfl) fun _ => .bind <| .pure ?_
      exact ⟨_, rfl⟩
  exact .ite (fun _ => .bind (directive _)) fun _ => directive c

theorem itemStarts_eq {c : Cursor} (fileNamespace : Option String) (late : Bool)
    (he : c.atEnd = false) :
    itemStarts fileNamespace late c = c :: itemStarts
      (((fileItem fileNamespace late c).value.filterMap (·.fileNamespace?)).getLast?.or
        fileNamespace)
      (late || !(atUsing c || atAlias c || c.atPunct "\x7d"))
      (fileItem fileNamespace late c).rest := by
  have hm := movesAt_fileItem fileNamespace late he
  rw [itemStarts, he, if_neg Bool.false_ne_true]
  exact dif_pos (Walk.remaining_lt hm.walks hm.index_lt)

/-- **The first item** of a file that stands by itself. -/
theorem Standalone.item {late : Bool} {c : Cursor} (h : Standalone late c)
    (he : c.atEnd = false) : StandaloneItem late c := by
  have hgo := (goesOn_fileItems none late he).eq
  have hstarts := itemStarts_eq none late he
  have halias : atAlias c = false := h.aliases c (hstarts ▸ List.mem_cons_self)
  obtain ⟨hf, hi, hn, ha⟩ := h
  rw [hgo] at hf hi hn
  rw [hstarts] at ha
  simp only [Step.before, Step.map, List.filterMap_append, List.append_eq_nil_iff] at hi hn
  obtain ⟨hfirst, hrest⟩ := hasFault_append_eq_false.1 hf
  have himports : atUsing c = false := Bool.eq_false_iff.2 fun hu => by
    rw [fileItem, if_pos hu] at hi hfirst
    rcases gives_placedUsing late c with ⟨name, hv⟩ | hv
    · rw [hv] at hi
      cases hi.1
    · rw [hfirst] at hv
      cases hv
  have hbrace : c.atPunct "\x7d" = false := Bool.eq_false_iff.2 fun hb => by
    have hk : c.atKeyword "namespace" = false :=
      Frame.eq_false_of_closer (Cursor.atOneOf_of_atPunct hb (by decide))
        Frame.not_closer_of_atKeyword
    rw [fileItem, himports, halias, hk, hb] at hfirst
    cases hfirst
  have hcurrent : ((fileItem none late c).value.filterMap (·.fileNamespace?)).getLast?.or none
      = none := by rw [hn.1]; rfl
  have hlate : (late || !(atUsing c || atAlias c || c.atPunct "\x7d")) = true := by
    rw [himports, halias, hbrace]
    exact Bool.or_true late
  rw [hcurrent, hlate] at hgo ha hi hn hrest
  exact ⟨himports, halias, hbrace, hfirst, hn.1, hgo, hrest, hi.2, hn.2,
    fun d hd => ha d (List.mem_cons_of_mem c hd)⟩

namespace Frame

variable {f : Frame}

/-! ### Attributes at the end -/

theorem atPunct_cursor {c : Cursor} {p : String} (h : c.atPunct p = true) :
    (f.cursor c).atPunct p = true := by
  obtain ⟨l, hl, hp⟩ := Cursor.exists_head?_of_any h
  obtain ⟨ls, ha⟩ := Cursor.ahead_of_head? hl
  rwa [cursor_of_ahead ha]

/-- Attributes without a fault go on in the frame where they end without it. -/
theorem attributes_cursor {c : Cursor} (h : hasFault (attributes c).found = false) :
    attributes (f.cursor c) = attributes (f.cursor (attributes c).rest) ∧
      (attributes c).found = [] := by
  fun_induction attributes c with
  | case1 c hc s closed ih =>
    obtain ⟨hgroup, hmore⟩ := hasFault_append_eq_false.1 h
    obtain ⟨heq, hnil⟩ := ih hmore
    have hn : (skipGroup c).found = [] := eq_nil_of_hasFault (skipOpened_isFault _ _ _) hgroup
    have hf := skipGroup_cursor (f := f) closed hgroup
    refine ⟨?_, List.append_eq_nil_iff.2 ⟨hn, hnil⟩⟩
    have hgoes : attributes (f.cursor c) = (attributes (f.cursor (skipGroup c).rest)).before
        ((skipGroup c).found.map f.finding) := by
      rw [attributes, if_pos (atPunct_cursor hc), hf]
      exact dif_pos closed
    rw [hgoes, hn]
    exact heq
  | case2 c hc s closed =>
    have hn : (skipGroup c).found = [] := eq_nil_of_hasFault (skipOpened_isFault _ _ _) h
    exact absurd (skipGroup_closes (b := .square) hc hn).1 closed
  | case3 c hc => exact ⟨rfl, rfl⟩

/-! ### Items -/

theorem namespaceBody_of_block (items : ItemParser) (place : NamespacePlace) (keyword : Nat)
    (name : String) {c : Cursor} (h : c.atPunct ";" = false) :
    namespaceBody items place keyword name c = (do
      if ← eat "\x7b" then items (place.qualify name)
      else
        reportMissing .openBrace
        return [] : Parser (List Item)) c :=
  eat_bind_of_not_atPunct h _

/-- What came before a namespace matters only to a file-scoped one. -/
theorem namespaceDeclaration_late {items : ItemParser} {fileScoped late : Bool} {c : Cursor}
    (h : (namespaceDeclaration items (.file fileScoped late) c).value.filterMap
      (·.fileNamespace?) = []) (anew : Bool) :
    namespaceDeclaration items (.file fileScoped anew) c
      = namespaceDeclaration items (.file fileScoped late) c := by
  refine look_congr <| bind_congr <| bind_congr ?_
  replace h : (namespaceBody items (.file fileScoped late) c.index (namespacePath c.next).value
    (namespacePath c.next).rest).value.filterMap (·.fileNamespace?) = [] := h
  cases hs : (namespacePath c.next).rest.atPunct ";" with
  | true =>
    rw [namespaceBody, eat_bind_of_atPunct hs, if_pos rfl] at h
    cases hc : (NamespacePlace.file fileScoped late).cause? <;> rw [hc] at h <;> cases h
  | false =>
    exact (namespaceBody_of_block items (.file fileScoped anew) _ _ hs).trans
      (namespaceBody_of_block items (.file fileScoped late) _ _ hs).symm

theorem fileItem_of_namespace {c : Cursor} (late : Bool) (hu : atUsing c = false)
    (ha : atAlias c = false) (hk : c.atKeyword "namespace" = true) :
    fileItem none late c
      = namespaceDeclaration (fun name => namespaceItems name false) (.file false late) c := by
  rw [fileItem, hu, ha, hk, if_neg Bool.false_ne_true, if_neg Bool.false_ne_true, if_pos rfl]
  rfl

theorem fileItem_of_member {c : Cursor} (late : Bool) (hu : atUsing c = false)
    (ha : atAlias c = false) (hk : c.atKeyword "namespace" = false)
    (hb : c.atPunct "\x7d" = false) : fileItem none late c = namespaceMember none c := by
  rw [fileItem, hu, ha, hk, hb, if_neg Bool.false_ne_true, if_neg Bool.false_ne_true,
    if_neg Bool.false_ne_true, if_neg Bool.false_ne_true]

theorem sees_atAlias : f.Sees atAlias :=
  (sees_atKeyword "extern").andNext not_closer_of_atKeyword (sees_atWord "alias")

theorem filterMap_fileNamespace_item (is : List Item) :
    (is.map f.item).filterMap (·.fileNamespace?) = is.filterMap (·.fileNamespace?) := by
  rw [List.filterMap_map]
  exact congrArg (List.filterMap · is) (funext fun i => by cases i <;> rfl)

/-- A type with its attributes and modifiers ends with a closer. -/
theorem closesAt_namespaceMember {c : Cursor} (namespaceName : Option String)
    (h : atStop (attributes c).rest = false) :
    f.ClosesAt (List.map f.item) (namespaceMember namespaceName)
      (namespaceMember namespaceName) c :=
  .bind (carries_attributes c) <|
    .lookIf sees_atStop (fun hs => absurd (h.symm.trans hs) Bool.false_ne_true) fun _ =>
    .bind (carries_modifiers _) <| closes_modifiedType namespaceName _ _

theorem namespaceMember_of_atStop {c : Cursor} (namespaceName : Option String)
    (h : atStop (attributes c).rest = true) :
    namespaceMember namespaceName c = ⟨[], (attributes c).rest, (attributes c).found⟩ := by
  have hbare : namespaceMember namespaceName c = (attributes >>= fun _ => pure [] : Parser _) c :=
    bind_congr (lookIf_of_true (k := atStop) h)
  rw [hbare]
  exact bindPure_apply attributes (fun _ => []) c

/-- What came before an item of a file that stands by itself does not matter. -/
theorem fileItem_late {late : Bool} {c : Cursor} (hu : atUsing c = false) (ha : atAlias c = false)
    (h : (fileItem none late c).value.filterMap (·.fileNamespace?) = []) (anew : Bool) :
    fileItem none anew c = fileItem none late c := by
  cases hk : c.atKeyword "namespace" with
  | true =>
    rw [fileItem_of_namespace late hu ha hk] at h ⊢
    rw [fileItem_of_namespace anew hu ha hk]
    exact namespaceDeclaration_late h anew
  | false =>
    simp only [fileItem, hu, ha, hk, Bool.false_eq_true, if_false]

theorem atEnd_of_attributes {c : Cursor} (h : (attributes c).rest.atEnd = false) :
    c.atEnd = false := by
  have hs := (carries_attributes (f := ⟨0, [], rfl⟩) c).suffix
  cases he : c.atEnd with
  | false => rfl
  | true =>
    rw [List.isEmpty_iff.1 he, List.suffix_nil] at hs
    rw [Cursor.atEnd, hs] at h
    cases h

/-- A namespace of a file that stands by itself is the same in the frame. -/
theorem fileItem_cursor_of_namespace {late : Bool} {c : Cursor} (h : Standalone late c)
    (hk : c.atKeyword "namespace" = true) :
    f.Unseen c ∧
      fileItem none late (f.cursor c) = f.step (List.map f.item) (fileItem none late c) := by
  have hi := h.item (Cursor.atEnd_of_any hk)
  have hcloses := closesAt_namespaceDeclaration (f := f) (.file false late) (Cursor.atEnd_of_any hk)
    fun full d _ => closes_namespaceItems full false d
  have heq := fileItem_of_namespace late hi.imports hi.external hk
  have hf := hi.faultless
  rw [heq] at hf ⊢
  have hu := hcloses.unseen hf
  have hframe := fileItem_of_namespace late ((sees_atUsing c hu).trans hi.imports)
    ((sees_atAlias c hu).trans hi.external) ((sees_atKeyword _ c hu).trans hk)
  exact ⟨hu, hframe.trans (hcloses.eq hf)⟩

/-- What is no namespace is the same in the frame, but for attributes at the end. -/
theorem namespaceMember_cursor {late : Bool} {c : Cursor} (h : Standalone late c)
    (he : (attributes c).rest.atEnd = false) (hm : fileItem none late c = namespaceMember none c) :
    f.Unseen c ∧ namespaceMember none (f.cursor c)
      = f.step (List.map f.item) (namespaceMember none c) := by
  have hi := h.item (atEnd_of_attributes he)
  have hf := hi.faultless
  have hrest := hi.rest
  rw [hm] at hf hrest
  cases hs : atStop (attributes c).rest with
  | false =>
    have hcloses := closesAt_namespaceMember (f := f) none hs
    exact ⟨hcloses.unseen hf, hcloses.eq hf⟩
  | true =>
    -- the attributes are followed by a namespace, whose closing brace is still ahead
    have hcarries := carries_namespaceMember (f := f) none c
    have hend : (namespaceMember none c).rest = (attributes c).rest := by
      rw [namespaceMember_of_atStop none hs]
    rw [hend] at hrest
    have hk : (attributes c).rest.atKeyword "namespace" = true := by
      rw [atStop, he, (hrest.item he).brace] at hs
      exact hs
    have hu : f.Unseen (namespaceMember none c).rest := by
      rw [hend]
      exact (fileItem_cursor_of_namespace hrest hk).1
    exact ⟨hu.of_suffix hcarries.suffix, hcarries.eq hu hf⟩

/-- **An item of a file that stands by itself** is the same in the frame, but for attributes
at the end. -/
theorem fileItem_cursor {late : Bool} {c : Cursor} (h : Standalone late c)
    (he : (attributes c).rest.atEnd = false) :
    f.Unseen c ∧
      fileItem none late (f.cursor c) = f.step (List.map f.item) (fileItem none late c) := by
  have hi := h.item (atEnd_of_attributes he)
  cases hk : c.atKeyword "namespace" with
  | true => exact fileItem_cursor_of_namespace h hk
  | false =>
    have heq := fileItem_of_member late hi.imports hi.external hk hi.brace
    obtain ⟨hu, hmember⟩ := namespaceMember_cursor (f := f) h he heq
    rw [heq, ← hmember]
    exact ⟨hu, fileItem_of_member late ((sees_atUsing c hu).trans hi.imports)
      ((sees_atAlias c hu).trans hi.external) ((sees_atKeyword _ c hu).trans hk)
      ((sees_atPunct _ c hu).trans hi.brace)⟩

/-! ### Files -/

variable (f) in
/-- Where the lexemes after a cursor's own start. -/
def tail (c : Cursor) : Cursor := ⟨f.before + c.index + c.remaining, f.after⟩

variable (f) in
/-- What is after starts with no using, no external alias and no closing brace. -/
structure Apart (c : Cursor) : Prop where
  imports : atUsing (f.tail c) = false
  external : atAlias (f.tail c) = false
  brace : (f.tail c).atPunct "\x7d" = false

theorem tail_of_passes {c d : Cursor} {ls : List Lexeme} (h : c.Passes ls d) :
    f.tail d = f.tail c := by
  have := h.index_add_remaining
  simp [tail, Nat.add_assoc, this]

theorem cursor_of_atEnd {c : Cursor} (h : c.atEnd = true) : f.cursor c = f.tail c := by
  have hn : c.ahead = [] := List.isEmpty_iff.1 h
  simp [cursor, tail, Cursor.remaining, hn]

theorem not_at_of_atSquare {c : Cursor} (h : c.atPunct "[" = true) :
    atUsing c = false ∧ atAlias c = false ∧ c.atKeyword "namespace" = false ∧
      c.atPunct "\x7d" = false := by
  obtain ⟨l, hl, hp⟩ := Cursor.exists_head?_of_any h
  simp only [Lexeme.isPunct, Bool.and_eq_true, beq_iff_eq] at hp
  simp [atUsing, atAlias, Cursor.atKeyword, Cursor.atWord, Cursor.atPunct, hl, Lexeme.isKeyword,
    Lexeme.isWord, Lexeme.isPunct, hp]

theorem attributes_of_not_atSquare {c : Cursor} (h : c.atPunct "[" = false) :
    attributes c = ⟨(), c, []⟩ := by
  rw [attributes, h, if_neg Bool.false_ne_true]

/-- Attributes of what is after are passed over with it. -/
theorem fileItems_of_attributes {c d : Cursor} (hc : c.atPunct "[" = true)
    (hd : namespaceMember none c = namespaceMember none d) (hu : atUsing d = false)
    (ha : atAlias d = false) (hb : d.atPunct "\x7d" = false) (anew : Bool) :
    fileItems none anew c = fileItems none true d := by
  obtain ⟨hcu, hca, hck, hcb⟩ := not_at_of_atSquare hc
  have hgo := (goesOn_fileItems none anew (Cursor.atEnd_of_any hc)).eq
  rw [fileItem_of_member anew hcu hca hck hcb, hd, hcu, hca, hcb] at hgo
  rw [hgo]
  cases hs : d.atEnd || d.atKeyword "namespace" with
  | true =>
    have hsq : d.atPunct "[" = false := Bool.eq_false_iff.2 fun hq => by
      rw [(not_at_of_atSquare hq).2.2.1, Cursor.atEnd_of_any hq] at hs
      cases hs
    have hstop : atStop (attributes d).rest = true := by
      rw [attributes_of_not_atSquare hsq, atStop, Bool.or_right_comm, hs, Bool.true_or]
    rw [namespaceMember_of_atStop none hstop, attributes_of_not_atSquare hsq]
    simp [Step.before, Step.map]
  | false =>
    obtain ⟨he, hk⟩ := Bool.or_eq_false_iff.1 hs
    have hgod := (goesOn_fileItems none true he).eq
    rw [fileItem_of_member true hu ha hk hb] at hgod
    rw [hgod]
    simp

theorem bind_congr_cursor {α β : Type} {p : Parser α} {k : α → Parser β} {c d : Cursor}
    (h : p c = p d) : (p >>= k) c = (p >>= k) d := by rw [bind_apply, bind_apply, h]

/-- Attributes at the end of a file. -/
theorem fileItems_of_atEnd {late : Bool} {c : Cursor} (h : Standalone late c)
    (he : c.atEnd = false) (hd : (attributes c).rest.atEnd = true) :
    c.atPunct "[" = true ∧ fileItems none late c = ⟨[], (attributes c).rest, []⟩ ∧
      namespaceMember none (f.cursor c) = namespaceMember none (f.tail c) := by
  have hc : c.atPunct "[" = true := by
    cases hq : c.atPunct "[" with
    | true => rfl
    | false =>
      rw [attributes_of_not_atSquare hq, he] at hd
      cases hd
  have hi := h.item he
  obtain ⟨hcu, hca, hck, hcb⟩ := not_at_of_atSquare hc
  have hstop : atStop (attributes c).rest = true := by rw [atStop, hd, Bool.true_or, Bool.true_or]
  have hbare :=
    (fileItem_of_member late hcu hca hck hcb).trans (namespaceMember_of_atStop none hstop)
  have hf := hi.faultless
  have heq := hi.eq
  rw [hbare] at hf heq
  obtain ⟨hcursor, hnil⟩ := attributes_cursor (f := f) hf
  refine ⟨hc, ?_, ?_⟩
  · rw [heq, hnil, fileItems, hd, if_pos rfl]
    rfl
  · obtain ⟨ls, hp⟩ := (walks_attributes true c).passed.passes
    rw [← tail_of_passes hp, ← cursor_of_atEnd hd]
    exact bind_congr_cursor (p := attributes) hcursor

/-- **A file that stands by itself, with more after it.**  Its items come first, and then
those of what is after. -/
theorem fileItems_cursor {late : Bool} {c : Cursor} (h : Standalone late c) (ha : f.Apart c)
    (anew : Bool) :
    ∃ last, fileItems none anew (f.cursor c)
      = ((fileItems none last (f.tail c)).map
          ((fileItems none late c).value.map f.item ++ ·)).before
        ((fileItems none late c).found.map f.finding) := by
  -- `late` and `anew` may differ, as a standalone file has no using for them to tell apart.
  induction hn : c.remaining using Nat.strongRecOn generalizing late c anew with
  | ind n ih =>
    subst hn
    cases he : c.atEnd with
    | true =>
      refine ⟨anew, ?_⟩
      rw [cursor_of_atEnd he, fileItems.eq_def none late c, he, if_pos rfl]
      rfl
    | false =>
      cases hd : (attributes c).rest.atEnd with
      | true =>
        obtain ⟨hc, hitems, hmember⟩ := fileItems_of_atEnd (f := f) h he hd
        rw [hitems, fileItems_of_attributes (atPunct_cursor hc) hmember ha.imports ha.external
          ha.brace anew]
        exact ⟨true, rfl⟩
      | false =>
        have hi := h.item he
        obtain ⟨hu, hstep⟩ := fileItem_cursor (f := f) h hd
        have hnext : fileItem none anew (f.cursor c)
            = f.step (List.map f.item) (fileItem none late c) := by
          rw [← hstep]
          refine fileItem_late ((sees_atUsing c hu).trans hi.imports)
            ((sees_atAlias c hu).trans hi.external) ?_ anew
          rw [hstep]
          exact (filterMap_fileNamespace_item _).trans hi.fileNamespaces
        have hm := movesAt_fileItem none late he
        obtain ⟨ls, hp⟩ := hm.walks.passed.passes
        have hapart : f.Apart (fileItem none late c).rest := by
          obtain ⟨hu, hx, hb⟩ := ha
          rw [← tail_of_passes hp] at hu hx hb
          exact ⟨hu, hx, hb⟩
        have hgo := (goesOn_fileItems none anew ((sees_atEnd c hu).trans he)).eq
        have hcurrent : ((f.step (List.map f.item) (fileItem none late c)).value.filterMap
            (·.fileNamespace?)).getLast?.or none = none := by
          rw [step, filterMap_fileNamespace_item, hi.fileNamespaces]
          rfl
        rw [hnext, hcurrent] at hgo
        obtain ⟨last, hlast⟩ := ih _ (Walk.remaining_lt hm.walks hm.index_lt) hi.rest hapart
          (anew || !(atUsing (f.cursor c) || atAlias (f.cursor c)
            || (f.cursor c).atPunct "\x7d")) rfl
        refine ⟨last, ?_⟩
        rw [hgo]
        dsimp only [step]
        rw [hlast, tail_of_passes hp, hi.eq]
        simp [Step.before, Step.map]

/-! ### Places -/

theorem attributes_found {c : Cursor} (h : hasFault (attributes c).found = false) :
    (attributes c).found = [] := (attributes_cursor (f := ⟨0, [], rfl⟩) h).2

/-- What is found in an item of a file that stands by itself stands at tokens of it. -/
theorem fileItem_marks {late : Bool} {c : Cursor} (h : Standalone late c) (he : c.atEnd = false) :
    ∀ x ∈ (fileItem none late c).found, x.mark.Before (fileItem none late c).rest.index := by
  have hi := h.item he
  have hf := hi.faultless
  cases hk : c.atKeyword "namespace" with
  | true =>
    have hsettles : Settles (namespaceDeclaration (fun name => namespaceItems name false)
        (.file false late)) c :=
      settles_namespaceDeclaration _ (fun name d => settles_namespaceItems name false d) hk
    rw [fileItem_of_namespace late hi.imports hi.external hk] at hf ⊢
    exact (hsettles hf).2
  | false =>
    rw [fileItem_of_member late hi.imports hi.external hk hi.brace] at hf ⊢
    cases hs : atStop (attributes c).rest with
    | true =>
      rw [namespaceMember_of_atStop none hs] at hf ⊢
      rw [attributes_found hf]
      exact fun x hx => absurd hx List.not_mem_nil
    | false =>
      have hsettles : Settles (namespaceMember none) c :=
        .bind (walks_attributes true c) <| .look <|
          .ite (fun ht => absurd (hs.symm.trans ht) Bool.false_ne_true) fun _ =>
          .bind (walks_modifiers true _) (settles_modifiedType _ _)
      exact (hsettles hf).2

/-- **What is found in a file that stands by itself** stands at tokens of it. -/
theorem fileItems_marks {late : Bool} {c : Cursor} (h : Standalone late c) :
    ∀ x ∈ (fileItems none late c).found, x.mark.Before (fileItems none late c).rest.index := by
  induction hn : c.remaining using Nat.strongRecOn generalizing late c with
  | ind n ih =>
    subst hn
    cases he : c.atEnd with
    | true =>
      rw [fileItems, he, if_pos rfl]
      exact fun x hx => absurd hx List.not_mem_nil
    | false =>
      have hi := h.item he
      have hm := movesAt_fileItem none late he
      rw [hi.eq]
      intro x hx
      rcases List.mem_append.1 hx with hx | hx
      · exact (fileItem_marks h he x hx).mono (walks_fileItems none true _).1.index_le
      · exact ih _ (Walk.remaining_lt hm.walks hm.index_lt) hi.rest rfl x hx

/-! ### Two files -/

/-- What stands behind `n` lexemes, at the end. -/
def behind (n : Nat) : Frame := ⟨n, [], rfl⟩

theorem item_of_before_eq_zero (h : f.before = 0) (i : Item) : f.item i = i := by
  have hedge : f.edge = id := funext fun e => by cases e <;> simp [edge, h]
  cases i with
  | type t => rw [item, hedge, TypeSymbol.map_id]
  | imported | fileNamespace => rfl

theorem finding_of_before_eq_zero (h : f.before = 0) (x : Finding) : f.finding x = x := by
  have hedge : f.edge = id := funext fun e => by cases e <;> simp [edge, h]
  simp [finding, mark, hedge]

theorem not_closer_of_atTypeKeyword (c : Cursor) (h : atTypeKeyword c = true) :
    c.atOneOf closers = false := by
  rcases Bool.or_eq_true_iff.1 h with h | h
  · exact not_closer_of_any (fun l hl => isOneOf_of_kind (by simp_all [Lexeme.isKeywordOf])) c h
  · exact not_closer_of_atWord c (Bool.and_eq_true_iff.1 h).1

theorem modifiers_of_closer {c : Cursor} (h : c.atOneOf closers = true) :
    modifiers c = ⟨[], c, []⟩ := by
  obtain ⟨l, hl, hc⟩ := Cursor.exists_head?_of_any h
  obtain ⟨i, _ | ⟨m, ls⟩⟩ := c
  · cases hl
  · obtain rfl := Option.some.inj hl
    rw [modifiers, modifiersFrom, isModifier_closer hc, if_neg Bool.false_ne_true]

/-- What is no type after its modifiers is reported. -/
theorem hasFault_namespaceMember {c : Cursor} (hsquare : c.atPunct "[" = false)
    (hstop : atStop c = false) (htype : atTypeKeyword (modifiers c).rest = false)
    (hdelegate : (modifiers c).rest.atKeyword "delegate" = false) :
    hasFault (namespaceMember none c).found = true := by
  have hmember : namespaceMember none c
      = (modifiers >>= fun ms => modifiedType none ms : Parser (List Item)) c :=
    (bind_congr_left (q := pure ()) _ (attributes_of_not_atSquare hsquare)).trans
      (lookIf_of_false (k := atStop) hstop)
  have hskipped : modifiedType none (modifiers c).value (modifiers c).rest = (do
      reportHere .topLevelMember
      skipMember
      return [] : Parser (List Item)) (modifiers c).rest :=
    (lookIf_of_false htype).trans (lookIf_of_false hdelegate)
  rw [hmember, bind_apply, Step.before, hasFault_append, hskipped]
  exact Bool.or_true _

/-- No item of a file starts with a semicolon. -/
theorem hasFault_of_atSemicolon {c : Cursor} (h : c.atPunct ";" = true) :
    hasFault (namespaceMember none c).found = true := by
  have hcloser : c.atOneOf closers = true := Cursor.atOneOf_of_atPunct h (by decide)
  have hstop : atStop c = false := by
    obtain ⟨l, hl, hp⟩ := Cursor.exists_head?_of_any h
    simp only [Lexeme.isPunct, Bool.and_eq_true, beq_iff_eq] at hp
    simp [atStop, Cursor.atEnd_of_any h, Cursor.atPunct, Cursor.atKeyword, hl, Lexeme.isPunct,
      Lexeme.isKeyword, hp]
  have hrest : (modifiers c).rest = c := by rw [modifiers_of_closer hcloser]
  refine hasFault_namespaceMember
    (eq_false_of_closer hcloser (not_closer_of_atPunct (p := "[") (by decide))) hstop ?_ ?_
  · rw [hrest]
    exact eq_false_of_closer hcloser not_closer_of_atTypeKeyword
  · rw [hrest]
    exact eq_false_of_closer hcloser not_closer_of_atKeyword

theorem not_atSemicolon {late : Bool} {c : Cursor} (h : Standalone late c) :
    c.atPunct ";" = false := by
  refine Bool.eq_false_iff.2 fun hs => ?_
  have hi := h.item (Cursor.atEnd_of_any hs)
  have hk : c.atKeyword "namespace" = false :=
    eq_false_of_closer (Cursor.atOneOf_of_atPunct hs (by decide)) not_closer_of_atKeyword
  have hf := hi.faultless
  rw [fileItem_of_member late hi.imports hi.external hk hi.brace, hasFault_of_atSemicolon hs] at hf
  cases hf

theorem apart_behind (n : Nat) (c : Cursor) : (behind n).Apart c := ⟨rfl, rfl, rfl⟩

/-- What stands by itself starts with nothing that would reach into it. -/
theorem apart_of_standalone {late : Bool} {n : Nat} (h : Standalone late ⟨n, f.after⟩)
    (c : Cursor) : f.Apart c := by
  have same (k m : Nat) (ls : List Lexeme) : atUsing ⟨k, ls⟩ = atUsing ⟨m, ls⟩ ∧
      atAlias ⟨k, ls⟩ = atAlias ⟨m, ls⟩ ∧
        Cursor.atPunct ⟨k, ls⟩ "\x7d" = Cursor.atPunct ⟨m, ls⟩ "\x7d" := by
    cases ls <;> exact ⟨rfl, rfl, rfl⟩
  obtain ⟨hu, hx, hb⟩ := same (f.tail c).index n f.after
  cases he : Cursor.atEnd ⟨n, f.after⟩ with
  | true =>
    have hn : f.after = [] := List.isEmpty_iff.1 he
    rw [hn] at hu hx hb
    constructor <;> rw [tail, hn] <;> rfl
  | false =>
    have hi := h.item he
    exact ⟨hu.trans hi.imports, hx.trans hi.external, hb.trans hi.brace⟩

end Frame

/-- **Files that stand by themselves can be put together.**  The items of both are the items
of the whole, those of the second behind the lexemes of the first. -/
theorem parseFile_append {as bs : List Lexeme} (ha : Standalone false ⟨0, as⟩)
    (hb : Standalone false ⟨0, bs⟩) :
    (parseFile (as ++ bs)).value
        = (parseFile as).value ++ (parseFile bs).value.map (Frame.behind as.length).item ∧
      (parseFile (as ++ bs)).found
        = (parseFile as).found ++ (parseFile bs).found.map (Frame.behind as.length).finding := by
  let f : Frame := ⟨0, bs, Frame.not_atSemicolon hb⟩
  obtain ⟨last, hfirst⟩ := Frame.fileItems_cursor (f := f) ha (Frame.apart_of_standalone hb _) false
  obtain ⟨final, hsecond⟩ :=
    Frame.fileItems_cursor (f := .behind as.length) hb (Frame.apart_behind _ _) last
  have hstart : (Frame.behind as.length).cursor ⟨0, bs⟩ = f.tail ⟨0, as⟩ := by
    simp [Frame.behind, Frame.cursor, Frame.tail, Cursor.remaining, f]
  have hend (c : Cursor) : fileItems none final ((Frame.behind as.length).tail c)
      = ⟨[], (Frame.behind as.length).tail c, []⟩ := by
    rw [fileItems]
    rfl
  have hitems (is : List Item) : is.map f.item = is :=
    List.map_id'' (Frame.item_of_before_eq_zero rfl) is
  have hfindings (xs : List Finding) : xs.map f.finding = xs :=
    List.map_id'' (Frame.finding_of_before_eq_zero rfl) xs
  have hwhole : parseFile (as ++ bs) = fileItems none false (f.cursor ⟨0, as⟩) := rfl
  rw [hwhole, hfirst, ← hstart, hsecond, hend, hitems, hfindings]
  simp [Step.before, Step.map, parseFile]

end Parser
end Outline
