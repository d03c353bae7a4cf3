/-
# Items in the namespace around them

The items of a block declare types in its namespace or in one inside it, and no file-scoped
namespace.  The items of a file declare such a namespace once, after usings only, and the
types after it are in it, but for those in blocks.

| where a type stands | its namespace |
| --- | --- |
| in the block of `full` | `full` |
| in a block `P` in it | `full.P`, and so on |
| at the top level of a file | the file-scoped one, if there is one |
-/

import Outline.Proofs.Frame.Files

namespace Outline
namespace Parser

/-- A namespace that is `outer` or stands in it. -/
def Inside (outer name : String) : Prop := name = outer ∨ ∃ path, name = outer ++ "." ++ path

theorem Inside.refl (name : String) : Inside name name := .inl rfl

theorem Inside.trans {a b c : String} (h : Inside a b) (h' : Inside b c) : Inside a c := by
  rcases h with rfl | ⟨p, rfl⟩
  · exact h'
  · rcases h' with rfl | ⟨q, rfl⟩
    · exact .inr ⟨p, rfl⟩
    · exact .inr ⟨p ++ "." ++ q, by simp only [String.append_assoc]⟩

/-- The namespace of a block stands in the one around it. -/
theorem inside_qualify (parent name : String) :
    Inside parent (NamespacePlace.qualify (.block parent) name) := by
  rw [NamespacePlace.qualify]
  split
  · exact .refl parent
  · exact .inr ⟨name, rfl⟩

/-- What an item of a namespace with a block may be. -/
def Item.InBlock (outer : String) : Item → Prop
  | .imported _ => True
  | .type t => ∃ name, t.namespaceName = some name ∧ Inside outer name
  | .fileNamespace _ => False

theorem Item.InBlock.mono {outer inner : String} {i : Item} (h : Inside outer inner)
    (hi : i.InBlock inner) : i.InBlock outer := by
  cases i with
  | imported => trivial
  | type t =>
    obtain ⟨name, ht, hin⟩ := hi
    exact ⟨name, ht, h.trans hin⟩
  | fileNamespace => exact hi

/-- What an item of a file may be that starts at a cursor where no file-scoped namespace can be
declared. -/
def Item.At (fileNamespace : Option String) (c : Cursor) : Item → Prop
  | .imported _ => True
  | .type t =>
    if c.atKeyword "namespace" = true then
      ∃ name, t.namespaceName = some name ∧ Inside (namespacePath c.next).value name
    else t.namespaceName = fileNamespace
  | .fileNamespace _ => False

theorem Item.At.fileNamespace?_eq {fileNamespace : Option String} {c : Cursor} {i : Item}
    (h : i.At fileNamespace c) : i.fileNamespace? = none := by
  cases i with
  | imported | type => rfl
  | fileNamespace => exact h.elim

/-! ### One item -/

theorem gives_delegate (fileNamespace : Option String) (c : Cursor) :
    Gives (fun o => ∀ t ∈ o, t.namespaceName = fileNamespace)
      (delegateDeclaration fileNamespace) c := by
  refine .bind <| .bind <| .ite (fun _ => .look <| .bind ?_) fun _ => .fault rfl
  split
  · exact .fault rfl
  · refine .bind <| .bind <| .bind <| .bind <| .pure fun t ht => ?_
    obtain rfl := Option.some.inj ht
    rfl

/-- A type or a delegate is declared in the namespace around it. -/
theorem gives_namespaceMember (namespaceName : Option String) (c : Cursor) :
    Gives (fun is => ∀ i ∈ is, ∃ t, i = .type t ∧ t.namespaceName = namespaceName)
      (namespaceMember namespaceName) c := by
  refine .bind <| .look <| .ite (fun _ => .pure fun _ hi => absurd hi List.not_mem_nil) fun _ =>
    .bind <| .look <| .ite (fun _ => .bind <| .pure fun i hi => ?_) fun _ => .look <|
    .ite (fun _ => (gives_delegate namespaceName _).map fun o ho i hi => ?_) fun _ => .fault rfl
  · exact ⟨_, List.mem_singleton.1 hi, rfl⟩
  · obtain ⟨t, ht, rfl⟩ := Option.map_eq_some_iff.1 (Option.mem_toList.1 hi)
    exact ⟨t, rfl, ho t ht⟩

/-- A namespace is file-scoped where it may be, or it has a block. -/
theorem gives_namespaceDeclaration {good : List Item → Prop} {items : ItemParser} {c : Cursor}
    (place : NamespacePlace) (hc : c.atEnd = false)
    (hs : place.cause? = none → good [.fileNamespace (place.qualify (namespacePath c.next).value)])
    (hb : ∀ d, d.remaining < c.remaining →
      Gives good (items (place.qualify (namespacePath c.next).value)) d) :
    Gives good (namespaceDeclaration items place) c := by
  refine .look <| .bind <| .bind <| .bind <| .ite (fun _ => .bind ?_) fun _ =>
    .bind <| .ite (fun _ => hb _ ?_) fun _ => .fault rfl
  · dsimp only
    split
    · rename_i cause hcause
      refine .fault ?_
      cases place with
      | file fileScoped late =>
        cases fileScoped <;> cases late <;> cases hcause <;> rfl
      | block => cases hcause; rfl
    · exact .pure (hs ‹_›)
  · refine Nat.lt_of_le_of_lt ?_ (Cursor.remaining_next_lt hc)
    exact Nat.le_trans (eat_remaining_le _ _) <| Nat.le_trans (eat_remaining_le _ _) <|
      Walk.remaining_le (walks_namespacePath true c.next)

/-- **The types of a block** are in its namespace or in one inside it. -/
theorem gives_namespaceItems (full : String) (late : Bool) (c : Cursor) :
    Gives (fun is => ∀ i ∈ is, i.InBlock full) (namespaceItems full late) c := by
  induction hn : c.remaining using Nat.strongRecOn generalizing full late c with
  | ind n ih =>
    subst hn
    have nothing : ∀ i ∈ ([] : List Item), i.InBlock full := fun _ hi => absurd hi List.not_mem_nil
    have hturn : Gives (fun is => ∀ i ∈ is, i.InBlock full) (namespaceTurn full late) c := by
      refine .of_eq (namespaceItem_eq _ full late c) <| .look <| .ite (fun _ => ?_) fun _ =>
        .look <| .ite (fun hk => ?_) fun _ => ?_
      · refine (gives_placedUsing late c).mono fun is his i hi => ?_
        obtain ⟨name, rfl⟩ := his
        obtain rfl := List.mem_singleton.1 hi
        trivial
      · refine gives_namespaceDeclaration _ (Cursor.atEnd_of_any hk) (fun h => nomatch h)
          fun d hd => (ih _ hd _ false d rfl).mono fun is his i hi => ?_
        exact (his i hi).mono (inside_qualify full _)
      · refine (gives_namespaceMember (some full) c).mono fun is his i hi => ?_
        obtain ⟨t, rfl, ht⟩ := his i hi
        exact ⟨full, ht, .refl full⟩
    refine .of_eq (namespaceItems_eq full late c) <| .look <|
      .ite (fun _ => .bind <| .bind <| .pure nothing) fun hb => .look <|
      .ite (fun _ => .fault rfl) fun he => .look <| hturn.append ?_
    exact ih _ (namespaceTurn_remaining_lt full late (Bool.eq_false_iff.2 hb)
      (Bool.eq_false_iff.2 he)) _ _ _ rfl

/-- Whether what is next may stand before a file-scoped namespace. -/
abbrev leads (c : Cursor) : Bool := atUsing c || atAlias c || c.atPunct "\x7d"

/-- What a turn of a file comes to that starts at a cursor. -/
inductive Turn (fileNamespace : Option String) (late : Bool) (c : Cursor) : List Item → Prop
  | usings {is : List Item} (hl : leads c = true) (h : ∀ i ∈ is, ∃ name, i = .imported name) :
      Turn fileNamespace late c is
  | members {is : List Item} (hl : leads c = false) (h : ∀ i ∈ is, i.At fileNamespace c) :
      Turn fileNamespace late c is
  | fileNamespace {is : List Item} (hl : leads c = false) (h : late = false)
      (his : is = [.fileNamespace (namespacePath c.next).value]) : Turn fileNamespace late c is

theorem leads_of_atNamespace {c : Cursor} (h : c.atKeyword "namespace" = true) :
    leads c = false := by
  obtain ⟨l, hl, hk⟩ := Cursor.exists_head?_of_any h
  simp only [Lexeme.isKeyword, Bool.and_eq_true, beq_iff_eq] at hk
  simp [leads, atUsing, atAlias, Cursor.atKeyword, Cursor.atWord, Cursor.atPunct, hl,
    Lexeme.isPunct, Lexeme.isKeyword, Lexeme.isWord, hk]

/-- A namespace in a file: one with a block, or a file-scoped one where there can be one. -/
theorem gives_namespace (fileNamespace : Option String) (late : Bool) {c : Cursor}
    (hk : c.atKeyword "namespace" = true) :
    Gives (Turn fileNamespace late c) (namespaceDeclaration (fun name => namespaceItems name false)
      (.file fileNamespace.isSome late)) c := by
  have hl := leads_of_atNamespace hk
  refine gives_namespaceDeclaration _ (Cursor.atEnd_of_any hk) (fun hs => ?_) fun d _ =>
    (gives_namespaceItems _ false d).mono fun is his => .members hl fun i hi => ?_
  · refine .fileNamespace hl ?_ rfl
    cases late with
    | false => rfl
    | true => cases hn : fileNamespace.isSome <;> rw [hn] at hs <;> cases hs
  · have hin := his i hi
    cases i with
    | imported => trivial
    | type t => exact (if_pos hk).mpr hin
    | fileNamespace => exact hin

/-- **A turn of a file** imports something, or declares types in the namespace around them, or
declares that namespace. -/
theorem gives_fileItem (fileNamespace : Option String) (late : Bool) (c : Cursor) :
    Gives (Turn fileNamespace late c) (fileItem fileNamespace late) c := by
  unfold Gives fileItem
  split
  · rename_i hu
    have hl : leads c = true := by rw [leads, hu, Bool.true_or, Bool.true_or]
    show Gives (Turn fileNamespace late c) (placedUsing late) c
    refine (gives_placedUsing late c).mono fun is ⟨name, his⟩ => .usings hl fun i hi => ?_
    exact ⟨name, List.mem_singleton.1 (his ▸ hi)⟩
  split
  · rename_i ha
    have hl : leads c = true := by rw [leads, ha, Bool.or_true, Bool.true_or]
    exact .inl (.usings hl fun _ hi => absurd hi List.not_mem_nil)
  split
  · exact gives_namespace fileNamespace late ‹_›
  split
  · exact .inr rfl
  · rename_i hu ha hk hb
    have hl : leads c = false := by simp [leads, hu, ha, hb]
    show Gives (Turn fileNamespace late c) (namespaceMember fileNamespace) c
    refine (gives_namespaceMember fileNamespace c).mono fun is his => .members hl fun i hi => ?_
    obtain ⟨t, rfl, ht⟩ := his i hi
    exact (if_neg hk).mpr ht

/-! ### The run over a file -/

/-- The namespace around the items after these. -/
abbrev following (fileNamespace : Option String) (is : List Item) : Option String :=
  (is.filterMap (·.fileNamespace?)).getLast?.or fileNamespace

theorem fileNamespaces_of_imported {is : List Item} (h : ∀ i ∈ is, ∃ name, i = .imported name) :
    is.filterMap (·.fileNamespace?) = [] :=
  List.filterMap_eq_nil_iff.2 fun i hi => by
    obtain ⟨name, rfl⟩ := h i hi
    rfl

theorem following_of_imported {fileNamespace : Option String} {is : List Item}
    (h : ∀ i ∈ is, ∃ name, i = .imported name) : following fileNamespace is = fileNamespace := by
  rw [following, fileNamespaces_of_imported h]
  rfl

theorem following_of_at {fileNamespace : Option String} {c : Cursor} {is : List Item}
    (h : ∀ i ∈ is, i.At fileNamespace c) : following fileNamespace is = fileNamespace := by
  have hnone : is.filterMap (·.fileNamespace?) = [] :=
    List.filterMap_eq_nil_iff.2 fun i hi => (h i hi).fileNamespace?_eq
  rw [following, hnone]
  rfl

/-- A file without a fault, by its first turn and the file after it. -/
structure TurnFirst (fileNamespace : Option String) (late : Bool) (c : Cursor) : Prop where
  turn : Turn fileNamespace late c (fileItem fileNamespace late c).value
  shorter : (fileItem fileNamespace late c).rest.remaining < c.remaining
  faultless : hasFault (fileItems (following fileNamespace (fileItem fileNamespace late c).value)
    (late || !leads c) (fileItem fileNamespace late c).rest).found = false
  value : (fileItems fileNamespace late c).value = (fileItem fileNamespace late c).value
    ++ (fileItems (following fileNamespace (fileItem fileNamespace late c).value)
        (late || !leads c) (fileItem fileNamespace late c).rest).value
  starts : itemStarts fileNamespace late c
    = c :: itemStarts (following fileNamespace (fileItem fileNamespace late c).value)
        (late || !leads c) (fileItem fileNamespace late c).rest

theorem turnFirst {fileNamespace : Option String} {late : Bool} {c : Cursor}
    (he : c.atEnd = false) (hf : hasFault (fileItems fileNamespace late c).found = false) :
    TurnFirst fileNamespace late c := by
  have hm := movesAt_fileItem fileNamespace late he
  have hgo := (goesOn_fileItems fileNamespace late he).eq
  rw [hgo] at hf
  obtain ⟨hone, hmore⟩ := hasFault_append_eq_false.1 hf
  exact ⟨(gives_fileItem fileNamespace late c).resolve_right (by rw [hone]; decide),
    Walk.remaining_lt hm.walks hm.index_lt, hmore, by rw [hgo]; rfl,
    itemStarts_eq fileNamespace late he⟩

/-- **After members**, no file-scoped namespace is declared, and the types of each item are in
the namespace around them. -/
theorem at_of_mem_fileItems {fileNamespace : Option String} (c : Cursor)
    (hf : hasFault (fileItems fileNamespace true c).found = false) :
    ∀ i ∈ (fileItems fileNamespace true c).value, ∃ d ∈ itemStarts fileNamespace true c,
      i ∈ (fileItem fileNamespace true d).value ∧ i.At fileNamespace d := by
  cases he : c.atEnd with
  | true =>
    rw [fileItems, he, if_pos rfl]
    exact fun i hi => absurd hi List.not_mem_nil
  | false =>
    obtain ⟨hturn, hlt, hmore, hvalue, hstarts⟩ := turnFirst he hf
    have hat : ∀ i ∈ (fileItem fileNamespace true c).value, i.At fileNamespace c := by
      cases hturn with
      | usings _ h =>
        intro i hi
        obtain ⟨name, rfl⟩ := h i hi
        trivial
      | members _ h => exact h
      | fileNamespace _ h => cases h
    rw [following_of_at hat, Bool.true_or] at hmore hvalue hstarts
    rw [hvalue, hstarts]
    intro i hi
    rcases List.mem_append.1 hi with hi | hi
    · exact ⟨c, List.mem_cons_self, hi, hat i hi⟩
    · obtain ⟨d, hd, h⟩ := at_of_mem_fileItems (fileItem fileNamespace true c).rest hmore i hi
      exact ⟨d, List.mem_cons_of_mem c hd, h⟩
termination_by c.remaining

theorem not_mem_fileItems {fileNamespace : Option String} {c : Cursor}
    (hf : hasFault (fileItems fileNamespace true c).found = false) (M : String) :
    Item.fileNamespace M ∉ (fileItems fileNamespace true c).value := fun hM => by
  obtain ⟨d, -, -, h⟩ := at_of_mem_fileItems c hf _ hM
  exact h

/-- **A file-scoped namespace** has only usings before it; what is after it is a file in this
namespace. -/
theorem split_fileItems {N : String} (c : Cursor)
    (hf : hasFault (fileItems none false c).found = false)
    (hN : Item.fileNamespace N ∈ (fileItems none false c).value) :
    ∃ usings d, (fileItems none false c).value
        = usings ++ .fileNamespace N :: (fileItems (some N) true d).value ∧
      (∀ i ∈ usings, ∃ name, i = .imported name) ∧
      hasFault (fileItems (some N) true d).found = false ∧
      ∀ e ∈ itemStarts (some N) true d, e ∈ itemStarts none false c := by
  cases he : c.atEnd with
  | true =>
    rw [fileItems, he, if_pos rfl] at hN
    cases hN
  | false =>
    obtain ⟨hturn, hlt, hmore, hvalue, hstarts⟩ := turnFirst he hf
    rw [hvalue] at hN
    rw [hvalue, hstarts]
    cases hturn with
    | usings hl h =>
      rw [following_of_imported h, hl] at hmore hN ⊢
      have hN : Item.fileNamespace N ∈ (fileItems none false (fileItem none false c).rest).value :=
        (List.mem_append.1 hN).resolve_left fun hi => by
          obtain ⟨name, hname⟩ := h _ hi
          cases hname
      obtain ⟨usings, d, hitems, husings, hd, hsub⟩ := split_fileItems _ hmore hN
      refine ⟨(fileItem none false c).value ++ usings, d, ?_, ?_, hd, ?_⟩
      · rw [List.append_assoc, ← hitems]
        rfl
      · exact List.forall_mem_append.2 ⟨h, husings⟩
      · exact fun e hs => List.mem_cons_of_mem c (hsub e hs)
    | members hl h =>
      rw [following_of_at h, hl] at hmore hN
      rcases List.mem_append.1 hN with hi | hi
      · exact (h _ hi).elim
      · exact absurd hi (not_mem_fileItems hmore N)
    | fileNamespace hl _ h =>
      rw [h, hl] at hmore hN ⊢
      rcases List.mem_cons.1 hN with hi | hi
      · obtain rfl := Item.fileNamespace.inj hi
        exact ⟨[], _, rfl, fun i hi => absurd hi List.not_mem_nil, hmore,
          fun e hs => List.mem_cons_of_mem c hs⟩
      · exact absurd hi (not_mem_fileItems hmore N)
termination_by c.remaining

end Parser

end Outline
