/-
# Declared names in the order of the text

The sites of a type are its name with its place, and those of the types nested in it, each
type before those in it.  Wherever a parser stands, the sites of what it declares follow the
tokens that it passes: they stand further and further on, and the name of each is what stands
there, or is missing and reported (`Sited`).

| site | name | place |
| --- | --- | --- |
| of a type with a name | the text of the name | the start of the name |
| of a type without a name | nothing | the end of the word that declares it |
-/

import Outline.Proofs.Parser.Places

namespace Outline

namespace TypeSymbol

variable {P : Type}

mutual

/-- The name of a type with its place, and those of the types nested in it. -/
def sites (t : TypeSymbol P) : List (String × P) :=
  match t with
  | ⟨_, name, _, _, _, _, nested, place⟩ => (name, place) :: allSites nested

/-- The sites of types and of the types nested in them. -/
def allSites : List (TypeSymbol P) → List (String × P)
  | [] => []
  | t :: ts => sites t ++ allSites ts

end

/-- The sites of a type: its own first, then those of the nested types. -/
theorem sites_eq (t : TypeSymbol P) : t.sites = (t.name, t.place) :: allSites t.nested := by
  cases t
  rw [sites]

theorem allSites_append (ts us : List (TypeSymbol P)) :
    allSites (ts ++ us) = allSites ts ++ allSites us := by
  induction ts with
  | nil => rfl
  | cons t ts ih => rw [List.cons_append, allSites, allSites, ih, List.append_assoc]

mutual

theorem map_sites : ∀ t : TypeSymbol P, t.sites.map (·.2) = t.places
  | ⟨_, _, _, _, _, _, nested, _⟩ => by rw [sites, places, List.map_cons, map_allSites nested]

theorem map_allSites : ∀ ts : List (TypeSymbol P), (allSites ts).map (·.2) = allPlaces ts
  | [] => rfl
  | t :: ts => by rw [allSites, allPlaces, List.map_append, map_sites t, map_allSites ts]

end

/-- The types of a list are at some of its sites, in order. -/
theorem sublist_allSites (ts : List (TypeSymbol P)) :
    (ts.map fun t => (t.name, t.place)).Sublist (allSites ts) := by
  induction ts with
  | nil => exact .slnil
  | cons t ts ih =>
    rw [List.map_cons, allSites, sites_eq]
    exact (ih.trans (List.sublist_append_right _ _)).cons_cons _

end TypeSymbol

namespace Parser

open TypeSymbol (allSites)

/-! ### Sites -/

/-- A name that is ahead of a cursor, with the edge that it starts at. -/
def StandsAhead (c : Cursor) (x : String × Edge) : Prop :=
  ∃ i l, x.2 = .start (c.index + i) ∧ c.ahead[i]? = some l ∧ l.isName = true ∧ l.text = x.1

/-- A name that stands ahead of a later cursor stands ahead of an earlier one. -/
theorem StandsAhead.behind {c d : Cursor} {ls : List Lexeme} {x : String × Edge}
    (h : StandsAhead d x) (hp : c.Passes ls d) : StandsAhead c x := by
  obtain ⟨i, l, hplace, hl, hname, htext⟩ := h
  refine ⟨ls.length + i, l, ?_, ?_, hname, htext⟩
  · rw [hplace, hp.index, Nat.add_assoc]
  · rw [hp.ahead, List.getElem?_append_right (Nat.le_add_right _ _), Nat.add_sub_cancel_left, hl]

/-- Sites that stand further and further on from a cursor: of names that are ahead, or of
missing ones that were found. -/
structure Sited (c : Cursor) (found : List Finding) (xs : List (String × Edge)) : Prop where
  ordered : xs.Pairwise fun x y => x.2.token < y.2.token
  ahead : ∀ x ∈ xs, c.index ≤ x.2.token
  named : ∀ x ∈ xs, StandsAhead c x ∨ x.1 = "" ∧ hasFault found = true

namespace Sited

variable {c d : Cursor} {ls : List Lexeme} {f g : List Finding} {xs ys : List (String × Edge)}

theorem nil (c : Cursor) (f : List Finding) : Sited c f [] :=
  ⟨.nil, fun _ h => absurd h List.not_mem_nil, fun _ h => absurd h List.not_mem_nil⟩

/-- A fault that is found somewhere is found as a whole. -/
theorem mono (h : Sited c f xs) (hf : hasFault f = true → hasFault g = true) : Sited c g xs :=
  ⟨h.ordered, h.ahead, fun x hx => (h.named x hx).imp id (.imp id hf)⟩

/-- Sites as they are seen from further behind. -/
theorem behind (h : Sited d f xs) (hp : c.Passes ls d) : Sited c f xs := by
  have hle : c.index ≤ d.index := hp.index ▸ Nat.le_add_right _ _
  exact ⟨h.ordered, fun x hx => Nat.le_trans hle (h.ahead x hx),
    fun x hx => (h.named x hx).imp (·.behind hp) id⟩

/-- Sites that were passed, and those from there on. -/
theorem append (hx : Sited c f xs) (hlt : ∀ x ∈ xs, x.2.token < d.index) (hp : c.Passes ls d)
    (hy : Sited d f ys) : Sited c f (xs ++ ys) where
  ordered := List.pairwise_append.2 ⟨hx.ordered, hy.ordered,
    fun x h y h' => Nat.lt_of_lt_of_le (hlt x h) (hy.ahead y h')⟩
  ahead := List.forall_mem_append.2 ⟨hx.ahead, (hy.behind hp).ahead⟩
  named := List.forall_mem_append.2 ⟨hx.named, (hy.behind hp).named⟩

end Sited

/-- The types that a parser declares are sited from a cursor on. -/
def Sites {α : Type} (types : α → List Declared) (p : Parser α) (c : Cursor) : Prop :=
  Sited c (p c).found (allSites (types (p c).value))

/-- At a cursor a parser declares no types. -/
def DeclaresNone {α : Type} (types : α → List Declared) (p : Parser α) (c : Cursor) : Prop :=
  types (p c).value = []

namespace DeclaresNone

variable {α β γ : Type} {types : α → List Declared} {p q : Parser α} {c : Cursor}

theorem pure {a : α} (h : types a = []) : DeclaresNone types (Pure.pure a : Parser α) c := h

theorem bind {r : Parser β} {f : β → Parser α} (h : DeclaresNone types (f (r c).value) (r c).rest) :
    DeclaresNone types (r >>= f) c := h

theorem look {k : Cursor → γ} {f : γ → Parser α} (h : DeclaresNone types (f (k c)) c) :
    DeclaresNone types (Parser.look k >>= f) c := h

theorem ite {b : Prop} [Decidable b] (hp : b → DeclaresNone types p c)
    (hq : ¬b → DeclaresNone types q c) : DeclaresNone types (if b then p else q) c := by
  split
  · exact hp ‹_›
  · exact hq ‹_›

/-- What declares no type has no sites. -/
theorem sites (h : DeclaresNone types p c) : Sites types p c := by
  rw [Sites, h]
  exact .nil c _

end DeclaresNone

namespace Sites

variable {α β γ : Type} {types : α → List Declared} {types' : β → List Declared} {p q : Parser α}
  {c : Cursor}

theorem nothing {a : α} (h : types a = []) : Sites types (pure a : Parser α) c :=
  DeclaresNone.sites (.pure h)

/-- The sites of the second parser lie behind what the first one passed. -/
theorem bind {r : Parser β} {f : β → Parser α} (hr : (r c).Passed c)
    (h : Sites types (f (r c).value) (r c).rest) : Sites types (r >>= f) c := by
  obtain ⟨ls, hp⟩ := hr.passes
  refine (Sited.behind h hp).mono fun hf => ?_
  rw [bind_apply, Step.before, hasFault_append, hf, Bool.or_true]

theorem look {k : Cursor → γ} {f : γ → Parser α} (h : Sites types (f (k c)) c) :
    Sites types (Parser.look k >>= f) c := h

theorem ite {b : Prop} [Decidable b] (hp : b → Sites types p c)
    (hq : ¬b → Sites types q c) : Sites types (if b then p else q) c := by
  split
  · exact hp ‹_›
  · exact hq ‹_›

theorem map {f : α → β} (h : Sites types p c) (hf : ∀ a, types' (f a) = types a) :
    Sites types' (p >>= fun a => Pure.pure (f a)) c := by
  rw [Sites, bindPure_apply, Step.map, hf]
  exact h

theorem of_eq (h : p c = q c) (hq : Sites types q c) : Sites types p c := by rwa [Sites, h]

/-- What is declared before something else. -/
theorem before {f : α → Parser β} (h : Sites types p c)
    (hv : types' (f (p c).value (p c).rest).value = types (p c).value) :
    Sites types' (p >>= f) c := by
  rw [Sites, bind_apply, Step.before, hv]
  exact Sited.mono h fun hf => by rw [hasFault_append, hf, Bool.true_or]

/-- What one parser declares, and what the next one does. -/
theorem append {types : List γ → List Declared} {p q : Parser (List γ)} {c : Cursor}
    (happend : ∀ as bs, types (as ++ bs) = types as ++ types bs) (hplaces : Places types p c)
    (hpasses : ∃ ls, c.Passes ls (p c).rest) (hp : Sites types p c)
    (hq : Sites types q (p c).rest) :
    Sites types (p >>= fun as => q >>= fun bs => Pure.pure (as ++ bs)) c := by
  have hall : (p >>= fun as => q >>= fun bs => Pure.pure (as ++ bs)) c
      = ⟨(p c).value ++ (q (p c).rest).value, (q (p c).rest).rest,
          (p c).found ++ (q (p c).rest).found⟩ := by
    rw [bind_apply, bindPure_apply]
    rfl
  obtain ⟨ls, hl⟩ := hpasses
  have hlt : ∀ x ∈ allSites (types (p c).value), x.2.token < (p c).rest.index := fun x hx => by
    have hmem : x.2 ∈ (allSites (types (p c).value)).map (·.2) := List.mem_map_of_mem hx
    rw [TypeSymbol.map_allSites] at hmem
    obtain ⟨t, ht, he⟩ := TypeSymbol.mem_allPlaces.1 hmem
    exact hplaces t ht _ he
  rw [Sites, hall, happend, TypeSymbol.allSites_append]
  refine Sited.append (hp.mono fun hf => ?_) hlt hl (hq.mono fun hf => ?_)
  · rw [hasFault_append, hf, Bool.true_or]
  · rw [hasFault_append, hf, Bool.or_true]

end Sites

/-! ### Types -/

/-- A name that is next stands ahead. -/
theorem standsAhead_name {c : Cursor} {l : Lexeme} {ls : List Lexeme} (h : c.ahead = l :: ls)
    (hn : c.atName = true) : StandsAhead c (l.text, .start c.index) := by
  refine ⟨0, l, rfl, by rw [h]; rfl, ?_, rfl⟩
  rw [Cursor.atName, Cursor.head?, h] at hn
  exact hn

/-- **The types in a body** have their sites in it, in order. -/
theorem sites_typeBody {entries : EntryParser} {c : Cursor}
    (he : ∀ name d, Sites entryTypes (entries name) d) (kind : TypeKind) (name : String)
    (place : Edge) : Sites entryTypes (typeBody entries kind name place) c := by
  refine .bind (eat_passed "\x7b" c) <| .ite (fun _ => ?_) fun _ => DeclaresNone.sites <|
    .bind <| .ite (fun _ => ?_) fun _ => .bind <| .pure rfl
  · split
    · exact .bind (walks_enumMembers true _).passed <| .before
        (.nothing (entryTypes_map_member _)) rfl
    · exact .before (he name _) rfl
  · split
    · exact .bind <| .pure rfl
    · exact .pure rfl

/-- The name of a type that is declared at a cursor is ahead, or it is missing. -/
theorem sited_declaredName {c : Cursor} (hc : atTypeKeyword c = true) :
    Sited c (declaredName c).found [(declaredName c).value] := by
  have hk : MovesAt true typeKeyword c := movesAt_typeKeyword hc
  obtain ⟨ls, hp⟩ := hk.walks.passed.passes
  have hle : c.index ≤ (typeKeyword c).rest.index := hp.index ▸ Nat.le_add_right _ _
  obtain ⟨hn, l, ms, ha, hname⟩ | ⟨-, hname⟩ := name?_cases (typeKeyword c).rest
  · rw [declaredName, typeName_of_some hname]
    refine ⟨List.pairwise_singleton _ _, ?_, ?_⟩
    · exact List.forall_mem_singleton.2 hle
    · exact List.forall_mem_singleton.2 (.inl ((standsAhead_name ha hn).behind hp))
  · rw [declaredName, typeName_of_none hname]
    refine ⟨List.pairwise_singleton _ _, ?_, ?_⟩
    · exact List.forall_mem_singleton.2 (Nat.le_refl _)
    · exact List.forall_mem_singleton.2 (.inr ⟨rfl, rfl⟩)

/-- **A type is sited at its name**, before the types nested in it. -/
theorem sites_typeDeclaration {entries : EntryParser} {c : Cursor}
    (he : ∀ name d, Sites entryTypes (entries name) d) (namespaceName : Option String)
    (mods : List String) (hc : atTypeKeyword c = true) :
    Sites (fun t => [t]) (typeDeclaration entries namespaceName mods) c := by
  have hk : MovesAt true typeKeyword c := movesAt_typeKeyword hc
  have hhead : Walk true c _ (bodyStart c) :=
    .append hk.walks <| .append (walks_typeName _ true _) <|
      .append (walks_typeParameters? true _) <|
        .append (walksAt_declaredParameters true hc) (walks_bases true _)
  obtain ⟨ls, hp⟩ := hhead.passed.passes
  have hlt : (declaredName c).value.2.token < (bodyStart c).index :=
    Nat.lt_of_lt_of_le (typeName_place_lt hk.index_lt) (declaredName_le_bodyStart hc)
  have hbody : Sites entryTypes (typeBody entries (typeKeyword c).value (declaredName c).value.1
      (declaredName c).value.2) (bodyStart c) := sites_typeBody he _ _ _
  have hfound : (typeDeclaration entries namespaceName mods c).found
      = (typeKeyword c).found ++ ((declaredName c).found
        ++ ((typeParameters? (declaredName c).rest).found ++ ((declaredParameters c).found
          ++ ((bases (declaredParameters c).rest).found
            ++ ((typeBody entries (typeKeyword c).value (declaredName c).value.1
              (declaredName c).value.2 (bodyStart c)).found ++ []))))) := rfl
  show Sited c _ ((declaredName c).value :: (allSites _ ++ []))
  rw [List.append_nil, hfound]
  refine Sited.append ((sited_declaredName hc).mono fun hf => ?_)
    (List.forall_mem_singleton.2 hlt) hp (Sited.mono hbody fun hf => ?_)
  · simp only [hasFault_append, hf, Bool.true_or, Bool.or_true]
  · simp only [hasFault_append, hf, Bool.true_or, Bool.or_true]

/-- **A delegate is sited at its name.** -/
theorem sites_delegateDeclaration {c : Cursor} (namespaceName : Option String)
    (hc : c.atKeyword "delegate" = true) :
    Sites Option.toList (delegateDeclaration namespaceName) c := by
  have hm : MovesAt true advance c := movesAt_advance_of_atKeyword hc
  refine .bind hm.walks.passed <|
    .bind (walks_typeReference true _).passed <| .ite (fun _ => .look ?_) fun _ =>
    DeclaresNone.sites <| .bind <| .bind <| .pure rfl
  generalize (typeReference (advance c).rest).rest = d
  obtain ⟨hn, l, ls, ha, hname⟩ | ⟨-, hname⟩ := name?_cases d
  · have hall : Sited d [] [(l.text, Edge.start d.index)] :=
      ⟨List.pairwise_singleton _ _, List.forall_mem_singleton.2 (Nat.le_refl _),
        List.forall_mem_singleton.2 (.inl (standsAhead_name ha hn))⟩
    rw [Sites, bind_apply, hname]
    exact hall.mono fun hf => by cases hf
  · refine DeclaresNone.sites <| .bind ?_
    rw [hname]
    exact .bind <| .bind <| .pure rfl

/-! ### Members -/

/-- A member that starts with a type declares no type. -/
theorem declaresNone_typedMember {symbol : MemberKind → String → Entry}
    (hs : ∀ k n, ∃ m, symbol k n = .member m) (c : Cursor) :
    DeclaresNone entryTypes (typedMember symbol) c := by
  have one (k : MemberKind) (n : String) (d : Cursor) :
      DeclaresNone entryTypes (pure [symbol k n]) d := .pure <|
    entryTypes_of_members fun e he => List.mem_singleton.1 he ▸ hs k n
  refine .look <| .ite (fun _ => .bind <| one _ _ _) fun _ => ?_
  refine .look <| .ite (fun _ => .bind <| one _ _ _) fun _ => ?_
  refine .look <| .ite (fun _ => .bind <| .bind <| .bind <| .pure rfl) fun _ => .bind ?_
  split
  · exact .bind <| .bind <| .pure rfl
  · refine .look <| .ite (fun _ => .bind <| one _ _ _) fun _ => ?_
    refine .look <| .ite (fun _ => .bind <| one _ _ _) fun _ => .bind <| .bind <| .pure ?_
    refine entryTypes_of_members fun e he => ?_
    obtain ⟨n, -, rfl⟩ := List.mem_map.1 he
    exact hs _ n

/-- A member has the sites of the types that are nested in it. -/
theorem sites_member {entries : EntryParser} (he : ∀ name d, Sites entryTypes (entries name) d)
    (owner : String) (c : Cursor) : Sites entryTypes (member entries owner) c := by
  have ofOption {p : Parser (Option Declared)} {d : Cursor} (h : Sites Option.toList p d) :
      Sites entryTypes (p >>= fun o => pure (o.map Entry.nested).toList) d :=
    .map h fun o => by cases o <;> rfl
  refine .bind (walks_attributes true c).passed <| .bind (walks_modifiers true _).passed <|
    .look <| .ite (fun _ => .nothing rfl) fun _ => ?_
  refine .look <| .ite (fun hc => .map (sites_typeDeclaration he _ _ hc) fun _ => rfl) fun _ => ?_
  refine .look <| .ite (fun hc => ofOption (sites_delegateDeclaration _ hc)) fun _ => ?_
  refine DeclaresNone.sites <| .look <| .ite (fun _ => .bind <| .pure rfl) fun _ => ?_
  refine .look <| .ite (fun _ => .bind <| .pure ?_) fun _ => ?_
  · exact entryTypes_of_members fun e he => by
      obtain ⟨n, -, rfl⟩ := Option.map_eq_some_iff.1 (Option.mem_toList.1 he)
      exact ⟨_, rfl⟩
  refine .look <| .ite (fun _ => .bind <| .pure rfl) fun _ => ?_
  refine .look <| .ite (fun _ => .bind <| .pure rfl) fun _ => ?_
  refine .look <| .bind <|
    .ite (fun _ => declaresNone_typedMember (fun _ _ => ⟨_, rfl⟩) _) fun _ => ?_
  exact .bind <| .bind <| .pure rfl

/-- The entries of types are asked only further on. -/
theorem sites_memberTurn {c : Cursor} (owner : String)
    (h : ∀ name d, d.remaining < c.remaining → Sites entryTypes (memberList name) d) :
    Sites entryTypes (memberTurn owner) c := by
  have hsites (name : String) (d : Cursor) :
      Sites entryTypes (below c.remaining (memberList name)) d := by
    by_cases hd : d.remaining < c.remaining
    · exact .of_eq (dif_pos hd) (h name d hd)
    · exact .of_eq (q := pure []) (dif_neg hd) (.nothing rfl)
  have hmember : Sites entryTypes (member memberList owner) c :=
    .of_eq (member_congr (agreeBelow_below memberList c.remaining) (Nat.le_refl _) owner).symm
      (sites_member hsites owner c)
  unfold Sites memberTurn
  dsimp only
  split
  · exact Sited.mono hmember fun hf => by rw [hasFault_append, hf, Bool.true_or]
  · exact hmember

/-- A turn of the members passes lexemes. -/
theorem passes_memberTurn (owner : String) (c : Cursor) :
    ∃ ls, c.Passes ls (memberTurn owner c).rest := by
  unfold memberTurn
  dsimp only
  split
  · exact ⟨_, c.passes_next⟩
  · exact (walks_member walks_memberList owner true c).passed.passes

/-- **The types nested in a type** are sited in its body. -/
theorem sites_memberList (owner : String) (c : Cursor) :
    Sites entryTypes (memberList owner) c := by
  induction hn : c.remaining using Nat.strongRecOn generalizing owner c with
  | ind n ih =>
    subst hn
    refine .of_eq (memberList_eq owner c) (.look <| .ite (fun _ => .nothing rfl) fun hc => ?_)
    have he : c.atEnd = false := by simp_all
    exact .append entryTypes_append
      (places_memberTurn owner fun name d _ => places_memberList name d)
      (passes_memberTurn owner c) (sites_memberTurn owner fun name d hd => ih _ hd name d rfl)
      (ih _ (memberTurn_remaining_lt owner he) _ _ rfl)

/-! ### Files -/

theorem sites_namespaceMember {c : Cursor} (namespaceName : Option String) :
    Sites itemTypes (namespaceMember namespaceName) c := by
  have ofOption {p : Parser (Option Declared)} {d : Cursor} (h : Sites Option.toList p d) :
      Sites itemTypes (p >>= fun o => pure (o.map Item.type).toList) d :=
    .map h fun o => by cases o <;> rfl
  refine .bind (walks_attributes true c).passed <| .look <| .ite (fun _ => .nothing rfl) fun _ =>
    .bind (walks_modifiers true _).passed <| .look <|
    .ite (fun hc => .map (sites_typeDeclaration sites_memberList _ _ hc) fun _ => rfl) fun _ => ?_
  refine .look <| .ite (fun hc => ofOption (sites_delegateDeclaration _ hc)) fun _ => ?_
  exact DeclaresNone.sites <| .bind <| .bind <| .pure rfl

/-- A using declares no type. -/
theorem declaresNone_placedUsing (late : Bool) (c : Cursor) :
    DeclaresNone itemTypes (placedUsing late) c := by
  have directive (d : Cursor) : DeclaresNone itemTypes usingDirective d := by
    refine .look <| .look <| .ite (fun _ => .bind <| .bind ?_) fun _ => ?_
    all_goals
      exact .bind <| .bind <| .ite (fun _ => .bind <| .bind <| .pure rfl) fun _ =>
        .bind <| .pure rfl
  exact .ite (fun _ => .bind <| directive _) fun _ => directive _

theorem sites_namespaceDeclaration {items : ItemParser} {c : Cursor} (place : NamespacePlace)
    (h : ∀ name d, d.remaining < c.remaining → Sites itemTypes (items name) d)
    (hc : c.atKeyword "namespace" = true) :
    Sites itemTypes (namespaceDeclaration items place) c := by
  have hm : MovesAt true advance c := movesAt_advance_of_atKeyword hc
  refine .look <| .bind hm.walks.passed <|
    .bind (walks_namespacePath true _).passed <| .bind (eat_passed ";" _) <|
    .ite (fun _ => DeclaresNone.sites <| .bind ?_) fun _ => .bind (eat_passed "\x7b" _) <|
    .ite (fun _ => ?_) fun _ => DeclaresNone.sites <| .bind <| .pure rfl
  · dsimp only
    split
    · exact .bind <| .pure rfl
    · exact .pure rfl
  · refine h _ _ (Nat.lt_of_le_of_lt ?_ (Cursor.remaining_next_lt (Cursor.atEnd_of_any hc)))
    exact Nat.le_trans (eat_remaining_le _ _) <| Nat.le_trans (eat_remaining_le _ _) <|
      Walk.remaining_le (walks_namespacePath true c.next)

theorem sites_namespaceTurn {c : Cursor} (full : String) (late : Bool)
    (h : ∀ name d, d.remaining < c.remaining → Sites itemTypes (namespaceItems name false) d) :
    Sites itemTypes (namespaceTurn full late) c :=
  .of_eq (namespaceItem_eq _ full late c) <| .look <|
    .ite (fun _ => (declaresNone_placedUsing late c).sites) fun _ => .look <|
    .ite (fun hk => sites_namespaceDeclaration _ h hk) fun _ => sites_namespaceMember _

/-- **The types of a namespace** have their sites in its block, in order. -/
theorem sites_namespaceItems (full : String) (late : Bool) (c : Cursor) :
    Sites itemTypes (namespaceItems full late) c := by
  induction hn : c.remaining using Nat.strongRecOn generalizing full late c with
  | ind n ih =>
    subst hn
    refine .of_eq (namespaceItems_eq full late c) (.look <|
      .ite (fun _ => DeclaresNone.sites <| .bind <| .bind <| .pure rfl) fun hb => .look <|
      .ite (fun _ => DeclaresNone.sites <| .bind <| .pure rfl) fun he => .look ?_)
    have hm := movesAt_namespaceItem full late (walksIn_namespaceItems c.remaining)
      (Bool.eq_false_iff.2 hb) (Bool.eq_false_iff.2 he)
    have hturn : Sites itemTypes (namespaceTurn full late) c :=
      sites_namespaceTurn full late fun name d hd => ih _ hd _ _ d rfl
    exact .append itemTypes_append
      (places_namespaceTurn full late fun name d _ => places_namespaceItems name false d)
      hm.walks.passed.passes hturn (ih _ (Walk.remaining_lt hm.walks hm.index_lt) _ _ _ rfl)

theorem sites_fileItem (fileNamespace : Option String) (late : Bool) (c : Cursor) :
    Sites itemTypes (fileItem fileNamespace late) c := by
  unfold Sites fileItem
  split
  · exact (declaresNone_placedUsing late c).sites
  split
  · exact .nil c _
  split
  · exact sites_namespaceDeclaration _ (fun name d _ => sites_namespaceItems name false d) ‹_›
  split
  · exact .nil c _
  · exact sites_namespaceMember _

/-- **The types of a file are sited** in the order of the text. -/
theorem sites_fileItems (fileNamespace : Option String) (late : Bool) (c : Cursor) :
    Sites itemTypes (fileItems fileNamespace late) c := by
  induction hn : c.remaining using Nat.strongRecOn generalizing fileNamespace late c with
  | ind n ih =>
    subst hn
    cases he : c.atEnd with
    | true =>
      have hnone : fileItems fileNamespace late c = (pure [] : Parser (List Item)) c := by
        rw [fileItems, he, if_pos rfl]
        rfl
      exact .of_eq hnone (.nothing rfl)
    | false =>
      have hm := movesAt_fileItem fileNamespace late he
      refine .of_eq (eq_bind_of_goesOn (goesOn_fileItems fileNamespace late he)) ?_
      exact .append itemTypes_append (places_fileItem _ _ c) hm.walks.passed.passes
        (sites_fileItem _ _ c) (ih _ (Walk.remaining_lt hm.walks hm.index_lt) _ _ _ rfl)

end Parser
end Outline
