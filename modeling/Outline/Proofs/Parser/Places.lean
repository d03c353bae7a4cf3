/-
# Where declarations and findings stand

A type stands at the start of its name or, if it has none, at the end of the word that
declares it, and so at a token that was passed (`Places`).  So does, without a fault, all
that is found in what ends with a closing brace or a semicolon, since that token is passed
after all else (`Settles`).
-/

import Outline.Proofs.Parser.Loops

namespace Outline

namespace TypeSymbol

variable {P Q : Type}

mutual

/-- The place of a type, and those of the types nested in it. -/
def places (t : TypeSymbol P) : List P :=
  match t with
  | ⟨_, _, _, _, _, _, nested, place⟩ => place :: allPlaces nested

/-- The places of types and of the types nested in them. -/
def allPlaces : List (TypeSymbol P) → List P
  | [] => []
  | t :: ts => places t ++ allPlaces ts

end

/-- A place of types is a place of one of them. -/
theorem mem_allPlaces {p : P} {ts : List (TypeSymbol P)} :
    p ∈ allPlaces ts ↔ ∃ t ∈ ts, p ∈ t.places := by
  induction ts with
  | nil => simp [allPlaces]
  | cons t ts ih => simp [allPlaces, ih]

mutual

/-- A type is mapped by what its places are mapped to. -/
theorem map_congr {f g : P → Q} : ∀ t : TypeSymbol P, (∀ p ∈ t.places, f p = g p) →
    t.map f = t.map g
  | ⟨_, _, _, _, _, _, nested, place⟩, h => by
    rw [map, map, h place (by rw [places]; exact List.mem_cons_self),
      mapAll_congr nested fun p hp => h p (by rw [places]; exact List.mem_cons_of_mem _ hp)]

theorem mapAll_congr {f g : P → Q} : ∀ ts : List (TypeSymbol P), (∀ p ∈ allPlaces ts, f p = g p) →
    mapAll f ts = mapAll g ts
  | [], _ => rfl
  | t :: ts, h => by
    rw [mapAll, mapAll, map_congr t fun p hp => h p (List.mem_append_left _ hp),
      mapAll_congr ts fun p hp => h p (List.mem_append_right _ hp)]

end

mutual

/-- A type whose places stay is the same. -/
theorem map_id : ∀ t : TypeSymbol P, t.map id = t
  | ⟨_, _, _, _, _, _, nested, _⟩ => by rw [map, mapAll_id nested, id]

theorem mapAll_id : ∀ ts : List (TypeSymbol P), mapAll id ts = ts
  | [] => rfl
  | t :: ts => by rw [mapAll, map_id t, mapAll_id ts]

end

end TypeSymbol

namespace Parser

/-! ### Types -/

/-- A type that stands, with those nested in it, at tokens before the token `n`. -/
def StandsBefore (n : Nat) (t : Declared) : Prop := ∀ e ∈ t.places, e.token < n

/-- What stands before a token stands before a later one. -/
theorem StandsBefore.mono {n k : Nat} {t : Declared} (h : StandsBefore n t) (hk : n ≤ k) :
    StandsBefore k t :=
  fun e he => Nat.lt_of_lt_of_le (h e he) hk

/-- The types that a parser declares stand at tokens that it passed. -/
def Places {α : Type} (types : α → List Declared) (p : Parser α) (c : Cursor) : Prop :=
  ∀ t ∈ types (p c).value, StandsBefore (p c).rest.index t

namespace Places

variable {α β γ : Type} {types : α → List Declared} {types' : β → List Declared} {p q : Parser α}
  {c : Cursor}

/-- Nothing is declared, so nothing stands anywhere. -/
theorem nothing {a : α} (h : types a = []) : Places types (pure a : Parser α) c := by
  intro t ht
  rw [pure_apply, h] at ht
  cases ht

/-- What the first parser declares is dropped, so only the second one counts. -/
theorem bind {r : Parser β} {f : β → Parser α} (h : Places types (f (r c).value) (r c).rest) :
    Places types (r >>= f) c := h

theorem look {k : Cursor → γ} {f : γ → Parser α} (h : Places types (f (k c)) c) :
    Places types (Parser.look k >>= f) c := h

theorem ite {b : Prop} [Decidable b] (hp : b → Places types p c)
    (hq : ¬b → Places types q c) : Places types (if b then p else q) c := by
  split
  · exact hp ‹_›
  · exact hq ‹_›

theorem map {f : α → β} (h : Places types p c) (hf : ∀ a, types' (f a) = types a) :
    Places types' (p >>= fun a => Pure.pure (f a)) c := by
  intro t ht
  rw [bindPure_apply, Step.map, hf] at ht
  exact h t ht

theorem of_eq (h : p c = q c) (hq : Places types q c) : Places types p c := by
  rwa [Places, h]

/-- What is declared before something else. -/
theorem before {f : α → Parser β} (h : Places types p c)
    (hle : (p c).rest.index ≤ (f (p c).value (p c).rest).rest.index)
    (hv : types' (f (p c).value (p c).rest).value = types (p c).value) :
    Places types' (p >>= f) c := fun t ht => (h t (hv ▸ ht)).mono hle

/-- What one parser declares, and what the next one does. -/
theorem append {types : List γ → List Declared} {p q : Parser (List γ)} {c : Cursor}
    (happend : ∀ as bs, types (as ++ bs) = types as ++ types bs) (hp : Places types p c)
    (hq : Places types q (p c).rest) (hle : (p c).rest.index ≤ (q (p c).rest).rest.index) :
    Places types (p >>= fun as => q >>= fun bs => Pure.pure (as ++ bs)) c := by
  intro t ht
  have hv : ((p >>= fun as => q >>= fun bs => Pure.pure (as ++ bs)) c).value
      = (p c).value ++ (q (p c).rest).value := rfl
  rw [hv, happend] at ht
  rcases List.mem_append.1 ht with h | h
  · exact (hp t h).mono hle
  · exact hq t h

end Places

/-- The types among entries. -/
def entryTypes (es : List Entry) : List Declared := es.filterMap (·.nested?)

/-- The types among items. -/
def itemTypes (is : List Item) : List Declared := is.filterMap (·.type?)

theorem entryTypes_append (es fs : List Entry) :
    entryTypes (es ++ fs) = entryTypes es ++ entryTypes fs := List.filterMap_append

theorem itemTypes_append (is js : List Item) :
    itemTypes (is ++ js) = itemTypes is ++ itemTypes js := List.filterMap_append

/-- Members declare no types. -/
theorem entryTypes_of_members {es : List Entry} (h : ∀ e ∈ es, ∃ m, e = .member m) :
    entryTypes es = [] :=
  List.filterMap_eq_nil_iff.2 fun e he => by
    obtain ⟨m, rfl⟩ := h e he
    rfl

theorem entryTypes_map_member (ms : List MemberSymbol) : entryTypes (ms.map .member) = [] :=
  entryTypes_of_members fun e he => by
    obtain ⟨m, -, rfl⟩ := List.mem_map.1 he
    exact ⟨m, rfl⟩

/-- A mark that is taken is passed. -/
theorem eat_index_le (p : String) (c : Cursor) : c.index ≤ (eat p c).rest.index := by
  cases h : c.atPunct p with
  | true =>
    rw [eat_of_atPunct h]
    exact c.index_le_next
  | false => exact Nat.le_of_eq (congrArg (·.rest.index) (eat_of_not_atPunct h)).symm

theorem expect_index_le (p : String) (e : Expected) (c : Cursor) :
    c.index ≤ (expect p e c).rest.index := by
  cases h : c.atPunct p with
  | true =>
    rw [expect_of_atPunct h]
    exact c.index_le_next
  | false => exact Nat.le_of_eq (congrArg (·.rest.index) (expect_of_not_atPunct h e)).symm

/-- **The types in a body** stand in front of where it ends. -/
theorem places_typeBody {entries : EntryParser} {c : Cursor}
    (he : ∀ name d, Places entryTypes (entries name) d) (kind : TypeKind) (name : String)
    (place : Edge) : Places entryTypes (typeBody entries kind name place) c := by
  refine .bind <| .ite (fun _ => ?_) fun _ => .bind <| .ite (fun _ => ?_) fun _ =>
    .bind <| .nothing rfl
  · have close (d : Cursor) :
        d.index ≤ (eat ";" (expect "\x7d" .closeBrace d).rest).rest.index :=
      Nat.le_trans (expect_index_le _ _ d) (eat_index_le _ _)
    split
    · exact .bind <| .before (.nothing (entryTypes_map_member _)) (close _) rfl
    · exact .before (he name _) (close _) rfl
  · split
    · exact .bind <| .nothing rfl
    · exact .nothing rfl

/-- The place of a name is at a token that was passed. -/
theorem typeName_place_lt {keyword : Nat} {c : Cursor} (h : keyword < c.index) :
    (typeName keyword c).value.2.token < (typeName keyword c).rest.index := by
  obtain ⟨-, l, ls, ha, hn⟩ | ⟨-, hn⟩ := name?_cases c
  · rw [typeName_of_some hn]
    exact Cursor.index_lt_next (Cursor.atEnd_of_ahead ha)
  · rw [typeName_of_none hn]
    exact h

/-- **A type stands at its name**, or at the word that declares it. -/
theorem places_typeDeclaration {entries : EntryParser} {c : Cursor} (hw : entries.Walks)
    (he : ∀ name d, Places entryTypes (entries name) d) (namespaceName : Option String)
    (mods : List String) (hc : atTypeKeyword c = true) :
    Places (fun t => [t]) (typeDeclaration entries namespaceName mods) c := by
  have hk : MovesAt true typeKeyword c := movesAt_typeKeyword hc
  have hplace : (declaredName c).value.2.token < (declaredName c).rest.index :=
    typeName_place_lt hk.index_lt
  have hhead := declaredName_le_bodyStart hc
  have hbody : WalksAt true (typeBody entries (typeKeyword c).value (declaredName c).value.1
      (declaredName c).value.2) (bodyStart c) :=
    walksAt_typeBody hw _ _ (Nat.le_trans (Nat.le_of_lt hplace) hhead)
  intro t ht
  obtain rfl := List.mem_singleton.1 ht
  intro e hmem
  rcases List.mem_cons.1 hmem with rfl | hmem
  · exact Nat.lt_of_lt_of_le hplace (Nat.le_trans hhead hbody.index_le)
  · obtain ⟨n, hn, hp⟩ := TypeSymbol.mem_allPlaces.1 hmem
    exact places_typeBody he _ _ _ n hn e hp

/-- **A delegate stands at its name.** -/
theorem places_delegateDeclaration {c : Cursor} (namespaceName : Option String) :
    Places Option.toList (delegateDeclaration namespaceName) c := by
  refine .bind <| .bind <| .ite (fun _ => .look <| .bind ?_) fun _ =>
    .bind <| .bind <| .nothing rfl
  generalize (typeReference (advance c).rest).rest = d
  obtain ⟨-, l, ls, ha, hn⟩ | ⟨-, hn⟩ := name?_cases d
  · rw [hn]
    have htail : WalksAt true (do
        let _ ← typeParameters?
        requiredParens
        constraints
        expect ";" .semicolon : Parser Unit) d.next :=
      .bind (walks_typeParameters? true _) <| .bind (walks_requiredParens true _) <|
        .bind (walks_constraints true _) <| walks_expect (by decide) _ true _
    intro t ht e he
    obtain rfl := List.mem_singleton.1 ht
    obtain rfl := List.mem_singleton.1 he
    exact Nat.lt_of_lt_of_le (Cursor.index_lt_next (Cursor.atEnd_of_ahead ha)) htail.index_le
  · rw [hn]
    exact .bind <| .bind <| .nothing rfl

/-- A member that starts with a type declares no type. -/
theorem places_typedMember {symbol : MemberKind → String → Entry}
    (hs : ∀ k n, ∃ m, symbol k n = .member m) (c : Cursor) :
    Places entryTypes (typedMember symbol) c := by
  have one (k : MemberKind) (n : String) (d : Cursor) :
      Places entryTypes (pure [symbol k n]) d := .nothing <|
    entryTypes_of_members fun e he => List.mem_singleton.1 he ▸ hs k n
  refine .look <| .ite (fun _ => .bind <| one _ _ _) fun _ => ?_
  refine .look <| .ite (fun _ => .bind <| one _ _ _) fun _ => ?_
  refine .look <| .ite (fun _ => .bind <| .bind <| .bind <| .nothing rfl) fun _ => .bind ?_
  split
  · exact .bind <| .bind <| .nothing rfl
  · refine .look <| .ite (fun _ => .bind <| one _ _ _) fun _ => ?_
    refine .look <| .ite (fun _ => .bind <| one _ _ _) fun _ => .bind <| .bind <| .nothing ?_
    refine entryTypes_of_members fun e he => ?_
    obtain ⟨n, -, rfl⟩ := List.mem_map.1 he
    exact hs _ n

/-- A member declares the types that are nested in it, and no more. -/
theorem places_member {entries : EntryParser} (hw : entries.Walks)
    (he : ∀ name d, Places entryTypes (entries name) d) (owner : String) (c : Cursor) :
    Places entryTypes (member entries owner) c := by
  have ofOption {p : Parser (Option Declared)} {d : Cursor} (h : Places Option.toList p d) :
      Places entryTypes (p >>= fun o => pure (o.map Entry.nested).toList) d :=
    .map h fun o => by cases o <;> rfl
  refine .bind <| .bind <| .look <| .ite (fun _ => .nothing rfl) fun _ => ?_
  refine .look <| .ite (fun hc => .map (places_typeDeclaration hw he _ _ hc) fun _ => rfl)
    fun _ => ?_
  refine .look <| .ite (fun _ => ofOption (places_delegateDeclaration _)) fun _ => ?_
  refine .look <| .ite (fun _ => .bind <| .nothing rfl) fun _ => ?_
  refine .look <| .ite (fun _ => .bind <| .nothing ?_) fun _ => ?_
  · exact entryTypes_of_members fun e he => by
      obtain ⟨n, -, rfl⟩ := Option.map_eq_some_iff.1 (Option.mem_toList.1 he)
      exact ⟨_, rfl⟩
  refine .look <| .ite (fun _ => .bind <| .nothing rfl) fun _ => ?_
  refine .look <| .ite (fun _ => .bind <| .nothing rfl) fun _ => ?_
  refine .look <| .bind <| .ite (fun _ => places_typedMember (fun _ _ => ⟨_, rfl⟩) _) fun _ => ?_
  exact .bind <| .bind <| .nothing rfl

/-- The entries of types are asked only further on. -/
theorem places_memberTurn {c : Cursor} (owner : String)
    (h : ∀ name d, d.remaining < c.remaining → Places entryTypes (memberList name) d) :
    Places entryTypes (memberTurn owner) c := by
  have hwalks : EntryParser.Walks fun name => below c.remaining (memberList name) :=
    .guard fun name d _ top => walks_memberList name top d
  have hplaces (name : String) (d : Cursor) :
      Places entryTypes (below c.remaining (memberList name)) d := by
    by_cases hd : d.remaining < c.remaining
    · exact .of_eq (dif_pos hd) (h name d hd)
    · exact .of_eq (q := pure []) (dif_neg hd) (.nothing rfl)
  have hmember : Places entryTypes (member memberList owner) c :=
    .of_eq (member_congr (agreeBelow_below memberList c.remaining) (Nat.le_refl _) owner).symm
      (places_member hwalks hplaces owner c)
  intro t ht
  unfold memberTurn at ht ⊢
  dsimp only at ht ⊢
  split at ht
  · rename_i hi
    rw [if_pos hi]
    exact (hmember t ht).mono (hi ▸ c.index_le_next)
  · rename_i hi
    rw [if_neg hi]
    exact hmember t ht

/-- **The types nested in a type** stand at tokens of its body. -/
theorem places_memberList (owner : String) (c : Cursor) :
    Places entryTypes (memberList owner) c := by
  induction hn : c.remaining using Nat.strongRecOn generalizing owner c with
  | ind n ih =>
    subst hn
    refine .of_eq (memberList_eq owner c) (.look <| .ite (fun _ => .nothing rfl) fun hc => ?_)
    have he : c.atEnd = false := by simp_all
    exact .append entryTypes_append (places_memberTurn owner fun name d hd => ih _ hd name d rfl)
      (ih _ (memberTurn_remaining_lt owner he) _ _ rfl) (walks_memberList owner true _).index_le

theorem places_modifiedType {c : Cursor} (namespaceName : Option String) (mods : List String) :
    Places itemTypes (modifiedType namespaceName mods) c := by
  have ofOption {p : Parser (Option Declared)} {d : Cursor} (h : Places Option.toList p d) :
      Places itemTypes (p >>= fun o => pure (o.map Item.type).toList) d :=
    .map h fun o => by cases o <;> rfl
  refine .look <| .ite (fun hc => .map (places_typeDeclaration walks_memberList
    places_memberList _ _ hc) fun _ => rfl) fun _ => ?_
  refine .look <| .ite (fun _ => ofOption (places_delegateDeclaration _)) fun _ => ?_
  exact .bind <| .bind <| .nothing rfl

theorem places_namespaceMember {c : Cursor} (namespaceName : Option String) :
    Places itemTypes (namespaceMember namespaceName) c :=
  .bind <| .look <| .ite (fun _ => .nothing rfl) fun _ => .bind <| places_modifiedType _ _

theorem places_placedUsing {c : Cursor} (late : Bool) :
    Places itemTypes (placedUsing late) c := by
  have directive (d : Cursor) : Places itemTypes usingDirective d := by
    refine .look <| .look <| .ite (fun _ => .bind <| .bind ?_) fun _ => ?_
    all_goals
      exact .bind <| .bind <| .ite (fun _ => .bind <| .bind <| .nothing rfl) fun _ =>
        .bind <| .nothing rfl
  exact .ite (fun _ => .bind <| directive _) fun _ => directive _

/-- The types of a block stand behind the name of the namespace. -/
theorem places_namespaceDeclaration {items : ItemParser} {c : Cursor} (place : NamespacePlace)
    (h : ∀ name d, d.remaining < c.remaining → Places itemTypes (items name) d)
    (hc : c.atEnd = false) : Places itemTypes (namespaceDeclaration items place) c := by
  refine .look <| .bind <| .bind <| .bind <| .ite (fun _ => .bind ?_) fun _ =>
    .bind <| .ite (fun _ => ?_) fun _ => .bind <| .nothing rfl
  · dsimp only
    split
    · exact .bind <| .nothing rfl
    · exact .nothing rfl
  · refine h _ _ (Nat.lt_of_le_of_lt ?_ (Cursor.remaining_next_lt hc))
    exact Nat.le_trans (eat_remaining_le _ _) <| Nat.le_trans (eat_remaining_le _ _) <|
      Walk.remaining_le (walks_namespacePath true c.next)

/-- Items of a block declare types if the namespaces further on do. -/
theorem places_namespaceTurn {c : Cursor} (full : String) (late : Bool)
    (h : ∀ name d, d.remaining < c.remaining → Places itemTypes (namespaceItems name false) d) :
    Places itemTypes (namespaceTurn full late) c :=
  .of_eq (namespaceItem_eq _ full late c) <| .look <| .ite (fun _ => places_placedUsing late)
    fun _ => .look <| .ite (fun hk => places_namespaceDeclaration _ h (Cursor.atEnd_of_any hk))
    fun _ => places_namespaceMember _

theorem EndsBlock.index_le {c d : Cursor} {f : List Finding} (h : EndsBlock c f d) :
    c.index ≤ d.index := by
  cases h with
  | closed h hd =>
    exact Nat.le_trans h.index_le (Nat.le_trans (Cursor.index_le_next _) (eat_index_le ";" _))
  | missing h => exact h.index_le

/-- **The types of a namespace** stand in its block, by induction on the lexemes that are left. -/
theorem places_namespaceItems (full : String) (late : Bool) (c : Cursor) :
    Places itemTypes (namespaceItems full late) c := by
  induction hn : c.remaining using Nat.strongRecOn generalizing full late c with
  | ind n ih =>
    subst hn
    refine .of_eq (namespaceItems_eq full late c) (.look <| .ite (fun _ => .bind <| .bind <|
      .nothing rfl) fun hb => .look <| .ite (fun _ => .bind <| .nothing rfl) fun he => .look ?_)
    have hturn : Places itemTypes (namespaceTurn full late) c :=
      places_namespaceTurn full late fun name d hd => ih _ hd _ _ d rfl
    have hlt := namespaceTurn_remaining_lt full late
      (Bool.eq_false_iff.2 hb) (Bool.eq_false_iff.2 he)
    exact .append itemTypes_append hturn (ih _ hlt _ _ _ rfl)
      (endsBlock_namespaceItems _ _ _).index_le

theorem places_fileItem (fileNamespace : Option String) (late : Bool) (c : Cursor) :
    Places itemTypes (fileItem fileNamespace late) c := by
  have stray (s : Step (List Item)) (hs : s.value = []) : ∀ t ∈ itemTypes s.value,
      StandsBefore s.rest.index t := fun t ht => by rw [hs] at ht; cases ht
  unfold Places fileItem
  split
  · exact places_placedUsing late
  split
  · exact stray _ rfl
  split
  · exact places_namespaceDeclaration _ (fun name d _ => places_namespaceItems name false d)
      (Cursor.atEnd_of_any ‹_›)
  split
  · exact stray _ rfl
  · exact places_namespaceMember _

/-- **All types of a file** stand at tokens of it. -/
theorem places_fileItems (fileNamespace : Option String) (late : Bool) (c : Cursor) :
    Places itemTypes (fileItems fileNamespace late) c := by
  induction hn : c.remaining using Nat.strongRecOn generalizing fileNamespace late c with
  | ind n ih =>
    subst hn
    cases he : c.atEnd with
    | true =>
      have hnone : fileItems fileNamespace late c = (pure [] : Parser (List Item)) c := by
        rw [fileItems, he, if_pos rfl]
        rfl
      exact .of_eq hnone (.nothing rfl)
    | false =>
      have hm := movesAt_fileItem fileNamespace late he
      refine .of_eq (eq_bind_of_goesOn (goesOn_fileItems fileNamespace late he)) ?_
      exact .append itemTypes_append (places_fileItem _ _ c)
        (ih _ (Walk.remaining_lt hm.walks hm.index_lt) _ _ _ rfl) (walks_fileItems _ _ _).1.index_le

/-! ### Findings -/

/-- A mark at tokens before the token `n`. -/
def Mark.Before (m : Mark) (n : Nat) : Prop := m.first.token < n ∧ m.last.token < n

/-- What is marked up to a token is marked before any later one. -/
theorem Mark.UpTo.before {m : Mark} {n k : Nat} (h : m.UpTo n) (hk : n < k) : m.Before k := by
  obtain ⟨i, hi, rfl⟩ | ⟨e, he, rfl⟩ := h
  · exact ⟨Nat.lt_of_le_of_lt hi hk, Nat.lt_of_le_of_lt hi hk⟩
  · exact ⟨Nat.lt_of_le_of_lt he hk, Nat.lt_of_le_of_lt he hk⟩

theorem Mark.Before.mono {m : Mark} {n k : Nat} (h : m.Before n) (hk : n ≤ k) : m.Before k :=
  ⟨Nat.lt_of_lt_of_le h.1 hk, Nat.lt_of_lt_of_le h.2 hk⟩

/-- Without a fault, a parser passes a token after all that it finds. -/
def Settles {α : Type} (p : Parser α) (c : Cursor) : Prop :=
  hasFault (p c).found = false →
    c.index < (p c).rest.index ∧ ∀ x ∈ (p c).found, x.mark.Before (p c).rest.index

namespace Settles

variable {α β : Type} {p q : Parser α} {c : Cursor}

/-- Of what goes wrong nothing is asked. -/
theorem of_fault (h : hasFault (p c).found = true) : Settles p c := fun hn => by
  rw [h] at hn
  cases hn

theorem fault {f : α → Parser β} (h : hasFault (p c).found = true) : Settles (p >>= f) c :=
  of_fault (hasFault_bind h)

/-- What is found in the first parser stands before what the second one passes. -/
theorem after {f : α → Parser β} (hp : (p c).Passed c) (hf : Settles (f (p c).value) (p c).rest) :
    Settles (p >>= f) c := by
  intro hn
  obtain ⟨hlt, hx⟩ := hf (hasFault_append_eq_false.1 hn).2
  refine ⟨Nat.lt_of_le_of_lt hp.index_le hlt, fun x hmem => ?_⟩
  rcases List.mem_append.1 hmem with h | h
  · exact (hp.marked x h).before hlt
  · exact hx x h

theorem bind {f : α → Parser β} (hp : WalksAt true p c)
    (hf : Settles (f (p c).value) (p c).rest) : Settles (p >>= f) c :=
  after hp.passed hf

theorem look {γ : Type} {k : Cursor → γ} {f : γ → Parser β} (h : Settles (f (k c)) c) :
    Settles (Parser.look k >>= f) c := h

theorem ite {b : Prop} [Decidable b] (hp : b → Settles p c) (hq : ¬b → Settles q c) :
    Settles (if b then p else q) c := by
  split
  · exact hp ‹_›
  · exact hq ‹_›

theorem map {f : α → β} (h : Settles p c) : Settles (p >>= fun a => Pure.pure (f a)) c := by
  unfold Settles
  rwa [bindPure_apply]

theorem of_eq (h : p c = q c) (hq : Settles q c) : Settles p c := by rwa [Settles, h]

end Settles

theorem eat_passed (p : String) (c : Cursor) : (eat p c).Passed c := by
  cases h : c.atPunct p with
  | true =>
    rw [eat_of_atPunct h]
    exact ⟨⟨_, c.passes_next⟩, markedUpTo_nil _⟩
  | false =>
    rw [eat_of_not_atPunct h]
    exact .stay _ c

/-- A closing brace, with the semicolon that may follow it. -/
theorem settles_afterBrace {α : Type} {c : Cursor} (h : c.atPunct "\x7d" = true) (a : α) :
    Settles (advance >>= fun _ => eat ";" >>= fun _ => pure a) c := by
  intro _
  rw [advance_bind, bindPure_apply]
  refine ⟨?_, fun x hx => ?_⟩
  · exact Nat.lt_of_lt_of_le (Cursor.index_lt_next (Cursor.atEnd_of_any h)) (eat_index_le ";" _)
  · rw [Step.map, eat_found] at hx
    cases hx

/-- A closing brace that must be there. -/
theorem settles_brace {α : Type} (a : α) (c : Cursor) : Settles (do
    expect "\x7d" .closeBrace
    let _ ← eat ";"
    return a : Parser α) c := by
  cases h : c.atPunct "\x7d" with
  | true =>
    exact .of_eq (bind_congr_left _ (expect_of_atPunct h .closeBrace)) (settles_afterBrace h a)
  | false => exact .fault (hasFault_expect h _)

/-- A semicolon that ends a declaration; what is found then stands before it. -/
theorem settles_semicolon {α : Type} {p q : Parser α} {c : Cursor}
    (hp : c.atPunct ";" = true → (p c.next).rest = c.next ∧
      ∀ x ∈ (p c.next).found, x.mark.Before c.next.index)
    (hq : Settles q c) : Settles (eat ";" >>= fun b => if b = true then p else q) c := by
  cases h : c.atPunct ";" with
  | true =>
    obtain ⟨hrest, hfound⟩ := hp h
    intro _
    rw [eat_bind_of_atPunct h, if_pos rfl, hrest]
    exact ⟨Cursor.index_lt_next (Cursor.atEnd_of_any h), hfound⟩
  | false => exact .of_eq (eat_bind_of_not_atPunct h _) hq

/-- A body is ended by a brace or a semicolon, or there is a fault. -/
theorem settles_typeBody {entries : EntryParser} {c : Cursor} (hw : entries.Walks)
    (kind : TypeKind) (name : String) {place : Edge} (hp : place.token ≤ c.index) :
    Settles (typeBody entries kind name place) c := by
  refine .after (eat_passed "\x7b" c) <| .ite (fun _ => ?_) fun _ => ?_
  · split
    · exact .bind (walks_enumMembers true _) <| .bind (.pure _) (settles_brace _ _)
    · exact .bind (hw name true _) (settles_brace _ _)
  · have missing (d : Cursor) :
        Settles (do reportMissing .openBrace; return [] : Parser (List Entry)) d := .fault rfl
    by_cases hk : kind = .enum
    · simp only [if_pos hk, pure_bind, Bool.false_eq_true, if_false]
      exact missing _
    · rw [if_neg hk]
      refine settles_semicolon (fun hs => ?_) (missing _)
      have hlt := Nat.lt_of_le_of_lt (Nat.le_trans hp (eat_index_le "\x7b" c))
        (Cursor.index_lt_next (Cursor.atEnd_of_any hs))
      split
      · exact ⟨rfl, fun x hx => List.mem_singleton.1 hx ▸ ⟨hlt, hlt⟩⟩
      · exact ⟨rfl, fun x hx => absurd hx List.not_mem_nil⟩

/-- **A type** ends with a token behind all that was found, or with a fault. -/
theorem settles_typeDeclaration {entries : EntryParser} {c : Cursor} (hw : entries.Walks)
    (namespaceName : Option String) (mods : List String) (hc : atTypeKeyword c = true) :
    Settles (typeDeclaration entries namespaceName mods) c := by
  refine .look <| .bind (movesAt_typeKeyword hc).walks <| .bind (walks_typeName _ true _) <|
    .bind (walks_typeParameters? true _) <| .bind (walksAt_declaredParameters true hc) <|
    .bind (walks_bases true _) <| .map <| settles_typeBody hw _ _ ?_
  exact Nat.le_trans (declaredName_place hc) (declaredName_le_bodyStart hc)

/-- The semicolon that a declaration must end with. -/
theorem settles_expectSemicolon {α : Type} (a : α) (c : Cursor) :
    Settles (expect ";" .semicolon >>= fun _ => pure a) c := by
  cases h : c.atPunct ";" with
  | true =>
    intro _
    rw [bindPure_apply, expect_of_atPunct h]
    exact ⟨Cursor.index_lt_next (Cursor.atEnd_of_any h), fun x hx => absurd hx List.not_mem_nil⟩
  | false => exact .fault (hasFault_expect h _)

theorem settles_delegateDeclaration {c : Cursor} (namespaceName : Option String)
    (hc : c.atKeyword "delegate" = true) : Settles (delegateDeclaration namespaceName) c := by
  refine .bind (movesAt_advance_of_atKeyword hc).walks <| .bind (walks_typeReference true _) <|
    .ite (fun _ => .look <| .bind (walks_name? true _) ?_) fun _ => .fault rfl
  split
  · exact .fault rfl
  · exact .bind (walks_typeParameters? true _) <| .bind (walks_requiredParens true _) <|
      .bind (walks_constraints true _) <| settles_expectSemicolon _ _

theorem settles_modifiedType {c : Cursor} (namespaceName : Option String) (mods : List String) :
    Settles (modifiedType namespaceName mods) c :=
  .look <| .ite (fun hc => .map (settles_typeDeclaration walks_memberList _ _ hc)) fun _ =>
    .look <| .ite (fun hc => .map (settles_delegateDeclaration _ hc)) fun _ => .fault rfl

theorem settles_namespaceDeclaration {items : ItemParser} {c : Cursor} (place : NamespacePlace)
    (h : ∀ name d, Settles (items name) d) (hc : c.atKeyword "namespace" = true) :
    Settles (namespaceDeclaration items place) c := by
  refine .look <| .bind (movesAt_advance_of_atKeyword hc).walks <|
    .bind (walks_namespacePath true _) ?_
  have hle := Nat.le_trans c.index_le_next (walks_namespacePath true c.next).index_le
  refine settles_semicolon (fun hs => ?_) <| .after (eat_passed "\x7b" _) <|
    .ite (fun _ => h _ _) fun _ => .fault rfl
  have hlt := Nat.lt_of_le_of_lt hle (Cursor.index_lt_next (Cursor.atEnd_of_any hs))
  cases place.cause? with
  | none => exact ⟨rfl, fun x hx => List.mem_singleton.1 hx ▸ ⟨hlt, hlt⟩⟩
  | some cause =>
    refine ⟨rfl, fun x hx => ?_⟩
    rcases List.mem_cons.1 hx with rfl | hx
    · exact ⟨hlt, hlt⟩
    · exact List.mem_singleton.1 hx ▸ ⟨hlt, hlt⟩

/-- **The block of a namespace** ends with its brace, behind all that was found in it. -/
theorem settles_namespaceItems (full : String) (late : Bool) (c : Cursor) :
    Settles (namespaceItems full late) c := by
  induction hn : c.remaining using Nat.strongRecOn generalizing full late c with
  | ind n ih =>
    subst hn
    refine .of_eq (namespaceItems_eq full late c) (.look <|
      .ite (fun hb => settles_afterBrace hb []) fun hb => .look <|
      .ite (fun _ => .fault rfl) fun he => .look ?_)
    have hm := movesAt_namespaceItem full late (walksIn_namespaceItems c.remaining)
      (Bool.eq_false_iff.2 hb) (Bool.eq_false_iff.2 he)
    have hpassed : (namespaceTurn full late c).Passed c := hm.walks.passed
    exact .after hpassed <| .map (ih _ (Walk.remaining_lt hm.walks hm.index_lt) _ _ _ rfl)

end Parser
end Outline
