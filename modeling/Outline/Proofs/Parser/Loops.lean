/-
# Loops go on

The loops of the parser are recursions that stop where nothing is left to pass.  They
never stop for that: each turn passes a token at least, so a loop is exactly its turn
followed by itself, without any check that there was progress.  A list of members and
a namespace may hold more of their kind, and these are parsed by the same loops.

| loop | a turn passes a token because |
| --- | --- |
| `fileItems`, `namespaceItems` | an item is never empty |
| `memberList` | what is no member is passed by itself |
| `enumMembers` | a comma is passed, or a token that starts no member |
| `moreFields` | a comma is passed |
| `operatorSign` | a sign is passed |
-/

import Outline.Proofs.Parser.Declarations

namespace Outline
namespace Parser

/-- What follows a step may be replaced where the step ends. -/
theorem bind_congr {α β : Type} {p : Parser α} {f g : α → Parser β} {c : Cursor}
    (h : f (p c).value (p c).rest = g (p c).value (p c).rest) : (p >>= f) c = (p >>= g) c := by
  rw [bind_apply, bind_apply, h]

/-- A step may be replaced by one that comes to the same. -/
theorem bind_congr_left {α β : Type} {p q : Parser α} (f : α → Parser β) {c : Cursor}
    (h : p c = q c) : (p >>= f) c = (q >>= f) c := by rw [bind_apply, bind_apply, h]

/-- A step that finds nothing, before another one. -/
theorem bind_of_eq {α β : Type} {p : Parser α} {f : α → Parser β} {c d : Cursor} {a : α}
    (h : p c = ⟨a, d, []⟩) : (p >>= f) c = f a d := by
  rw [bind_apply, h]
  rfl

theorem look_congr {α γ : Type} {k : Cursor → γ} {f g : γ → Parser α} {c : Cursor}
    (h : f (k c) c = g (k c) c) : (look k >>= f) c = (look k >>= g) c := bind_congr h

theorem ite_congr {α : Type} {b : Prop} [Decidable b] {p q p' q' : Parser α} {c : Cursor}
    (h : b → p c = p' c) (h' : ¬b → q c = q' c) :
    (if b then p else q) c = (if b then p' else q') c := by
  split
  · exact h ‹_›
  · exact h' ‹_›

/-- A branch on what is seen, where it is seen. -/
theorem lookIf_of_true {α : Type} {k : Cursor → Bool} {p q : Parser α} {c : Cursor}
    (h : k c = true) : (look k >>= fun b => if b = true then p else q) c = p c := by
  rw [bind_apply]
  simp only [look, h, if_true]
  rfl

theorem lookIf_of_false {α : Type} {k : Cursor → Bool} {p q : Parser α} {c : Cursor}
    (h : k c = false) : (look k >>= fun b => if b = true then p else q) c = q c := by
  rw [bind_apply]
  simp only [look, h, Bool.false_eq_true, if_false]
  rfl

/-- A step that is one parser's or another's by what is seen. -/
theorem eq_lookIf {α : Type} {k : Cursor → Bool} {p q : Parser α} {c : Cursor} {s : Step α}
    (ht : k c = true → s = p c) (he : k c = false → s = q c) :
    s = (look k >>= fun b => if b = true then p else q) c := by
  cases h : k c with
  | true => rw [lookIf_of_true h, ht h]
  | false => rw [lookIf_of_false h, he h]

/-- A value that is mapped in the end. -/
theorem bindPure_apply {α β : Type} (p : Parser α) (k : α → β) (c : Cursor) :
    (p >>= fun a => pure (k a)) c = (p c).map k := by
  simp [bind_apply, pure_apply, Step.before, Step.map]

/-- A parser that goes on only if the one before says so. -/
theorem bindIf_apply {α : Type} (p : Parser Bool) (q : Parser α) (a : α) (c : Cursor) :
    (p >>= fun b => if b = true then q else pure a) c
      = if (p c).value = true then (q (p c).rest).before (p c).found
        else ⟨a, (p c).rest, (p c).found⟩ := by
  rw [bind_apply]
  split
  · rfl
  · simp [Step.before, pure_apply]

/-! ### Members -/

/-- Entries that are the same where less than `n` lexemes are left. -/
def EntryParser.AgreeBelow (entries entries' : EntryParser) (n : Nat) : Prop :=
  ∀ name d, d.remaining < n → entries name d = entries' name d

/-- A parser that is asked only where less than `n` lexemes are left. -/
def below {α : Type} (n : Nat) (p : Parser (List α)) : Parser (List α) := fun d =>
  if _h : d.remaining < n then p d else ⟨[], d, []⟩

/-- A parser that is cut off agrees with itself as long as enough lexemes are left. -/
theorem agreeBelow_below (entries : EntryParser) (n : Nat) :
    EntryParser.AgreeBelow (fun name => below n (entries name)) entries n :=
  fun _ _ hd => dif_pos hd

/-- A body calls its entries behind its brace, where fewer lexemes are left. -/
theorem typeBody_congr {entries entries' : EntryParser} {c : Cursor} {n : Nat}
    (h : entries.AgreeBelow entries' n) (hn : c.remaining ≤ n) (kind : TypeKind) (name : String)
    (place : Edge) : typeBody entries kind name place c = typeBody entries' kind name place c := by
  unfold typeBody
  cases hb : c.atPunct "\x7b" with
  | false => rw [eat_bind_of_not_atPunct hb, eat_bind_of_not_atPunct hb]; rfl
  | true =>
    rw [eat_bind_of_atPunct hb, eat_bind_of_atPunct hb]
    have hlt := Cursor.remaining_next_lt (Cursor.atEnd_of_any hb)
    simp only [if_true]
    by_cases hk : kind = .enum
    · simp only [hk, if_true]
    · simp only [hk, if_false]
      exact bind_congr_left _ (h name c.next (Nat.lt_of_lt_of_le hlt hn))

theorem typeDeclaration_congr {entries entries' : EntryParser} {c : Cursor} {n : Nat}
    (h : entries.AgreeBelow entries' n) (hn : c.remaining ≤ n) (hc : atTypeKeyword c = true)
    (namespaceName : Option String) (mods : List String) :
    typeDeclaration entries namespaceName mods c
      = typeDeclaration entries' namespaceName mods c := by
  have hk : WalksAt true typeKeyword c := (movesAt_typeKeyword hc).walks
  have hp := typeName_place hk.index_le
  refine look_congr <| bind_congr <| bind_congr <| bind_congr ?_
  have ha := walks_typeParameters? true (typeName c.index (typeKeyword c).rest).rest
  have hr : WalksAt true (primaryParameters (typeKeyword c).value
      (typeName c.index (typeKeyword c).rest).value.2)
      (typeParameters? (typeName c.index (typeKeyword c).rest).rest).rest :=
    walksAt_primaryParameters _ (Nat.le_trans hp ha.index_le)
  have hb := walks_bases true (primaryParameters (typeKeyword c).value
    (typeName c.index (typeKeyword c).rest).value.2
    (typeParameters? (typeName c.index (typeKeyword c).rest).rest).rest).rest
  refine bind_congr <| bind_congr <| bind_congr_left _ (typeBody_congr h ?_ _ _ _)
  exact Nat.le_trans (Walk.remaining_le hb) <| Nat.le_trans (Walk.remaining_le hr) <|
    Nat.le_trans (Walk.remaining_le ha) <|
    Nat.le_trans (Walk.remaining_le (walks_typeName c.index true _)) <|
    Nat.le_trans (Walk.remaining_le hk) hn

/-- **A member** calls its entries further on only, so they matter there only. -/
theorem member_congr {entries entries' : EntryParser} {c : Cursor} {n : Nat}
    (h : entries.AgreeBelow entries' n) (hn : c.remaining ≤ n) (owner : String) :
    member entries owner c = member entries' owner c := by
  have ha := Walk.remaining_le (walks_attributes true c)
  have hm := Walk.remaining_le (walks_modifiers true (attributes c).rest)
  refine bind_congr <| bind_congr <| look_congr <| ite_congr (fun _ => rfl) fun _ => ?_
  refine look_congr <| ite_congr (fun hc => bind_congr_left _ ?_) fun _ => rfl
  exact typeDeclaration_congr h (Nat.le_trans hm (Nat.le_trans ha hn)) hc none _

/-- A turn of a loop passes a token, and the loop is the turn with the next one after it. -/
structure GoesOn {α : Type} (loop next turn : Parser (List α)) (c : Cursor) : Prop where
  advances : c.index < (turn c).rest.index
  eq : loop c = ((next (turn c).rest).map ((turn c).value ++ ·)).before (turn c).found

/-- A loop that goes on, as one parser after another. -/
theorem eq_bind_of_goesOn {α : Type} {loop next turn : Parser (List α)} {c : Cursor}
    (h : GoesOn loop next turn c) :
    loop c = (turn >>= fun inside => next >>= fun more => pure (inside ++ more)) c := by
  rw [h.eq, bind_apply]
  exact congrArg _ (bindPure_apply next _ _).symm

/-- A member; the next lexeme is passed if it starts none. -/
def memberTurn (owner : String) : Parser (List Entry) := fun c =>
  let s := member memberList owner c
  if s.rest.index = c.index then
    ⟨s.value, c.next, s.found ++ [⟨.invalidMember c.text, .whole c.index⟩]⟩
  else s

/-- **A list of members goes on** until its closing brace or the end. -/
theorem goesOn_memberList {c : Cursor} (owner : String)
    (h : (c.atPunct "\x7d" || c.atEnd) = false) :
    GoesOn (memberList owner) (memberList owner) (memberTurn owner) c := by
  have he : c.atEnd = false := (Bool.or_eq_false_iff.1 h).2
  have hm := walks_member walks_memberList owner true c
  have hagree : EntryParser.AgreeBelow
      (fun name d => if _h : d.remaining < c.remaining then memberList name d else ⟨[], d, []⟩)
      memberList c.remaining := fun _ _ hd => dif_pos hd
  have heq := member_congr hagree (Nat.le_refl _) owner
  refine ⟨?_, ?_⟩
  · unfold memberTurn
    dsimp only
    split
    · exact Cursor.index_lt_next he
    · have := hm.index_le
      show c.index < (member memberList owner c).rest.index
      omega
  · rw [memberList, h, if_neg Bool.false_ne_true]
    unfold memberTurn
    dsimp only
    rw [heq]
    split
    · rw [dif_pos (Cursor.remaining_next_lt he)]
    · have hlt := Walk.remaining_lt hm (by have := hm.index_le; omega)
      rw [dif_pos hlt]

/-- **The members of a type** as one turn: nothing more, or a member and the rest. -/
theorem memberList_eq (owner : String) (c : Cursor) :
    memberList owner c = (do
      if ← look (fun d => d.atPunct "\x7d" || d.atEnd) then return []
      else
        let inside ← memberTurn owner
        let more ← memberList owner
        return inside ++ more : Parser (List Entry)) c := by
  refine eq_lookIf (fun h => ?_) fun h => ?_
  · rw [memberList, h, if_pos rfl]
    rfl
  · exact eq_bind_of_goesOn (goesOn_memberList owner h)

/-- A turn passes a lexeme. -/
theorem memberTurn_remaining_lt {c : Cursor} (owner : String) (h : c.atEnd = false) :
    (memberTurn owner c).rest.remaining < c.remaining := by
  have hm := walks_member walks_memberList owner true c
  unfold memberTurn
  dsimp only
  split
  · exact Cursor.remaining_next_lt h
  · exact Walk.remaining_lt hm (by have := hm.index_le; omega)

/-- A member of an enum, with its comma. -/
def enumTurn : Parser (List MemberSymbol) := fun c => (enumMember c).map (·.1.toList)

/-- Where a member of an enum ends that started at the token `n`, further on than it. -/
def EndsPast {α : Type} (n : Nat) (p : Parser α) (c : Cursor) : Prop := n < (p c).rest.index

namespace EndsPast

variable {α β : Type} {n : Nat} {p q : Parser α} {c : Cursor}

theorem bind {f : α → Parser β} (h : EndsPast n (f (p c).value) (p c).rest) :
    EndsPast n (p >>= f) c := h

theorem look {γ : Type} {k : Cursor → γ} {f : γ → Parser β} (h : EndsPast n (f (k c)) c) :
    EndsPast n (Parser.look k >>= f) c := h

theorem ite {b : Prop} [Decidable b] (hp : EndsPast n p c) (hq : EndsPast n q c) :
    EndsPast n (if b then p else q) c := by
  split
  · exact hp
  · exact hq

end EndsPast

/-- The comma of a member, or else the token that it started at, is passed. -/
theorem endsPast_enumComma {c d : Cursor} {f : List Finding} (he : c.atEnd = false)
    (h : Walk true c f d) : EndsPast c.index (enumComma c.index) d := by
  unfold EndsPast
  cases hp : d.atPunct "," with
  | true =>
    rw [enumComma_of_comma hp]
    exact Nat.lt_of_le_of_lt h.index_le (Cursor.index_lt_next (Cursor.atEnd_of_any hp))
  | false =>
    rw [enumComma_of_none hp]
    dsimp only
    split
    · rename_i hi
      obtain ⟨ls, hl⟩ := h.passed.passes
      obtain rfl := hl.eq_of_index hi
      exact Cursor.index_lt_next he
    · have := h.index_le
      omega

/-- A member of an enum ends further on than it starts. -/
theorem endsPast_enumMember {c : Cursor} (he : c.atEnd = false) :
    EndsPast c.index enumMember c := by
  have ha := walks_attributes true c
  have hn := ha.append (walks_enumName true (attributes c).rest)
  have hv := hn.append (walks_eat (p := "=") (by decide) true _)
  refine .look <| .bind <| .bind <| .bind <| .ite (.bind ?_) ?_
  · exact .bind (endsPast_enumComma he (hv.append (walks_skipExpression [","] true _)))
  · exact .bind (endsPast_enumComma he hv)

/-- **The members of an enum go on** as long as they say so. -/
theorem goesOn_enumMembers {c : Cursor} (h : (c.atPunct "\x7d" || c.atEnd) = false)
    (hgo : (enumMember c).value.2 = true) : GoesOn enumMembers enumMembers enumTurn c := by
  have hlt := endsPast_enumMember (Bool.or_eq_false_iff.1 h).2
  have hw : WalksAt true enumMember c := walksAt_enumMember (Bool.or_eq_false_iff.1 h).1
  refine ⟨hlt, ?_⟩
  rw [enumMembers, h, if_neg Bool.false_ne_true]
  dsimp only
  rw [hgo, if_pos rfl, dif_pos (Walk.remaining_lt hw hlt)]
  rfl

/-- A field after a comma passes it. -/
theorem nextField_index_lt {c : Cursor} (h : (nextField c).value ≠ none) :
    c.index < (nextField c).rest.index := by
  have tail : ∀ d : Cursor, c.index ≤ d.index → ∀ p : Parser (Option String), Walks p →
      ((eat "," >>= fun ate => if ate = true then p else pure none) d).value ≠ none →
      c.index < ((eat "," >>= fun ate => if ate = true then p else pure none) d).rest.index := by
    intro d hd p hp hv
    cases hc : d.atPunct "," with
    | false =>
      rw [eat_bind_of_not_atPunct hc] at hv
      exact absurd rfl hv
    | true =>
      rw [eat_bind_of_atPunct hc]
      have := (hp true d.next).index_le
      exact Nat.lt_of_lt_of_le (Nat.lt_of_le_of_lt hd (Cursor.index_lt_next
        (Cursor.atEnd_of_any hc))) this
  unfold nextField at h ⊢
  cases he : c.atPunct "=" with
  | false =>
    rw [eat_bind_of_not_atPunct he] at h ⊢
    exact tail c (Nat.le_refl _) _ walks_nextName h
  | true =>
    rw [eat_bind_of_atPunct he] at h ⊢
    refine tail _ ?_ _ walks_nextName h
    exact Nat.le_trans c.index_le_next (walks_skipExpression [",", ";"] true c.next).index_le

/-- The next field after a comma, with the value before it. -/
def fieldTurn : Parser (List String) := fun c => (nextField c).map (·.toList)

/-- **Fields go on** as long as there are names. -/
theorem goesOn_moreFields {c : Cursor} (hgo : (nextField c).value ≠ none) :
    GoesOn moreFields moreFields fieldTurn c := by
  have hlt := nextField_index_lt hgo
  refine ⟨hlt, ?_⟩
  rw [moreFields]
  cases hv : (nextField c).value with
  | none => exact absurd hv hgo
  | some name =>
    dsimp only
    rw [dif_pos (Walk.remaining_lt (walks_nextField true c) hlt)]
    simp only [fieldTurn, Step.map, hv]
    rfl

/-! ### Namespaces and files -/

/-- Items that are the same where less than `n` lexemes are left. -/
def ItemParser.AgreeBelow (items items' : ItemParser) (n : Nat) : Prop :=
  ∀ name d, d.remaining < n → items name d = items' name d

/-- A mark that is taken leaves no more lexemes. -/
theorem eat_remaining_le (p : String) (c : Cursor) : (eat p c).rest.remaining ≤ c.remaining := by
  cases h : c.atPunct p with
  | true =>
    rw [eat_of_atPunct h]
    exact c.remaining_next_le
  | false => exact Nat.le_of_eq (congrArg (·.rest.remaining) (eat_of_not_atPunct h))

theorem namespaceItem_congr {items items' : ItemParser} {c : Cursor}
    (h : items.AgreeBelow items' c.remaining) (full : String) (late : Bool) :
    namespaceItem items full late c = namespaceItem items' full late c := by
  unfold namespaceItem
  split
  · rfl
  split
  · rename_i hk
    refine look_congr <| bind_congr <| bind_congr ?_
    have hlt := Nat.lt_of_le_of_lt (Walk.remaining_le (walks_namespacePath true c.next))
      (Cursor.remaining_next_lt (Cursor.atEnd_of_any hk))
    refine bind_congr <| ite_congr (fun _ => rfl) fun _ => ?_
    refine bind_congr <| ite_congr (fun _ => h _ _ ?_) fun _ => rfl
    exact Nat.lt_of_le_of_lt (eat_remaining_le _ _)
      (Nat.lt_of_le_of_lt (eat_remaining_le _ _) hlt)
  · rfl

/-- An item of the block of a namespace, with the namespaces in it. -/
def namespaceTurn (full : String) (late : Bool) : Parser (List Item) :=
  namespaceItem (fun name => namespaceItems name false) full late

/-- **The items of a namespace go on** until its closing brace or the end. -/
theorem goesOn_namespaceItems {c : Cursor} (full : String) (late : Bool)
    (h : (c.atPunct "\x7d" || c.atEnd) = false) :
    GoesOn (namespaceItems full late) (namespaceItems full (late || !atUsing c))
      (namespaceTurn full late) c := by
  have hm := movesAt_namespaceItem full late (walksIn_namespaceItems c.remaining)
    (Bool.or_eq_false_iff.1 h).1 (Bool.or_eq_false_iff.1 h).2
  have hagree : ItemParser.AgreeBelow
      (fun name d => if _h : d.remaining < c.remaining then namespaceItems name false d
        else ⟨[], d, []⟩)
      (fun name => namespaceItems name false) c.remaining := fun _ _ hd => dif_pos hd
  refine ⟨hm.index_lt, ?_⟩
  rw [namespaceItems]
  simp only [Bool.or_eq_false_iff] at h
  simp only [h, Bool.false_eq_true, if_false]
  rw [namespaceItem_congr hagree, if_neg (Nat.ne_of_gt hm.index_lt),
    dif_pos (Walk.remaining_lt hm.walks hm.index_lt)]
  rfl

theorem namespaceItem_eq (items : ItemParser) (full : String) (late : Bool) (c : Cursor) :
    namespaceItem items full late c = (do
      if ← look atUsing then placedUsing late
      else if ← look (·.atKeyword "namespace") then namespaceDeclaration items (.block full)
      else namespaceMember (some full) : Parser (List Item)) c := by
  refine eq_lookIf (fun h => ?_) fun h => eq_lookIf (fun hk => ?_) fun hk => ?_
  · rw [namespaceItem, if_pos h]
  · rw [namespaceItem, h, if_neg Bool.false_ne_true, if_pos hk]
  · rw [namespaceItem, h, hk, if_neg Bool.false_ne_true, if_neg Bool.false_ne_true]

/-- **The items of a namespace** as one turn: the brace, the end, or an item and the rest. -/
theorem namespaceItems_eq (full : String) (late : Bool) (c : Cursor) :
    namespaceItems full late c = (do
      if ← look (·.atPunct "\x7d") then
        advance
        let _ ← eat ";"
        return []
      else if ← look (·.atEnd) then
        reportMissing .closeBrace
        return []
      else
        let imports ← look atUsing
        let inside ← namespaceTurn full late
        let more ← (namespaceItems full (late || !imports) : Parser _)
        return inside ++ more : Parser (List Item)) c := by
  refine eq_lookIf (fun h => ?_) fun h => eq_lookIf (fun he => ?_) fun he => ?_
  · rw [namespaceItems, if_pos h, advance_bind]
    exact (bindPure_apply (eat ";") (fun _ => []) c.next).symm
  · rw [namespaceItems, h, if_neg Bool.false_ne_true, if_pos he]
    rfl
  · exact eq_bind_of_goesOn (goesOn_namespaceItems full late (Bool.or_eq_false_iff.2 ⟨h, he⟩))

/-- A turn passes a lexeme. -/
theorem namespaceTurn_remaining_lt {c : Cursor} (full : String) (late : Bool)
    (hc : c.atPunct "\x7d" = false) (he : c.atEnd = false) :
    (namespaceTurn full late c).rest.remaining < c.remaining := by
  have hm := movesAt_namespaceItem full late (walksIn_namespaceItems c.remaining) hc he
  exact Walk.remaining_lt hm.walks hm.index_lt

/-- **The items of a file go on** until the end. -/
theorem goesOn_fileItems {c : Cursor} (fileNamespace : Option String) (late : Bool)
    (h : c.atEnd = false) :
    GoesOn (fileItems fileNamespace late)
      (fileItems (((fileItem fileNamespace late c).value.filterMap (·.fileNamespace?)).getLast?.or
        fileNamespace) (late || !(atUsing c || atAlias c || c.atPunct "\x7d")))
      (fileItem fileNamespace late) c := by
  have hm := movesAt_fileItem fileNamespace late h
  refine ⟨hm.index_lt, ?_⟩
  rw [fileItems, h, if_neg Bool.false_ne_true]
  dsimp only
  rw [if_neg (Nat.ne_of_gt hm.index_lt), dif_pos (Walk.remaining_lt hm.walks hm.index_lt)]

/-! ### Skipping -/

/-- What a skipping loop does at a cursor: it stops there or after a group that has no
end, or else it passes a token at least and goes on. -/
inductive Skips (loop : Parser Unit) (c : Cursor) : Step Unit → Prop
  | stops : Skips loop c ⟨(), c, []⟩
  | unclosed (h : (skipGroup c).value = false) :
      Skips loop c ⟨(), (skipGroup c).rest, (skipGroup c).found⟩
  | group (h : c.index < (skipGroup c).rest.index) :
      Skips loop c ((loop (skipGroup c).rest).before (skipGroup c).found)
  | next (h : c.index < c.next.index) : Skips loop c (loop c.next)

/-- A group that is closed passes a lexeme at least. -/
theorem skipGroup_index_lt {c : Cursor} (h : (skipGroup c).value = true) :
    c.index < (skipGroup c).rest.index := by
  rcases (skipGroup_passed c).passes with ⟨ls, hp⟩
  have := hp.index_add_remaining
  have := skipGroup_remaining_lt h
  omega

theorem Skips.of_closed {loop : Parser Unit} {c : Cursor} (h : (skipGroup c).value = true) :
    Skips loop c ((loop (skipGroup c).rest).before (skipGroup c).found) :=
  .group (skipGroup_index_lt h)

theorem Cursor.atEnd_of_ahead {c : Cursor} {l : Lexeme} {ls : List Lexeme}
    (h : c.ahead = l :: ls) : c.atEnd = false := by
  rw [Cursor.atEnd, h]
  rfl

/-- An expression goes on behind each group and each lexeme that is no stop. -/
theorem skips_skipExpression (stops : List String) (c : Cursor) :
    Skips (skipExpression stops) c (skipExpression stops c) := by
  fun_cases skipExpression stops c with
  | case1 => exact .stops
  | case2 => exact .stops
  | case3 => exact .stops
  | case4 l ls hc hs b hb s closed => exact .of_closed closed
  | case5 l ls hc hs b hb s closed => exact .unclosed (by simpa using closed)
  | case6 l ls hc hs hl => exact .next (Cursor.index_lt_next (Cursor.atEnd_of_ahead hc))

theorem skips_skipToBody (c : Cursor) : Skips skipToBody c (skipToBody c) := by
  fun_cases skipToBody c with
  | case1 => exact .stops
  | case2 => exact .stops
  | case3 l ls hc hs hb s closed => exact .of_closed closed
  | case4 l ls hc hs hb s closed => exact .unclosed (by simpa using closed)
  | case5 l ls hc hs hb => exact .next (Cursor.index_lt_next (Cursor.atEnd_of_ahead hc))

theorem skips_attributes (c : Cursor) : Skips attributes c (attributes c) := by
  fun_cases attributes c with
  | case1 h s closed => exact .of_closed closed
  | case2 h s closed => exact .unclosed (by simpa using closed)
  | case3 => exact .stops

theorem skips_typeSuffixes (c : Cursor) : Skips typeSuffixes c (typeSuffixes c) := by
  fun_cases typeSuffixes c with
  | case1 h => exact .next (Cursor.index_lt_next (Cursor.atEnd_of_any h))
  | case2 h hs s closed => exact .of_closed closed
  | case3 h hs s closed => exact .unclosed (by simpa using closed)
  | case4 => exact .stops

theorem skips_operatorSign (c : Cursor) : Skips operatorSign c (operatorSign c) := by
  rw [operatorSign]
  cases h : c.atOneOf ["(", "\x7b", ";"] || c.atEnd with
  | true => exact .stops
  | false =>
    have he : c.atEnd = false := (Bool.or_eq_false_iff.1 h).2
    rw [if_neg Bool.false_ne_true, dif_pos (Cursor.remaining_next_lt he)]
    exact .next (Cursor.index_lt_next he)

end Parser
end Outline
