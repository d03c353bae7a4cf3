/-
# What a member leaves behind

A call of `member` that passes more than attributes declares something or reports an
error, but for two forms that are passed without a trace (`Dropped`):

| form | as in |
| --- | --- |
| modifiers with nothing after them | `class A { public }` |
| an event without a name | `class A { event; }` |

Everywhere else a missing name is reported: of a namespace, a type, a delegate, a field.
What holds of one call holds of the braces of a type: a body without errors is passed
member by member, and each leaves an entry, is attributes only, or has one of these forms
(`Body`).
-/

import Outline.Proofs.Parser.Loops
import Outline.SyntaxTree

namespace Outline
namespace Parser

open Outline.Language (Version)

/-- Whether something that was found is an error in a version of the language. -/
def hasErrorIn (version : Version) (found : List Finding) : Bool :=
  found.any fun f => (f.cause.diagnostic? version).any (·.isError)

@[simp] theorem hasErrorIn_append (version : Version) (f g : List Finding) :
    hasErrorIn version (f ++ g) = (hasErrorIn version f || hasErrorIn version g) := by
  simp [hasErrorIn]

/-- A fault is an error in every version. -/
theorem hasErrorIn_of_hasFault {found : List Finding} (h : hasFault found = true)
    (version : Version) : hasErrorIn version found = true := by
  obtain ⟨f, hf, hfault⟩ := List.any_eq_true.1 h
  obtain ⟨d, hd, herror⟩ := isError_of_isFault hfault version
  exact List.any_eq_true.2 ⟨f, hf, by rw [hd]; exact herror⟩

/-! ### Something good, or a fault -/

/-- At a cursor a parser comes to something good or finds a fault. -/
def Gives {α : Type} (good : α → Prop) (p : Parser α) (c : Cursor) : Prop :=
  good (p c).value ∨ hasFault (p c).found = true

namespace Gives

variable {α β : Type} {good : α → Prop} {p q : Parser α} {c : Cursor}

theorem pure {a : α} (h : good a) : Gives good (Pure.pure a : Parser α) c := .inl h

theorem bind {p : Parser β} {f : β → Parser α} (h : Gives good (f (p c).value) (p c).rest) :
    Gives good (p >>= f) c :=
  h.imp id fun hf => by rw [bind_apply, Step.before, hasFault_append, hf, Bool.or_true]

theorem fault {p : Parser β} {f : β → Parser α} (h : hasFault (p c).found = true) :
    Gives good (p >>= f) c := .inr (hasFault_bind h)

theorem look {γ : Type} {k : Cursor → γ} {f : γ → Parser α} (h : Gives good (f (k c)) c) :
    Gives good (Parser.look k >>= f) c := bind h

theorem ite {b : Prop} [Decidable b] (hp : b → Gives good p c) (hq : ¬b → Gives good q c) :
    Gives good (if b then p else q) c := by
  split
  · exact hp ‹_›
  · exact hq ‹_›

/-- The value of what gives something good, as something else. -/
theorem map {good' : β → Prop} {f : α → β} (h : Gives good p c)
    (hg : ∀ a, good a → good' (f a)) : Gives good' (p >>= fun a => Pure.pure (f a)) c :=
  h.elim (fun hv => bind (.pure (hg _ hv))) fault

theorem mono {good' : α → Prop} (h : Gives good p c) (hg : ∀ a, good a → good' a) :
    Gives good' p c := h.imp (hg _) id

theorem of_eq (h : p c = q c) (hq : Gives good q c) : Gives good p c := by rwa [Gives, h]

/-- What one parser leaves, and what the next one does. -/
theorem append {γ : Type} {good : γ → Prop} {p q : Parser (List γ)} {c : Cursor}
    (hp : Gives (fun is => ∀ i ∈ is, good i) p c)
    (hq : Gives (fun is => ∀ i ∈ is, good i) q (p c).rest) :
    Gives (fun is => ∀ i ∈ is, good i) (p >>= fun as => q >>= fun bs => Pure.pure (as ++ bs)) c :=
  hp.elim (fun ha => bind <| hq.map fun _ hb => List.forall_mem_append.2 ⟨ha, hb⟩) fault

end Gives

/-! ### Members -/

theorem gives_delegateDeclaration (namespaceName : Option String) (c : Cursor) :
    Gives (fun o => o.toList.map Entry.nested ≠ []) (delegateDeclaration namespaceName) c := by
  refine .bind <| .bind <| .ite (fun _ => .look <| .bind ?_) fun _ => .fault rfl
  split
  · exact .fault rfl
  · exact .bind <| .bind <| .bind <| .bind <| .pure (by simp)

/-- A member that starts with a type is declared or reported. -/
theorem gives_typedMember (symbol : MemberKind → String → Entry) (c : Cursor) :
    Gives (· ≠ []) (typedMember symbol) c := by
  have declared (e : Entry) : [e] ≠ [] := List.cons_ne_nil _ _
  refine .look <| .ite (fun _ => .bind <| .pure (declared _)) fun _ => ?_
  refine .look <| .ite (fun _ => .bind <| .pure (declared _)) fun _ => ?_
  refine .look <| .ite (fun _ => .fault rfl) fun _ => .bind ?_
  split
  · exact .fault rfl
  · refine .look <| .ite (fun _ => .bind <| .pure (declared _)) fun _ => ?_
    exact .look <| .ite (fun _ => .bind <| .pure (declared _)) fun _ =>
      .bind <| .bind <| .pure (List.cons_ne_nil _ _)

/-- Attributes and modifiers, which stand before what a member is told by. -/
def memberHead : Parser (List String) := do
  attributes
  modifiers

/-- Whether the braces of a type, or the source, end here. -/
def Cursor.atClose (c : Cursor) : Bool := c.atPunct "\x7d" || c.atEnd

theorem member_of_atClose (entries : EntryParser) (owner : String) {c : Cursor}
    (h : (memberHead c).rest.atClose = true) :
    member entries owner c = (memberHead c).map fun _ => [] := by
  have hrest : member entries owner c = (do attributes; let _ ← modifiers; return []) c :=
    bind_congr <| bind_congr <| lookIf_of_true (k := Cursor.atClose) h
  rw [hrest]
  show Step.mk _ _ ((attributes c).found ++ ((modifiers (attributes c).rest).found ++ [])) = _
  rw [List.append_nil]
  rfl

/-- Where the word of an event is next, nothing else is. -/
theorem not_at_of_atEvent {c : Cursor} (h : c.atKeyword "event" = true) :
    c.atClose = false ∧ atTypeKeyword c = false ∧ c.atKeyword "delegate" = false ∧
      c.atPunct "~" = false := by
  obtain ⟨l, hl, hk⟩ := Cursor.exists_head?_of_any h
  simp only [Lexeme.isKeyword, Bool.and_eq_true, beq_iff_eq] at hk
  have he := Cursor.atEnd_of_any h
  simp [Cursor.atClose, he, atTypeKeyword, Cursor.atKeyword, Cursor.atPunct, Cursor.atWord, hl,
    Lexeme.isPunct, Lexeme.isKeyword, Lexeme.isKeywordOf, Lexeme.isWord, hk]

theorem member_of_atEvent (entries : EntryParser) (owner : String) {c : Cursor}
    (h : (memberHead c).rest.atKeyword "event" = true) :
    ∃ entry : String → Entry, member entries owner c
      = ((event (memberHead c).rest).map fun name => (name.map entry).toList).before
          (memberHead c).found := by
  obtain ⟨hclose, htype, hdelegate, htilde⟩ := not_at_of_atEvent h
  have hrest : member entries owner c = (do
      attributes
      let modifiers ← modifiers
      return ((← event).map fun name => Entry.member ⟨.event, name,
        modifiers.contains "static" || modifiers.contains "const"⟩).toList) c :=
    bind_congr <| bind_congr <| (lookIf_of_false hclose).trans <| (lookIf_of_false htype).trans <|
      (lookIf_of_false hdelegate).trans <| (lookIf_of_false htilde).trans <| lookIf_of_true h
  refine ⟨fun name => .member ⟨.event, name, (memberHead c).value.contains "static" ||
    (memberHead c).value.contains "const"⟩, hrest.trans ?_⟩
  show Step.mk _ _ ((attributes c).found ++ ((modifiers (attributes c).rest).found ++
    ((event (memberHead c).rest).found ++ []))) = _
  rw [List.append_nil, ← List.append_assoc]
  rfl

/-- All other members are declared or reported. -/
theorem gives_member (entries : EntryParser) (owner : String) {c : Cursor}
    (hc : (memberHead c).rest.atClose = false)
    (he : (memberHead c).rest.atKeyword "event" = false) :
    Gives (· ≠ []) (member entries owner) c := by
  have declared (e : Entry) : [e] ≠ [] := List.cons_ne_nil _ _
  refine .bind <| .bind <| .look <| .ite (fun h => (Bool.eq_false_iff.1 hc h).elim) fun _ => ?_
  refine .look <| .ite (fun _ => .bind <| .pure (declared _)) fun _ => ?_
  refine .look <| .ite (fun _ => (gives_delegateDeclaration none _).map
    fun _ h => by simpa using h) fun _ => ?_
  refine .look <| .ite (fun _ => .bind <| .pure (declared _)) fun _ => ?_
  refine .look <| .ite (fun h => (Bool.eq_false_iff.1 he h).elim) fun _ => ?_
  refine .look <| .ite (fun _ => .bind <| .pure (declared _)) fun _ => ?_
  refine .look <| .ite (fun _ => .bind <| .pure (declared _)) fun _ => ?_
  refine .look <| .bind <| .ite (fun _ => gives_typedMember _ _) fun _ => .fault rfl

/-! ### What is dropped -/

/-- An event has no name if none follows its type. -/
theorem event_value_eq_none {c : Cursor} :
    (event c).value = none ↔ (typeReference c.next).rest.atName = false := by
  have hv : (event c).value = (memberName? (typeReference c.next).rest).value := by
    unfold event
    simp only [bind_apply, Step.before, advance]
    split <;> rfl
  rw [hv, memberName?, bind_apply]
  obtain ⟨hn, l, ls, -, hname⟩ | ⟨hn, hname⟩ := name?_cases (typeReference c.next).rest
  · rw [hname, hn]
    exact iff_of_false (Option.some_ne_none _) (by decide)
  · rw [hname, hn]
    exact iff_of_true rfl rfl

/-- Modifiers are passed if there are any. -/
theorem modifiers_index_lt {c : Cursor} :
    c.index < (modifiers c).rest.index ↔ (modifiers c).value ≠ [] := by
  obtain ⟨i, ls⟩ := c
  cases ls with
  | nil => simp [modifiers, modifiersFrom]
  | cons l ls =>
    have hw := (walks_modifiers false ⟨i + 1, ls⟩).index_le
    simp only [modifiers, modifiersFrom] at hw ⊢
    split
    · exact ⟨fun _ => List.cons_ne_nil _ _, fun _ => Nat.lt_of_succ_le hw⟩
    · simp

/-- What stands at a cursor is passed as a member, leaves nothing and is not reported. -/
inductive Dropped (version : Version) (c : Cursor) : Prop
  | modifiers (hm : (memberHead c).value ≠ []) (hc : (memberHead c).rest.atClose = true)
      (hf : hasErrorIn version (memberHead c).found = false)
  | event (he : (memberHead c).rest.atKeyword "event" = true)
      (hn : (typeReference (memberHead c).rest.next).rest.atName = false)
      (hf : hasErrorIn version
        ((memberHead c).found ++ (event (memberHead c).rest).found) = false)

/-- What leaves nothing without an error is dropped, or is attributes only. -/
theorem dropped_of_silent {version : Version} {entries : EntryParser} {owner : String} {c : Cursor}
    (hv : (member entries owner c).value = [])
    (hf : hasErrorIn version (member entries owner c).found = false) :
    Dropped version c ∨
      (attributes c).rest.atClose = true ∧ (member entries owner c).rest = (attributes c).rest := by
  cases hc : (memberHead c).rest.atClose with
  | true =>
    rw [member_of_atClose entries owner hc] at hf ⊢
    by_cases hm : (memberHead c).value = []
    · have hi : (memberHead c).rest.index = (attributes c).rest.index :=
        Nat.le_antisymm (Nat.le_of_not_lt fun hlt => modifiers_index_lt.1 hlt hm)
          (walks_modifiers false (attributes c).rest).index_le
      obtain ⟨ls, hp⟩ := (walks_modifiers false (attributes c).rest).passed.passes
      have hr : (memberHead c).rest = (attributes c).rest := hp.eq_of_index hi
      exact .inr ⟨hr ▸ hc, hr⟩
    · exact .inl (.modifiers hm hc hf)
  | false =>
    cases he : (memberHead c).rest.atKeyword "event" with
    | true =>
      obtain ⟨entry, hm⟩ := member_of_atEvent entries owner he
      rw [hm] at hv hf
      refine .inl (.event he (event_value_eq_none.1 ?_) hf)
      simpa [Step.before, Step.map] using hv
    | false =>
      rcases gives_member entries owner hc he with hg | hg
      · exact absurd hv hg
      · simp [hasErrorIn_of_hasFault hg version] at hf

/-- **A member is dropped in two forms only**: of all that is passed beyond attributes,
without an error, these leave nothing. -/
theorem dropped_iff (version : Version) (entries : EntryParser) (owner : String) (c : Cursor) :
    (attributes c).rest.index < (member entries owner c).rest.index ∧
      (member entries owner c).value = [] ∧
      hasErrorIn version (member entries owner c).found = false ↔ Dropped version c := by
  constructor
  · rintro ⟨hi, hv, hf⟩
    refine (dropped_of_silent hv hf).resolve_right fun ⟨_, hr⟩ => ?_
    rw [hr] at hi
    exact Nat.lt_irrefl _ hi
  · rintro (⟨hm, hc, hf⟩ | ⟨he, hn, hf⟩)
    · rw [member_of_atClose entries owner hc]
      exact ⟨modifiers_index_lt.2 hm, rfl, hf⟩
    · obtain ⟨entry, hm⟩ := member_of_atEvent entries owner he
      have hmoves : MovesAt false event (memberHead c).rest := movesAt_event he
      have hlt : (attributes c).rest.index < (event (memberHead c).rest).rest.index :=
        Nat.lt_of_le_of_lt (walks_modifiers false (attributes c).rest).index_le hmoves.index_lt
      rw [hm]
      refine ⟨hlt, ?_, hf⟩
      simp [Step.before, Step.map, event_value_eq_none.2 hn]

/-! ### Bodies -/

/-- How the braces of the type `owner` are passed without an error, with the entries that
this leaves. -/
inductive Body (version : Version) (owner : String) : Cursor → List Entry → Cursor → Prop
  /-- Nothing more, but for attributes. -/
  | done {c : Cursor} (h : (attributes c).rest.atClose = true) :
      Body version owner c [] (attributes c).rest
  | recorded {c d : Cursor} {more : List Entry} (h : (member memberList owner c).value ≠ [])
      (hb : Body version owner (member memberList owner c).rest more d) :
      Body version owner c ((member memberList owner c).value ++ more) d
  | dropped {c d : Cursor} {more : List Entry} (h : Dropped version c)
      (hb : Body version owner (member memberList owner c).rest more d) :
      Body version owner c more d

theorem memberList_of_atClose {owner : String} {c : Cursor} (h : c.atClose = true) :
    memberList owner c = ⟨[], c, []⟩ := by
  rw [memberList]
  exact if_pos h

theorem attributes_of_atClose {c : Cursor} (h : c.atClose = true) : (attributes c).rest = c := by
  have hn : c.atPunct "[" = false := by
    obtain ⟨i, _ | ⟨l, ls⟩⟩ := c
    · rfl
    · simp only [Cursor.atClose, Cursor.atPunct, Cursor.head?, List.head?_cons, Option.any_some,
        Lexeme.isPunct, Cursor.atEnd, List.isEmpty_cons, Bool.or_false, Bool.and_eq_true,
        beq_iff_eq] at h ⊢
      simp [h.2]
  rw [attributes, hn, if_neg Bool.false_ne_true]

/-- Where no error is found, a member is passed before the list goes on. -/
theorem memberTurn_of_clean {version : Version} {owner : String} {c : Cursor}
    (h : hasErrorIn version (memberTurn owner c).found = false) :
    memberTurn owner c = member memberList owner c := by
  unfold memberTurn at h ⊢
  dsimp only at h ⊢
  split at h
  · have hfault : hasFault [(⟨.invalidMember c.text, .whole c.index⟩ : Finding)] = true := rfl
    simp [hasErrorIn_of_hasFault hfault version] at h
  · rw [if_neg ‹_›]

/-- **A body without errors** is passed member by member, up to where it ends. -/
theorem body_memberList {version : Version} {owner : String} (c : Cursor)
    (h : hasErrorIn version (memberList owner c).found = false) :
    Body version owner c (memberList owner c).value (memberList owner c).rest := by
  cases hc : c.atClose with
  | true =>
    rw [memberList_of_atClose hc]
    have hd := attributes_of_atClose hc
    have hb : Body version owner c [] (attributes c).rest := .done (by rw [hd, hc])
    rwa [hd] at hb
  | false =>
    have hgo := goesOn_memberList owner hc
    have hlt := hgo.advances
    rw [hgo.eq] at h ⊢
    obtain ⟨hone, hmore⟩ := Bool.or_eq_false_iff.1 ((hasErrorIn_append _ _ _).symm.trans h)
    have hturn := memberTurn_of_clean hone
    rw [hturn] at hone hmore hlt ⊢
    have hremaining := Walk.remaining_lt (walks_member walks_memberList owner true c) hlt
    have hb := body_memberList (member memberList owner c).rest hmore
    by_cases hv : (member memberList owner c).value = []
    · rcases dropped_of_silent hv hone with hd | ⟨hclose, hr⟩
      · rw [hv]
        exact .dropped hd hb
      · rw [hv, hr, memberList_of_atClose hclose]
        exact .done hclose
    · exact .recorded hv hb
termination_by c.remaining

/-- **What members leave behind.**  Passing more than attributes without an error and
without an entry is to drop modifiers or an event; and a body without errors is passed
member by member, with an entry for each that is not dropped. -/
theorem members_recorded (version : Version) (owner : String) (c : Cursor) :
    (∀ entries : EntryParser,
      (attributes c).rest.index < (member entries owner c).rest.index ∧
        (member entries owner c).value = [] ∧
        hasErrorIn version (member entries owner c).found = false ↔ Dropped version c) ∧
      (hasErrorIn version (memberList owner c).found = false →
        Body version owner c (memberList owner c).value (memberList owner c).rest) :=
  ⟨fun entries => dropped_iff version entries owner c, body_memberList c⟩

/-- A body with a field and an event without a name has no errors. -/
theorem members_recorded_event :
    hasErrorIn .v12
        (memberList "A" ⟨0, (tokens "int x; event; \x7d").map (·.lexeme)⟩).found = false ∧
      Body .v12 "A" ⟨0, (tokens "int x; event; \x7d").map (·.lexeme)⟩
        (memberList "A" ⟨0, (tokens "int x; event; \x7d").map (·.lexeme)⟩).value
        (memberList "A" ⟨0, (tokens "int x; event; \x7d").map (·.lexeme)⟩).rest :=
  have h : hasErrorIn .v12
      (memberList "A" ⟨0, (tokens "int x; event; \x7d").map (·.lexeme)⟩).found = false := by
    decide +kernel
  ⟨h, (members_recorded .v12 "A" _).2 h⟩

/-- Modifiers at the end of a body are passed without an error, and nothing is left of
them. -/
theorem not_recorded_of_accepted :
    (SyntaxTree.parse .v12 ⟨"class A \x7b public \x7d", 0⟩).diagnostics = [] ∧
      (SyntaxTree.parse .v12 ⟨"class A \x7b public \x7d", 0⟩).types.map (·.members) = [[]] ∧
      ¬∀ (version : Version) (owner : String) (c : Cursor),
        (attributes c).rest.index < (member memberList owner c).rest.index →
          (member memberList owner c).value ≠ [] ∨
            hasErrorIn version (member memberList owner c).found = true := by
  refine ⟨by decide +kernel, by decide +kernel, fun h => ?_⟩
  rcases h .v12 "A" ⟨3, (tokens "public \x7d").map (·.lexeme)⟩ (by decide +kernel) with hv | hf
  · exact hv (by decide +kernel)
  · exact absurd hf (by decide +kernel)

end Parser
end Outline
