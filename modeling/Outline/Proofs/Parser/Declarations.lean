/-
# Declarations walk

The parsers of types, members and files walk from wherever the word or the sign
that they are told by is next.  What stands in braces is a `block`, or `unclosed`
where the closing brace is missing.
-/

import Outline.Proofs.Parser.Descent

namespace Outline
namespace Parser

/-! ### Single steps -/

theorem advance_bind {α : Type} (g : Unit → Parser α) (c : Cursor) :
    (advance >>= g) c = g () c.next := rfl

/-- A mark that is next is taken. -/
theorem eat_of_atPunct {p : String} {c : Cursor} (h : c.atPunct p = true) :
    eat p c = ⟨true, c.next, []⟩ := by
  unfold eat
  rw [bind_apply]
  simp only [look, h, if_true]
  rfl

/-- Any other lexeme is left. -/
theorem eat_of_not_atPunct {p : String} {c : Cursor} (h : c.atPunct p = false) :
    eat p c = ⟨false, c, []⟩ := by
  unfold eat
  rw [bind_apply]
  simp only [look, h]
  rfl

/-- A mark that is not there is no fault by itself. -/
theorem eat_found (p : String) (c : Cursor) : (eat p c).found = [] := by
  cases h : c.atPunct p with
  | true => rw [eat_of_atPunct h]
  | false => rw [eat_of_not_atPunct h]

theorem eat_bind_of_atPunct {α : Type} {p : String} {c : Cursor} (h : c.atPunct p = true)
    (g : Bool → Parser α) : (eat p >>= g) c = g true c.next := by
  rw [bind_apply, eat_of_atPunct h]
  rfl

theorem eat_bind_of_not_atPunct {α : Type} {p : String} {c : Cursor} (h : c.atPunct p = false)
    (g : Bool → Parser α) : (eat p >>= g) c = g false c := by
  rw [bind_apply, eat_of_not_atPunct h]
  rfl

/-- What follows a punctuation that is taken, or that is not there. -/
theorem WalksAt.eatBind {α : Type} {top : Bool} {c : Cursor} {p : String} {g : Bool → Parser α}
    (hp : p ∉ bracketTexts) (ht : c.atPunct p = true → WalksAt top (g true) c.next)
    (hf : c.atPunct p = false → WalksAt top (g false) c) : WalksAt top (eat p >>= g) c := by
  unfold WalksAt
  cases h : c.atPunct p with
  | true =>
    have hn : Walk top c [] c.next := .plain (Cursor.atPlain_of_atPunct h hp)
    rw [eat_bind_of_atPunct h]
    exact hn.append (ht h)
  | false =>
    rw [eat_bind_of_not_atPunct h]
    exact hf h

/-- A mark that has to be there is taken. -/
theorem expect_of_atPunct {p : String} {c : Cursor} (h : c.atPunct p = true) (e : Expected) :
    expect p e c = ⟨(), c.next, []⟩ := by
  unfold expect
  rw [eat_bind_of_atPunct h]
  rfl

/-- If it is not there, that is reported behind the token before, and nothing is passed. -/
theorem expect_of_not_atPunct {p : String} {c : Cursor} (h : c.atPunct p = false) (e : Expected) :
    expect p e c = ⟨(), c, [⟨.expected e, .gap c.index⟩]⟩ := by
  unfold expect
  rw [eat_bind_of_not_atPunct h]
  rfl

/-- A mark that is missing is a fault. -/
theorem hasFault_expect {p : String} {c : Cursor} (h : c.atPunct p = false) (e : Expected) :
    hasFault (expect p e c).found = true := by
  rw [expect_of_not_atPunct h]
  rfl

/-- A name is taken, and any other lexeme is left. -/
theorem name?_cases (c : Cursor) :
    (c.atName = true ∧ ∃ l ls, c.ahead = l :: ls ∧ name? c = ⟨some l.text, c.next, []⟩) ∨
      (c.atName = false ∧ name? c = ⟨none, c, []⟩) := by
  obtain ⟨i, ls⟩ := c
  cases ls with
  | nil => exact .inr ⟨rfl, rfl⟩
  | cons l ls =>
    unfold name?
    rw [bind_apply]
    cases h : l.isName with
    | true =>
      refine .inl ⟨h, l, ls, rfl, ?_⟩
      simp only [look, Cursor.head?, List.head?_cons, h, if_true]
      rfl
    | false =>
      refine .inr ⟨h, ?_⟩
      simp only [look, Cursor.head?, List.head?_cons, h]
      rfl

/-- What stands in braces, and what follows the closing one. -/
theorem Walk.braces {α β : Type} {top : Bool} {c : Cursor} {p : Parser α} {g : α → Parser β}
    (h : c.atPunct "\x7b" = true) (hp : WalksAt false p c.next) (hg : ∀ a, Walks (g a)) :
    Walk top c
      ((p >>= fun a => expect "\x7d" .closeBrace >>= fun _ => g a) c.next).found
      ((p >>= fun a => expect "\x7d" .closeBrace >>= fun _ => g a) c.next).rest := by
  rw [bind_apply, bind_apply]
  cases hd : (p c.next).rest.atPunct "\x7d" with
  | true =>
    rw [expect_of_atPunct hd]
    exact (Walk.block h hd hp).append (hg _ top _)
  | false =>
    rw [expect_of_not_atPunct hd]
    have hu : Walk top c _ _ := .unclosed h hp
    have hw := hu.append (hg (p c.next).value top _)
    rw [List.append_assoc] at hw
    exact hw

/-! ### Types -/

/-- Modifiers are words, and some of them ask for a feature at their start. -/
theorem walks_modifiers : Walks modifiers := by
  rintro top ⟨index, ls⟩
  unfold WalksAt modifiers
  dsimp only
  induction ls generalizing index with
  | nil => exact .nil _
  | cons l ls ih =>
    rw [modifiersFrom]
    split
    · rename_i h
      have hl : l.kind ≠ .punct := by
        unfold isModifier at h
        rintro hk
        simp [Lexeme.isKeywordOf, Lexeme.isWordOf, hk] at h
      have hp : Cursor.AtPlain ⟨index, l :: ls⟩ :=
        Cursor.atPlain_of_ahead rfl (delimiter?_of_kind hl)
      refine Walk.append (.reports fun x hx => ?_) ((Walk.plain hp).append (ih (index + 1)))
      obtain ⟨f, -, rfl⟩ := by simpa using hx
      exact Mark.upTo_point (Nat.le_refl _)
    · exact .nil _

/-- A feature is asked for at an edge that was passed. -/
theorem walksAt_need {top : Bool} {c : Cursor} {e : Edge} (f : Language.Feature)
    (h : e.token ≤ c.index) : WalksAt top (need f e) c := .report (Mark.upTo_point h)

/-- The word that declares a type is no bracket. -/
theorem atPlain_of_atTypeKeyword {c : Cursor} (h : atTypeKeyword c = true) : c.AtPlain := by
  rw [atTypeKeyword, Bool.or_eq_true, Bool.and_eq_true] at h
  obtain h | ⟨h, -⟩ := h
  · exact Cursor.atPlain_of_any h fun l hl =>
      delimiter?_of_kind (by simp_all [Lexeme.isKeywordOf])
  · exact Cursor.atPlain_of_atWord h

theorem atEnd_of_atTypeKeyword {c : Cursor} (h : atTypeKeyword c = true) : c.atEnd = false := by
  rw [atTypeKeyword, Bool.or_eq_true, Bool.and_eq_true] at h
  exact h.elim Cursor.atEnd_of_any fun h => Cursor.atEnd_of_any h.1

/-- **The words that declare a type** are one or two, and one is passed in any case. -/
theorem movesAt_typeKeyword {top : Bool} {c : Cursor} (h : atTypeKeyword c = true) :
    MovesAt top typeKeyword c := by
  have hi := c.index_le_next
  refine .look <| .look <| .bind
    (.advance (atPlain_of_atTypeKeyword h) (atEnd_of_atTypeKeyword h)) ?_
  refine .ite (fun _ => .pure _) fun _ => .ite (fun _ => .pure _) fun _ =>
    .ite (fun _ => .pure _) fun _ => .ite (fun _ => .pure _) fun _ => .look ?_
  refine .ite (fun hs => ?_) fun _ => .look <| .ite (fun hc => ?_) fun _ => ?_
  · refine .bind (.advance (Cursor.atPlain_of_atKeyword hs)) (.bind (walksAt_need _ ?_) (.pure _))
    exact Nat.le_trans hi (Cursor.index_le_next _)
  · refine .bind (.advance (Cursor.atPlain_of_atKeyword hc)) (.bind (walksAt_need _ ?_) (.pure _))
    exact Nat.le_trans hi (Cursor.index_le_next _)
  · exact .bind (walksAt_need _ hi) (.pure _)

/-- The name of a type stands where the name is. -/
theorem typeName_of_some {keyword : Nat} {c d : Cursor} {name : String}
    (h : name? c = ⟨some name, d, []⟩) :
    typeName keyword c = ⟨(name, .start c.index), d, []⟩ := by
  unfold typeName
  rw [bind_apply, look, bind_apply, h]
  rfl

/-- A type without a name stands at the end of the word that declares it. -/
theorem typeName_of_none {keyword : Nat} {c : Cursor} (h : name? c = ⟨none, c, []⟩) :
    typeName keyword c =
      ⟨("", .stop keyword), c, [⟨.expected .identifier, .gap c.index⟩]⟩ := by
  unfold typeName
  rw [bind_apply, look, bind_apply, h]
  rfl

theorem walks_typeName (keyword : Nat) : Walks (typeName keyword) := by
  intro top c
  refine .look <| .bind (walks_name? top c) ?_
  split
  · exact .pure _
  · exact .bind (walks_reportAfter _ top _) (.pure _)

/-- The place of a name is at a token that was reached. -/
theorem typeName_place {keyword : Nat} {c : Cursor} (h : keyword ≤ c.index) :
    (typeName keyword c).value.2.token ≤ (typeName keyword c).rest.index := by
  obtain ⟨-, l, ls, -, hn⟩ | ⟨-, hn⟩ := name?_cases c
  · rw [typeName_of_some hn]
    exact c.index_le_next
  · rw [typeName_of_none hn]
    exact h

/-- A missing name of an enum is a fault, any other is passed. -/
theorem enumName_progress (c : Cursor) :
    c.index < (enumName c).rest.index ∨ hasFault (enumName c).found = true := by
  unfold enumName
  rw [bind_apply]
  obtain ⟨-, l, ls, hl, hn⟩ | ⟨-, hn⟩ := name?_cases c
  · left
    rw [hn]
    show c.index < c.next.index
    rw [c.passes_next.index, c.head?_of_ahead hl]
    exact Nat.lt_succ_self _
  · right
    rw [hn]
    rfl

theorem walks_enumName : Walks enumName := by
  intro top c
  refine .bind (walks_name? top c) ?_
  split
  · exact .pure _
  · exact .bind (walks_reportHere _ top _) (.bind (walks_skipExpression _ top _) (.pure _))

/-- A comma is passed, and another member may follow it. -/
theorem enumComma_of_comma {c : Cursor} (h : c.atPunct "," = true) (start : Nat) :
    enumComma start c = ⟨true, c.next, []⟩ := by
  unfold enumComma
  rw [eat_bind_of_atPunct h]
  rfl

/-- Without a comma a lexeme is passed only if the member passed none. -/
theorem enumComma_of_none {c : Cursor} (h : c.atPunct "," = false) (start : Nat) :
    enumComma start c =
      let d := if c.index = start then c.next else c
      ⟨!d.atPunct "\x7d" && !d.atEnd, d, []⟩ := by
  unfold enumComma
  rw [eat_bind_of_not_atPunct h]
  by_cases hs : c.index = start <;>
  · simp only [Bool.false_eq_true, if_false, hs, if_true]
    rw [bind_apply, look]
    simp only [hs, beq_self_eq_true, beq_iff_eq, if_true, if_false]
    rfl

/-- After a member of an enum that is nothing else than a fault, a token is passed. -/
theorem Walk.enumComma {top : Bool} {c d : Cursor} {f : List Finding} (h : Walk top c f d)
    (hc : c.atPunct "\x7d" = false) (hd : c.index < d.index ∨ hasFault f = true) :
    WalksOn top c f (enumComma c.index) d := by
  unfold WalksOn
  cases hp : d.atPunct "," with
  | true =>
    rw [enumComma_of_comma hp]
    exact h.append (.plain (Cursor.atPlain_of_atPunct hp (by decide)))
  | false =>
    rw [enumComma_of_none hp]
    dsimp only
    rw [List.append_nil]
    split
    · rename_i hi
      obtain ⟨ls, hl⟩ := h.passed.passes
      obtain rfl := hl.eq_of_index hi
      exact .forced (hd.resolve_left (Nat.lt_irrefl _)) hc h
    · exact h

/-- **A member of an enum** that passes nothing is a fault, and then the lexeme in its place
is passed. -/
theorem walksAt_enumMember {top : Bool} {c : Cursor} (h : c.atPunct "\x7d" = false) :
    WalksAt top enumMember c := by
  have ha := walks_attributes top c
  have hn := ha.append (walks_enumName top (attributes c).rest)
  have hi : c.index < (enumName (attributes c).rest).rest.index ∨
      hasFault ((attributes c).found ++ (enumName (attributes c).rest).found) = true := by
    obtain hi | hf := enumName_progress (attributes c).rest
    · exact .inl (Nat.lt_of_le_of_lt ha.index_le hi)
    · exact .inr (by simp [hf])
  have later : ∀ {g : List Finding} {d : Cursor},
      Walk top (enumName (attributes c).rest).rest g d → c.index < d.index ∨
        hasFault ((attributes c).found ++ (enumName (attributes c).rest).found ++ g) = true := by
    intro g d hd
    obtain hi | hf := hi
    · exact .inl (Nat.lt_of_lt_of_le hi hd.index_le)
    · exact .inr (by rw [hasFault_append, hf, Bool.true_or])
  have he := walks_eat (p := "=") (by decide) top (enumName (attributes c).rest).rest
  show WalksOn top c [] enumMember c
  refine .look (.bind (.bind (.bind (.ite (fun _ => .bind ?_) fun _ => ?_))))
  · have hs := he.append (walks_skipExpression [","] top _)
    have hw := (hn.append hs).enumComma h (later hs)
    rw [← List.append_assoc] at hw
    exact .bind (.pure hw)
  · exact .bind (.pure ((hn.append he).enumComma h (later he)))

/-- The members of an enum walk one by one up to the closing brace. -/
theorem walks_enumMembers : Walks enumMembers := by
  intro top c
  unfold WalksAt
  fun_induction enumMembers c with
  | case1 c => exact .nil c
  | case2 c hc s hs h ih => exact (walksAt_enumMember (by simp_all)).append ih
  | case3 c hc s hs h => exact walksAt_enumMember (by simp_all)
  | case4 c hc s hs => exact walksAt_enumMember (by simp_all)

/-- Base types are skipped up to the body. -/
theorem walks_bases : Walks bases := fun _ _ =>
  .look <| .ite (fun h => .head h) fun _ => .pure _

theorem walks_constraints : Walks constraints := fun _ c =>
  .look <| .ite (fun h => .head (by rw [h, Bool.or_true])) fun _ => .pure _

/-- Parameters after the name of a type may ask for a feature at the place of the type. -/
theorem walksAt_primaryParameters {top : Bool} {c : Cursor} (kind : TypeKind) {place : Edge}
    (hp : place.token ≤ c.index) : WalksAt top (primaryParameters kind place) c := by
  refine .look <| .ite (fun h => .ite (fun _ => ?_) fun _ => ?_) fun _ => .pure _
  · exact .bind (walksAt_need _ hp) (.bind (walksAt_skipGroup h (by decide)) (.pure _))
  · exact .bind (walksAt_skipGroup h (by decide)) (.pure _)

/-- Entries that walk in braces. -/
def EntryParser.Walks (entries : EntryParser) : Prop := ∀ name, Parser.Walks (entries name)

/-- **The body of a type** walks if its entries do: it is in braces, or there is none. -/
theorem walksAt_typeBody {top : Bool} {c : Cursor} {entries : EntryParser}
    (h : entries.Walks) (kind : TypeKind) (name : String) {place : Edge}
    (hp : place.token ≤ c.index) : WalksAt top (typeBody entries kind name place) c := by
  unfold WalksAt typeBody
  have closed : ∀ inside : List Entry,
      Walks (eat ";" >>= fun _ => pure inside : Parser (List Entry)) := fun inside =>
    .bind (walks_eat (by decide)) fun _ => .pure inside
  cases hb : c.atPunct "\x7b" with
  | true =>
    rw [eat_bind_of_atPunct hb]
    by_cases hk : kind = .enum
    · simp only [hk, if_true]
      exact .braces hb (walks_enumMembers _ _) fun ms => closed (ms.map .member)
    · simp only [hk, if_true, if_false]
      exact .braces hb (h name _ _) closed
  | false =>
    rw [eat_bind_of_not_atPunct hb]
    have he : WalksAt top (if kind = .enum then pure false else eat ";") c :=
      .ite (fun _ => .pure _) fun _ => walks_eat (by decide) top c
    refine WalksAt.bind he ?_
    refine .ite (fun _ => .when (fun _ => walksAt_need _ ?_) fun _ _ => .pure _)
      fun _ => .bind (walks_reportAfter _ top _) (.pure _)
    exact Nat.le_trans hp he.index_le

/-- The name of the type that is declared at a cursor, and where it stands. -/
def declaredName (c : Cursor) : Step (String × Edge) := typeName c.index (typeKeyword c).rest

/-- The parameters of the type that is declared at a cursor. -/
def declaredParameters (c : Cursor) : Step Unit :=
  primaryParameters (typeKeyword c).value (declaredName c).value.2
    (typeParameters? (declaredName c).rest).rest

/-- Where the body of the type that is declared at a cursor starts. -/
def bodyStart (c : Cursor) : Cursor := (bases (declaredParameters c).rest).rest

/-- The place of a type that is declared is at a token that was passed. -/
theorem declaredName_place {c : Cursor} (hc : atTypeKeyword c = true) :
    (declaredName c).value.2.token ≤ (declaredName c).rest.index :=
  have hk : MovesAt true typeKeyword c := movesAt_typeKeyword hc
  typeName_place hk.walks.index_le

theorem walksAt_declaredParameters (top : Bool) {c : Cursor} (hc : atTypeKeyword c = true) :
    WalksAt top (primaryParameters (typeKeyword c).value (declaredName c).value.2)
      (typeParameters? (declaredName c).rest).rest :=
  walksAt_primaryParameters _ <|
    Nat.le_trans (declaredName_place hc) (walks_typeParameters? top _).index_le

/-- The body of a type comes after its name. -/
theorem declaredName_le_bodyStart {c : Cursor} (hc : atTypeKeyword c = true) :
    (declaredName c).rest.index ≤ (bodyStart c).index := by
  have hparameters := (walksAt_declaredParameters true hc).index_le
  exact Nat.le_trans (walks_typeParameters? true _).index_le
    (Nat.le_trans hparameters (walks_bases true _).index_le)

/-- **A type** passes at least the word that declares it. -/
theorem movesAt_typeDeclaration {top : Bool} {c : Cursor} {entries : EntryParser}
    (h : entries.Walks) (namespaceName : Option String) (mods : List String)
    (hc : atTypeKeyword c = true) :
    MovesAt top (typeDeclaration entries namespaceName mods) c := by
  refine .look <| .bind (movesAt_typeKeyword hc) <| .bind (walks_typeName _ top _) <|
    .bind (walks_typeParameters? top _) <| .bind (walksAt_declaredParameters top hc) <|
    .bind (walks_bases top _) <| .bind (walksAt_typeBody h _ _ ?_) (.pure _)
  exact Nat.le_trans (declaredName_place hc) (declaredName_le_bodyStart hc)

/-- A reserved word is passed. -/
theorem movesAt_advance_of_atKeyword {top : Bool} {c : Cursor} {k : String}
    (h : c.atKeyword k = true) : MovesAt top advance c :=
  .advance (Cursor.atPlain_of_atKeyword h) (Cursor.atEnd_of_any h)

/-- A delegate that goes wrong is reported and skipped as a member is. -/
theorem movesAt_delegateDeclaration {top : Bool} {c : Cursor} (namespaceName : Option String)
    (hc : c.atKeyword "delegate" = true) :
    MovesAt top (delegateDeclaration namespaceName) c := by
  refine .bind (movesAt_advance_of_atKeyword hc) <|
    .bind (walks_typeReference top _) <| .ite (fun _ => ?_) fun _ => ?_
  · refine .look <| .bind (walks_name? top _) ?_
    split
    · exact walks_recover (walks_reportAfter _) (fun _ => rfl) (.pure _) top _
    · exact .bind (walks_typeParameters? top _) <| .bind (walks_requiredParens top _) <|
        .bind (walks_constraints top _) <| .bind (walks_expect (by decide) _ top _) (.pure _)
  · exact walks_recover (walks_reportHere _) (fun _ => rfl) (.pure _) top _

/-! ### Members -/

theorem walksAt_destructor {top : Bool} {c : Cursor} (h : c.atPunct "~" = true) :
    WalksAt top destructor c :=
  .bind (.advance (Cursor.atPlain_of_atPunct h (by decide))) <| .bind (walks_name? top _) <|
    .bind (walks_optionalParens top _) (walks_body top _)

/-- An event ends with a group of accessors or with a semicolon. -/
theorem movesAt_event {top : Bool} {c : Cursor} (h : c.atKeyword "event" = true) :
    MovesAt top event c := by
  refine .bind (.advance (Cursor.atPlain_of_atKeyword h) (Cursor.atEnd_of_any h)) <|
    .bind (walks_typeReference top _) <| .bind (walks_memberName? top _) <| .look <|
    .ite (fun hb => ?_) fun _ => ?_
  · exact .bind (walksAt_skipGroup hb (by decide)) (.pure _)
  · exact .bind (walks_expressionToEnd top _) (.pure _)

/-- The call of another constructor stands after a colon, with parentheses of its own. -/
theorem walksAt_constructor {top : Bool} {c : Cursor} (h : c.AtPlain)
    (hp : c.next.atPunct "(" = true) : WalksAt top constructor c := by
  refine .bind (.advance h) <| .bind (walksAt_skipGroup hp (by decide)) <|
    .bind (walks_eat (by decide) top _) <| .ite (fun _ => ?_) fun _ => walks_body top _
  refine .look <| .ite (fun hk => ?_) fun _ => ?_
  · rw [Bool.or_eq_true] at hk
    refine .bind (.advance (hk.elim Cursor.atPlain_of_atKeyword Cursor.atPlain_of_atKeyword)) ?_
    exact .bind (walks_requiredParens top _) (walks_body top _)
  · exact .bind (walks_requiredParens top _) (walks_body top _)

/-- A conversion has a type in the place of a name. -/
theorem walksAt_conversion {top : Bool} {c : Cursor}
    (h : (c.atKeyword "implicit" || c.atKeyword "explicit") = true) :
    WalksAt top conversion c := by
  rw [Bool.or_eq_true] at h
  refine .look <| .bind (.advance (h.elim Cursor.atPlain_of_atKeyword Cursor.atPlain_of_atKeyword))
    <| .look <| .when (fun ho => .advance (Cursor.atPlain_of_atKeyword ho)) fun d _ => ?_
  exact .bind (walks_typeReference top _) <| .bind (walks_optionalParens top _) <|
    .bind (walks_body top _) (.pure _)

/-- The sign of an operator is passed without a look at what it is. -/
theorem operatorSign_found (c : Cursor) : (operatorSign c).found = [] := by
  fun_induction operatorSign c with
  | case1 => rfl
  | case2 c _ _ ih => exact ih
  | case3 => rfl

theorem walksAt_operator {top : Bool} {c : Cursor} (h : c.atKeyword "operator" = true) :
    WalksAt top operator c := by
  have hs : Walk top c (operatorSign c.next).found (operatorSign c.next).rest := by
    rw [operatorSign_found]
    exact .sign h
  exact hs.append (Walks.bind walks_optionalParens (fun _ => walks_body) top _)

theorem walksAt_indexer {top : Bool} {c : Cursor} (h : c.atKeyword "this" = true)
    (hp : c.next.atPunct "[" = true) : WalksAt top indexer c :=
  .bind (.advance (Cursor.atPlain_of_atKeyword h)) <| .bind (walksAt_skipGroup hp (by decide)) <|
    walks_accessors top _

/-- A method whose parameters are not closed ends with them. -/
theorem walks_method : Walks method := by
  intro top c
  refine .bind (walks_typeParameters? top c) <| .look <| .ite (fun h => ?_) fun _ => ?_
  · refine .bind (walksAt_skipGroup h (by decide)) <| .ite (fun _ => ?_) fun _ => .pure _
    exact .bind (walks_constraints top _) (walks_body top _)
  · exact .bind (walks_reportAfter _ top _) <|
      .bind (walks_constraints top _) (walks_body top _)

/-- The name after a comma is missing if there is none. -/
theorem walks_nextName : Walks (name? >>= fun name => match name with
    | some name => pure (some name)
    | none => reportMissing .identifier >>= fun _ => pure none : Parser (Option String)) := by
  refine .bind walks_name? fun name => ?_
  split
  · exact .pure _
  · exact .bind (walks_reportAfter _) fun _ => .pure _

theorem walks_nextField : Walks nextField := by
  refine .bind (walks_eat (by decide)) fun _ => .when (walks_skipExpression _) ?_
  exact .bind (walks_eat (by decide)) fun _ => .ite walks_nextName (.pure _)

/-- Fields go on as long as a comma and a name follow. -/
theorem walks_moreFields : Walks moreFields := by
  intro top c
  unfold WalksAt
  fun_induction moreFields c with
  | case1 c s name hs h ih => exact (walks_nextField top c).append ih
  | case2 c s name hs h => exact walks_nextField top c
  | case3 c s hs => exact walks_nextField top c

/-- **A member after its type** walks whatever form it has. -/
theorem walks_typedMember (symbol : MemberKind → String → Entry) : Walks (typedMember symbol) := by
  intro top c
  refine .look <| .ite (fun h => .bind (walksAt_operator h) (.pure _)) fun _ =>
    .look <| .ite (fun h => ?_) fun _ => .look <| .ite (fun h => ?_) fun _ => ?_
  · rw [Bool.and_eq_true] at h
    exact .bind (walksAt_indexer h.1 h.2) (.pure _)
  · exact .bind (walks_reportAfter _ top _) <| .bind (walksAt_skipGroup h (by decide)) <|
      .bind (walks_body top _) (.pure _)
  · refine .bind (walks_memberName? top _) ?_
    split
    · exact walks_recover (walks_reportAfter _) (fun _ => rfl) (.pure _) top _
    · refine .look <| .ite (fun _ => .bind (walks_method top _) (.pure _)) fun _ =>
        .look <| .ite (fun _ => .bind (walks_accessors top _) (.pure _)) fun _ => ?_
      exact .bind (walks_moreFields top _) <| .bind (walks_expect (by decide) _ top _) (.pure _)

/-- **A member** walks, if the entries of nested types do. -/
theorem walks_member {entries : EntryParser} (h : entries.Walks) (owner : String) :
    Walks (member entries owner) := by
  intro top c
  refine .bind (walks_attributes top c) <| .bind (walks_modifiers top _) <|
    .look <| .ite (fun _ => .pure _) fun _ =>
    .look <| .ite (fun hc => .bind (movesAt_typeDeclaration h _ _ hc).walks (.pure _)) fun _ =>
    .look <| .ite (fun hc => .bind (movesAt_delegateDeclaration _ hc).walks (.pure _)) fun _ =>
    .look <| .ite (fun hc => .bind (walksAt_destructor hc) (.pure _)) fun _ =>
    .look <| .ite (fun hc => .bind ((movesAt_event hc).walks) (.pure _)) fun _ =>
    .look <| .ite (fun hc => ?_) fun _ =>
    .look <| .ite (fun hc => .bind (walksAt_conversion hc) (.pure _)) fun _ => ?_
  · rw [Bool.and_eq_true] at hc
    exact .bind (walksAt_constructor (Cursor.atPlain_of_atWord hc.1) hc.2) (.pure _)
  · refine .look <| .bind (walks_typeReference top _) <| .ite
      (fun _ => walks_typedMember _ top _) fun _ => ?_
    exact walks_recover (walks_reportHere _) (fun _ => rfl) (.pure _) top _

/-- Entries that walk as far as they are parsed. -/
theorem EntryParser.Walks.guard {entries : EntryParser} {c : Cursor}
    (h : ∀ name d, d.remaining < c.remaining → ∀ top, WalksAt top (entries name) d) :
    EntryParser.Walks fun name d =>
      if _h : d.remaining < c.remaining then entries name d else ⟨[], d, []⟩ := by
  intro name top d
  unfold WalksAt
  dsimp only
  split
  · exact h name d ‹_› top
  · exact .nil d

/-- **The members of a type** walk, by induction on the lexemes that are left: a turn that passes
none reports the next one and passes it. -/
theorem walks_memberList (owner : String) : Walks (memberList owner) := by
  intro top c
  induction hn : c.remaining using Nat.strongRecOn generalizing top owner c with
  | ind n ih =>
    subst hn
    have hi : EntryParser.Walks fun name d =>
        if _h : d.remaining < c.remaining then memberList name d else ⟨[], d, []⟩ :=
      .guard fun name d hd top => ih _ hd name top d rfl
    have hm := walks_member hi owner top c
    unfold WalksAt
    rw [memberList]
    split
    · exact .nil c
    rename_i hc
    rw [Bool.or_eq_true, not_or, Bool.not_eq_true] at hc
    dsimp only
    split
    · rename_i hs
      split
      · -- nothing was passed, so the next lexeme is skipped, whatever it is
        have hx : Walk top c [⟨.invalidMember c.text, .whole c.index⟩] c :=
          .report (Mark.upTo_whole (Nat.le_refl _))
        refine (Walk.forced ?_ hc.1 ((Walk.stays hm hs).append hx)).append
          (ih _ ‹_› owner top _ rfl)
        rw [hasFault_append]
        exact Bool.or_true _
      · exact hm
    · split
      · exact hm.append (ih _ ‹_› owner top _ rfl)
      · exact hm

/-! ### Files -/

/-- The name of a using takes any lexemes up to its end, and finds no fault in them. -/
theorem usingNameFrom_found (index : Nat) (ls : List Lexeme) :
    (usingNameFrom index ls).found = [] := by
  induction ls generalizing index with
  | nil => rfl
  | cons l ls ih =>
    rw [usingNameFrom]
    split
    · rfl
    · exact ih (index + 1)

/-- The name of an alias ends where the name of the using would. -/
theorem usingName_alias {c : Cursor} (h : (c.atName && c.next.atPunct "=") = true) :
    (usingName c.next.next).rest = (usingName c).rest := by
  obtain ⟨i, ls⟩ := c
  rw [Bool.and_eq_true] at h
  match ls with
  | [] => rfl
  | [a] => simp [Cursor.next, Cursor.atPunct, Cursor.head?] at h
  | a :: b :: ls =>
    have ha : a.isName = true := h.1
    have hb : b.isPunct "=" = true := h.2
    simp only [Lexeme.isName, Lexeme.isPunct, Bool.and_eq_true, beq_iff_eq] at ha hb
    have ea : endsUsing a = false := by simp [endsUsing, Lexeme.isOneOf, ha]
    have eb : endsUsing b = false := by simp [endsUsing, Lexeme.isOneOf, hb]
    simp only [usingName, Cursor.next, usingNameFrom, ea, eb]
    rfl

/-- What a using names ends where it would without `static` and an alias. -/
theorem usingTarget_apply (c : Cursor) :
    (usingTarget c.next).found = [] ∧
      (usingTarget c.next).rest = (usingName c.afterUsing).rest := by
  have tail : ∀ d : Cursor,
      ((if (d.atName && d.next.atPunct "=") = true then
        advance >>= fun _ => advance >>= fun _ => usingName else usingName : Parser String)
          d).found = [] ∧
      ((if (d.atName && d.next.atPunct "=") = true then
        advance >>= fun _ => advance >>= fun _ => usingName else usingName : Parser String)
          d).rest = (usingName d).rest := by
    intro d
    split
    · exact ⟨usingNameFrom_found _ _, usingName_alias ‹_›⟩
    · exact ⟨usingNameFrom_found _ _, rfl⟩
  unfold usingTarget Cursor.afterUsing
  rw [bind_apply, look]
  split
  · exact tail c.next.next
  · exact tail c.next

/-- The name of a using comes after the word. -/
theorem Cursor.index_next_le_afterUsing (c : Cursor) : c.next.index ≤ c.afterUsing.index := by
  unfold afterUsing
  split
  · exact c.next.index_le_next
  · exact Nat.le_refl _

/-- A name that is next is no reserved word. -/
theorem Cursor.atKeyword_eq_false {c : Cursor} {w : String} (h : c.atWord w = true) (k : String) :
    c.atKeyword k = false := by
  obtain ⟨l, hl, hw⟩ := exists_head?_of_any h
  simp only [Lexeme.isWord, Bool.and_eq_true, beq_iff_eq] at hw
  simp [Cursor.atKeyword, hl, Lexeme.isKeyword, hw.1]

/-- **A using** passes at least its word, after `global` or by itself. -/
theorem movesAt_usingDirective {top : Bool} {c : Cursor} (h : atUsing c = true) :
    MovesAt top usingDirective c := by
  have tail : ∀ d : Cursor, d.atKeyword "using" = true → ∀ g : String → Parser (List Item),
      (∀ name, Walks (g name)) → MovesAt top (advance >>= fun _ => usingTarget >>= g) d := by
    intro d hd g hg
    have ht : Walk top d (usingTarget d.next).found (usingTarget d.next).rest := by
      rw [(usingTarget_apply d).1, (usingTarget_apply d).2]
      exact .imported hd
    refine ⟨ht.append (hg _ top _), ?_⟩
    have hi : d.next.index ≤ (usingTarget d.next).rest.index := by
      rw [(usingTarget_apply d).2]
      exact Nat.le_trans d.index_next_le_afterUsing (usingNameFrom_passed _ _).index_le
    exact Nat.lt_of_lt_of_le (Cursor.index_lt_next (Cursor.atEnd_of_any hd))
      (Nat.le_trans hi (hg _ top _).index_le)
  have ends : ∀ name : String, Walks (if name.isEmpty = true then
      reportMissing .identifier >>= fun _ => expect ";" .semicolon >>= fun _ => pure []
      else expect ";" .semicolon >>= fun _ => pure [Item.imported name] : Parser (List Item)) :=
    fun name => .ite (.bind (walks_reportAfter _) fun _ => .bind (walks_expect (by decide) _)
      fun _ => .pure _) (.bind (walks_expect (by decide) _) fun _ => .pure _)
  rw [atUsing, Bool.or_eq_true, Bool.and_eq_true, Bool.and_eq_true] at h
  refine .look <| .look <| .ite (fun hg => ?_) fun hg => ?_
  · obtain ⟨hk, -⟩ | ⟨-, hn⟩ := h
    · rw [Cursor.atKeyword_eq_false hg] at hk
      exact absurd hk Bool.false_ne_true
    · refine .after (.advance (Cursor.atPlain_of_atWord hg)) (.after (walksAt_need _ ?_) ?_)
      · exact c.index_le_next
      · exact tail c.next hn _ ends
  · obtain ⟨hk, -⟩ | ⟨hw, -⟩ := h
    · exact tail c hk _ ends
    · exact absurd hw hg

/-- A using that comes too late is reported first. -/
theorem movesAt_placedUsing {top : Bool} {c : Cursor} (late : Bool) (h : atUsing c = true) :
    MovesAt top (placedUsing late) c := by
  refine .ite (fun _ => .after (walks_reportHere _ top c) ?_) fun _ => movesAt_usingDirective h
  exact movesAt_usingDirective h

/-- Skipping a member passes an expression and then, if it is next, a semicolon, or a token
that is stuck, but no closing brace. -/
theorem skipMember_rest (c : Cursor) : (skipMember c).rest =
    if (skipExpression [";"] c).rest.atPunct ";" ||
        ((skipExpression [";"] c).rest.index == c.index &&
          !(skipExpression [";"] c).rest.atPunct "\x7d")
      then (skipExpression [";"] c).rest.next else (skipExpression [";"] c).rest := by
  have hr : (skipMember c).rest = ((eat ";" >>= fun ate => if ate = true then pure () else
      look (fun d => d.index == c.index && !d.atPunct "\x7d") >>= fun stuck =>
        if stuck = true then advance else pure () : Parser Unit)
      (skipExpression [";"] c).rest).rest := rfl
  rw [hr]
  cases hp : (skipExpression [";"] c).rest.atPunct ";" with
  | true =>
    rw [eat_bind_of_atPunct hp]
    rfl
  | false =>
    rw [eat_bind_of_not_atPunct hp]
    simp only [Bool.false_eq_true, if_false, Bool.false_or]
    rw [bind_apply, look]
    dsimp only
    split <;> rfl

/-- Skipping a member passes a token at least, unless a brace or the end is next. -/
theorem skipMember_index_lt {c : Cursor} (h : c.atPunct "\x7d" = false) (he : c.atEnd = false) :
    c.index < (skipMember c).rest.index := by
  have hs := walks_skipExpression [";"] false c
  rw [skipMember_rest]
  split
  · rename_i hnext
    refine Nat.lt_of_le_of_lt hs.index_le (Cursor.index_lt_next ?_)
    rw [Bool.or_eq_true, Bool.and_eq_true, beq_iff_eq] at hnext
    obtain hp | ⟨hi, -⟩ := hnext
    · exact Cursor.atEnd_of_any hp
    · obtain ⟨ls, hl⟩ := Walk.passed hs |>.passes
      rwa [hl.eq_of_index hi]
  · rename_i hstay
    refine Nat.lt_of_le_of_ne hs.index_le fun hi => hstay ?_
    obtain ⟨ls, hl⟩ := Walk.passed hs |>.passes
    rw [hl.eq_of_index hi.symm, h, beq_self_eq_true]
    exact Bool.or_true _

/-- What follows modifiers in a namespace is a type, a delegate, or skipped as a fault. -/
theorem walks_modifiedType (namespaceName : Option String) (mods : List String) :
    Walks (modifiedType namespaceName mods) := by
  intro top c
  refine .look <| .ite
    (fun hc => .bind (movesAt_typeDeclaration walks_memberList _ _ hc).walks (.pure _)) fun _ =>
    .look <| .ite (fun hc => .bind (movesAt_delegateDeclaration _ hc).walks (.pure _)) fun _ => ?_
  exact walks_recover (walks_reportHere _) (fun _ => rfl) (.pure _) top _

/-- What follows modifiers passes a token, unless a closing brace or the end is next. -/
theorem movesAt_modifiedType {top : Bool} {c : Cursor} (namespaceName : Option String)
    (mods : List String) (h : c.atPunct "\x7d" = false) (he : c.atEnd = false) :
    MovesAt top (modifiedType namespaceName mods) c := by
  refine .look <| .ite
    (fun hc => .bind (movesAt_typeDeclaration walks_memberList _ _ hc) (.pure _)) fun _ =>
    .look <| .ite (fun hc => .bind (movesAt_delegateDeclaration _ hc) (.pure _)) fun _ => ?_
  refine ⟨walks_recover (walks_reportHere _) (fun _ => rfl) (.pure _) top _, ?_⟩
  exact skipMember_index_lt h he

/-- Attributes or modifiers may be all that is passed, and without them there is something
to skip. -/
theorem movesAt_namespaceMember {top : Bool} {c : Cursor} (namespaceName : Option String)
    (h : (c.atEnd || c.atPunct "\x7d" || c.atKeyword "namespace") = false) :
    MovesAt top (namespaceMember namespaceName) c := by
  have modified : ∀ d : Cursor, WalksAt top (modifiers >>= modifiedType namespaceName) d :=
    fun d => .bind (walks_modifiers top d) (walks_modifiedType namespaceName _ top _)
  refine .orAfter (walks_attributes top c)
    (.look <| .ite (fun _ => .pure _) fun _ => modified _) fun _ => ?_
  refine .look <| .ite (fun hc => ?_) fun _ => ?_
  · rw [h] at hc
    exact absurd hc Bool.false_ne_true
  · simp only [Bool.or_eq_false_iff] at h
    exact .orAfter (walks_modifiers top c) (walks_modifiedType namespaceName _ top _) fun _ =>
      movesAt_modifiedType namespaceName _ h.1.2 h.1.1

/-- Items that, right after an opening brace with less than `n` lexemes, walk on from it. -/
def ItemParser.WalksIn (items : ItemParser) (n : Nat) : Prop :=
  ∀ name top c, c.remaining < n → c.atPunct "\x7b" = true →
    Walk top c (items name c.next).found (items name c.next).rest

/-- The name of a namespace that is missing is reported. -/
theorem walks_namespacePath : Walks namespacePath := by
  refine .bind walks_qualifiedName? fun name => ?_
  split
  · exact .pure _
  · exact .bind (walks_reportAfter _) fun _ => .pure _

/-- **What follows the name of a namespace**: a semicolon, a block, or neither. -/
theorem walksAt_namespaceBody {top : Bool} {c : Cursor} {items : ItemParser} {n : Nat}
    (h : items.WalksIn n) (hn : c.remaining < n) (place : NamespacePlace) {keyword : Nat}
    (name : String) (hk : keyword ≤ c.index) :
    WalksAt top (namespaceBody items place keyword name) c := by
  have hm : (Edge.start keyword).token ≤ c.next.index := Nat.le_trans hk c.index_le_next
  refine .eatBind (by decide) (fun _ => ?_) fun _ => ?_
  · refine .bind (walksAt_need _ hm) ?_
    dsimp only
    split
    · exact .bind (.report (Mark.upTo_whole hm)) (.pure _)
    · exact .pure _
  · unfold WalksAt
    simp only [Bool.false_eq_true, if_false]
    cases hb : c.atPunct "\x7b" with
    | true =>
      rw [eat_bind_of_atPunct hb]
      exact h _ top c hn hb
    | false =>
      rw [eat_bind_of_not_atPunct hb]
      exact WalksAt.bind (walks_reportAfter _ top c) (.pure _)

/-- A namespace passes at least its word. -/
theorem movesAt_namespaceDeclaration {top : Bool} {c : Cursor} {items : ItemParser}
    (h : items.WalksIn c.remaining) (place : NamespacePlace)
    (hc : c.atKeyword "namespace" = true) :
    MovesAt top (namespaceDeclaration items place) c := by
  have hp := walks_namespacePath top c.next
  refine .look <| .bind (movesAt_advance_of_atKeyword hc) <| .bind hp <|
    walksAt_namespaceBody h ?_ place _ (Nat.le_trans c.index_le_next hp.index_le)
  exact Nat.lt_of_le_of_lt (Walk.remaining_le hp)
    (Cursor.remaining_next_lt (Cursor.atEnd_of_any hc))

/-- How the items of the block of a namespace end, after a walk in it: with the
closing brace, or without it. -/
inductive EndsBlock : Cursor → List Finding → Cursor → Prop
  | closed {c d : Cursor} {f : List Finding} (h : Walk false c f d)
      (hd : d.atPunct "\x7d" = true) : EndsBlock c f (eat ";" d.next).rest
  | missing {c d : Cursor} {f : List Finding} (h : Walk false c f d) :
      EndsBlock c (f ++ [⟨.expected .closeBrace, .gap d.index⟩]) d

/-- A walk in front of items that end a block. -/
theorem EndsBlock.after {c d e : Cursor} {f g : List Finding} (h : Walk false c f d)
    (hd : EndsBlock d g e) : EndsBlock c (f ++ g) e := by
  cases hd with
  | closed hw hb => exact .closed (h.append hw) hb
  | missing hw =>
    rw [← List.append_assoc]
    exact .missing (h.append hw)

/-- From the opening brace, a block that is ended walks. -/
theorem EndsBlock.walk {top : Bool} {c d : Cursor} {f : List Finding}
    (hc : c.atPunct "\x7b" = true) (h : EndsBlock c.next f d) : Walk top c f d := by
  cases h with
  | closed hw hb =>
    rename_i e
    have he := walks_eat (p := ";") (by decide) top e.next
    unfold WalksAt at he
    rw [eat_found] at he
    have := (Walk.block hc hb hw).append he
    rwa [List.append_nil] at this
  | missing hw => exact .unclosed hc hw

/-- An item of the block of a namespace passes a token at least. -/
theorem movesAt_namespaceItem {c : Cursor} {items : ItemParser} (full : String) (late : Bool)
    (h : items.WalksIn c.remaining) (hb : c.atPunct "\x7d" = false) (he : c.atEnd = false) :
    MovesAt false (namespaceItem items full late) c := by
  by_cases hu : atUsing c = true
  · exact .of_eq (if_pos hu) (movesAt_placedUsing late hu)
  by_cases hk : c.atKeyword "namespace" = true
  · exact .of_eq ((if_neg hu).trans (if_pos hk)) (movesAt_namespaceDeclaration h _ hk)
  · exact .of_eq ((if_neg hu).trans (if_neg hk))
      (movesAt_namespaceMember _ (by simp [hb, he, hk]))

/-- **The items of a block** end with its closing brace, or at the end of the file without it. -/
theorem endsBlock_namespaceItems (full : String) (late : Bool) (c : Cursor) :
    EndsBlock c (namespaceItems full late c).found (namespaceItems full late c).rest := by
  induction hn : c.remaining using Nat.strongRecOn generalizing full late c with
  | ind n ih =>
    subst hn
    have inside : ItemParser.WalksIn (fun name d =>
        if _h : d.remaining < c.remaining then namespaceItems name false d else ⟨[], d, []⟩)
        c.remaining := by
      intro name top b hr hb
      have hr' := Nat.lt_of_le_of_lt (Cursor.remaining_next_le b) hr
      simp only [hr', dif_pos]
      exact (ih _ hr' name false b.next rfl).walk hb
    rw [namespaceItems]
    split
    · rename_i hc
      have := EndsBlock.closed (.nil c) hc
      rwa [← eat_found ";" c.next] at this
    rename_i hb
    split
    · exact .missing (.nil c)
    rename_i he
    have hm := movesAt_namespaceItem full late inside (by simpa using hb) (by simpa using he)
    have hr := Walk.remaining_lt hm.walks hm.index_lt
    dsimp only
    rw [if_neg (Nat.ne_of_gt hm.index_lt), dif_pos hr]
    exact (ih _ hr full _ _ rfl).after hm.walks

theorem walksIn_namespaceItems (n : Nat) :
    ItemParser.WalksIn (fun name => namespaceItems name false) n := fun name _ c _ hb =>
  (endsBlock_namespaceItems name false c.next).walk hb

/-- An alias is skipped as a member is; it starts with a word that is no stop. -/
theorem movesAt_alias {top : Bool} {c : Cursor} (h : atAlias c = true) :
    MovesAt top skipMember c := by
  rw [atAlias, Bool.and_eq_true] at h
  have hp := Cursor.atPlain_of_atKeyword h.1
  have he : c.atEnd = false := Cursor.atEnd_of_any h.1
  have hb : c.atPunct "\x7d" = false := by
    cases hc : c.atPunct "\x7d" with
    | false => rfl
    | true =>
      obtain ⟨l, hl, hbrace⟩ := Cursor.exists_head?_of_any hc
      have hd := hp l hl
      simp_all [Lexeme.isPunct, Lexeme.delimiter?]
  have hs : skipExpression [";"] c = skipExpression [";"] c.next := by
    obtain ⟨l, hl, hk⟩ := Cursor.exists_head?_of_any h.1
    obtain ⟨ls, ha⟩ := Cursor.ahead_of_head? hl
    refine skipExpression_of_plain ha (hp l hl) ?_
    simp_all [Lexeme.isKeyword, Lexeme.isOneOf]
  refine ⟨(Walk.nil c).skipMember fun hi => ?_, skipMember_index_lt hb he⟩
  have hle := (walks_skipExpression [";"] false c.next).index_le
  have hlt := Cursor.index_lt_next he
  rw [← hs] at hle
  omega

/-- An item of a file passes a token at least. -/
theorem movesAt_fileItem {c : Cursor} (fileNamespace : Option String) (late : Bool)
    (he : c.atEnd = false) : MovesAt true (fileItem fileNamespace late) c := by
  by_cases hu : atUsing c = true
  · exact .of_eq (if_pos hu) (movesAt_placedUsing late hu)
  by_cases ha : atAlias c = true
  · exact .of_eq ((if_neg hu).trans (if_pos ha)) (movesAt_alias ha).map
  by_cases hk : c.atKeyword "namespace" = true
  · exact .of_eq ((if_neg hu).trans ((if_neg ha).trans (if_pos hk)))
      (movesAt_namespaceDeclaration (walksIn_namespaceItems _) _ hk)
  by_cases hb : c.atPunct "\x7d" = true
  · exact .of_eq (q := fun c => ⟨[], c.next, [⟨.strayBrace, .whole c.index⟩]⟩)
      ((if_neg hu).trans ((if_neg ha).trans ((if_neg hk).trans (if_pos hb))))
      ⟨.stray hb, Cursor.index_lt_next he⟩
  · exact .of_eq ((if_neg hu).trans ((if_neg ha).trans ((if_neg hk).trans (if_neg hb))))
      (movesAt_namespaceMember _ (by simp [hb, he, hk]))

/-- The items of a file are walked through up to its end. -/
theorem walks_fileItems (fileNamespace : Option String) (late : Bool) (c : Cursor) :
    WalksAt true (fileItems fileNamespace late) c ∧
      (fileItems fileNamespace late c).rest.atEnd = true := by
  induction hn : c.remaining using Nat.strongRecOn generalizing fileNamespace late c with
  | ind n ih =>
    subst hn
    unfold WalksAt
    rw [fileItems]
    split
    · exact ⟨.nil c, ‹_›⟩
    rename_i he
    have hm := movesAt_fileItem fileNamespace late (by simpa using he)
    have hr := Walk.remaining_lt hm.walks hm.index_lt
    dsimp only
    rw [if_neg (Nat.ne_of_gt hm.index_lt), dif_pos hr]
    obtain ⟨hw, hd⟩ := ih _ hr _ _ _ rfl
    exact ⟨Walk.append hm.walks hw, hd⟩

/-- **A file is walked through.**  Whatever the lexemes are, parsing them is a walk
from the first to the end. -/
theorem walk_parseFile (ls : List Lexeme) :
    Walk true ⟨0, ls⟩ (parseFile ls).found (parseFile ls).rest ∧
      (parseFile ls).rest = ⟨ls.length, []⟩ := by
  obtain ⟨hw, he⟩ := walks_fileItems none false ⟨0, ls⟩
  refine ⟨hw, ?_⟩
  obtain ⟨ms, hp⟩ := Walk.passed hw |>.passes
  have hr := hp.index_add_remaining
  unfold parseFile
  generalize (fileItems none false ⟨0, ls⟩).rest = d at he hr
  obtain ⟨i, ds⟩ := d
  obtain rfl : ds = [] := List.isEmpty_iff.1 he
  have hi : i + 0 = 0 + ls.length := hr
  rw [show i = ls.length by omega]

end Parser
end Outline
