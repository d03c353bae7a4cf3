/-
# Declarations in a frame

A declaration without a fault ends with a closing brace or a semicolon, so it does not see
what stands after it: in the frame it comes to the same, even where it ends the source
(`Frame.Closes`).  Only the semicolon that may follow a closing brace is looked for, and
the lexemes after do not start with one.
-/

import Outline.Proofs.Frame.Bodies

namespace Outline
namespace Parser
namespace Frame

variable {f : Frame} {α β γ δ : Type}

/-! ### Parsers that end with a closer -/

variable (f) in
/-- A parser that looks at nothing comes to the same in the frame. -/
def Blind (g : α → β) (p : Parser α) (q : Parser β) : Prop :=
  ∀ c, (p c).rest = c ∧ q (f.cursor c) = f.step g (p c)

namespace Blind

variable {g : α → β} {h : γ → δ} {p : Parser α} {q : Parser β}

theorem pure (a : α) : f.Blind g (Pure.pure a : Parser α) (Pure.pure (g a)) := fun _ => ⟨rfl, rfl⟩

theorem report (cause : Cause) (m : Mark) :
    f.Blind id (Parser.report cause m) (Parser.report cause (f.mark m)) := fun _ => ⟨rfl, rfl⟩

theorem need (x : Language.Feature) (e : Edge) :
    f.Blind id (Parser.need x e) (Parser.need x (f.edge e)) := report _ _

/-- Parsers that pass nothing, one after the other. -/
theorem bind {k : α → Parser γ} {k' : β → Parser δ} (hp : f.Blind g p q)
    (hk : ∀ a, f.Blind h (k a) (k' (g a))) : f.Blind h (p >>= k) (q >>= k') := by
  intro c
  obtain ⟨hr, he⟩ := hp c
  have hnext := hk (p c).value (p c).rest
  exact ⟨hnext.1.trans hr, bind_step he hnext.2⟩

theorem ite {b : Prop} [Decidable b] {p' : Parser α} {q' : Parser β} (ht : f.Blind g p q)
    (he : f.Blind g p' q') : f.Blind g (if b then p else p') (if b then q else q') := by
  split
  · exact ht
  · exact he

end Blind

variable (f) in
/-- From a cursor `p` ends with a closer unless it finds a fault, and it comes to the same
as `q` does in the frame, whatever stands after. -/
structure ClosesAt (g : α → β) (p : Parser α) (q : Parser β) (c : Cursor) : Prop where
  suffix : (p c).rest.ahead <:+ c.ahead
  unseen : hasFault (p c).found = false → f.Unseen c
  eq : hasFault (p c).found = false → q (f.cursor c) = f.step g (p c)

variable (f) in
/-- A parser `p` ends with a closer, and comes to the same as `q` does in the frame. -/
def Closes (g : α → β) (p : Parser α) (q : Parser β) : Prop := ∀ c, f.ClosesAt g p q c

/-- What ends with a closer carries over, seen or not. -/
theorem ClosesAt.carriesAt {g : α → β} {p : Parser α} {q : Parser β} {c : Cursor}
    (h : f.ClosesAt g p q c) : f.CarriesAt g p q c := ⟨h.suffix, fun _ => h.eq⟩

/-- What ends with a closer after something that carries over. -/
theorem ClosesAt.bind {g : α → β} {h : γ → δ} {p : Parser α} {q : Parser β} {c : Cursor}
    {k : α → Parser γ} {k' : β → Parser δ} (hp : f.CarriesAt g p q c)
    (hk : f.ClosesAt h (k (p c).value) (k' (g (p c).value)) (p c).rest) :
    f.ClosesAt h (p >>= k) (q >>= k') c := by
  refine ⟨hk.suffix.trans hp.suffix, fun hf => ?_, fun hf => ?_⟩
  · exact (hk.unseen (hasFault_append_eq_false.1 hf).2).of_suffix hp.suffix
  · obtain ⟨hfirst, hsecond⟩ := hasFault_append_eq_false.1 hf
    exact bind_step (hp.eq (hk.unseen hsecond) hfirst) (hk.eq hsecond)

theorem ClosesAt.of_eq {g : α → β} {p p' : Parser α} {q q' : Parser β} {c : Cursor}
    (hp : p c = p' c) (hq : q (f.cursor c) = q' (f.cursor c)) (h : f.ClosesAt g p' q' c) :
    f.ClosesAt g p q c :=
  ⟨by rw [hp]; exact h.suffix, by rw [hp]; exact h.unseen, by rw [hp, hq]; exact h.eq⟩

/-- A branch on what is seen. -/
theorem ClosesAt.lookIf {g : α → β} {k : Cursor → Bool} {p p' : Parser α} {q q' : Parser β}
    {c : Cursor} (hk : f.Sees k) (ht : k c = true → f.ClosesAt g p q c)
    (he : k c = false → f.ClosesAt g p' q' c) :
    f.ClosesAt g (Parser.look k >>= fun b => if b = true then p else p')
      (Parser.look k >>= fun b => if b = true then q else q') c := by
  refine .bind (Carries.see hk c) ?_
  show f.ClosesAt g (if k c = true then p else p') (if k c = true then q else q') c
  split
  · exact ht ‹_›
  · exact he (Bool.eq_false_iff.2 ‹_›)

/-- What ends with a closer, and something after it that looks at nothing. -/
theorem ClosesAt.andBlind {g : α → β} {h : γ → δ} {p : Parser α} {q : Parser β} {c : Cursor}
    {k : α → Parser γ} {k' : β → Parser δ} (hp : f.ClosesAt g p q c)
    (hk : f.Blind h (k (p c).value) (k' (g (p c).value))) :
    f.ClosesAt h (p >>= k) (q >>= k') c := by
  obtain ⟨hr, he⟩ := hk (p c).rest
  refine ⟨?_, fun hf => ?_, fun hf => ?_⟩
  · show (k (p c).value (p c).rest).rest.ahead <:+ c.ahead
    rw [hr]
    exact hp.suffix
  · exact hp.unseen (hasFault_append_eq_false.1 hf).1
  · exact bind_step (hp.eq (hasFault_append_eq_false.1 hf).1) he

/-- Of what finds a fault nothing more is asked. -/
theorem ClosesAt.of_fault {g : α → β} {p : Parser α} {q : Parser β} {c : Cursor}
    (hp : f.CarriesAt g p q c) (hf : hasFault (p c).found = true) : f.ClosesAt g p q c :=
  have none {P : Prop} (hn : hasFault (p c).found = false) : P := absurd hn (by simp [hf])
  ⟨hp.suffix, none, none⟩

namespace Closes

variable {g : α → β} {h : γ → δ} {p : Parser α} {q : Parser β}

/-- A parser that closes everywhere carries over everywhere. -/
theorem carries (hp : f.Closes g p q) : f.Carries g p q := fun c => (hp c).carriesAt

/-- What comes before the part that closes has only to carry over. -/
theorem bind {k : α → Parser γ} {k' : β → Parser δ} (hp : f.Carries g p q)
    (hk : ∀ a, f.Closes h (k a) (k' (g a))) : f.Closes h (p >>= k) (q >>= k') := fun c =>
  .bind (hp c) (hk _ _)

theorem ite {b : Prop} [Decidable b] {p' : Parser α} {q' : Parser β} (ht : f.Closes g p q)
    (he : f.Closes g p' q') : f.Closes g (if b then p else p') (if b then q else q') := by
  split
  · exact ht
  · exact he

theorem lookIf {k : Cursor → Bool} {p' : Parser α} {q' : Parser β} (hk : f.Sees k)
    (ht : f.Closes g p q) (he : f.Closes g p' q') :
    f.Closes g (Parser.look k >>= fun b => if b = true then p else p')
      (Parser.look k >>= fun b => if b = true then q else q') :=
  bind (.see hk) fun _ => ite ht he

/-- What ends with a closer, and something after it that looks at nothing. -/
theorem andBlind {k : α → Parser γ} {k' : β → Parser δ} (hp : f.Closes g p q)
    (hk : ∀ a, f.Blind h (k a) (k' (g a))) : f.Closes h (p >>= k) (q >>= k') := fun c =>
  (hp c).andBlind (hk _)

/-- Of what finds a fault nothing is asked. -/
theorem of_fault (hp : f.Carries g p q) (hf : ∀ c, hasFault (p c).found = true) :
    f.Closes g p q := fun c => .of_fault (hp c) (hf c)

end Closes

/-- In front of a closer nothing behind it is seen. -/
theorem unseen_of_atPunct {c : Cursor} {p : String} (h : c.atPunct p = true) (hp : p ∈ closers) :
    f.Unseen c := by
  obtain ⟨l, hl, hlp⟩ := Cursor.exists_head?_of_any h
  obtain ⟨ls, ha⟩ := Cursor.ahead_of_head? hl
  exact .inr (by rw [ha, List.any_cons, isOneOf_of_isPunct hlp hp, Bool.true_or])

theorem ahead_ne_nil_of_atPunct {c : Cursor} {p : String} (h : c.atPunct p = true) :
    c.ahead ≠ [] := by
  rintro ha
  simp [Cursor.atPunct, Cursor.head?, ha] at h

/-- A semicolon is next in the frame if one is next without it, also at the end. -/
theorem atSemicolon_cursor (c : Cursor) : (f.cursor c).atPunct ";" = c.atPunct ";" := by
  obtain ⟨i, _ | ⟨l, ls⟩⟩ := c
  · exact f.starts
  · rfl

/-- A semicolon that ends a declaration. -/
theorem closesAt_semicolon {g : α → β} {p p' : Parser α} {q q' : Parser β} {c : Cursor}
    (hp : f.Blind g p q) (hp' : f.ClosesAt g p' q' c) :
    f.ClosesAt g (eat ";" >>= fun b => if b = true then p else p')
      (eat ";" >>= fun b => if b = true then q else q') c := by
  have hsame := atSemicolon_cursor (f := f) c
  cases h : c.atPunct ";" with
  | true =>
    rw [h] at hsame
    obtain ⟨hr, he⟩ := hp c.next
    have hone := eat_bind_of_atPunct h fun b => if b = true then p else p'
    refine ⟨?_, fun _ => unseen_of_atPunct h (by decide), fun _ => ?_⟩
    · rw [hone, if_pos rfl, hr]
      exact suffix_of_passes c.passes_next
    · rw [hone, eat_bind_of_atPunct hsame, if_pos rfl, if_pos rfl,
        cursor_next (.inl (ahead_ne_nil_of_atPunct h))]
      exact he
  | false =>
    rw [h] at hsame
    exact .of_eq (eat_bind_of_not_atPunct h _) (eat_bind_of_not_atPunct hsame _) hp'

/-- A semicolon that may follow a closing brace. -/
theorem eat_semicolon_cursor (c : Cursor) : eat ";" (f.cursor c) = f.step id (eat ";" c) := by
  have hsame := atSemicolon_cursor (f := f) c
  cases h : c.atPunct ";" with
  | true =>
    rw [eat_of_atPunct h, eat_of_atPunct (hsame.trans h),
      cursor_next (.inl (ahead_ne_nil_of_atPunct h))]
    rfl
  | false =>
    rw [eat_of_not_atPunct h, eat_of_not_atPunct (hsame.trans h)]
    rfl

/-- What stands after a closing brace, which may be a semicolon. -/
theorem closesAt_brace {g : α → β} {c : Cursor} (h : c.atPunct "\x7d" = true) (a : α) :
    f.ClosesAt g (advance >>= fun _ => eat ";" >>= fun _ => pure a)
      (advance >>= fun _ => eat ";" >>= fun _ => pure (g a)) c := by
  refine ⟨?_, fun _ => unseen_of_atPunct h (by decide), fun _ => ?_⟩
  · exact (carries_eat (f := f) ";" c.next).suffix.trans (suffix_of_passes c.passes_next)
  · rw [advance_bind, advance_bind, cursor_next (.inl (ahead_ne_nil_of_atPunct h)),
      bindPure_apply, bindPure_apply, eat_semicolon_cursor]
    rfl

/-- A closing brace that ends a declaration, with the semicolon that may follow it. -/
theorem closes_brace {g : α → β} (a : α) :
    f.Closes g (expect "\x7d" .closeBrace >>= fun _ => eat ";" >>= fun _ => pure a)
      (expect "\x7d" .closeBrace >>= fun _ => eat ";" >>= fun _ => pure (g a)) := by
  intro c
  cases h : c.atPunct "\x7d" with
  | true =>
    have hsame : (f.cursor c).atPunct "\x7d" = true :=
      (sees_atPunct "\x7d" c (unseen_of_atPunct h (by decide))).trans h
    exact .of_eq (bind_congr_left _ (expect_of_atPunct h .closeBrace))
      (bind_congr_left _ (expect_of_atPunct hsame .closeBrace)) (closesAt_brace h a)
  | false =>
    exact .of_fault (Carries.bind (carries_expect "\x7d" .closeBrace) (fun _ =>
      .bind (carries_eat ";") fun _ => .pure a) c) (hasFault_bind (hasFault_expect h _))

/-! ### Modifiers and heads -/

/-- A closer is no modifier. -/
theorem isModifier_closer {l : Lexeme} (h : l.isOneOf closers = true) (next : Option Lexeme) :
    isModifier l next = false := by
  have hk : l.kind = .punct := by
    simp only [Lexeme.isOneOf, Bool.and_eq_true, beq_iff_eq] at h
    exact h.1
  simp [isModifier, Lexeme.isKeywordOf, Lexeme.isWordOf, hk]

/-- Whether a lexeme is a modifier is seen before what ends the modifiers. -/
theorem isModifier_append {index : Nat} {l : Lexeme} {ls : List Lexeme}
    (hu : f.Unseen (modifiersFrom index (l :: ls)).rest) :
    isModifier l (ls ++ f.after).head? = isModifier l ls.head? := by
  cases ls with
  | cons m ls => rfl
  | nil =>
    cases hm : isModifier l (List.head? []) with
    | true =>
      rw [modifiersFrom, if_pos hm] at hu
      rw [hu.after_eq_nil rfl]
      exact hm
    | false =>
      rw [modifiersFrom, hm, if_neg Bool.false_ne_true] at hu
      rcases hu with hn | hc
      · rw [hn]
        exact hm
      · exact isModifier_closer (by simpa using hc) _

/-- **Modifiers** end in front of a closer at the latest, so the lexeme behind each is
the same. -/
theorem modifiersFrom_cursor {index : Nat} {ls : List Lexeme}
    (hu : f.Unseen (modifiersFrom index ls).rest) :
    modifiersFrom (f.before + index) (ls ++ f.after) = f.step id (modifiersFrom index ls) := by
  induction ls generalizing index with
  | nil =>
    simp [modifiersFrom, step, cursor, hu.after_eq_nil rfl]
  | cons l ls ih =>
    rw [List.cons_append, modifiersFrom, isModifier_append hu]
    rw [modifiersFrom] at hu ⊢
    cases hm : isModifier l ls.head? with
    | true =>
      rw [hm, if_pos rfl] at hu
      have hrest := ih hu
      rw [← Nat.add_assoc] at hrest
      rw [if_pos rfl, if_pos rfl, hrest, step_before]
      cases modifierFeature? l.text <;> rfl
    | false => rfl

theorem carries_modifiers : f.Carries id modifiers modifiers := fun c =>
  ⟨suffix_of_walks walks_modifiers c, fun hu _ => modifiersFrom_cursor hu⟩

/-- The word `record` is told by the lexeme behind it, and is no closer itself. -/
theorem sees_atTypeKeyword : f.Sees atTypeKeyword := by
  have second (c : Cursor) : c.second? = c.next.head? := by
    obtain ⟨i, _ | ⟨l, ls⟩⟩ := c <;> rfl
  have hk : f.Sees fun c => c.head?.any (·.isKeywordOf ["class", "struct", "interface", "enum"])
      || (c.atWord "record" && c.next.head?.any fun n =>
        n.isName || n.isKeyword "class" || n.isKeyword "struct") :=
    (sees_any _).or ((sees_atWord "record").andNext not_closer_of_atWord (sees_any _))
  intro c hc
  rw [atTypeKeyword, atTypeKeyword, second, second]
  exact hk c hc

theorem carries_typeKeyword : f.Carries id typeKeyword typeKeyword := by
  refine .bind .index fun start => .bind (.see sees_text) fun word => .bind .advance fun _ => ?_
  refine .ite (.pure _) <| .ite (.pure _) <| .ite (.pure _) <| .ite (.pure _) ?_
  have records : f.Carries id (do need .records (.start start); return TypeKind.record)
      (do need .records (.start (f.before + start)); return TypeKind.record) :=
    .bind (.need .records (.start start)) fun _ => .pure _
  exact .lookIf (sees_atKeyword "struct")
    (.bind .advance fun _ => .bind (.need .recordStructs (.start start)) fun _ => .pure _)
    (.lookIf (sees_atKeyword "class") (.bind .advance fun _ => records) records)

/-- The place of a missing name is the end of the word, moved by the lexemes before. -/
theorem carries_typeName (keyword : Nat) :
    f.Carries (Prod.map id f.edge) (typeName keyword) (typeName (f.before + keyword)) :=
  .bind .index fun place => .bind carries_name? fun
    | some name => .pure (name, Edge.start place)
    | none => .bind (.reportMissing .identifier) fun _ => .pure ("", Edge.stop keyword)

theorem carries_primaryParameters (kind : TypeKind) (place : Edge) :
    f.Carries id (primaryParameters kind place) (primaryParameters kind (f.edge place)) :=
  .lookIf (sees_atPunct "(")
    (.ite (.bind (.need .primaryConstructors place) fun _ => .bind carries_skipGroup fun _ =>
      .pure ()) (.bind carries_skipGroup fun _ => .pure ()))
    (.pure ())

/-- Base types end at the brace of the body or at a semicolon. -/
theorem carries_bases : f.Carries id bases bases :=
  .lookIf ((sees_atPunct ":").or (sees_atWord "where")) carries_skipToBody (.pure ())

theorem carries_constraints : f.Carries id constraints constraints :=
  .lookIf (sees_atWord "where") carries_skipToBody (.pure ())

/-! ### Enums -/

theorem carries_enumName : f.Carries id enumName enumName :=
  .bind carries_name? fun
    | some name => .pure (some (MemberSymbol.mk .enumMember name true))
    | none => .bind (.reportHere rfl) fun _ => .bind (carries_skipExpression [","]) fun _ =>
      .pure none

/-- Progress is told by indices, which are moved alike. -/
theorem carries_enumComma (start : Nat) :
    f.Carries id (enumComma start) (enumComma (f.before + start)) := by
  refine .bind (carries_eat ",") fun _ => .ite (.pure true) ?_
  refine .bind (g := id) (.look fun c hu => ?_) fun _ => ?_
  · rw [Bool.eq_iff_iff]
    simp [cursor]
  · have goes : f.Carries id (look fun c => !c.atPunct "\x7d" && !c.atEnd)
        (look fun c => !c.atPunct "\x7d" && !c.atEnd) :=
      .see ((sees_atPunct "\x7d").not.and sees_atEnd.not)
    exact .ite (.bind .advance fun _ => goes) goes

/-- The value of a member is skipped as an expression. -/
theorem carries_enumMember : f.Carries id enumMember enumMember := by
  refine .bind .index fun start => .bind carries_attributes fun _ =>
    .bind carries_enumName fun name => .bind (carries_eat "=") fun _ => ?_
  have ends : f.Carries id (do return (name, ← enumComma start))
      (do return (name, ← enumComma (f.before + start))) :=
    .map (carries_enumComma start) fun _ => rfl
  exact .ite (.bind (carries_skipExpression [","]) fun _ => ends) ends

theorem sees_atClose : f.Sees fun c => c.atPunct "\x7d" || c.atEnd :=
  (sees_atPunct "\x7d").or sees_atEnd

/-- **The members of an enum** as one turn: nothing more, or a member and the rest. -/
theorem enumMembers_eq (c : Cursor) :
    enumMembers c = (do
      if ← look (fun d => d.atPunct "\x7d" || d.atEnd) then return []
      else
        let m ← enumMember
        if m.2 then
          let more ← enumMembers
          return m.1.toList ++ more
        else return m.1.toList : Parser (List MemberSymbol)) c := by
  refine eq_lookIf (fun h => ?_) fun h => ?_
  · rw [enumMembers, h, if_pos rfl]
    rfl
  · rw [bind_apply]
    cases hgo : (enumMember c).value.2 with
    | true =>
      rw [(goesOn_enumMembers h hgo).eq, if_pos rfl]
      exact congrArg _ (bindPure_apply enumMembers _ _).symm
    | false =>
      rw [enumMembers, h, if_neg Bool.false_ne_true, if_neg Bool.false_ne_true]
      simp [hgo, pure_apply, Step.before]

theorem carries_enumMembers : f.Carries id enumMembers enumMembers := by
  refine .loop fun c ih => .of_eq (enumMembers_eq c) (enumMembers_eq _) <|
    .lookIf sees_atClose (fun _ => Carries.pure [] c) fun hc => ?_
  refine (carries_enumMember c).bind <| .ite (fun hgo => ?_) fun _ => Carries.pure _ _
  have hw : WalksAt true enumMember c := walksAt_enumMember (Bool.or_eq_false_iff.1 hc).1
  have hlt := Walk.remaining_lt hw (goesOn_enumMembers hc hgo).advances
  exact (ih _ hlt).bind (Carries.pure _ _)

/-! ### Types -/

variable (f) in
/-- An entry in the frame. -/
def entry : Entry → Entry
  | .member m => .member m
  | .nested t => .nested (t.map f.edge)

theorem filterMap_member_entry (es : List Entry) :
    (es.map f.entry).filterMap (·.member?) = es.filterMap (·.member?) := by
  rw [List.filterMap_map]
  exact congrArg (List.filterMap · es) (funext fun e => by cases e <;> rfl)

/-- Only nested types have places. -/
theorem filterMap_nested_entry (es : List Entry) :
    (es.map f.entry).filterMap (·.nested?)
      = (es.filterMap (·.nested?)).map (TypeSymbol.map f.edge) := by
  rw [List.filterMap_map, List.map_filterMap]
  exact congrArg (List.filterMap · es) (funext fun e => by cases e <;> rfl)

/-- Members are the same in the frame. -/
theorem map_entry_member (ms : List MemberSymbol) :
    (ms.map Entry.member).map f.entry = ms.map Entry.member := by
  rw [List.map_map]
  rfl

/-- **A body** ends with its brace or its semicolon, which closes the type. -/
theorem closes_typeBody {entries entries' : EntryParser} (kind : TypeKind) (name : String)
    (place : Edge) (he : f.Carries (List.map f.entry) (entries name) (entries' name)) :
    f.Closes (List.map f.entry) (typeBody entries kind name place)
      (typeBody entries' kind name (f.edge place)) := by
  refine .bind (carries_eat "\x7b") fun _ => .ite ?_ ?_
  · refine .ite (.bind carries_enumMembers fun ms => ?_)
      (.bind he fun inside => closes_brace inside)
    have hms : f.Carries (List.map f.entry) (pure (ms.map Entry.member))
        (pure (ms.map Entry.member)) := by
      have := Carries.pure (f := f) (g := List.map f.entry) (ms.map Entry.member)
      rwa [map_entry_member] at this
    exact .bind hms fun inside => closes_brace inside
  · have bodiless : f.Blind (List.map f.entry) (pure []) (pure []) := .pure []
    have missing : f.Closes (List.map f.entry) (do reportMissing .openBrace; return [])
        (do reportMissing .openBrace; return []) :=
      .of_fault (.bind (.reportMissing .openBrace) fun _ => .pure []) fun _ => rfl
    by_cases hk : kind = .enum
    · simp only [if_pos hk, pure_bind, Bool.false_eq_true, if_false]
      exact missing
    · rw [if_neg hk]
      exact fun c => closesAt_semicolon
        (.ite (.bind (.need .bodilessTypes place) fun _ => bodiless) bodiless) (missing c)

/-- **A type ends with its closing brace or a semicolon.** -/
theorem closes_typeDeclaration {entries entries' : EntryParser} (namespaceName : Option String)
    (modifiers : List String)
    (he : ∀ name, f.Carries (List.map f.entry) (entries name) (entries' name)) :
    f.Closes (TypeSymbol.map f.edge) (typeDeclaration entries namespaceName modifiers)
      (typeDeclaration entries' namespaceName modifiers) := by
  refine .bind .index fun keyword => .bind carries_typeKeyword fun kind =>
    .bind (carries_typeName keyword) fun (name, place) => .bind carries_typeParameters? fun arity =>
    .bind (carries_primaryParameters kind place) fun _ => .bind carries_bases fun _ =>
    .andBlind (closes_typeBody kind name place (he name)) fun inside c => ⟨rfl, ?_⟩
  simp only [filterMap_member_entry, filterMap_nested_entry, pure_apply, step,
    TypeSymbol.map, TypeSymbol.mapAll_eq_map, List.map_nil, id]

/-- A fault that is reported, and what it skips. -/
theorem closes_reportHere {g : α → β} {cause : Cause} (h : cause.isFault = true)
    {p : Parser α} {q : Parser β} (hp : f.Carries g p q) :
    f.Closes g (reportHere cause >>= fun _ => p) (reportHere cause >>= fun _ => q) :=
  .of_fault (.bind (.reportHere h) fun _ => hp) fun c => hasFault_bind (hasFault_reportHere h c)

/-- Something that is missing, and what is skipped for it. -/
theorem closes_reportMissing {g : α → β} (e : Expected) {p : Parser α} {q : Parser β}
    (hp : f.Carries g p q) :
    f.Closes g (reportMissing e >>= fun _ => p) (reportMissing e >>= fun _ => q) :=
  .of_fault (.bind (.reportMissing e) fun _ => hp) fun _ => hasFault_bind rfl

/-- The semicolon that a declaration must end with. -/
theorem closes_expectSemicolon {g : α → β} (a : α) :
    f.Closes g (expect ";" .semicolon >>= fun _ => pure a)
      (expect ";" .semicolon >>= fun _ => pure (g a)) := by
  intro c
  have hsame := atSemicolon_cursor (f := f) c
  cases h : c.atPunct ";" with
  | true =>
    rw [h] at hsame
    have taken :
        f.ClosesAt g (advance >>= fun _ => pure a) (advance >>= fun _ => pure (g a)) c := by
      refine ⟨suffix_of_passes c.passes_next, fun _ => unseen_of_atPunct h (by decide), fun _ => ?_⟩
      rw [advance_bind, advance_bind, cursor_next (.inl (ahead_ne_nil_of_atPunct h))]
      rfl
    exact .of_eq (bind_congr_left _ (expect_of_atPunct h .semicolon))
      (bind_congr_left _ (expect_of_atPunct hsame .semicolon)) taken
  | false =>
    exact .of_fault (Carries.bind (carries_expect ";" .semicolon) (fun _ => .pure a) c)
      (hasFault_bind (hasFault_expect h _))

/-- **A delegate ends with its semicolon.** -/
theorem closes_delegateDeclaration (namespaceName : Option String) :
    f.Closes (Option.map (TypeSymbol.map f.edge)) (delegateDeclaration namespaceName)
      (delegateDeclaration namespaceName) := by
  have skip : f.Carries (Option.map (TypeSymbol.map f.edge)) (do skipMember; return none)
      (do skipMember; return none) := .bind carries_skipMember fun _ => .pure none
  refine .bind .advance fun _ => .bind carries_typeReference fun typed =>
    .ite (.bind .index fun place => .bind carries_name? fun name => ?_)
      (closes_reportHere rfl skip)
  cases name with
  | none => exact closes_reportMissing .identifier skip
  | some name =>
    exact .bind carries_typeParameters? fun arity => .bind carries_requiredParens fun _ =>
      .bind carries_constraints fun _ => closes_expectSemicolon _

end Frame
end Parser
end Outline
