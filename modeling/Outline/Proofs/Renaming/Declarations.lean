/-
# Declarations under a renaming

Types and members are declared by the same words, so they are of the same kinds, in the
same order and nested alike; their names correspond (`Renaming.Alike`).

| name | in the second source |
| --- | --- |
| of a type | the name that corresponds, or missing as it is in the first |
| of a field, a property, a method, an event or a member of an enum | corresponds piece by piece |
| of a constructor, a destructor, an indexer or an operator | the same |
-/

import Outline.Proofs.Frame.Declarations
import Outline.Proofs.Renaming.Bodies

namespace Outline

/-- Whether members of a kind are called as they are written. -/
def MemberKind.isNamed : MemberKind → Bool
  | field | property | method | event | enumMember => true
  | constructor | destructor | indexer | operator => false

namespace Parser
namespace Renaming

/-! ### What is declared -/

/-- Members that are declared alike. -/
structure SameMember (r : Renaming) (m n : MemberSymbol) : Prop where
  kind : m.kind = n.kind
  isStatic : m.isStatic = n.isStatic
  name : if m.kind.isNamed then r.Spells m.name n.name else m.name = n.name

/-- Types that are declared alike, with all that is nested in them, wherever they stand. -/
inductive Alike (r : Renaming) {P Q : Type} : TypeSymbol P → TypeSymbol Q → Prop
  | mk {namespaceName namespaceName' : Option String} {name name' : String} {arity : Nat}
      {kind : TypeKind} {isPartial : Bool} {members members' : List MemberSymbol}
      {nested : List (TypeSymbol P)} {nested' : List (TypeSymbol Q)} {place : P} {place' : Q}
      (namespaces : Option.Rel r.Spells namespaceName namespaceName')
      (names : r.Named name name') (same : List.Forall₂ r.SameMember members members')
      (inside : List.Forall₂ (Alike r) nested nested') :
      Alike r ⟨namespaceName, name, arity, kind, isPartial, members, nested, place⟩
        ⟨namespaceName', name', arity, kind, isPartial, members', nested', place'⟩

/-- Entries that are declared alike. -/
inductive SameEntry (r : Renaming) : Entry → Entry → Prop
  | member {m n : MemberSymbol} : r.SameMember m n → SameEntry r (.member m) (.member n)
  | nested {t u : Declared} : r.Alike t u → SameEntry r (.nested t) (.nested u)

/-- Edges at one place, where nothing stands before the second source. -/
def SameEdge (r : Renaming) (e f : Edge) : Prop := r.before = 0 → e = f

variable {r : Renaming}

/-- An edge in front of a token, where the tokens have the same index. -/
theorem SameEdge.start {i j : Nat} (h : j = r.before + i) : r.SameEdge (.start i) (.start j) :=
  fun hr => by rw [h, hr, Nat.zero_add]

theorem SameEdge.stop {i j : Nat} (h : j = r.before + i) : r.SameEdge (.stop i) (.stop j) :=
  fun hr => by rw [h, hr, Nat.zero_add]

/-- A feature that is asked for is the same, at the same edge. -/
theorem runs_need (feature : Language.Feature) {e f : Edge} (h : r.SameEdge e f) :
    r.Runs Eq (need feature e) (need feature f) :=
  .report (x := ⟨.needs feature, .point e⟩) (y := ⟨.needs feature, .point f⟩)
    ⟨rfl, fun hr => congrArg Mark.point (h hr)⟩

/-! ### Modifiers -/

/-- Modifiers are reserved or contextual words, and the lexeme behind is asked for its
kind only. -/
theorem isModifier_eq {l m : Lexeme} (h : r.Same l m) {o o' : Option Lexeme}
    (ho : Option.Rel r.Same o o') : isModifier l o = isModifier m o' := by
  rw [isModifier, isModifier, isKeywordOf_eq h, isWordOf_eq h (by decide),
    any_eq ho fun _ _ hn => by rw [r.kind hn]]

/-- A modifier is the same word. -/
theorem text_eq_of_isModifier {l m : Lexeme} (h : r.Same l m) {o : Option Lexeme}
    (hl : isModifier l o = true) : l.text = m.text := by
  cases hn : l.isName with
  | false => exact r.text h hn
  | true =>
    rw [isModifier, Lexeme.isKeywordOf, Lexeme.isWordOf, kind_of_isName hn] at hl
    have hmem : l.text ∈ modifierWords := by
      rcases Bool.or_eq_true_iff.1 hl with hk | hw
      · cases hk
      · exact List.contains_iff_mem.1 (Bool.and_eq_true_iff.1 (Bool.and_eq_true_iff.1 hw).1).2
    have hword : l.text ∈ "" :: contextualWords :=
      List.mem_cons_of_mem _ (List.mem_append_left _ (List.mem_append_left _ hmem))
    exact ((r.words h hn _ hword).1 rfl).symm

/-- **Modifiers** are the same words in both sources, with the same features. -/
theorem agree_modifiersFrom {ls ms : List Lexeme} (h : List.Forall₂ r.Same ls ms) (index : Nat) :
    r.Agree Eq (modifiersFrom index ls) (modifiersFrom (r.before + index) ms) := by
  induction h generalizing index with
  | nil => exact ⟨rfl, ⟨rfl, .nil⟩, .nil⟩
  | @cons l m ls ms hl hls ih =>
    rw [modifiersFrom, modifiersFrom, ← isModifier_eq hl (head?_rel hls)]
    split
    · rename_i hmodifier
      rw [← text_eq_of_isModifier hl hmodifier]
      refine ((ih (index + 1)).map fun _ _ hws => congrArg _ hws).before ?_
      cases modifierFeature? l.text with
      | none => exact .nil
      | some x => exact .cons (.at rfl (fun i => .point (.start i)) index) .nil
    · exact ⟨rfl, .cons hl hls, .nil⟩

theorem runs_modifiers : r.Runs Eq modifiers modifiers := fun c d hc => by
  have := agree_modifiersFrom hc.ahead c.index
  rwa [← hc.index] at this

/-! ### The heads of types -/

/-- The word `record` declares a type only in front of a name or of `class` and `struct`. -/
theorem sees_atTypeKeyword : r.Sees atTypeKeyword :=
  (sees_atKeywordOf _).or <| (sees_atWord (by decide)).and fun _ _ hc =>
    any_eq hc.second? fun _ _ hn => by rw [isName_eq hn, isKeyword_eq hn, isKeyword_eq hn]

/-- The word that declares a type is the same. -/
theorem text_eq_of_atTypeKeyword {c d : Cursor} (hc : r.Beside c d) (h : atTypeKeyword c = true) :
    c.text = d.text := by
  have hhead := hc.head?
  rw [atTypeKeyword, Cursor.atWord] at h
  rw [Cursor.text, Cursor.text]
  revert hhead h
  generalize c.head? = o
  generalize d.head? = o'
  intro h hhead
  cases hhead with
  | none => rfl
  | @some l m hl =>
    show l.text = m.text
    cases hn : l.isName with
    | false => exact r.text hl hn
    | true =>
      rw [Option.any_some, Option.any_some, Lexeme.isKeywordOf, Lexeme.isWord,
        kind_of_isName hn] at h
      rcases Bool.or_eq_true_iff.1 h with hk | hw
      · cases hk
      · have hrecord : l.text = "record" :=
          beq_iff_eq.1 (Bool.and_eq_true_iff.1 (Bool.and_eq_true_iff.1 hw).1).2
        rw [hrecord, (r.words hl hn "record" (by decide)).1 hrecord]

/-- The kind of a type is told by the words, which are the same. -/
theorem runsAt_typeKeyword {c d : Cursor} (hc : r.Beside c d) (h : atTypeKeyword c = true) :
    r.RunsAt Eq typeKeyword typeKeyword c d := by
  refine .bind (Runs.index c d hc) fun hi hr => .bind (V := Eq) ?_ fun hw hr => ?_
  · exact ⟨text_eq_of_atTypeKeyword hc h, hr, .nil⟩
  · have records : r.Runs Eq (do need .records (.start c.index); return TypeKind.record)
        (do need .records (.start d.index); return TypeKind.record) :=
      .andThen (runs_need _ (.start hi)) fun _ => .pure rfl
    refine Runs.andThen .advance (fun _ => ?_) _ _ hr
    rw [← hw]
    refine .ite (.pure rfl) <| .ite (.pure rfl) <| .ite (.pure rfl) <| .ite (.pure rfl) ?_
    exact .lookIf (sees_atKeyword "struct")
      (.andThen .advance fun _ => .andThen (runs_need _ (.start hi)) fun _ => .pure rfl)
      (.lookIf (sees_atKeyword "class") (.andThen .advance fun _ => records) records)

/-- The name of a type and its place. -/
theorem runs_typeName {i j : Nat} (h : j = r.before + i) :
    r.Runs (fun x y => r.Named x.1 y.1 ∧ r.SameEdge x.2 y.2) (typeName i) (typeName j) := by
  refine .bind .index fun _ _ hk => .bind runs_name? fun o o' ho => ?_
  cases ho with
  | none => exact .andThen (.reportMissing .identifier) fun _ => .pure ⟨.inl ⟨rfl, rfl⟩, .stop h⟩
  | some hn => exact .pure ⟨.inr hn, .start hk⟩

/-- Parameters after the name of a type ask for a feature at the place of the type. -/
theorem runs_primaryParameters (kind : TypeKind) {e f : Edge} (h : r.SameEdge e f) :
    r.Runs Eq (primaryParameters kind e) (primaryParameters kind f) :=
  .lookIf (sees_atPunct "(")
    (.ite (.andThen (runs_need _ h) fun _ => .andThen runs_skipGroup fun _ => .pure rfl)
      (.andThen runs_skipGroup fun _ => .pure rfl))
    (.pure rfl)

theorem runs_bases : r.Runs Eq bases bases :=
  .lookIf ((sees_atPunct ":").or (sees_atWord (by decide))) runs_skipToBody (.pure rfl)

theorem runs_constraints : r.Runs Eq constraints constraints :=
  .lookIf (sees_atWord (by decide)) runs_skipToBody (.pure rfl)

/-! ### Enums -/

/-- A member of an enum has a name that corresponds, or is skipped in both sources. -/
theorem runs_enumName : r.Runs (Option.Rel r.SameMember) enumName enumName := by
  refine .bind runs_name? fun o o' ho => ?_
  cases ho with
  | none =>
    exact .andThen (.reportHere rfl) fun _ => .andThen (runs_skipExpression [","]) fun _ =>
      .pure .none
  | some hn => exact .pure (.some ⟨rfl, rfl, hn.spells⟩)

/-- Whether there is progress is told by the indices, which are moved alike. -/
theorem runs_enumComma {i j : Nat} (h : j = r.before + i) :
    r.Runs Eq (enumComma i) (enumComma j) := by
  have goes : r.Runs Eq (look fun c => !c.atPunct "\x7d" && !c.atEnd)
      (look fun c => !c.atPunct "\x7d" && !c.atEnd) :=
    .look ((sees_atPunct "\x7d").not.and sees_atEnd.not)
  refine .andThen (runs_eat ",") fun _ => .ite (.pure rfl) <|
    .andThen (.look fun c d hc => ?_) fun _ => .ite (.andThen .advance fun _ => goes) goes
  rw [hc.index, h, Bool.eq_iff_iff]
  simp

/-- A value is skipped, so the member is its name. -/
theorem runs_enumMember : r.Runs (fun x y => Option.Rel r.SameMember x.1 y.1 ∧ x.2 = y.2)
    enumMember enumMember := by
  refine .bind .index fun i j hi => .andThen runs_attributes fun _ =>
    .bind runs_enumName fun name name' hn => .andThen (runs_eat "=") fun _ => ?_
  have ends : r.Runs (fun x y => Option.Rel r.SameMember x.1 y.1 ∧ x.2 = y.2)
      (do return (name, ← enumComma i)) (do return (name', ← enumComma j)) :=
    .andThen (runs_enumComma hi) fun _ => .pure ⟨hn, rfl⟩
  exact .ite (.andThen (runs_skipExpression [","]) fun _ => ends) ends

theorem sees_atClose : r.Sees fun c => c.atPunct "\x7d" || c.atEnd :=
  (sees_atPunct "\x7d").or sees_atEnd

/-- **The members of an enum** correspond one by one. -/
theorem runs_enumMembers : r.Runs (List.Forall₂ r.SameMember) enumMembers enumMembers := by
  refine .loop fun c d hc ih => .of_eq (Frame.enumMembers_eq c) (Frame.enumMembers_eq d) <|
    .lookIf sees_atClose hc (fun _ => Runs.pure .nil c d hc) fun he => ?_
  refine .bind (runs_enumMember c d hc) fun hv hr => .ite (by rw [hv.2]) (fun hgo => ?_) fun _ => ?_
  · have hw : WalksAt true enumMember c := walksAt_enumMember (Bool.or_eq_false_iff.1 he).1
    have hlt := Walk.remaining_lt hw (goesOn_enumMembers he hgo).advances
    exact .bind (ih _ _ hlt hr) fun hmore hr =>
      Runs.pure (List.rel_append (rel_toList hv.1) hmore) _ _ hr
  · exact Runs.pure (rel_toList hv.1) _ _ hr

/-! ### Types -/

/-- The members among what braces declare correspond. -/
theorem members_rel {es fs : List Entry} (h : List.Forall₂ r.SameEntry es fs) :
    List.Forall₂ r.SameMember (es.filterMap (·.member?)) (fs.filterMap (·.member?)) :=
  List.rel_filterMap (fun _ _ he => by
    cases he with
    | member hm => exact .some hm
    | nested => exact .none) h

/-- The nested types among what braces declare correspond. -/
theorem nested_rel {es fs : List Entry} (h : List.Forall₂ r.SameEntry es fs) :
    List.Forall₂ r.Alike (es.filterMap (·.nested?)) (fs.filterMap (·.nested?)) :=
  List.rel_filterMap (fun _ _ he => by
    cases he with
    | member => exact .none
    | nested ht => exact .some ht) h

/-- What stands in the braces is taken as a parameter, since nested types are parsed by it
as well. -/
theorem runs_typeBody {entries entries' : EntryParser} (kind : TypeKind) {s t : String}
    {e f : Edge} (he : r.Runs (List.Forall₂ r.SameEntry) (entries s) (entries' t))
    (h : r.SameEdge e f) : r.Runs (List.Forall₂ r.SameEntry) (typeBody entries kind s e)
      (typeBody entries' kind t f) := by
  have closes {es fs : List Entry} (hes : List.Forall₂ r.SameEntry es fs) :
      r.Runs (List.Forall₂ r.SameEntry)
        (do expect "\x7d" .closeBrace; let _ ← eat ";"; return es)
        (do expect "\x7d" .closeBrace; let _ ← eat ";"; return fs) :=
    .andThen (runs_expect "\x7d" .closeBrace) fun _ => .andThen (runs_eat ";") fun _ => .pure hes
  refine .andThen (runs_eat "\x7b") fun _ => .ite ?_ ?_
  · exact .ite (.bind runs_enumMembers fun _ _ hms => .bind (.pure <|
      List.rel_map (fun _ _ hm => SameEntry.member hm) hms) fun _ _ => closes)
      (.bind he fun _ _ => closes)
  · have missing : r.Runs (List.Forall₂ r.SameEntry) (do reportMissing .openBrace; return [])
        (do reportMissing .openBrace; return []) :=
      .andThen (.reportMissing .openBrace) fun _ => .pure .nil
    have bodiless : r.Runs (List.Forall₂ r.SameEntry)
        (do if kind = .cls ∨ kind = .struct ∨ kind = .interface then need .bodilessTypes e
            return [])
        (do if kind = .cls ∨ kind = .struct ∨ kind = .interface then need .bodilessTypes f
            return []) :=
      .ite (.andThen (runs_need _ h) fun _ => .pure .nil) (.pure .nil)
    exact .andThen (.ite (.pure rfl) (runs_eat ";")) fun _ => .ite bodiless missing

/-- **A type** is declared alike if what stands in its braces is. -/
theorem runsAt_typeDeclaration {entries entries' : EntryParser} {n n' : Option String}
    (hn : Option.Rel r.Spells n n') (modifiers : List String) {c d : Cursor} (hc : r.Beside c d)
    (h : atTypeKeyword c = true)
    (he : ∀ s t, r.Named s t → r.Runs (List.Forall₂ r.SameEntry) (entries s) (entries' t)) :
    r.RunsAt r.Alike (typeDeclaration entries n modifiers) (typeDeclaration entries' n' modifiers)
      c d := by
  refine .bind (Runs.index c d hc) fun hi hr => .bind (runsAt_typeKeyword hr h) fun hk hr => ?_
  rw [← hk]
  refine Runs.bind (runs_typeName hi) (fun x y hxy => ?_) _ _ hr
  obtain ⟨s, e⟩ := x
  obtain ⟨t, f⟩ := y
  refine .andThen runs_typeParameters? fun _ =>
    .andThen (runs_primaryParameters _ hxy.2) fun _ => .andThen runs_bases fun _ =>
    .bind (runs_typeBody _ (he s t hxy.1) hxy.2) fun _ _ hes => .pure ?_
  exact .mk hn hxy.1 (members_rel hes) (nested_rel hes)

/-- A delegate is a type without members. -/
theorem runs_delegateDeclaration {n n' : Option String} (hn : Option.Rel r.Spells n n') :
    r.Runs (Option.Rel r.Alike) (delegateDeclaration n) (delegateDeclaration n') := by
  have skip : r.Runs (Option.Rel r.Alike) (do skipMember; return (none : Option Declared))
      (do skipMember; return (none : Option Declared)) :=
    .andThen runs_skipMember fun _ => .pure .none
  refine .andThen .advance fun _ => .andThen runs_typeReference fun _ =>
    .ite (.bind .index fun _ _ hi => .bind runs_name? fun o o' ho => ?_)
      (.andThen (.reportHere rfl) fun _ => skip)
  cases ho with
  | none => exact .andThen (.reportMissing .identifier) fun _ => skip
  | some hs =>
    exact .andThen runs_typeParameters? fun _ => .andThen runs_requiredParens fun _ =>
      .andThen runs_constraints fun _ => .andThen (runs_expect ";" .semicolon) fun _ =>
      .pure (.some (.mk hn (.inr hs) .nil .nil))

end Renaming
end Parser
end Outline
