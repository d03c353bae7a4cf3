/-
# Namespaces in a frame

A namespace without a fault ends with its closing brace, and a file-scoped one with its
semicolon.  The items of a block may end with the last lexeme before the brace, so they
carry over where it is still ahead.
-/

import Outline.Proofs.Frame.Members

namespace Outline
namespace Parser
namespace Frame

variable {f : Frame}

variable (f) in
/-- An item in the frame. -/
def item : Item → Item
  | .imported name => .imported name
  | .type t => .type (t.map f.edge)
  | .fileNamespace name => .fileNamespace name

/-! ### Usings -/

theorem sees_atUsing : f.Sees atUsing :=
  ((sees_atKeyword "using").andNext not_closer_of_atKeyword (sees_atPunct "(").not).or
    ((sees_atWord "global").andNext not_closer_of_atWord (sees_atKeyword "using"))

theorem usingNameFrom_cursor {index : Nat} {ls : List Lexeme}
    (hu : f.Unseen (usingNameFrom index ls).rest) :
    usingNameFrom (f.before + index) (ls ++ f.after) = f.step id (usingNameFrom index ls) := by
  induction ls generalizing index with
  | nil =>
    simp [usingNameFrom, step, cursor, hu.after_eq_nil rfl]
  | cons l ls ih =>
    rw [List.cons_append, usingNameFrom]
    rw [usingNameFrom] at hu ⊢
    cases he : endsUsing l with
    | true => rfl
    | false =>
      rw [he, if_neg Bool.false_ne_true] at hu
      have hrest := ih hu
      rw [← Nat.add_assoc] at hrest
      rw [if_neg Bool.false_ne_true, if_neg Bool.false_ne_true, hrest]
      rfl

theorem carries_usingName : f.Carries id usingName usingName := fun c =>
  ⟨suffix_of_passed (usingNameFrom_passed c.index c.ahead), fun hu _ => usingNameFrom_cursor hu⟩

theorem carries_usingTarget : f.Carries id usingTarget usingTarget := by
  have aliased : f.Sees fun c => c.atName && c.next.atPunct "=" :=
    sees_atName.andNext not_closer_of_atName (sees_atPunct "=")
  refine .lookIf (sees_atKeyword "static") (.bind .advance fun _ => ?_) ?_
  all_goals
    exact .lookIf aliased (.bind .advance fun _ => .bind .advance fun _ => carries_usingName)
      carries_usingName

/-- A using ends with its semicolon. -/
theorem closes_usingDirective : f.Closes (List.map f.item) usingDirective usingDirective := by
  refine .bind .index fun start => .lookIf (sees_atWord "global")
    (.bind .advance fun _ => .bind (.need .globalUsings (.start start)) fun _ => ?_) ?_
  all_goals
    refine .bind .advance fun _ => .bind carries_usingTarget fun name => .ite ?_ ?_
    · exact closes_reportMissing .identifier <|
        .bind (carries_expect ";" .semicolon) fun _ => .pure []
    · exact closes_expectSemicolon [Item.imported name]

theorem carries_placedUsing (late : Bool) :
    f.Carries (List.map f.item) (placedUsing late) (placedUsing late) :=
  .ite (.bind (.reportHere rfl) fun _ => closes_usingDirective.carries)
    closes_usingDirective.carries

/-! ### Types in namespaces -/

/-- What stands after modifiers ends with a closer. -/
theorem closes_modifiedType (namespaceName : Option String) (modifiers : List String) :
    f.Closes (List.map f.item) (modifiedType namespaceName modifiers)
      (modifiedType namespaceName modifiers) := by
  refine .lookIf sees_atTypeKeyword ?_ (.lookIf (sees_atKeyword "delegate") ?_ ?_)
  · exact .andBlind (closes_typeDeclaration namespaceName modifiers carries_memberList)
      fun t => .pure [Item.type t]
  · refine .andBlind (closes_delegateDeclaration namespaceName) fun t => ?_
    cases t with
    | none => exact .pure []
    | some t => exact .pure [Item.type t]
  · exact closes_reportHere rfl (.bind carries_skipMember fun _ => .pure [])

/-- What is at the end of attributes that stand by themselves. -/
def atStop (c : Cursor) : Bool := c.atEnd || c.atPunct "\x7d" || c.atKeyword "namespace"

theorem sees_atStop : f.Sees atStop :=
  (sees_atEnd.or (sees_atPunct "\x7d")).or (sees_atKeyword "namespace")

theorem carries_namespaceMember (namespaceName : Option String) :
    f.Carries (List.map f.item) (namespaceMember namespaceName) (namespaceMember namespaceName) :=
  .bind carries_attributes fun _ => .lookIf sees_atStop (.pure []) <|
    .bind carries_modifiers fun ms => (closes_modifiedType namespaceName ms).carries

/-! ### Namespaces -/

/-- What follows the name of a namespace ends with a closer if its items do. -/
theorem closesAt_namespaceBody {items items' : ItemParser} {c : Cursor} (place : NamespacePlace)
    (keyword : Nat) (name : String)
    (h : ∀ full d, d.remaining ≤ c.remaining →
      f.ClosesAt (List.map f.item) (items full) (items' full) d) :
    f.ClosesAt (List.map f.item) (namespaceBody items place keyword name)
      (namespaceBody items' place (f.before + keyword) name) c := by
  refine closesAt_semicolon (.bind (.need _ (.start keyword)) fun _ => ?_) <|
    .bind (carries_eat "\x7b" c) ?_
  · have declared : f.Blind (List.map f.item) (pure [.fileNamespace (place.qualify name)])
        (pure [.fileNamespace (place.qualify name)]) := .pure [_]
    cases place.cause? with
    | none => exact declared
    | some cause => exact .bind (.report cause (.whole keyword)) fun _ => declared
  · have missing : f.Closes (List.map f.item) (do reportMissing .openBrace; return [])
        (do reportMissing .openBrace; return []) := closes_reportMissing .openBrace (.pure [])
    show f.ClosesAt _ (if (eat "\x7b" c).value = true then _ else _)
      (if (eat "\x7b" c).value = true then _ else _) _
    split
    · exact h _ _ (eat_remaining_le "\x7b" c)
    · exact missing _

/-- **A namespace** ends with a closer if its items do. -/
theorem closesAt_namespaceDeclaration {items items' : ItemParser} {c : Cursor}
    (place : NamespacePlace) (hc : c.atEnd = false)
    (h : ∀ full d, d.remaining < c.remaining →
      f.ClosesAt (List.map f.item) (items full) (items' full) d) :
    f.ClosesAt (List.map f.item) (namespaceDeclaration items place)
      (namespaceDeclaration items' place) c := by
  refine .bind (Carries.index c) <| .bind (Carries.advance c) <|
    .bind (carries_namespacePath c.next) <|
    closesAt_namespaceBody place c.index _ fun full d hd => ?_
  exact h full d (Nat.lt_of_le_of_lt
    (Nat.le_trans hd (Walk.remaining_le (walks_namespacePath true c.next)))
    (Cursor.remaining_next_lt hc))

/-- A turn carries over if all blocks of namespaces further on end with a closer. -/
theorem carriesAt_namespaceTurn {c : Cursor} (full : String) (late : Bool)
    (h : ∀ name d, d.remaining < c.remaining →
      f.ClosesAt (List.map f.item) (namespaceItems name false) (namespaceItems name false) d) :
    f.CarriesAt (List.map f.item) (namespaceTurn full late) (namespaceTurn full late) c :=
  .of_eq (namespaceItem_eq _ full late c) (namespaceItem_eq _ full late _) <|
    .lookIf sees_atUsing (fun _ => carries_placedUsing late c) fun _ =>
    .lookIf (sees_atKeyword "namespace")
      (fun hk => (closesAt_namespaceDeclaration (.block full) (Cursor.atEnd_of_any hk) h).carriesAt)
      fun _ => carries_namespaceMember (some full) c

/-- **The block of a namespace ends with its closing brace.** -/
theorem closes_namespaceItems (full : String) (late : Bool) :
    f.Closes (List.map f.item) (namespaceItems full late) (namespaceItems full late) := by
  intro c
  induction hn : c.remaining using Nat.strongRecOn generalizing full late c with
  | ind n ih =>
    subst hn
    have missing : f.Closes (List.map f.item) (do reportMissing .closeBrace; return [])
        (do reportMissing .closeBrace; return []) := closes_reportMissing .closeBrace (.pure [])
    refine .of_eq (namespaceItems_eq full late c) (namespaceItems_eq full late _) <|
      .lookIf (sees_atPunct "\x7d") (fun hb => closesAt_brace hb []) fun hb =>
      .lookIf sees_atEnd (fun _ => missing c) fun he => ?_
    refine .bind (Carries.see sees_atUsing c) <|
      .bind (carriesAt_namespaceTurn full late fun name d hd => ih _ hd name false d rfl) ?_
    refine (ih _ (namespaceTurn_remaining_lt full late hb he) full _ _ rfl).andBlind ?_
    rw [← List.map_append]
    exact .pure _

end Frame
end Parser
end Outline
