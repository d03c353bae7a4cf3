/-
# Files under a renaming

Usings, namespaces and types are parsed alike, and so is a whole file: its items
correspond, and the findings are the same but for what they quote (`runs_fileItems`).
-/

import Outline.Proofs.Renaming.Members

namespace Outline
namespace Parser
namespace Renaming

/-- Items that are declared alike. -/
inductive SameItem (r : Renaming) : Item → Item → Prop
  | imported {s t : String} : r.Spells s t → SameItem r (.imported s) (.imported t)
  | type {t u : Declared} : r.Alike t u → SameItem r (.type t) (.type u)
  | fileNamespace {s t : String} : r.Spells s t → SameItem r (.fileNamespace s) (.fileNamespace t)

/-- Namespaces that are declared at one place. -/
inductive SamePlace (r : Renaming) : NamespacePlace → NamespacePlace → Prop
  | file (fileScoped late : Bool) : SamePlace r (.file fileScoped late) (.file fileScoped late)
  | block {s t : String} : r.Spells s t → SamePlace r (.block s) (.block t)

variable {r : Renaming}

/-! ### Usings -/

/-- A directive is told from a statement by the lexeme after `using`. -/
theorem sees_atUsing : r.Sees atUsing :=
  ((sees_atKeyword "using").and (sees_atPunct "(").next.not).or
    ((sees_atWord (by decide)).and (sees_atKeyword "using").next)

/-- A directive ends at marks and reserved words, none of which are names. -/
theorem endsUsing_eq {l m : Lexeme} (h : r.Same l m) : endsUsing l = endsUsing m :=
  congr h fun l m hl hm => by
    rw [endsUsing, endsUsing, Lexeme.isOneOf, Lexeme.isOneOf, kind_of_isName hl, kind_of_isName hm]
    rfl

/-- **The name in a directive** is put together from all lexemes up to its end. -/
theorem agree_usingNameFrom {ls ms : List Lexeme} (h : List.Forall₂ r.Same ls ms) (index : Nat) :
    r.Agree r.Spells (usingNameFrom index ls) (usingNameFrom (r.before + index) ms) := by
  induction h generalizing index with
  | nil => exact ⟨.nil, ⟨rfl, .nil⟩, .nil⟩
  | cons hl hls ih =>
    rw [usingNameFrom, usingNameFrom, ← endsUsing_eq hl]
    split
    · exact ⟨.nil, .cons hl hls, .nil⟩
    · exact (ih (index + 1)).map fun _ _ hs => (Spells.text hl).append hs

theorem runs_usingName : r.Runs r.Spells usingName usingName := fun c d hc => by
  have := agree_usingNameFrom hc.ahead c.index
  rwa [← hc.index] at this

/-- The name after `=` is kept, and the alias is not. -/
theorem runs_usingTarget : r.Runs r.Spells usingTarget usingTarget := by
  have aliased : r.Runs r.Spells
      (do if ← look (fun c => c.atName && c.next.atPunct "=") then
            advance
            advance
          usingName)
      (do if ← look (fun c => c.atName && c.next.atPunct "=") then
            advance
            advance
          usingName) :=
    .lookIf (sees_atName.and (sees_atPunct "=").next)
      (.andThen .advance fun _ => .andThen .advance fun _ => runs_usingName) runs_usingName
  exact .lookIf (sees_atKeyword "static") (.andThen .advance fun _ => aliased) aliased

/-- A directive without a name is reported in both sources and imports nothing. -/
theorem runs_usingDirective : r.Runs (List.Forall₂ r.SameItem) usingDirective usingDirective := by
  have named : r.Runs (List.Forall₂ r.SameItem)
      (do advance
          let name ← usingTarget
          if name.isEmpty then
            reportMissing .identifier
            expect ";" .semicolon
            return []
          else
            expect ";" .semicolon
            return [.imported name])
      (do advance
          let name ← usingTarget
          if name.isEmpty then
            reportMissing .identifier
            expect ";" .semicolon
            return []
          else
            expect ";" .semicolon
            return [.imported name]) := by
    refine .andThen .advance fun _ => .bind runs_usingTarget fun s t hs => ?_
    rw [← hs.isEmpty_eq]
    refine .ite ?_ ?_
    · exact .andThen (.reportMissing .identifier) fun _ =>
        .andThen (runs_expect ";" .semicolon) fun _ => .pure .nil
    · exact .andThen (runs_expect ";" .semicolon) fun _ => .pure (.cons (.imported hs) .nil)
  exact .bind .index fun _ _ hi => .lookIf (sees_atWord (by decide))
    (.andThen .advance fun _ => .andThen (runs_need _ (.start hi)) fun _ => named) named

/-- A directive that comes too late is reported and read all the same. -/
theorem runs_placedUsing (late : Bool) :
    r.Runs (List.Forall₂ r.SameItem) (placedUsing late) (placedUsing late) :=
  .ite (.andThen (.reportHere rfl) fun _ => runs_usingDirective) runs_usingDirective

/-! ### Types in namespaces -/

/-- Types in a namespace are parsed like nested ones, by the lists of members. -/
theorem runs_modifiedType {n n' : Option String} (hn : Option.Rel r.Spells n n')
    (modifiers : List String) :
    r.Runs (List.Forall₂ r.SameItem) (modifiedType n modifiers) (modifiedType n' modifiers) := by
  intro c d hc
  refine .lookIf sees_atTypeKeyword hc (fun hk => ?_) fun _ => .lookIf (sees_atKeyword "delegate")
    hc (fun _ => ?_) fun _ => ?_
  · exact .bind (runsAt_typeDeclaration hn modifiers hc hk fun _ _ => runs_memberList)
      fun ht hr => Runs.pure (.cons (.type ht) .nil) _ _ hr
  · exact .bind (runs_delegateDeclaration hn c d hc) fun ht hr =>
      Runs.pure (rel_toList (rel_map ht fun _ _ => SameItem.type)) _ _ hr
  · exact Runs.andThen (.reportHere rfl) (fun _ => .andThen runs_skipMember fun _ => .pure .nil)
      c d hc

/-- What stands in a namespace and is no type is skipped as a member is. -/
theorem runs_namespaceMember {n n' : Option String} (hn : Option.Rel r.Spells n n') :
    r.Runs (List.Forall₂ r.SameItem) (namespaceMember n) (namespaceMember n') :=
  .andThen runs_attributes fun _ =>
    .lookIf ((sees_atEnd.or (sees_atPunct "\x7d")).or (sees_atKeyword "namespace")) (.pure .nil) <|
      .andThen runs_modifiers fun ms => runs_modifiedType hn ms

/-! ### Namespaces -/

/-- The full name of a namespace is put together from the names around it. -/
theorem SamePlace.qualify {place place' : NamespacePlace} (h : r.SamePlace place place')
    {s t : String} (hs : r.Spells s t) : r.Spells (place.qualify s) (place'.qualify t) := by
  cases h with
  | file => exact hs
  | block hp =>
    rw [NamespacePlace.qualify, NamespacePlace.qualify, hs.isEmpty_eq]
    split
    · exact hp
    · exact (hp.append .dot).append hs

theorem SamePlace.cause? {place place' : NamespacePlace} (h : r.SamePlace place place') :
    place.cause? = place'.cause? := by
  cases h <;> rfl

/-- A namespace for the file is told from one with a block by the lexeme behind its name. -/
theorem runsAt_namespaceBody {items items' : ItemParser} {c d : Cursor} (hc : r.Beside c d)
    {place place' : NamespacePlace} (hp : r.SamePlace place place') {i j : Nat}
    (hi : j = r.before + i) {s t : String} (hs : r.Spells s t)
    (h : ∀ c' d', c'.remaining ≤ c.remaining → r.Beside c' d' → ∀ s t, r.Spells s t →
      r.RunsAt (List.Forall₂ r.SameItem) (items s) (items' t) c' d') :
    r.RunsAt (List.Forall₂ r.SameItem) (namespaceBody items place i s)
      (namespaceBody items' place' j t) c d := by
  refine .bind (runs_eat ";" c d hc) fun hv hr => .ite (by rw [hv]) (fun _ => ?_) fun _ => ?_
  · refine Runs.andThen (runs_need _ (.start hi)) (fun _ => ?_) _ _ hr
    have declared : r.Runs (List.Forall₂ r.SameItem)
        (pure [.fileNamespace (place.qualify s)]) (pure [.fileNamespace (place'.qualify t)]) :=
      .pure (.cons (.fileNamespace (hp.qualify hs)) .nil)
    rw [← hp.cause?]
    cases place.cause? with
    | none => exact declared
    | some cause =>
      exact .andThen (.report (x := ⟨cause, .whole i⟩) (y := ⟨cause, .whole j⟩)
        (hi ▸ .at rfl Mark.whole i)) fun _ => declared
  · have hle := eat_remaining_le ";" c
    refine .bind (runs_eat "\x7b" _ _ hr) fun hv hr => .ite (by rw [hv]) (fun _ => ?_) fun _ => ?_
    · exact h _ _ (Nat.le_trans (eat_remaining_le "\x7b" _) hle) hr _ _ (hp.qualify hs)
    · exact Runs.andThen (.reportMissing .openBrace) (fun _ => .pure .nil) _ _ hr

/-- **A namespace** is parsed alike if what stands in its block is. -/
theorem runsAt_namespaceDeclaration {items items' : ItemParser} {c d : Cursor}
    (hc : r.Beside c d) (he : c.atEnd = false) {place place' : NamespacePlace}
    (hp : r.SamePlace place place')
    (h : ∀ c' d', c'.remaining < c.remaining → r.Beside c' d' → ∀ s t, r.Spells s t →
      r.RunsAt (List.Forall₂ r.SameItem) (items s) (items' t) c' d') :
    r.RunsAt (List.Forall₂ r.SameItem) (namespaceDeclaration items place)
      (namespaceDeclaration items' place') c d := by
  refine .bind (Runs.index c d hc) fun hi hr => .bind (Runs.advance _ _ hr) fun _ hr =>
    .bind (runs_namespacePath _ _ hr) fun hs hr => runsAt_namespaceBody hr hp hi hs ?_
  intro c' d' hle
  exact h c' d' <| Nat.lt_of_le_of_lt
    (Nat.le_trans hle (Walk.remaining_le (walks_namespacePath true c.next)))
    (Cursor.remaining_next_lt he)

/-- **The block of a namespace** is parsed alike. -/
theorem runs_namespaceItems {s t : String} (hs : r.Spells s t) (late : Bool) :
    r.Runs (List.Forall₂ r.SameItem) (namespaceItems s late) (namespaceItems t late) := by
  intro c d hc
  induction hn : c.remaining using Nat.strongRecOn generalizing s t late c d with
  | ind n ih =>
    subst hn
    refine .of_eq (namespaceItems_eq s late c) (namespaceItems_eq t late d) <|
      .lookIf (sees_atPunct "\x7d") hc (fun _ => ?_) fun hb =>
      .lookIf sees_atEnd hc (fun _ => ?_) fun he => ?_
    · exact Runs.andThen .advance (fun _ => .andThen (runs_eat ";") fun _ => .pure .nil) c d hc
    · exact Runs.andThen (.reportMissing .closeBrace) (fun _ => .pure .nil) c d hc
    · have hturn : r.RunsAt (List.Forall₂ r.SameItem) (namespaceTurn s late) (namespaceTurn t late)
          c d := by
        refine .of_eq (namespaceItem_eq _ s late c) (namespaceItem_eq _ t late d) <|
          .lookIf sees_atUsing hc (fun _ => runs_placedUsing late c d hc) fun _ =>
          .lookIf (sees_atKeyword "namespace") hc (fun hk => ?_) fun _ =>
            runs_namespaceMember (.some hs) c d hc
        exact runsAt_namespaceDeclaration hc (Cursor.atEnd_of_any hk) (.block hs)
          fun c' d' hlt hc' s t hs => ih _ hlt hs false c' d' hc' rfl
      have hlt := namespaceTurn_remaining_lt s late hb he
      refine .bind (Runs.look (V := Eq) sees_atUsing c d hc) fun hu hr =>
        .bind hturn fun hv hr => ?_
      rw [← hu]
      exact .bind (ih _ hlt hs _ _ _ hr rfl) fun hmore hr =>
        Runs.pure (List.rel_append hv hmore) _ _ hr

/-! ### Files -/

/-- The usings among the items of a file correspond. -/
theorem imported_rel {is js : List Item} (h : List.Forall₂ r.SameItem is js) :
    List.Forall₂ r.Spells (is.filterMap (·.imported?)) (js.filterMap (·.imported?)) :=
  List.rel_filterMap (fun _ _ hi => by
    cases hi with
    | imported hs => exact .some hs
    | type | fileNamespace => exact .none) h

/-- The types among the items of a file correspond. -/
theorem type_rel {is js : List Item} (h : List.Forall₂ r.SameItem is js) :
    List.Forall₂ r.Alike (is.filterMap (·.type?)) (js.filterMap (·.type?)) :=
  List.rel_filterMap (fun _ _ hi => by
    cases hi with
    | type ht => exact .some ht
    | imported | fileNamespace => exact .none) h

/-- The file-scoped namespaces among the items of a file correspond. -/
theorem fileNamespace_rel {is js : List Item} (h : List.Forall₂ r.SameItem is js) :
    List.Forall₂ r.Spells (is.filterMap (·.fileNamespace?)) (js.filterMap (·.fileNamespace?)) :=
  List.rel_filterMap (fun _ _ hi => by
    cases hi with
    | fileNamespace hs => exact .some hs
    | imported | type => exact .none) h

theorem sees_atAlias : r.Sees atAlias :=
  (sees_atKeyword "extern").and (sees_atWord (by decide)).next

/-- There is a namespace around in both sources or in neither. -/
theorem isSome_eq {n n' : Option String} (h : Option.Rel r.Spells n n') :
    n.isSome = n'.isSome := by
  cases h <;> rfl

/-- **An item of a file** corresponds, under namespaces that do. -/
theorem runsAt_fileItem {n n' : Option String} (hn : Option.Rel r.Spells n n') (late : Bool)
    {c d : Cursor} (hc : r.Beside c d) (he : c.atEnd = false) :
    r.RunsAt (List.Forall₂ r.SameItem) (fileItem n late) (fileItem n' late) c d := by
  have hbrace : c.atPunct "\x7d" = d.atPunct "\x7d" := sees_atPunct "\x7d" c d hc
  have hkeyword : c.atKeyword "namespace" = d.atKeyword "namespace" := sees_atKeyword _ c d hc
  show r.Agree _ (fileItem n late c) (fileItem n' late d)
  rw [fileItem, fileItem, ← sees_atUsing c d hc, ← sees_atAlias c d hc, ← hkeyword, ← hbrace]
  split
  · exact runs_placedUsing late c d hc
  split
  · exact (runs_skipMember c d hc).map fun _ _ _ => .nil
  split
  · rw [← isSome_eq hn]
    exact runsAt_namespaceDeclaration hc he (.file _ late) fun c' d' _ hc' _ _ hs =>
      runs_namespaceItems hs false c' d' hc'
  split
  · refine ⟨.nil, hc.next, .cons ?_ .nil⟩
    rw [hc.index]
    exact .at rfl Mark.whole c.index
  · exact runs_namespaceMember hn c d hc

/-- The first of two names that is there. -/
theorem or_rel {o o' p p' : Option String} (h : Option.Rel r.Spells o o')
    (h' : Option.Rel r.Spells p p') : Option.Rel r.Spells (o.or p) (o'.or p') := by
  cases h with
  | none => exact h'
  | some h => exact .some h

theorem getLast?_rel {ss ts : List String} (h : List.Forall₂ r.Spells ss ts) :
    Option.Rel r.Spells ss.getLast? ts.getLast? := by
  have hreverse := List.rel_reverse h
  rw [List.getLast?_eq_head?_reverse, List.getLast?_eq_head?_reverse]
  generalize ss.reverse = us at hreverse ⊢
  generalize ts.reverse = vs at hreverse ⊢
  cases hreverse with
  | nil => exact .none
  | cons hs _ => exact .some hs

/-- **A file** is parsed alike. -/
theorem runs_fileItems {n n' : Option String} (hn : Option.Rel r.Spells n n') (late : Bool) :
    r.Runs (List.Forall₂ r.SameItem) (fileItems n late) (fileItems n' late) := by
  intro c d hc
  induction hr : c.remaining using Nat.strongRecOn generalizing n n' late c d with
  | ind k ih =>
    subst hr
    have hd := sees_atEnd c d hc
    cases he : c.atEnd with
    | true =>
      have hend : ∀ {n : Option String} {c : Cursor}, c.atEnd = true →
          fileItems n late c = (pure [] : Parser (List Item)) c := fun he => by
        rw [fileItems, he, if_pos rfl]
        rfl
      exact .of_eq (hend he) (hend (hd ▸ he)) (Runs.pure .nil c d hc)
    | false =>
      have hbrace : c.atPunct "\x7d" = d.atPunct "\x7d" := sees_atPunct "\x7d" c d hc
      have hitem := runsAt_fileItem hn late hc he
      have hfirst := goesOn_fileItems n late he
      have hlt := Walk.remaining_lt (movesAt_fileItem n late he).walks hfirst.advances
      refine .of_eq (eq_bind_of_goesOn hfirst)
        (eq_bind_of_goesOn (goesOn_fileItems n' late (hd ▸ he))) <| .bind hitem fun hv hr => ?_
      rw [← sees_atUsing c d hc, ← sees_atAlias c d hc, ← hbrace]
      exact .bind (ih _ hlt (or_rel (getLast?_rel (fileNamespace_rel hv)) hn) _ _ _ hr rfl)
        fun hmore hr => Runs.pure (List.rel_append hv hmore) _ _ hr

end Renaming
end Parser
end Outline
