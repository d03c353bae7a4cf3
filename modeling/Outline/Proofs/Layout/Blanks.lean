/-
# Formats move blanks only

A format decides where braces stand, how deep lines are indented and where blank lines
go.  Without its spaces, tabs and line ends a text is the same in every format, whatever
the declaration holds.

| part | without blanks |
| --- | --- |
| line | the line without its blanks |
| blank line, indentation | nothing |
| head and body in braces | head, `{`, body, `}`, wherever the open brace stands |
| groups that are kept apart | the groups, one after the other |
-/

import Outline.Layout.Declaration
import Outline.Proofs.Layout.Page

namespace Outline
namespace Layout

open Outline.Tree

/-! ### The ink of a page -/

/-- What lines show, one after the other, without blanks. -/
def ink (lines : List String) : String := removeBlanks (String.join lines)

theorem ink_append (ss ts : List String) : ink (ss ++ ts) = ink ss ++ ink ts := by
  rw [ink, String.join_append, removeBlanks_append, ink, ink]

theorem ink_cons (s : String) (ss : List String) : ink (s :: ss) = removeBlanks s ++ ink ss := by
  rw [ink, String.join_cons, removeBlanks_append, ink]

theorem ink_singleton (s : String) : ink [s] = removeBlanks s := by
  rw [ink, String.join_cons, String.join_nil, String.append_empty]

/-- What is the same item by item is the same on the whole. -/
theorem ink_flatMap_congr {α : Type} {as : List α} {φ ψ : α → List String}
    (h : ∀ a ∈ as, ink (φ a) = ink (ψ a)) : ink (as.flatMap φ) = ink (as.flatMap ψ) := by
  induction as with
  | nil => rfl
  | cons a as ih =>
    rw [List.flatMap_cons, List.flatMap_cons, ink_append, ink_append, h a List.mem_cons_self,
      ih fun b hb => h b (List.mem_cons_of_mem a hb)]

theorem removeBlanks_replicate {c : Char} (h : c = ' ' ∨ c = '\t') (n : Nat) :
    removeBlanks (String.ofList (List.replicate n c)) = "" := by
  obtain rfl | rfl := h <;> simp [removeBlanks]

/-- Indentation leaves no ink. -/
theorem removeBlanks_pad (i : Indent) (level : Nat) : removeBlanks (i.pad level) = "" := by
  cases i with
  | spaces width => exact removeBlanks_replicate (.inl rfl) _
  | tab => exact removeBlanks_replicate (.inr rfl) _

theorem Page.removeBlanks_line (p : Page) (s : String) :
    removeBlanks (p.line s).text = removeBlanks p.text ++ removeBlanks s := by
  have hend : removeBlanks "\n" = "" := by decide
  rw [Page.line, removeBlanks_append, removeBlanks_append, removeBlanks_append, hend,
    removeBlanks_pad, String.append_empty, String.append_empty]

theorem Page.removeBlanks_blank (p : Page) : removeBlanks p.blank.text = removeBlanks p.text := by
  have hend : removeBlanks "\n" = "" := by decide
  rw [Page.blank, removeBlanks_append, hend, String.append_empty]

mutual

/-- A fragment leaves the ink of its lines on a page, however deep they stand. -/
theorem Page.removeBlanks_put (p : Page) : ∀ f : Fragment,
    removeBlanks (p.put f).text = removeBlanks p.text ++ ink f.lines
  | .line s => by rw [Page.put, Fragment.lines, ink_singleton, removeBlanks_line]
  | .blank => by
    rw [Page.put, Fragment.lines, removeBlanks_blank]
    exact (String.append_empty).symm
  | .block header body close => by
    have hbody : removeBlanks ((p.line header).deeper.putAll body).shallower.text
        = removeBlanks p.text ++ ink (header :: Fragment.linesAll body) := by
      rw [ink_cons, ← String.append_assoc, ← removeBlanks_line]
      exact Page.removeBlanks_putAll (p.line header).deeper body
    cases close with
    | none =>
      rw [Page.put, Fragment.lines, Option.toList_none, List.append_nil]
      exact hbody
    | some c =>
      rw [Page.put, Fragment.lines, Option.toList_some, ink_append, ink_singleton,
        ← String.append_assoc, ← hbody]
      exact removeBlanks_line _ c
  | .indented body => Page.removeBlanks_putAll p.deeper body
  | .sequence parts => Page.removeBlanks_putAll p parts

/-- Fragments leave the ink of their lines on a page. -/
theorem Page.removeBlanks_putAll (p : Page) : ∀ fs : List Fragment,
    removeBlanks (p.putAll fs).text = removeBlanks p.text ++ ink (Fragment.linesAll fs)
  | [] => (String.append_empty).symm
  | f :: fs => by
    rw [Page.putAll, Fragment.linesAll, ink_append, ← String.append_assoc, ← removeBlanks_put p f]
    exact Page.removeBlanks_putAll (p.put f) fs

end

/-- **A text without its blanks is the ink of its lines.** -/
theorem removeBlanks_render {α : Type} [Layable α] (f : Format) (a : α) :
    removeBlanks (render f a) = ink (Fragment.linesAll (Layable.fragments f a)) := by
  rw [render, Page.emit, Page.removeBlanks_putAll]
  exact String.empty_append

/-! ### Fragments that show the same -/

/-- Braces leave the same ink wherever the open one stands. -/
theorem ink_braced (head : String) (body : List Fragment) (nextLine : Bool) :
    ink (Fragment.braced head body nextLine).lines
      = removeBlanks head ++ "\x7b" ++ ink (Fragment.linesAll body) ++ "\x7d" := by
  have hopen : removeBlanks " \x7b" = "\x7b" := by decide
  have hsign : removeBlanks "\x7b" = "\x7b" := by decide
  have hclose : removeBlanks "\x7d" = "\x7d" := by decide
  rw [Fragment.lines_braced, ink_append, ink_append, ink_singleton, hclose]
  cases nextLine with
  | true => rw [if_pos rfl, ink_cons, ink_singleton, hsign]
  | false => rw [if_neg Bool.false_ne_true, ink_singleton, removeBlanks_append, hopen]

/-- Blank lines between groups leave no ink. -/
theorem linesAll_separated (gs : List (List Fragment)) :
    Fragment.linesAll (separated gs) = gs.flatMap Fragment.linesAll := by
  fun_induction separated gs with
  | case1 => rfl
  | case2 g => rw [List.flatMap_singleton]
  | case3 g gs _ ih =>
    rw [Fragment.linesAll_append, Fragment.linesAll, ih, List.flatMap_cons]
    rfl

/-- Nor do those between members. -/
theorem linesAll_followingMembers (f : Format) (previous : Member.Kind) (ms : List Member) :
    Fragment.linesAll (followingMembers f previous ms)
      = ms.flatMap fun m => Fragment.linesAll (Layable.fragments f m) := by
  induction ms generalizing previous with
  | nil => rfl
  | cons m ms ih =>
    have hgap : ∀ b : Bool, Fragment.linesAll (if b then [.blank] else []) = [] := by decide
    rw [followingMembers, Fragment.linesAll_append, Fragment.linesAll_append, hgap, ih,
      List.flatMap_cons, List.nil_append]

theorem linesAll_memberFragments (f : Format) (ms : List Member) :
    Fragment.linesAll (memberFragments f ms)
      = ms.flatMap fun m => Fragment.linesAll (Layable.fragments f m) := by
  cases ms with
  | nil => rfl
  | cons m ms =>
    rw [memberFragments, Fragment.linesAll_append, linesAll_followingMembers, List.flatMap_cons]

/-! ### Declarations -/

/-- A declaration whose lines show the same in every format. -/
def FormatFree {α : Type} [Layable α] (a : α) : Prop :=
  ∀ f g : Format, ink (Fragment.linesAll (Layable.fragments f a))
    = ink (Fragment.linesAll (Layable.fragments g a))

/-- Lines that no format moves, and then one fragment that shows the same. -/
theorem ink_append_singleton {fs : List Fragment} {x y : Fragment} (h : ink x.lines = ink y.lines) :
    ink (Fragment.linesAll (fs ++ [x])) = ink (Fragment.linesAll (fs ++ [y])) := by
  have hlast : ∀ z : Fragment, Fragment.linesAll [z] = z.lines := fun _ => List.append_nil _
  rw [Fragment.linesAll_append, Fragment.linesAll_append, ink_append, ink_append, hlast, hlast, h]

theorem formatFree_method (m : MethodDecl) : FormatFree m := by
  obtain ⟨attributes, modifiers, result, name, typeParameters, parameters, body⟩ := m
  intro f g
  refine ink_append_singleton ?_
  cases body with
  | block lines => rw [ink_braced, ink_braced]
  | expression | absent => rfl

theorem formatFree_constructor (c : ConstructorDecl) : FormatFree c :=
  fun _ _ => ink_append_singleton (by rw [ink_braced, ink_braced])

theorem formatFree_member (m : Member) : FormatFree m := by
  cases m with
  | field | property => exact fun _ _ => rfl
  | constructor c => exact formatFree_constructor c
  | method m => exact formatFree_method m

theorem formatFree_type (t : TypeDecl) : FormatFree t := by
  obtain ⟨kind, attributes, modifiers, name, parameters, bases, body⟩ := t
  intro f g
  refine ink_append_singleton ?_
  cases body with
  | terminated => rfl
  | braced ms =>
    rw [ink_braced, ink_braced, linesAll_memberFragments, linesAll_memberFragments,
      ink_flatMap_congr fun m _ => formatFree_member m f g]

/-- Declarations that are kept apart by blank lines. -/
theorem ink_separated {α : Type} [Layable α] {as : List α} (h : ∀ a ∈ as, FormatFree a)
    (f g : Format) : ink (Fragment.linesAll (separated (as.map (Layable.fragments f))))
      = ink (Fragment.linesAll (separated (as.map (Layable.fragments g)))) := by
  rw [linesAll_separated, linesAll_separated, List.flatMap_map, List.flatMap_map]
  exact ink_flatMap_congr fun a ha => h a ha f g

theorem formatFree_namespace (n : NamespaceDecl) : FormatFree n := by
  obtain ⟨name, form, members⟩ := n
  intro f g
  have htypes : ink (Fragment.linesAll (separated (members.map (Layable.fragments f))))
      = ink (Fragment.linesAll (separated (members.map (Layable.fragments g)))) :=
    ink_separated (fun t _ => formatFree_type t) f g
  cases form with
  | block =>
    have hlines : ∀ h : Format, Fragment.linesAll (Layable.fragments h
        (NamespaceDecl.mk name .block members))
          = (Fragment.braced ("namespace " ++ name)
              (separated (members.map (Layable.fragments h))) h.typeBraceOnNewLine).lines :=
      fun _ => List.append_nil _
    rw [hlines, hlines, ink_braced, ink_braced, htypes]
  | fileScoped =>
    -- Whether there are types is asked of their fragments, which a format does not empty.
    have hgap : ∀ fs : List Fragment,
        Fragment.linesAll (if fs.isEmpty then [] else .blank :: fs) = Fragment.linesAll fs := by
      intro fs
      cases fs <;> rfl
    have hlines : ∀ h : Format, Fragment.linesAll (Layable.fragments h
        (NamespaceDecl.mk name .fileScoped members))
          = ["namespace " ++ name ++ ";"]
            ++ Fragment.linesAll (separated (members.map (Layable.fragments h))) :=
      fun _ => congrArg (_ :: ·) (hgap _)
    rw [hlines, hlines, ink_append, ink_append, htypes]

theorem formatFree_topLevel (t : TopLevel) : FormatFree t := by
  cases t with
  | namespaceDecl n => exact formatFree_namespace n
  | typeDecl t => exact formatFree_type t

theorem formatFree_unit (u : CompilationUnit) : FormatFree u := by
  intro f g
  obtain ⟨lead, hlead⟩ : ∃ lead, ∀ h : Format, Layable.fragments h u
      = lead ++ separated (u.members.map (Layable.fragments h)) := ⟨_, fun _ => rfl⟩
  rw [hlead, hlead, Fragment.linesAll_append, Fragment.linesAll_append, ink_append, ink_append,
    ink_separated (fun t _ => formatFree_topLevel t) f g]

/-- What can be laid out by itself. -/
inductive Node
  | unit (u : CompilationUnit)
  | topLevel (t : TopLevel)
  | namespaceDecl (n : NamespaceDecl)
  | typeDecl (t : TypeDecl)
  | member (m : Member)

/-- A node is laid out as what it holds. -/
instance : Layable Node where
  fragments f
    | .unit u => Layable.fragments f u
    | .topLevel t => Layable.fragments f t
    | .namespaceDecl n => Layable.fragments f n
    | .typeDecl t => Layable.fragments f t
    | .member m => Layable.fragments f m

/-- **Formats move blanks only.**  A source file, a namespace, a type or a member, whatever
its texts are, is the same in any two formats once spaces, tabs and line ends are removed. -/
theorem removeBlanks_render_eq (f g : Format) (n : Node) :
    removeBlanks (render f n) = removeBlanks (render g n) := by
  have hfree : FormatFree n := by
    cases n with
    | unit u => exact formatFree_unit u
    | topLevel t => exact formatFree_topLevel t
    | namespaceDecl n => exact formatFree_namespace n
    | typeDecl t => exact formatFree_type t
    | member m => exact formatFree_member m
  rw [removeBlanks_render, removeBlanks_render, hfree f g]

end Layout
end Outline
