/-
# A page reads line by line

However deep the lines of fragments stand and wherever the blank lines are, the text of a
page is read as its lines are read by themselves, one after the other.
-/

import Outline.Layout.Fragment
import Outline.Proofs.Lexer.Reading

namespace Outline
namespace Layout

open Lexer

/-! ### The lines of fragments -/

mutual

/-- The lines of a fragment, without those that are blank. -/
def Fragment.lines : Fragment → List String
  | .line s => [s]
  | .blank => []
  | .block header body close => header :: Fragment.linesAll body ++ close.toList
  | .indented body => Fragment.linesAll body
  | .sequence parts => Fragment.linesAll parts

/-- The lines of fragments. -/
def Fragment.linesAll : List Fragment → List String
  | [] => []
  | f :: fs => f.lines ++ Fragment.linesAll fs

end

theorem Fragment.linesAll_append (fs gs : List Fragment) :
    linesAll (fs ++ gs) = linesAll fs ++ linesAll gs := by
  induction fs with
  | nil => rfl
  | cons f fs ih => rw [List.cons_append, linesAll, linesAll, ih, List.append_assoc]

/-- The lines of a declaration in braces, wherever the open brace stands. -/
theorem Fragment.lines_braced (head : String) (body : List Fragment) (nextLine : Bool) :
    (Fragment.braced head body nextLine).lines
      = (if nextLine then [head, "\x7b"] else [head ++ " \x7b"]) ++ linesAll body ++ ["\x7d"] := by
  cases nextLine <;> simp [Fragment.braced, Fragment.lines, Fragment.linesAll]

/-! ### Whole lines -/

/-- Whole lines are read as lexemes, whatever lines follow. -/
def ReadsLines (cs : List Char) (ls : List Lexeme) : Prop :=
  ∀ after, ∃ ps, Faultless ps ∧ ps.filterMap (·.lexeme?) = ls ∧
    pieces true (cs ++ after) = ps ++ pieces true after

/-- A text that can be a line of its own: it has no faults. -/
def Line (s : String) : Prop := Faultless (pieces true s.toList)

instance (s : String) : Decidable (Line s) := inferInstanceAs (Decidable (Faultless _))

namespace ReadsLines

variable {cs ds : List Char} {ls ms : List Lexeme}

theorem nil : ReadsLines [] [] := fun _ => ⟨[], by simp [Faultless], rfl, rfl⟩

theorem append (h : ReadsLines cs ls) (k : ReadsLines ds ms) :
    ReadsLines (cs ++ ds) (ls ++ ms) := by
  intro after
  rcases h (ds ++ after) with ⟨ps, hps, hls, hp⟩
  rcases k after with ⟨qs, hqs, hms, hq⟩
  refine ⟨ps ++ qs, faultless_append.2 ⟨hps, hqs⟩, ?_, ?_⟩
  · rw [List.filterMap_append, hls, hms]
  · rw [List.append_assoc, hp, hq, List.append_assoc]

theorem blank (h : ReadsLines cs ls) {c : Char} (hc : c = ' ' ∨ c = '\t' ∨ c = '\n') :
    ReadsLines (c :: cs) ls := by
  intro after
  rcases h after with ⟨ps, hps, hls, hp⟩
  have hcut : ∀ ds, cut true c ds = ⟨.blank, 0, none⟩ := by
    obtain rfl | rfl | rfl := hc <;> exact fun _ => rfl
  refine ⟨⟨.blank, [c], none⟩ :: ps, ?_, hls, ?_⟩
  · rintro p (_ | ⟨_, hm⟩)
    · rfl
    · exact hps p hm
  · rw [List.cons_append, pieces_cons, hcut, List.cons_append, ← hp]
    rfl

theorem blanks (h : ReadsLines cs ls) {c : Char} (hc : c = ' ' ∨ c = '\t' ∨ c = '\n') (n : Nat) :
    ReadsLines (List.replicate n c ++ cs) ls := by
  induction n with
  | zero => exact h
  | succ n ih => exact ih.blank hc

end ReadsLines

/-- A line without faults and its end. -/
theorem readsLines_of_line {s : String} (h : Line s) :
    ReadsLines (s.toList ++ ['\n']) (lexemes s) := by
  intro after
  have hsep : Separated ('\n' :: after) := follows_cons.2 rfl
  rcases pieces_append h hsep (fun _ _ _ => follows_cons.2 rfl) with ⟨fresh, hf⟩
  refine ⟨pieces true s.toList ++ [⟨.blank, ['\n'], none⟩], ?_, ?_, ?_⟩
  · exact faultless_append.2 ⟨h, fun p hp => List.mem_singleton.1 hp ▸ rfl⟩
  · rw [List.filterMap_append, lexemes]
    exact List.append_nil _
  · rw [List.append_assoc, List.singleton_append, hf, pieces_cons, List.append_assoc]
    show _ ++ _ :: pieces (fresh || true) after = _
    rw [Bool.or_true]
    rfl

/-! ### Pages -/

/-- What is written on a page `p` to get the page `q` is read as lexemes. -/
def Page.Adds (p q : Page) (ls : List Lexeme) : Prop :=
  ∃ cs, q.text.toList = p.text.toList ++ cs ∧ ReadsLines cs ls

namespace Page.Adds

variable {p q r : Page} {ls ms : List Lexeme}

theorem refl (p : Page) : p.Adds p [] := ⟨[], (List.append_nil _).symm, .nil⟩

theorem trans (h : p.Adds q ls) (k : q.Adds r ms) : p.Adds r (ls ++ ms) := by
  obtain ⟨cs, hq, hcs⟩ := h
  obtain ⟨ds, hr, hds⟩ := k
  exact ⟨cs ++ ds, by rw [hr, hq, List.append_assoc], hcs.append hds⟩

theorem of_text_eq (h : p.Adds q ls) (p' q' : Page) (hp : p'.text = p.text)
    (hq : q'.text = q.text) : p'.Adds q' ls := by
  rw [Adds, hp, hq]
  exact h

end Page.Adds

theorem Page.adds_line (p : Page) {s : String} (h : Line s) : p.Adds (p.line s) (lexemes s) := by
  have hs := readsLines_of_line h
  refine ⟨(p.indent.pad p.level).toList ++ (s.toList ++ ['\n']), by simp [Page.line], ?_⟩
  cases hi : p.indent with
  | spaces width =>
    rw [Indent.pad, String.toList_ofList]
    exact hs.blanks (.inl rfl) _
  | tab =>
    rw [Indent.pad, String.toList_ofList]
    exact hs.blanks (.inr (.inl rfl)) _

theorem Page.adds_blank (p : Page) : p.Adds p.blank [] :=
  ⟨['\n'], by simp [Page.blank], ReadsLines.nil.blank (.inr (.inr rfl))⟩

mutual

/-- A fragment adds its lines to a page. -/
theorem Page.adds_put (p : Page) : ∀ f : Fragment, (∀ s ∈ f.lines, Line s) →
    p.Adds (p.put f) (f.lines.flatMap lexemes)
  | .line s, h => by
    rw [Page.put, Fragment.lines, List.flatMap_singleton]
    exact p.adds_line (h s List.mem_cons_self)
  | .blank, _ => p.adds_blank
  | .block header body close, h => by
    rw [Fragment.lines, List.cons_append] at h ⊢
    rw [List.flatMap_cons, List.flatMap_append]
    have hbody := ((p.line header).deeper.adds_putAll body fun s hs =>
      h s (List.mem_cons_of_mem _ (List.mem_append_left _ hs))).of_text_eq
        (p.line header) ((p.line header).deeper.putAll body).shallower rfl rfl
    have hopen := (p.adds_line (h header List.mem_cons_self)).trans hbody
    cases close with
    | none =>
      rw [Option.toList_none, List.flatMap_nil, List.append_nil]
      exact hopen
    | some c =>
      have hc := h c (List.mem_cons_of_mem _ (List.mem_append_right _ List.mem_cons_self))
      rw [Option.toList_some, List.flatMap_singleton, ← List.append_assoc]
      exact hopen.trans (Page.adds_line _ hc)
  | .indented body, h => (p.deeper.adds_putAll body h).of_text_eq _ _ rfl rfl
  | .sequence parts, h => p.adds_putAll parts h

/-- Fragments add their lines to a page, one after the other. -/
theorem Page.adds_putAll (p : Page) : ∀ fs : List Fragment, (∀ s ∈ Fragment.linesAll fs, Line s) →
    p.Adds (p.putAll fs) ((Fragment.linesAll fs).flatMap lexemes)
  | [], _ => .refl p
  | f :: fs, h => by
    rw [Fragment.linesAll] at h ⊢
    rw [List.flatMap_append, Page.putAll]
    exact (p.adds_put f fun s hs => h s (List.mem_append_left _ hs)).trans
      ((p.put f).adds_putAll fs fun s hs => h s (List.mem_append_right _ hs))

end

/-- Fragments are spelled with lexemes: their lines have no faults and are read as these. -/
def Spells (fs : List Fragment) (ls : List Lexeme) : Prop :=
  (∀ s ∈ Fragment.linesAll fs, Line s) ∧ (Fragment.linesAll fs).flatMap lexemes = ls

namespace Spells

variable {fs gs : List Fragment} {ls ms : List Lexeme}

theorem nil : Spells [] [] := ⟨fun _ h => absurd h List.not_mem_nil, rfl⟩

theorem append (h : Spells fs ls) (k : Spells gs ms) : Spells (fs ++ gs) (ls ++ ms) := by
  rw [Spells, Fragment.linesAll_append, List.flatMap_append, h.2, k.2]
  exact ⟨List.forall_mem_append.2 ⟨h.1, k.1⟩, rfl⟩

theorem of_linesAll_eq (h : Fragment.linesAll gs = Fragment.linesAll fs) (k : Spells fs ls) :
    Spells gs ls := by
  rw [Spells, h]
  exact k

theorem blank : Spells [.blank] [] := ⟨fun _ h => absurd h List.not_mem_nil, rfl⟩

theorem line {s : String} {follow : Char → Bool} (h : Reads follow s ls) : Spells [.line s] ls := by
  refine ⟨fun t ht => ?_, ?_⟩
  · rw [List.mem_singleton.1 ht]
    exact h.alone.1
  · rw [← h.alone.2]
    exact List.flatMap_singleton _ _

/-- Lines as they are, each without faults. -/
theorem lines {ss : List String} (h : ∀ s ∈ ss, Line s) :
    Spells (ss.map .line) (ss.flatMap lexemes) := by
  have hl : Fragment.linesAll (ss.map .line) = ss := by
    induction ss with
    | nil => rfl
    | cons s ss ih =>
      rw [List.map_cons, Fragment.linesAll, ih fun t ht => h t (List.mem_cons_of_mem s ht)]
      rfl
  rw [Spells, hl]
  exact ⟨h, rfl⟩

/-- Braces around fragments, wherever the open one stands. -/
theorem braced {head : String} (h : Reads separators.contains head ls) (k : Spells fs ms)
    (nextLine : Bool) :
    Spells [.braced head fs nextLine] (ls ++ .mark "\x7b" :: ms ++ [.mark "\x7d"]) := by
  have sign : ∀ s ∈ ["\x7b", "\x7d"], Spells [.line s] [.mark s] := by
    intro s hs
    refine line (reads_sign ?_)
    simp only [List.mem_cons, List.not_mem_nil, or_false] at hs
    obtain rfl | rfl := hs <;> decide
  have opened : Spells (if nextLine then [.line head, .line "\x7b"] else [.line (head ++ " \x7b")])
      (ls ++ [.mark "\x7b"]) := by
    cases nextLine with
    | true => exact (line h).append (sign _ (by decide))
    | false =>
      have brace : Reads separators.contains (" " ++ "\x7b") ([] ++ [.mark "\x7b"]) :=
        reads_space.onward ((reads_sign (by decide)).mono fun _ _ => rfl)
      exact line (h.before brace rfl (by decide))
  have whole := (opened.append k).append (sign "\x7d" (by decide))
  refine of_linesAll_eq ?_ (by simpa using whole)
  rw [Fragment.linesAll_append, Fragment.linesAll_append]
  cases nextLine <;> simp [Fragment.linesAll, Fragment.lines_braced, Fragment.lines]

end Spells

/-- **A page is read as its fragments are spelled.** -/
theorem lexemes_render {α : Type} [Layable α] {f : Format} {a : α} {ls : List Lexeme}
    (h : Spells (Layable.fragments f a) ls) :
    Line (render f a) ∧ lexemes (render f a) = ls := by
  obtain ⟨cs, htext, hcs⟩ := Page.adds_putAll { indent := f.indent } _ h.1
  obtain ⟨ps, hps, hls, hp⟩ := hcs []
  have hr : pieces true (render f a).toList = ps := by
    rw [List.append_nil, pieces_nil, List.append_nil] at hp
    rw [render, Page.emit, htext, ← hp]
    rfl
  exact ⟨by rw [Line, hr]; exact hps, by rw [lexemes, hr, hls, h.2]⟩

end Layout
end Outline
