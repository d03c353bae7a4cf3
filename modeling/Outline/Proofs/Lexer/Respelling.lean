/-
# Names that are written again

In a text a name can stand with the prefix `@`.  Written again as another name without it,
the text is cut into the same pieces but for these names, if no piece before one of them
takes it in (`pieces_respelled`).

| text | name | written again | pieces |
| --- | --- | --- | --- |
| `int @a;` | `b` | `int b;` | the same, with `b` |
| `int@a;` | `b` | `intb;` | fewer |
| `@@a` | `b` | `@b` | fewer |
-/

import Mathlib.Data.List.Chain
import Outline.Proofs.Lexer.Resemblance
import Outline.Proofs.Lexer.Tiling

namespace Outline
namespace Lexer

/-! ### Pieces -/

/-- A piece with its text written as another name, if it is a name with its prefix. -/
def Piece.respelled (w z : String) (p : Piece) : Piece :=
  if p.text = '@' :: w.toList then { p with text := z.toList } else p

/-- The name with its prefix stands right after no piece that would take it without. -/
def SetOff (w : String) (ps : List Piece) : Prop :=
  ps.IsChain fun p q => p.takesName = true → q.text ≠ '@' :: w.toList

instance (w : String) (ps : List Piece) : Decidable (SetOff w ps) :=
  inferInstanceAs (Decidable (ps.IsChain _))

variable {w z : String}

theorem respelled_of_eq {p : Piece} (h : p.text = '@' :: w.toList) :
    p.respelled w z = { p with text := z.toList } := if_pos h

theorem respelled_of_ne {p : Piece} (h : p.text ≠ '@' :: w.toList) : p.respelled w z = p :=
  if_neg h

theorem resembles_respelled (hw : Name.isIdentifier w = true) (hz : Name.isIdentifier z = true)
    (ps : List Piece) : Resembles (ps.flatMap (·.text))
      ((ps.map (·.respelled w z)).flatMap (·.text)) := by
  induction ps with
  | nil => exact ⟨⟨.rfl, fun _ _ => .rfl⟩, fun _ => rfl, fun _ => ⟨.rfl, fun _ _ => .rfl⟩⟩
  | cons p ps ih =>
    rw [List.map_cons, List.flatMap_cons, List.flatMap_cons]
    by_cases hp : p.text = '@' :: w.toList
    · obtain ⟨c, cs, hws, hc, -⟩ := exists_of_isIdentifier hw
      obtain ⟨d, ds, hzs, hd, -⟩ := exists_of_isIdentifier hz
      have hne : d ≠ '@' := by
        rintro rfl
        cases hd
      have hq : c ≠ '"' := by
        rintro rfl
        cases hc
      rw [respelled_of_eq hp, hp, hws, hzs]
      refine ⟨⟨by simp, fun e he => ?_⟩, fun h => ?_, fun h => ?_⟩
      · rw [startsNoName, Bool.and_eq_true, bne_iff_ne, Bool.not_eq_true'] at he
        have hde : d ≠ e := by
          rintro rfl
          rw [hd] at he
          cases he.2
        simp [Ne.symm he.1, hde]
      · simp [hne, hq] at h
      · simp [Ne.symm hne] at h
    · rw [respelled_of_ne hp]
      exact ih.append p.text

/-- What follows a piece starts the same, if it is not the name. -/
theorem head?_respelled {ps : List Piece} (hne : ∀ q ∈ ps, q.text ≠ [])
    (h : ∀ q ∈ ps.head?, q.text ≠ '@' :: w.toList) : (ps.flatMap (·.text)).head?
      = ((ps.map (·.respelled w z)).flatMap (·.text)).head? := by
  cases ps with
  | nil => rfl
  | cons q ps =>
    rw [List.map_cons, List.flatMap_cons, List.flatMap_cons, respelled_of_ne (h q rfl),
      head?_append_of_ne_nil (hne q List.mem_cons_self),
      head?_append_of_ne_nil (hne q List.mem_cons_self)]

/-- A name with its prefix, and what follows it. -/
theorem cut_prefixed (hw : Name.isIdentifier w = true) (fresh : Bool) (as : List Char)
    (hk : (cut fresh '@' (w.toList ++ as)).more = w.toList.length) :
    cut fresh '@' (w.toList ++ as) = ⟨.token .identifier, w.toList.length, none⟩ ∧
      Follows endsWord as := by
  obtain ⟨c, cs, hws, hc, hcs⟩ := exists_of_isIdentifier hw
  have hwords : ∀ d ∈ w.toList, Character.isWord d = true := by
    rw [hws]
    exact List.forall_mem_cons.2 ⟨Character.isWord_of_isNameStart hc, hcs⟩
  have hcut : cut fresh '@' (w.toList ++ as)
      = ⟨.token .identifier, ((w.toList ++ as).takeWhile Character.isWord).length, none⟩ := by
    show cutAt _ = _
    have hq : c ≠ '"' := by
      rintro rfl
      cases hc
    have hd : c ≠ '$' := by
      rintro rfl
      cases hc
    rw [cutAt_eq, hws]
    simp [hq, hd, hc]
  rw [hcut] at hk ⊢
  have hk : ((w.toList ++ as).takeWhile Character.isWord).length = w.toList.length := hk
  refine ⟨by rw [hk], fun a ha => ?_⟩
  obtain ⟨as, rfl⟩ := List.head?_eq_some_iff.1 ha
  rw [List.takeWhile_append_of_pos hwords, List.length_append, List.takeWhile_cons] at hk
  rw [endsWord]
  cases hword : Character.isWord a with
  | false => rfl
  | true =>
    rw [if_pos hword, List.length_cons] at hk
    omega

/-- A piece that is a name with its prefix is a name. -/
theorem eq_of_text_prefixed (hw : Name.isIdentifier w = true) {fresh : Bool} {cs : List Char}
    {p : Piece} (hp : p ∈ pieces fresh cs) (ht : p.text = '@' :: w.toList) :
    p = ⟨.token .identifier, '@' :: w.toList, none⟩ := by
  fun_induction pieces fresh cs with
  | case1 => cases hp
  | case2 fresh c cs k ih =>
    rcases List.mem_cons.1 hp with rfl | hp
    · obtain ⟨rfl, hown⟩ := List.cons.inj ht
      have hcs : w.toList ++ cs.drop k.more = cs := by rw [← hown, List.take_append_drop]
      have hk : k = cut fresh '@' (w.toList ++ cs.drop k.more) := by rw [hcs]
      have hmore : k.more = w.toList.length := by
        rw [← hown, List.length_take_of_le (cut_more_le fresh '@' cs)]
      obtain ⟨hname, -⟩ := cut_prefixed hw fresh (cs.drop k.more) (by rw [← hk, hmore])
      rw [hown, hk, hname]
    · exact ih hp

/-- A name without its prefix. -/
theorem pieces_plain (hz : Name.IsPlain z) {bs : List Char} (hb : Follows endsWord bs)
    (fresh : Bool) : pieces fresh (z.toList ++ bs)
      = ⟨.token .identifier, z.toList, none⟩ :: pieces false bs := by
  obtain ⟨d, ds, hzs, hd, hds⟩ := exists_of_isIdentifier hz.1
  have hcut : cut fresh d (ds ++ bs) = ⟨.token .identifier, ds.length, none⟩ := by
    rw [cut_of_isNameStart hd, cutName, takeWhile_isWord_append hds hb, ← hzs, String.ofList_toList,
      hz.2]
    rfl
  rw [hzs, List.cons_append, pieces_cons, hcut, List.take_left, List.drop_left]
  rfl

/-- A name that is not reserved can stand in a line. -/
theorem inline_plain (hz : Name.IsPlain z) : Inline z := by
  have hend : Follows endsWord [] := fun _ h => by cases h
  have hp := pieces_plain hz hend false
  rw [List.append_nil, pieces_nil] at hp
  rw [Inline, hp]
  exact ⟨List.forall_mem_singleton.2 rfl, fun p h => Option.some.inj h ▸ rfl⟩

/-- **A text with names written again** is cut into the same pieces, with these names. -/
theorem pieces_respelled (hw : Name.isIdentifier w = true) (hz : Name.IsPlain z) {fresh : Bool}
    {cs : List Char} (h : SetOff w (pieces fresh cs)) :
    pieces fresh (((pieces fresh cs).map (·.respelled w z)).flatMap (·.text))
      = (pieces fresh cs).map (·.respelled w z) := by
  fun_induction pieces fresh cs with
  | case1 => exact pieces_nil _
  | case2 fresh c cs k ih =>
    obtain ⟨hnext, hrest⟩ := List.isChain_cons.1 h
    -- what follows the piece, before and after
    have hps : (pieces (freshAfter fresh c k.shape) (cs.drop k.more)).flatMap (·.text)
        = cs.drop k.more := flatMap_pieces _ _
    have hresembles := resembles_respelled hw hz.1
      (pieces (freshAfter fresh c k.shape) (cs.drop k.more))
    have hhead (htakes : (Piece.mk k.shape (c :: cs.take k.more) k.fault).takesName = true) :=
      head?_respelled (z := z) (fun q hq => ne_nil_of_mem_pieces hq)
        fun q hq => hnext q hq htakes
    have hsame := ih hrest
    rw [hps] at hresembles hhead
    rw [List.map_cons, List.flatMap_cons]
    generalize pieces (freshAfter fresh c k.shape) (cs.drop k.more) = ps at *
    have hcs : cs.take k.more ++ cs.drop k.more = cs := List.take_append_drop _ _
    have hmore : k.more = (cs.take k.more).length :=
      (List.length_take_of_le (cut_more_le fresh c cs)).symm
    by_cases hp : c :: cs.take k.more = '@' :: w.toList
    · obtain ⟨rfl, hown⟩ := List.cons.inj hp
      have hk : k = cut fresh '@' (w.toList ++ cs.drop k.more) := by rw [← hown, hcs]
      obtain ⟨hname, hends⟩ := cut_prefixed hw fresh (cs.drop k.more) (by rw [← hk, hmore, hown])
      rw [← hk] at hname
      rw [respelled_of_eq hp]
      have hfollows : Follows endsWord ((ps.map (·.respelled w z)).flatMap (·.text)) :=
        fun b hb => hends b (hhead (by rw [hname]; rfl) ▸ hb)
      rw [pieces_plain hz hfollows]
      rw [hname] at hsame ⊢
      exact congrArg (_ :: ·) hsame
    · have hstays : cut fresh c (cs.take k.more ++ (ps.map (·.respelled w z)).flatMap (·.text))
          = cut fresh c (cs.take k.more ++ cs.drop k.more) := by
        refine stays_cut hresembles fresh c ?_ ?_
        · rw [hcs]
          exact hmore
        · rw [hcs]
          exact hhead
      rw [hcs] at hstays
      have hk : cut fresh c cs = k := rfl
      rw [respelled_of_ne hp, List.cons_append, pieces_cons, hstays, hk,
        List.take_left' hmore.symm, List.drop_left' hmore.symm, hsame]

end Lexer
end Outline
