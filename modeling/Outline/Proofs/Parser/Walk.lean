/-
# The walk of a parser

Whatever the lexemes are, a parser gets from one cursor to another by a few moves:

| move | passes | finds |
| --- | --- | --- |
| `report` | nothing | something at a token that was seen |
| `plain` | a lexeme that is no bracket | nothing |
| `group` | what `skipGroup` skips, from an opening bracket | what it finds |
| `angles` | a list of type parameters, from its `<` | that it has no end |
| `arguments` | type arguments in the name of a member | nothing |
| `imported` | a using up to its `;` | nothing |
| `sign` | the sign of an operator | nothing |
| `head` | base types or constraints | what their groups find |
| `forced` | any lexeme but a closing brace, once there was a fault | nothing |
| `block` | a walk in braces | what the walk finds |
| `unclosed` | a walk after an opening brace | that the closing one is missing |
| `stray` | a closing brace at the top level | that it is one |

A walk passes lexemes one after the other (`Walk.passes`) and finds things at
tokens that it has reached (`Walk.marks`).  What holds of every move and goes on
from walk to walk holds of everything that is parsed.
-/

import Outline.Proofs.Parser.Passage

namespace Outline
namespace Parser

/-- Whether a cause makes every compilation fail: it is neither a warning nor a
feature that a version may have. -/
def Cause.isFault : Cause → Bool
  | .unusedVariable _ | .unreadVariable _ | .needs _ => false
  | _ => true

/-- Whether a cause is that a semicolon is missing. -/
def Cause.isSemicolon : Cause → Bool
  | .expected .semicolon => true
  | _ => false

/-- Whether there is a fault among findings. -/
def hasFault (found : List Finding) : Bool := found.any (·.cause.isFault)

@[simp] theorem hasFault_append (f g : List Finding) :
    hasFault (f ++ g) = (hasFault f || hasFault g) := by simp [hasFault]

/-- Findings are without a fault if all their parts are. -/
theorem hasFault_append_eq_false {f g : List Finding} :
    hasFault (f ++ g) = false ↔ hasFault f = false ∧ hasFault g = false := by
  rw [hasFault_append, Bool.or_eq_false_iff]

/-- A fault that was found stays, whatever follows. -/
theorem hasFault_bind {α β : Type} {p : Parser α} {k : α → Parser β} {c : Cursor}
    (h : hasFault (p c).found = true) : hasFault ((p >>= k) c).found = true := by
  rw [bind_apply, Step.before, hasFault_append, h, Bool.true_or]

/-- **A fault is an error in every version.** -/
theorem isError_of_isFault {cause : Cause} (h : cause.isFault = true) (version : Language.Version) :
    ∃ d, cause.diagnostic? version = some d ∧ d.isError = true := by
  cases cause with
  | expected e => exact ⟨_, rfl, by cases e <;> rfl⟩
  | unusedVariable | unreadVariable | needs => simp [Cause.isFault] at h
  | _ => exact ⟨_, rfl, rfl⟩

/-! ### Walks -/

/-- The cursor that a using starts its name at, unless it is an alias. -/
def Cursor.afterUsing (c : Cursor) : Cursor :=
  if c.next.atKeyword "static" then c.next.next else c.next

/-- The moves that get a parser from one cursor to another; at the `top` level a
closing brace may be passed that closes nothing. -/
inductive Walk : Bool → Cursor → List Finding → Cursor → Prop
  | nil {top : Bool} (c : Cursor) : Walk top c [] c
  | append {top : Bool} {c d e : Cursor} {f g : List Finding} :
      Walk top c f d → Walk top d g e → Walk top c (f ++ g) e
  | report {top : Bool} {c : Cursor} {x : Finding} (h : x.mark.UpTo c.index) : Walk top c [x] c
  | plain {top : Bool} {c : Cursor} (h : c.AtPlain) : Walk top c [] c.next
  | group {top : Bool} {c : Cursor} (h : c.atOneOf ["(", "[", "\x7b"] = true) :
      Walk top c (skipGroup c).found (skipGroup c).rest
  | angles {top : Bool} {c : Cursor} (h : c.atPunct "<" = true) :
      Walk top c (typeParameters c).found (typeParameters c).rest
  | arguments {top : Bool} {c : Cursor} {n : Nat} (h : qualifyingArguments c = some n) :
      Walk top c [] (c.drop (n + 1))
  | imported {top : Bool} {c : Cursor} (h : c.atKeyword "using" = true) :
      Walk top c [] (usingName c.afterUsing).rest
  | sign {top : Bool} {c : Cursor} (h : c.atKeyword "operator" = true) :
      Walk top c [] (operatorSign c.next).rest
  | head {top : Bool} {c : Cursor} (h : (c.atPunct ":" || c.atWord "where") = true) :
      Walk top c (skipToBody c).found (skipToBody c).rest
  | forced {top : Bool} {c d : Cursor} {f : List Finding} (hf : hasFault f = true)
      (hd : d.atPunct "\x7d" = false) : Walk top c f d → Walk top c f d.next
  | block {top : Bool} {c d : Cursor} {f : List Finding} (hc : c.atPunct "\x7b" = true)
      (hd : d.atPunct "\x7d" = true) : Walk false c.next f d → Walk top c f d.next
  | unclosed {top : Bool} {c d : Cursor} {f : List Finding} (hc : c.atPunct "\x7b" = true) :
      Walk false c.next f d → Walk top c (f ++ [⟨.expected .closeBrace, .gap d.index⟩]) d
  | stray {c : Cursor} (h : c.atPunct "\x7d" = true) :
      Walk true c [⟨.strayBrace, .whole c.index⟩] c.next

/-! ### What a walk passes and finds -/

/-- The words before the name of a using are passed. -/
theorem Cursor.afterUsing_passes (c : Cursor) : ∃ ls, c.Passes ls c.afterUsing := by
  unfold Cursor.afterUsing
  split
  · exact ⟨_, c.passes_next.trans c.next.passes_next⟩
  · exact ⟨_, c.passes_next⟩

/-- A walk passes lexemes and marks what it finds at tokens that it reached. -/
theorem Walk.passed {top : Bool} {c d : Cursor} {f : List Finding} (h : Walk top c f d) :
    (Step.mk () d f).Passed c := by
  induction h with
  | nil c => exact .stay () c
  | append _ _ ih ih' => exact ih.andThen ih'
  | report h => exact ⟨⟨[], .refl _⟩, fun x hx => List.mem_singleton.1 hx ▸ h⟩
  | @plain _ c _ => exact ⟨⟨_, c.passes_next⟩, markedUpTo_nil _⟩
  | @group _ c _ => exact (skipGroup_passed c).map (f := fun _ => ())
  | @angles _ c _ => exact (typeParameters_passed c).map (f := fun _ => ())
  | @arguments _ c n _ => exact ⟨⟨_, c.passes_drop (n + 1)⟩, markedUpTo_nil _⟩
  | @imported _ c _ =>
    obtain ⟨ls, hp⟩ := c.afterUsing_passes
    obtain ⟨ms, hq⟩ := (usingNameFrom_passed c.afterUsing.index c.afterUsing.ahead).passes
    exact ⟨⟨ls ++ ms, hp.trans hq⟩, markedUpTo_nil _⟩
  | @sign _ c _ =>
    obtain ⟨ls, hp⟩ := ((operatorSign_passed c.next).trans c.passes_next).passes
    exact ⟨⟨ls, hp⟩, markedUpTo_nil _⟩
  | @head _ c _ => exact skipToBody_passed c
  | @forced _ c d f _ _ _ ih =>
    obtain ⟨ls, hp⟩ := ih.passes
    have hq := hp.trans d.passes_next
    exact ⟨⟨_, hq⟩, ih.marked.mono d.index_le_next⟩
  | @block _ c d f _ _ _ ih =>
    obtain ⟨ls, hp⟩ := ih.passes
    exact ⟨⟨_, (c.passes_next.trans hp).trans d.passes_next⟩, ih.marked.mono d.index_le_next⟩
  | @unclosed _ c d f _ _ ih =>
    obtain ⟨ls, hp⟩ := ih.passes
    refine ⟨⟨_, c.passes_next.trans hp⟩, ih.marked.append fun x hx => ?_⟩
    rw [List.mem_singleton.1 hx]
    exact Mark.upTo_gap (Nat.le_refl _)
  | @stray c _ =>
    refine ⟨⟨_, c.passes_next⟩, fun x hx => ?_⟩
    rw [List.mem_singleton.1 hx]
    exact Mark.upTo_whole c.index_le_next

/-- A walk goes forward. -/
theorem Walk.index_le {top : Bool} {c d : Cursor} {f : List Finding} (h : Walk top c f d) :
    c.index ≤ d.index := h.passed.index_le

theorem Walk.remaining_le {top : Bool} {c d : Cursor} {f : List Finding} (h : Walk top c f d) :
    d.remaining ≤ c.remaining := by
  obtain ⟨ls, hp⟩ := h.passed.passes
  rw [hp.remaining]
  exact Nat.le_add_left _ _

/-- A walk that has moved leaves fewer lexemes. -/
theorem Walk.remaining_lt {top : Bool} {c d : Cursor} {f : List Finding} (h : Walk top c f d)
    (hi : c.index < d.index) : d.remaining < c.remaining := by
  obtain ⟨ls, hp⟩ := h.passed.passes
  exact hp.remaining_lt (Nat.ne_of_gt hi)

/-- A walk that has not moved ends where it starts. -/
theorem Walk.stays {top : Bool} {c d : Cursor} {f : List Finding} (h : Walk top c f d)
    (hi : d.index = c.index) : Walk top c f c := by
  obtain ⟨ls, hp⟩ := h.passed.passes
  obtain rfl : d = c := hp.eq_of_index hi
  exact h

/-- Findings at tokens that were reached. -/
theorem Walk.reports {top : Bool} {c : Cursor} {found : List Finding}
    (h : MarkedUpTo found c.index) : Walk top c found c := by
  induction found with
  | nil => exact .nil c
  | cons x xs ih =>
    have hx : Walk top c [x] c := .report (h x List.mem_cons_self)
    exact hx.append (ih fun y hy => h y (List.mem_cons_of_mem x hy))

/-! ### Parsers that walk -/

/-- The walk of a parser from a cursor. -/
def WalksAt {α : Type} (top : Bool) (p : Parser α) (c : Cursor) : Prop :=
  Walk top c (p c).found (p c).rest

/-- A parser that walks from everywhere. -/
def Walks {α : Type} (p : Parser α) : Prop := ∀ top c, WalksAt top p c

namespace WalksAt

variable {α β : Type} {top : Bool} {p q : Parser α} {c : Cursor}

/-- A parser that walks passes lexemes and marks tokens that it reached. -/
theorem passed (h : WalksAt top p c) : (p c).Passed c :=
  ⟨(Walk.passed h).passes, (Walk.passed h).marked⟩

theorem pure (a : α) : WalksAt top (pure a : Parser α) c := .nil c

/-- The second parser walks on from where the first one stops. -/
theorem bind {f : α → Parser β} (hp : WalksAt top p c)
    (hf : WalksAt top (f (p c).value) (p c).rest) : WalksAt top (p >>= f) c := .append hp hf

/-- A look passes nothing, so what follows it walks from the same place. -/
theorem look {γ : Type} {g : Cursor → γ} {f : γ → Parser β} (h : WalksAt top (f (g c)) c) :
    WalksAt top (Parser.look g >>= f) c := h

theorem ite {b : Prop} [Decidable b] (hp : b → WalksAt top p c) (hq : ¬b → WalksAt top q c) :
    WalksAt top (if b then p else q) c := by
  split
  · exact hp ‹_›
  · exact hq ‹_›

theorem index_le (h : WalksAt top p c) : c.index ≤ (p c).rest.index := Walk.index_le h

/-- Something that is done or not, and what follows it in either case. -/
theorem when {γ : Type} {b : Prop} [Decidable b] {r : Parser γ} (hr : b → WalksAt top r c)
    (hp : ∀ d : Cursor, c.index ≤ d.index → WalksAt top p d) :
    WalksAt top (if b then r >>= fun _ => p else p) c :=
  .ite (fun h => .bind (hr h) (hp _ (hr h).index_le)) fun _ => hp c (Nat.le_refl _)

theorem advance (h : c.AtPlain) : WalksAt top Parser.advance c := .plain h

theorem report {cause : Cause} {mark : Mark} (h : mark.UpTo c.index) :
    WalksAt top (Parser.report cause mark) c := Walk.report h

end WalksAt

/-- A walk of a parser that passes a token at least. -/
structure MovesAt {α : Type} (top : Bool) (p : Parser α) (c : Cursor) : Prop where
  walks : WalksAt top p c
  index_lt : c.index < (p c).rest.index

namespace MovesAt

variable {α β : Type} {top : Bool} {p q : Parser α} {c : Cursor}

theorem advance (h : c.AtPlain) (he : c.atEnd = false) : MovesAt top Parser.advance c :=
  ⟨.plain h, Cursor.index_lt_next he⟩

theorem bind {f : α → Parser β} (hp : MovesAt top p c)
    (hf : WalksAt top (f (p c).value) (p c).rest) : MovesAt top (p >>= f) c :=
  ⟨.bind hp.walks hf, Nat.lt_of_lt_of_le hp.index_lt hf.index_le⟩

/-- What moves after a walk moves as a whole. -/
theorem after {f : α → Parser β} (hp : WalksAt top p c)
    (hf : MovesAt top (f (p c).value) (p c).rest) : MovesAt top (p >>= f) c :=
  ⟨.bind hp hf.walks, Nat.lt_of_le_of_lt hp.index_le hf.index_lt⟩

/-- What follows a walk passes a token at least if the walk does not. -/
theorem orAfter {f : α → Parser β} (hp : WalksAt top p c)
    (hf : WalksAt top (f (p c).value) (p c).rest)
    (h : (p c).rest = c → MovesAt top (f (p c).value) c) : MovesAt top (p >>= f) c := by
  by_cases hi : (p c).rest.index = c.index
  · obtain ⟨ls, hl⟩ := Walk.passed hp |>.passes
    have hr : (p c).rest = c := hl.eq_of_index hi
    refine .after hp ?_
    rw [hr]
    exact h hr
  · have := hp.index_le
    exact .bind ⟨hp, by omega⟩ hf

theorem look {γ : Type} {g : Cursor → γ} {f : γ → Parser β} (h : MovesAt top (f (g c)) c) :
    MovesAt top (Parser.look g >>= f) c := ⟨.look h.walks, h.index_lt⟩

theorem ite {b : Prop} [Decidable b] (hp : b → MovesAt top p c) (hq : ¬b → MovesAt top q c) :
    MovesAt top (if b then p else q) c := by
  split
  · exact hp ‹_›
  · exact hq ‹_›

/-- Parsers that come to the same move together. -/
theorem of_eq (h : p c = q c) (hq : MovesAt top q c) : MovesAt top p c := by
  obtain ⟨hw, hi⟩ := hq
  unfold WalksAt at hw
  rw [← h] at hw hi
  exact ⟨hw, hi⟩

theorem map {f : α → β} (h : MovesAt top p c) : MovesAt top (fun d => (p d).map f) c :=
  ⟨h.walks, h.index_lt⟩

end MovesAt

/-- The walk of a parser after another walk. -/
def WalksOn {α : Type} (top : Bool) (b : Cursor) (f : List Finding) (p : Parser α) (c : Cursor) :
    Prop := Walk top b (f ++ (p c).found) (p c).rest

namespace WalksOn

variable {α β : Type} {top : Bool} {b c : Cursor} {f : List Finding} {p q : Parser α}

theorem pure {a : α} (h : Walk top b f c) : WalksOn top b f (pure a : Parser α) c :=
  h.append (.nil c)

theorem bind {g : α → Parser β}
    (h : WalksOn top b (f ++ (p c).found) (g (p c).value) (p c).rest) :
    WalksOn top b f (p >>= g) c := by
  rw [WalksOn, List.append_assoc] at h
  exact h

theorem look {γ : Type} {k : Cursor → γ} {g : γ → Parser β} (h : WalksOn top b f (g (k c)) c) :
    WalksOn top b f (Parser.look k >>= g) c := h

theorem ite {t : Prop} [Decidable t] (hp : t → WalksOn top b f p c)
    (hq : ¬t → WalksOn top b f q c) : WalksOn top b f (if t then p else q) c := by
  split
  · exact hp ‹_›
  · exact hq ‹_›

theorem advance (h : Walk top b f c.next) : WalksOn top b f Parser.advance c :=
  h.append (.nil c.next)

end WalksOn

namespace Walks

variable {α β : Type} {p q : Parser α}

theorem pure (a : α) : Walks (Pure.pure a : Parser α) := fun _ c => .nil c

theorem bind {f : α → Parser β} (hp : Walks p) (hf : ∀ a, Walks (f a)) : Walks (p >>= f) :=
  fun top c => .bind (hp top c) (hf _ top _)

theorem ite {b : Prop} [Decidable b] (hp : Walks p) (hq : Walks q) :
    Walks (if b then p else q) := fun top c => .ite (fun _ => hp top c) fun _ => hq top c

theorem when {γ : Type} {b : Prop} [Decidable b] {r : Parser γ} (hr : Walks r) (hp : Walks p) :
    Walks (if b then r >>= fun _ => p else p) := .ite (.bind hr fun _ => hp) hp

end Walks

/-- The next token has been seen. -/
theorem walks_reportHere (cause : Cause) : Walks (reportHere cause) := fun _ _ =>
  .look (.report (Mark.upTo_whole (Nat.le_refl _)))

theorem walks_reportAfter (cause : Cause) : Walks (reportAfter cause) := fun _ _ =>
  .look (.report (Mark.upTo_gap (Nat.le_refl _)))

/-- A mark that is no bracket may be passed by itself. -/
theorem walks_eat {p : String} (hp : p ∉ bracketTexts) : Walks (eat p) := by
  intro top c
  refine .look <| .ite (fun h => ?_) fun _ => .pure _
  exact .bind (.advance (Cursor.atPlain_of_atPunct h hp)) (.pure _)

theorem walks_expect {p : String} (hp : p ∉ bracketTexts) (e : Expected) :
    Walks (expect p e) :=
  .bind (walks_eat hp) fun _ => .ite (.pure _) (walks_reportAfter _)

/-- A name is no bracket. -/
theorem walks_name? : Walks name? := by
  intro top c
  refine .look ?_
  cases hc : c.head? with
  | none => exact .pure _
  | some l =>
    refine .ite (fun h => ?_) fun _ => .pure _
    have hn : c.AtPlain := Cursor.atPlain_of_atName (by rw [Cursor.atName, hc]; exact h)
    exact .bind (.advance hn) (.pure _)

end Parser
end Outline
