/-
# What a version changes in a tree

The parser knows no version.  A version only decides which features are reported as
missing, with the code `CS8370`; a later one misses no more than an earlier one.

| part of a tree | under a later version |
| --- | --- |
| usings, types | the same |
| diagnostics other than `CS8370` | the same, in the same order |
| `CS8370` | some of them, in the same order |

Diagnostics are sorted by their offsets after the parser is done.  The sort is stable, so
what is left out moves nothing else.
-/

import Outline.Proofs.SyntaxTree.Reports

namespace Outline

open Outline.Language (Version)

/-! ### Stable sorting -/

section

variable {α : Type} (key : α → Nat)

/-- Items in the order of their keys, those with one key as they stood. -/
def sortBy (as : List α) : List α := as.mergeSort fun a b => key a ≤ key b

theorem sortBy_perm (as : List α) : (sortBy key as).Perm as := List.mergeSort_perm _ _

theorem key_trans (a b c : α) (hab : decide (key a ≤ key b) = true)
    (hbc : decide (key b ≤ key c) = true) : decide (key a ≤ key c) = true :=
  decide_eq_true (Nat.le_trans (of_decide_eq_true hab) (of_decide_eq_true hbc))

theorem key_total (a b : α) : (decide (key a ≤ key b) || decide (key b ≤ key a)) = true := by
  simpa using Nat.le_total (key a) (key b)

theorem pairwise_sortBy (as : List α) : (sortBy key as).Pairwise fun a b => key a ≤ key b :=
  (List.pairwise_mergeSort (key_trans key) (key_total key) as).imp of_decide_eq_true

/-- One more item at the front stands before those with its key. -/
theorem exists_sortBy_cons (a : α) (as : List α) : ∃ before after,
    sortBy key (a :: as) = before ++ a :: after ∧ sortBy key as = before ++ after ∧
      (∀ b ∈ before, key b < key a) ∧ ∀ b ∈ after, key a ≤ key b := by
  obtain ⟨before, after, hcons, hsplit, hbefore⟩ :=
    List.mergeSort_cons (key_trans key) (key_total key) a as
  have hsorted := pairwise_sortBy key (a :: as)
  rw [sortBy, hcons, List.pairwise_append, List.pairwise_cons] at hsorted
  exact ⟨before, after, hcons, hsplit, fun b hb => by simpa using hbefore b hb, hsorted.2.1.1⟩

/-- The two sides of an item are told by the keys. -/
theorem sortBy_cons (a : α) (as : List α) : sortBy key (a :: as)
    = (sortBy key as).filter (fun b => key b < key a)
      ++ a :: (sortBy key as).filter (fun b => key a ≤ key b) := by
  obtain ⟨before, after, hcons, hsplit, hbefore, hafter⟩ := exists_sortBy_cons key a as
  have hlt : before.filter (fun b => key b < key a) = before :=
    List.filter_eq_self.2 fun b hb => decide_eq_true (hbefore b hb)
  have hle : after.filter (fun b => key a ≤ key b) = after :=
    List.filter_eq_self.2 fun b hb => decide_eq_true (hafter b hb)
  have hnotLe : before.filter (fun b => key a ≤ key b) = [] :=
    List.filter_eq_nil_iff.2 fun b hb => by simpa using hbefore b hb
  have hnotLt : after.filter (fun b => key b < key a) = [] :=
    List.filter_eq_nil_iff.2 fun b hb => by simpa using hafter b hb
  rw [hcons, hsplit, List.filter_append, List.filter_append, hlt, hle, hnotLe, hnotLt,
    List.append_nil, List.nil_append]

/-- **Sorting keeps the order of what is left** when something is left out. -/
theorem sortBy_sublist_sortBy {as bs : List α} (h : as.Sublist bs) :
    (sortBy key as).Sublist (sortBy key bs) := by
  induction h with
  | slnil => exact List.Sublist.refl _
  | @cons as bs b _ ih =>
    obtain ⟨before, after, hcons, hsplit, -⟩ := exists_sortBy_cons key b bs
    rw [hsplit] at ih
    rw [hcons]
    exact ih.trans ((List.sublist_cons_self b after).append_left before)
  | @cons_cons as bs b _ ih =>
    rw [sortBy_cons, sortBy_cons]
    exact (ih.filter _).append ((ih.filter _).cons_cons b)

/-- Sorting and leaving out can be exchanged. -/
theorem filter_sortBy (p : α → Bool) (as : List α) :
    (sortBy key as).filter p = sortBy key (as.filter p) := by
  have hkeep : (sortBy key (as.filter p)).filter p = sortBy key (as.filter p) :=
    List.filter_eq_self.2 fun a ha => (List.mem_filter.1 ((sortBy_perm key _).mem_iff.1 ha)).2
  have hpart : (as.filter p).Sublist as := List.filter_sublist
  have hsub := (sortBy_sublist_sortBy key hpart).filter p
  rw [hkeep] at hsub
  refine (hsub.eq_of_length ?_).symm
  rw [(sortBy_perm key _).length_eq, ((sortBy_perm key as).filter p).length_eq]

/-- So can sorting and mapping what has the keys. -/
theorem map_sortBy {β : Type} (f : β → α) (bs : List β) :
    (sortBy (fun b => key (f b)) bs).map f = sortBy key (bs.map f) :=
  List.map_mergeSort fun _ _ _ _ => rfl

variable {key}

/-- Items with the smaller keys come first, if they stand first. -/
theorem sortBy_append {as bs : List α} (h : ∀ a ∈ as, ∀ b ∈ bs, key a < key b) :
    sortBy key (as ++ bs) = sortBy key as ++ sortBy key bs := by
  induction as with
  | nil => rw [List.nil_append, sortBy, sortBy, List.mergeSort_nil, List.nil_append]
  | cons a as ih =>
    have hlt : ∀ b ∈ sortBy key bs, key a < key b := fun b hb =>
      h a List.mem_cons_self b ((sortBy_perm key bs).mem_iff.1 hb)
    have hnone : (sortBy key bs).filter (fun b => key b < key a) = [] :=
      List.filter_eq_nil_iff.2 fun b hb => by simpa using Nat.le_of_lt (hlt b hb)
    have hall : (sortBy key bs).filter (fun b => key a ≤ key b) = sortBy key bs :=
      List.filter_eq_self.2 fun b hb => decide_eq_true (Nat.le_of_lt (hlt b hb))
    rw [List.cons_append, sortBy_cons, sortBy_cons key a as,
      ih fun x hx => h x (List.mem_cons_of_mem a hx), List.filter_append, List.filter_append,
      hnone, hall, List.append_nil, List.append_assoc, List.cons_append]

/-- The order depends on how the keys compare only. -/
theorem sortBy_congr {key' : α → Nat} {as : List α}
    (h : ∀ a ∈ as, ∀ b ∈ as, key a ≤ key b ↔ key' a ≤ key' b) : sortBy key as = sortBy key' as := by
  induction as with
  | nil => rw [sortBy, sortBy, List.mergeSort_nil, List.mergeSort_nil]
  | cons a as ih =>
    have hmem {b : α} (hb : b ∈ sortBy key' as) : b ∈ a :: as :=
      List.mem_cons_of_mem a ((sortBy_perm key' as).mem_iff.1 hb)
    have hle : (sortBy key' as).filter (fun b => key a ≤ key b)
        = (sortBy key' as).filter fun b => key' a ≤ key' b :=
      List.filter_congr fun b hb => decide_eq_decide.2 (h a List.mem_cons_self b (hmem hb))
    have hlt : (sortBy key' as).filter (fun b => key b < key a)
        = (sortBy key' as).filter fun b => key' b < key' a :=
      List.filter_congr fun b hb => decide_eq_decide.2 <| by
        rw [← Nat.not_le, ← Nat.not_le, h a List.mem_cons_self b (hmem hb)]
    rw [sortBy_cons, sortBy_cons key' a as,
      ih fun x hx y hy => h x (List.mem_cons_of_mem a hx) y (List.mem_cons_of_mem a hy), hle, hlt]

end

/-- What one function finds is part of what another one finds, if it finds nothing else. -/
theorem filterMap_sublist_filterMap {α β : Type} {φ ψ : α → Option β}
    (h : ∀ a b, φ a = some b → ψ a = some b) (as : List α) :
    (as.filterMap φ).Sublist (as.filterMap ψ) := by
  induction as with
  | nil => exact .slnil
  | cons a as ih =>
    rw [List.filterMap_cons, List.filterMap_cons]
    cases ha : φ a with
    | some b =>
      rw [h a b ha]
      exact ih.cons_cons b
    | none =>
      cases ψ a with
      | none => exact ih
      | some b => exact ih.cons b

/-! ### Causes -/

/-- The diagnostic of a feature that a version lacks. -/
def Diagnostic.isGate (d : Diagnostic) : Bool := d.code == "CS8370"

/-- What two versions report of one cause, the earlier version first. -/
inductive Gated : Option Diagnostic → Option Diagnostic → Prop
  /-- The cause has nothing to do with versions. -/
  | same {d : Diagnostic} (h : d.isGate = false) : Gated (some d) (some d)
  /-- Both versions have the feature. -/
  | had : Gated none none
  /-- The later version has the feature. -/
  | gained {d : Diagnostic} (h : d.isGate = true) (he : d.isError = true) : Gated (some d) none
  /-- Both versions lack the feature. -/
  | lacked {d d' : Diagnostic} (h : d.isGate = true) (he : d.isError = true)
      (h' : d'.isGate = true) (hl : d.location = d'.location) : Gated (some d) (some d')

/-- **A later version reports of a cause no more than an earlier one.** -/
theorem gated_diagnostic? {v w : Version} (h : v ≤ w) (c : Parser.Cause) :
    Gated (c.diagnostic? v) (c.diagnostic? w) := by
  cases c with
  | expected e => cases e <;> exact .same rfl
  | needs feature =>
    rw [Parser.Cause.diagnostic?, Parser.Cause.diagnostic?]
    cases hv : v.has feature with
    | true =>
      rw [Version.has_mono h hv]
      exact .had
    | false =>
      cases w.has feature with
      | true => exact .gained rfl rfl
      | false => exact .lacked rfl rfl rfl rfl
  | _ => exact .same rfl

namespace Gated

variable {x y : Option Diagnostic}

/-- What is reported at a place. -/
theorem «at» (h : Gated x y) (l : Location) : Gated (x.map (·.at l)) (y.map (·.at l)) := by
  cases h with
  | same h => exact .same h
  | had => exact .had
  | gained h he => exact .gained h he
  | lacked h he h' => exact .lacked h he h' rfl

/-- What is reported of other causes is the same. -/
theorem filter_other (h : Gated x y) :
    x.filter (fun d => !d.isGate) = y.filter (fun d => !d.isGate) := by
  cases h with
  | same | had => rfl
  | gained h => simp [Option.filter, h]
  | lacked h _ h' => simp [Option.filter, h, h']

/-- Where the later version reports a feature, there the earlier one does. -/
theorem location_filter (h : Gated x y) (l : Option Location)
    (hy : (y.filter (·.isGate)).map (·.location) = some l) :
    (x.filter (·.isGate)).map (·.location) = some l := by
  cases h with
  | same => exact hy
  | had | gained => cases hy
  | lacked h _ h' hl =>
    simp only [Option.filter, h', if_true, Option.map_some] at hy
    simp only [Option.filter, h, if_true, Option.map_some, hl]
    exact hy

/-- If the later version reports an error then so does the earlier one. -/
theorem any_isError (h : Gated x y) (hy : y.any (·.isError) = true) :
    x.any (·.isError) = true := by
  cases h with
  | same => exact hy
  | had | gained => cases hy
  | lacked _ he => exact he

end Gated

/-! ### Trees -/

namespace SyntaxTree

open Outline.Parser (Finding)

theorem source_parse (version : Version) (s : Source) : (parse version s).source = s := by
  rw [parse]

/-- The usings of a tree are what its lexemes import, under every version. -/
theorem usings_parse (version : Version) (s : Source) : (parse version s).usings
    = (Parser.parseFile ((tokens s.text).map (·.lexeme))).value.filterMap (·.imported?) := by
  rw [parse]

/-- The types of a tree are what its lexemes declare, under every version. -/
theorem types_parse (version : Version) (s : Source) : (parse version s).types
    = ((Parser.parseFile ((tokens s.text).map (·.lexeme))).value.filterMap (·.type?)).map
        (·.map (edgeOffset ((tokens s.text).map (·.span)) s.text.utf8ByteSize)) := by
  rw [parse]

theorem gated_findingDiagnostic? {v w : Version} (h : v ≤ w) (s : Source) (spans : List Span)
    (x : Finding) : Gated (findingDiagnostic? v s spans x) (findingDiagnostic? w s spans x) :=
  (gated_diagnostic? h x.cause).at _

/-- The offset that a location points to. -/
def locationOffset (l : Option Location) : Nat := (l.map (·.offset)).getD 0

/-- The diagnostics of a tree are sorted by their offsets. -/
theorem diagnostics_eq (version : Version) (s : Source) : (parse version s).diagnostics
    = sortBy diagnosticOffset (lexicalDiagnostics s ++ reported version s) := rfl

/-- **What is reported of other causes than features** does not depend on the version. -/
theorem filter_diagnostics {v w : Version} (h : v ≤ w) (s : Source) :
    (parse v s).diagnostics.filter (fun d => !d.isGate)
      = (parse w s).diagnostics.filter (fun d => !d.isGate) := by
  have hreported : (reported v s).filter (fun d => !d.isGate)
      = (reported w s).filter (fun d => !d.isGate) := by
    rw [reported, reported, List.filter_filterMap, List.filter_filterMap]
    exact List.filterMap_congr fun x _ => (gated_findingDiagnostic? h s _ x).filter_other
  rw [diagnostics_eq, diagnostics_eq, filter_sortBy, filter_sortBy, List.filter_append,
    List.filter_append, hreported]

/-- **A later version reports features at some of the places** where an earlier one does. -/
theorem map_location_sublist {v w : Version} (h : v ≤ w) (s : Source) :
    (((parse w s).diagnostics.filter (·.isGate)).map (·.location)).Sublist
      (((parse v s).diagnostics.filter (·.isGate)).map (·.location)) := by
  have hreported : (((reported w s).filter (·.isGate)).map (·.location)).Sublist
      (((reported v s).filter (·.isGate)).map (·.location)) := by
    rw [reported, reported, List.filter_filterMap, List.filter_filterMap, List.map_filterMap,
      List.map_filterMap]
    exact filterMap_sublist_filterMap
      (fun x l => (gated_findingDiagnostic? h s _ x).location_filter l) _
  -- The offset by which diagnostics are sorted is that of their locations.
  have hkey : ∀ ds : List Diagnostic, (sortBy diagnosticOffset ds).map (·.location)
      = sortBy locationOffset (ds.map (·.location)) := map_sortBy locationOffset Diagnostic.location
  rw [diagnostics_eq, diagnostics_eq, filter_sortBy, filter_sortBy, hkey, hkey,
    List.filter_append, List.filter_append, List.map_append, List.map_append]
  exact sortBy_sublist_sortBy _ (hreported.append_left _)

/-- What an earlier version accepts a later one accepts. -/
theorem hasErrors_mono {v w : Version} (h : v ≤ w) (s : Source)
    (hv : (parse v s).hasErrors = false) : (parse w s).hasErrors = false := by
  rw [hasErrors_eq, Bool.or_eq_false_iff] at hv ⊢
  refine ⟨hv.1, List.any_eq_false.2 fun d hd he => ?_⟩
  obtain ⟨x, hx, hw⟩ := List.mem_filterMap.1 hd
  have herror := (gated_findingDiagnostic? h s _ x).any_isError (by rw [hw]; exact he)
  obtain ⟨d', hd', he'⟩ := (Option.any_eq_true _ _).1 herror
  exact List.any_eq_false.1 hv.2 d' (List.mem_filterMap.2 ⟨x, hx, hd'⟩) he'

end SyntaxTree
end Outline
