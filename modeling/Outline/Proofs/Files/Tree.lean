/-
# Places in a tree of files

What is made and written adds to a tree: folders stay folders and files stay files, whatever
they hold (`FileTree.KeptIn`).  So a path that leads to a file goes on leading there, and a
path that was written leads to the place that was written.
-/

import Mathlib.Data.List.Basic
import Outline.Proofs.Compiler.Outcome

namespace Outline
namespace FileTree

variable {t t' : FileTree} {p : Place}

/-- Two steps that succeed together succeed one by one. -/
theorem exists_of_bind {ε α β : Type} {x : Except ε α} {f : α → Except ε β} {b : β}
    (h : x >>= f = .ok b) : ∃ a, x = .ok a ∧ f a = .ok b := by
  cases x with
  | error e => cases h
  | ok a => exact ⟨a, rfl, h⟩

/-! ### Trees that keep what is there -/

/-- All folders of a tree are folders of the other one, and all its files are files there,
whatever they hold. -/
structure KeptIn (t t' : FileTree) : Prop where
  workingFolder : t'.workingFolder = t.workingFolder
  folder : ∀ {p}, t.lookup p = some .folder → t'.lookup p = some .folder
  file : ∀ {p content}, t.lookup p = some (.file content) → ∃ c, t'.lookup p = some (.file c)

namespace KeptIn

theorem refl (t : FileTree) : t.KeptIn t := ⟨rfl, id, fun h => ⟨_, h⟩⟩

/-- What two trees in a row keep is kept by both. -/
theorem trans {u : FileTree} (h : t.KeptIn t') (k : t'.KeptIn u) : t.KeptIn u :=
  ⟨k.workingFolder.trans h.workingFolder, fun hf => k.folder (h.folder hf), fun hf =>
    let ⟨_, hc⟩ := h.file hf
    k.file hc⟩

/-- An entry where none was. -/
theorem put_of_none (h : t.lookup p = none) (e : Entry) : t.KeptIn (t.put p e) := by
  have hne : ∀ {q e'}, t.lookup q = some e' → (t.put p e).lookup q = some e' := by
    intro q e' hq
    rw [lookup_put_of_ne t e (by rintro rfl; simp [h] at hq), hq]
  exact ⟨rfl, hne, fun hf => ⟨_, hne hf⟩⟩

/-- A file where no folder was. -/
theorem put_file (h : t.lookup p ≠ some .folder) (content : ByteArray) :
    t.KeptIn (t.put p (.file content)) := by
  have hp : p ≠ [] := by
    rintro rfl
    exact h rfl
  refine ⟨rfl, fun {q} hq => ?_, fun {q c} hq => ?_⟩
  · rwa [lookup_put_of_ne t _ (by rintro rfl; exact h hq)]
  · by_cases hqp : q = p
    · exact ⟨content, by rw [hqp, lookup_put_self t _ hp]⟩
    · exact ⟨c, by rwa [lookup_put_of_ne t _ hqp]⟩

end KeptIn

/-! ### Paths go on leading -/

/-- A folder is needed where there is one. -/
theorem needFolder_eq_ok : t.needFolder p = .ok () ↔ t.lookup p = some .folder := by
  unfold needFolder
  split <;> simp_all

theorem KeptIn.isSome (h : t.KeptIn t') {e : Entry} (hp : t.lookup p = some e) :
    (t'.lookup p).isSome = true := by
  cases e with
  | folder => rw [h.folder hp, Option.isSome_some]
  | file content =>
    obtain ⟨c, hc⟩ := h.file hp
    rw [hc, Option.isSome_some]

/-- What a segment leads to from a folder: the folder itself, the one above, or an entry. -/
theorem step_eq_ok {segment : List Char} {q : Place} : t.step p segment = .ok q ↔
    t.lookup p = some .folder ∧ if segment = [] ∨ segment = ['.'] then q = p
      else if segment = ['.', '.'] then q = p.dropLast
      else ∃ name, checkName (String.ofList segment) = .ok name ∧
        (t.lookup (p ++ [name])).isSome = true ∧ q = p ++ [name] := by
  unfold step
  cases hf : t.needFolder p with
  | error e =>
    have hno : t.lookup p ≠ some .folder := fun h => by
      rw [needFolder_eq_ok.2 h] at hf
      cases hf
    exact ⟨nofun, fun h => absurd h.1 hno⟩
  | ok _ =>
    rw [needFolder_eq_ok.1 hf, eq_self_iff_true, true_and]
    simp only [bind, Except.bind]
    split
    · exact ⟨fun h => (Except.ok.inj h).symm, fun h => h ▸ rfl⟩
    split
    · exact ⟨fun h => (Except.ok.inj h).symm, fun h => h ▸ rfl⟩
    cases checkName (String.ofList segment) with
    | error e => exact ⟨nofun, nofun⟩
    | ok name =>
      simp only [Except.ok.injEq, exists_eq_left']
      cases t.lookup (p ++ [name]) with
      | none => exact ⟨nofun, nofun⟩
      | some e => exact ⟨fun h => ⟨rfl, (Except.ok.inj h).symm⟩, fun h => h.2 ▸ rfl⟩

/-- A segment that leads somewhere leads there in a tree that keeps what is there. -/
theorem KeptIn.step (h : t.KeptIn t') {segment : List Char} {q : Place}
    (hs : t.step p segment = .ok q) : t'.step p segment = .ok q := by
  rw [step_eq_ok] at hs ⊢
  refine ⟨h.folder hs.1, ?_⟩
  obtain ⟨-, hs⟩ := hs
  split at hs
  · rwa [if_pos ‹_›]
  rw [if_neg ‹_›]
  split at hs
  · rwa [if_pos ‹_›]
  rw [if_neg ‹_›]
  obtain ⟨name, hn, he, rfl⟩ := hs
  obtain ⟨e, he⟩ := Option.isSome_iff_exists.1 he
  exact ⟨name, hn, h.isSome he, rfl⟩

/-- **A path that leads somewhere** still leads there, segment by segment. -/
theorem KeptIn.foldlM_step (h : t.KeptIn t') {segments : List (List Char)} {q : Place}
    (hs : segments.foldlM t.step p = .ok q) : segments.foldlM t'.step p = .ok q := by
  induction segments generalizing p with
  | nil => exact hs
  | cons segment segments ih =>
    rw [List.foldlM_cons] at hs ⊢
    obtain ⟨next, hn, hs⟩ := exists_of_bind hs
    rw [h.step hn]
    exact ih hs

theorem KeptIn.start (h : t.KeptIn t') (p : Path) : t'.start p = t.start p := by
  rw [FileTree.start, FileTree.start, h.workingFolder]

/-- A path that leads somewhere leads there in a tree that keeps what is there. -/
theorem KeptIn.find (h : t.KeptIn t') {p : Path} {q : Place} (hf : t.find p = .ok q) :
    t'.find p = .ok q := by
  unfold FileTree.find at hf ⊢
  rw [h.start]
  obtain ⟨⟨first, segments⟩, hs, hf⟩ := exists_of_bind hf
  rw [hs]
  exact h.foldlM_step hf

/-! ### Files that paths lead to -/

/-- The place of the file that a path leads to. -/
def fileAt (t : FileTree) (p : Path) : Option Place :=
  (t.find p).toOption.filter fun q => (t.contentAt q).isSome

/-- A path leads to a file if the place that it leads to has a content. -/
theorem fileAt_eq_some {p : Path} {q : Place} :
    t.fileAt p = some q ↔ t.find p = .ok q ∧ (t.contentAt q).isSome = true := by
  unfold fileAt
  cases t.find p with
  | error e => simp [Except.toOption]
  | ok place =>
    simp only [Except.toOption, Option.filter_eq_some_iff, Option.some.injEq, Except.ok.injEq]

theorem lookup_of_contentAt {content : ByteArray} (h : t.contentAt p = some content) :
    t.lookup p = some (.file content) := by
  unfold contentAt at h
  split at h
  · rename_i c hc
    rw [hc, Option.some.inj h]
  · cases h

theorem contentAt_of_lookup {content : ByteArray} (h : t.lookup p = some (.file content)) :
    t.contentAt p = some content := by
  rw [contentAt, h]

/-- A path that leads to a file still leads to it. -/
theorem KeptIn.fileAt (h : t.KeptIn t') {p : Path} {q : Place} (hf : t.fileAt p = some q) :
    t'.fileAt p = some q := by
  rw [fileAt_eq_some] at hf ⊢
  refine ⟨h.find hf.1, ?_⟩
  obtain ⟨content, hc⟩ := Option.isSome_iff_exists.1 hf.2
  obtain ⟨c, hc⟩ := h.file (lookup_of_contentAt hc)
  rw [contentAt_of_lookup hc, Option.isSome_some]

/-- A path that leads to a file is present. -/
theorem isPresent_of_fileAt {p : Path} {q : Place} (h : t.fileAt p = some q) :
    (disk.isPresent p t).1 = true := by
  obtain ⟨hf, hc⟩ := fileAt_eq_some.1 h
  obtain ⟨content, hc⟩ := Option.isSome_iff_exists.1 hc
  simp only [disk, entryAt, hf, lookup_of_contentAt hc, bind, Except.bind, pure, Except.pure,
    Except.toBool]

/-! ### Folders -/

/-- A folder where nothing was changes no file. -/
theorem contentAt_put_folder (h : t.lookup p = none) :
    (t.put p .folder).contentAt = t.contentAt := by
  have hp : p ≠ [] := by
    rintro rfl
    cases h
  funext q
  by_cases hq : q = p
  · rw [hq, contentAt, contentAt, lookup_put_self t _ hp, h]
  · rw [contentAt, contentAt, lookup_put_of_ne t _ hq]

/-- A tree after folders were made: no file has changed. -/
structure FoldersMade (t t' : FileTree) : Prop extends t.KeptIn t' where
  contentAt : t'.contentAt = t.contentAt

theorem FoldersMade.refl (t : FileTree) : t.FoldersMade t := ⟨.refl t, rfl⟩

theorem FoldersMade.trans {u : FileTree} (h : t.FoldersMade t') (k : t'.FoldersMade u) :
    t.FoldersMade u :=
  ⟨h.toKeptIn.trans k.toKeptIn, k.contentAt.trans h.contentAt⟩

/-- **A folder that is made** adds folders and leaves all files as they are. -/
theorem foldersMade_makeFolder {p : Path} (h : t.makeFolder p = .ok t') : t.FoldersMade t' := by
  unfold makeFolder at h
  obtain ⟨⟨folder, segment?, slashes⟩, -, h⟩ := exists_of_bind h
  cases segment? with
  | none => cases h
  | some segment =>
    dsimp only at h
    split at h
    · cases h
    obtain ⟨name, -, h⟩ := exists_of_bind h
    cases hl : t.lookup (folder ++ [name]) with
    | some e =>
      simp only [hl] at h
      cases h
    | none =>
      simp only [hl] at h
      cases h
      exact ⟨.put_of_none hl .folder, contentAt_put_folder hl⟩

theorem foldersMade_settleFolder (t : FileTree) (p : Path) :
    t.FoldersMade (t.settleFolder p).2 := by
  unfold settleFolder
  cases h : t.makeFolder p with
  | ok t' => exact foldersMade_makeFolder h
  | error e => exact .refl t

/-- Folders that are made one after the other, whether each succeeds or not. -/
theorem foldersMade_makeAll (t : FileTree) (ps : List Path) : t.FoldersMade (t.makeAll ps).2 := by
  induction ps with
  | nil => exact .refl t
  | cons p above ih =>
    unfold makeAll
    split
    · exact .refl t
    split
    · split
      · rename_i hm
        rw [hm] at ih
        exact ih.trans (foldersMade_settleFolder _ p)
      · exact ih
    · exact foldersMade_settleFolder t p

/-! ### Writing -/

/-- A last segment that no slash follows is the last of all, and is not empty. -/
theorem exists_of_lastSegment {p : Path} {folder : Place} {segment : List Char}
    (h : t.lastSegment p = .ok (folder, some segment, false)) :
    segment ≠ [] ∧ t.lookup folder = some .folder ∧ ∃ first before,
      t.start p = .ok (first, before ++ [segment]) ∧ before.foldlM t.step first = .ok folder := by
  unfold lastSegment at h
  obtain ⟨⟨first, segments⟩, hs, h⟩ := exists_of_bind h
  dsimp only at h
  set trimmed := segments.reverse.dropWhile (·.isEmpty) with ht
  obtain ⟨folder', hf, h⟩ := exists_of_bind h
  obtain ⟨_, hn, h⟩ := exists_of_bind h
  obtain ⟨rfl, hlast, hlen⟩ : folder' = folder ∧ trimmed.reverse.getLast? = some segment ∧
      decide (trimmed.reverse.length < segments.length) = false := by
    have h := Except.ok.inj h
    simp only [Prod.mk.injEq] at h
    exact h
  have hall : trimmed = segments.reverse := by
    refine (List.dropWhile_suffix _).eq_of_length (Nat.le_antisymm ?_ ?_)
    · exact (List.dropWhile_suffix _).length_le
    · simpa using hlen
  rw [hall, List.reverse_reverse] at hf hlast
  refine ⟨?_, needFolder_eq_ok.1 hn, first, segments.dropLast, ?_, hf⟩
  · have hhead := List.head?_dropWhile_not (fun s : List Char => s.isEmpty) segments.reverse
    rw [← ht, hall, List.head?_reverse, hlast] at hhead
    rintro rfl
    cases hhead
  · rw [hs, List.dropLast_append_getLast? segment hlast]

/-- A name leads from a folder to the entry that is there. -/
theorem step_of_name {segment : List Char} {name : String} {e : Entry}
    (hp : t.lookup p = some .folder) (hne : segment ≠ []) (hd : isDots segment = false)
    (hn : checkName (String.ofList segment) = .ok name) (he : t.lookup (p ++ [name]) = some e) :
    t.step p segment = .ok (p ++ [name]) := by
  rw [isDots, Bool.or_eq_false_iff, beq_eq_false_iff_ne, beq_eq_false_iff_ne] at hd
  refine step_eq_ok.2 ⟨hp, ?_⟩
  rw [if_neg (not_or.2 ⟨hne, hd.1⟩), if_neg hd.2]
  exact ⟨name, hn, by rw [he, Option.isSome_some], rfl⟩

/-- A path that can be written leads to the place of its last segment. -/
theorem find_of_write {p : Path} {content : ByteArray} (h : t.write p content = .ok t') :
    ∃ place, t' = t.put place (.file content) ∧ t.lookup place ≠ some .folder ∧
      t'.find p = .ok place := by
  unfold write at h
  obtain ⟨⟨folder, segment?, slashes⟩, hl, h⟩ := exists_of_bind h
  cases segment? with
  | none => cases h
  | some segment =>
    cases slashes with
    | true => cases h
    | false =>
      dsimp only at h
      split at h
      · cases h
      rename_i hd
      obtain ⟨name, hn, h⟩ := exists_of_bind h
      have hfree : t.lookup (folder ++ [name]) ≠ some .folder := by
        intro hfolder
        rw [hfolder] at h
        cases h
      have hput : t' = t.put (folder ++ [name]) (.file content) := by
        split at h
        · cases h
        · exact (Except.ok.inj h).symm
      obtain ⟨hne, hf, first, before, hs, hb⟩ := exists_of_lastSegment hl
      have hkept : t.KeptIn t' := hput ▸ .put_file hfree content
      refine ⟨folder ++ [name], hput, hfree, ?_⟩
      unfold find
      rw [hkept.start, hs]
      show (before ++ [segment]).foldlM t'.step first = _
      rw [List.foldlM_append, hkept.foldlM_step hb]
      show [segment].foldlM t'.step folder = _
      have hplace : t'.lookup (folder ++ [name]) = some (.file content) := by
        rw [hput, lookup_put_self t _ (by simp)]
      rw [List.foldlM_cons, step_of_name (hkept.folder hf) hne (Bool.eq_false_iff.2 hd) hn hplace]
      rfl

end FileTree
end Outline
