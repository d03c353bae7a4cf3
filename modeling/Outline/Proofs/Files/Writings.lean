/-
# Files keep to their rules

Files are written one after the other, each by its own rules, on any disk.  Whatever
fails on the way, a file is touched only by what is written to it:

| writing | result | its file | other files |
| --- | --- | --- | --- |
| only if missing, at a path that is present | `skipped` | as before | as before |
| any other, with its folders and the file written | `written` | header and content | as before |
| a folder or the file refused | the path and the cause | as before | as before |

So a file outlives what is written only if it is missing (`writings_keep_rules`), with one
exception.  A path is looked at before its folders are made; if it leads to a file only once
they are, the file counts as missing and is overwritten (`not_spared_of_late_folder`).
-/

import Mathlib.Logic.Function.Basic
import Outline.Files.Rules
import Outline.Proofs.Files.Tree

namespace Outline
namespace Files

/-! ### The files behind a disk -/

/-- The files behind a disk: what they hold, and which file a path leads to; several paths
may lead to one file.  Looking changes nothing, making folders changes no file, and writing
either gives all bytes to the file that the path leads to then, or changes no file.  A path
goes on leading to its file. -/
structure FileSystem (σ K : Type) [DecidableEq K] where
  disk : Disk (StateM σ)
  content : σ → K → Option ByteArray
  leads : σ → Path → Option K
  state_isPresent : ∀ p s, (disk.isPresent p s).2 = s
  isPresent_of_leads : ∀ {p s k}, leads s p = some k → (disk.isPresent p s).1 = true
  content_makeFolders : ∀ p s, content (disk.makeFolders p s).2 = content s
  leads_makeFolders : ∀ {p s k}, leads s p = some k → ∀ q,
    leads (disk.makeFolders q s).2 p = some k
  leads_write : ∀ {p s k}, leads s p = some k → ∀ q bytes,
    leads (disk.write q bytes s).2 p = some k
  content_of_error : ∀ {p bytes s e}, (disk.write p bytes s).1 = .error e →
    content (disk.write p bytes s).2 = content s
  content_of_ok : ∀ {p bytes s}, (disk.write p bytes s).1 = .ok () →
    ∃ k, leads (disk.write p bytes s).2 p = some k ∧
      content (disk.write p bytes s).2 = Function.update (content s) k (some bytes)

/-- What is asked to be written: where, by which rules and what. -/
structure Writing where
  path : Path
  rules : Rules := {}
  content : String
  deriving DecidableEq, Repr

namespace Writing

/-- Writes a file by its rules. -/
def perform {m : Type → Type} [Monad m] (w : Writing) (disk : Disk m) :
    m (Except WriteError Outcome) :=
  saveBy disk w.rules w.path w.content

/-- The bytes of a file that is written: its header, if it has one, as a line, and then its
content. -/
def bytes (w : Writing) : ByteArray :=
  (w.rules.header.elim "" (· ++ "\n") ++ w.content).toUTF8

theorem toUTF8_withHeader (w : Writing) : (w.rules.withHeader w.content).toUTF8 = w.bytes := by
  unfold bytes Rules.withHeader
  cases w.rules.header with
  | none => rw [Option.elim_none, String.empty_append]
  | some h => rfl

end Writing

namespace FileSystem

variable {σ K : Type} [DecidableEq K] (F : FileSystem σ K)

/-! ### How a writing ends -/

/-- From one state to another the folders of a path are made, if it stands in any. -/
inductive Prepares (p : Path) (s : σ) : σ → Prop
  | bare (h : ∀ folder, p.parent? = some folder → folder.text = "") : Prepares p s s
  | made {folder : Path} (hp : p.parent? = some folder) (hn : folder.text ≠ "")
      (h : (F.disk.makeFolders folder s).1 = .ok ()) :
      Prepares p s (F.disk.makeFolders folder s).2

namespace Prepares

variable {F} {p : Path} {s t : σ}

theorem content_eq (h : F.Prepares p s t) : F.content t = F.content s := by
  cases h with
  | bare => rfl
  | made => exact F.content_makeFolders _ s

theorem leads_eq (h : F.Prepares p s t) {q : Path} {k : K} (hq : F.leads s q = some k) :
    F.leads t q = some k := by
  cases h with
  | bare => exact hq
  | made => exact F.leads_makeFolders hq _

end Prepares

/-- The folders of a path are made, or one is refused. -/
theorem prepares_or (p : Path) (s : σ) :
    (∃ t, F.Prepares p s t) ∨ ∃ folder e, p.parent? = some folder ∧ folder.text ≠ "" ∧
      (F.disk.makeFolders folder s).1 = .error e := by
  cases hp : p.parent? with
  | none => exact .inl ⟨s, .bare (by simp [hp])⟩
  | some folder =>
    by_cases hn : folder.text = ""
    · exact .inl ⟨s, .bare (by simp [hp, hn])⟩
    · cases h : (F.disk.makeFolders folder s).1 with
      | ok _ => exact .inl ⟨_, .made hp hn h⟩
      | error e => exact .inr ⟨folder, e, rfl, hn, h⟩

/-- How a writing ends: its result and the state after it. -/
inductive Ends (w : Writing) (s : σ) : Except WriteError Outcome × σ → Prop
  | skipped (hr : w.rules.overwrite = .ifMissing) (hp : (F.disk.isPresent w.path s).1 = true) :
      Ends w s (.ok .skipped, s)
  | unprepared {folder : Path} {e : IoError} (hp : w.path.parent? = some folder)
      (hn : folder.text ≠ "") (h : (F.disk.makeFolders folder s).1 = .error e) :
      Ends w s (.error ⟨folder, e⟩, (F.disk.makeFolders folder s).2)
  | refused {t : σ} {e : IoError} (ht : F.Prepares w.path s t)
      (h : (F.disk.write w.path w.bytes t).1 = .error e) :
      Ends w s (.error ⟨w.path, e⟩, (F.disk.write w.path w.bytes t).2)
  | written {t : σ} (hm : w.rules.overwrite = .ifMissing → (F.disk.isPresent w.path s).1 = false)
      (ht : F.Prepares w.path s t) (h : (F.disk.write w.path w.bytes t).1 = .ok ()) :
      Ends w s (.ok .written, (F.disk.write w.path w.bytes t).2)

theorem save_unprepared {p folder : Path} {s : σ} {e : IoError} (hp : p.parent? = some folder)
    (hn : folder.text ≠ "") (h : (F.disk.makeFolders folder s).1 = .error e) (text : String) :
    save F.disk p text s = (.error ⟨folder, e⟩, (F.disk.makeFolders folder s).2) := by
  simp [save, hp, hn, stateBind_apply, h, statePure_apply]

theorem save_prepared {p : Path} {s t : σ} (ht : F.Prepares p s t) (text : String) :
    save F.disk p text s = ((F.disk.write p text.toUTF8 t).1.mapError (⟨p, ·⟩),
      (F.disk.write p text.toUTF8 t).2) := by
  cases ht with
  | bare h =>
    cases hp : p.parent? with
    | none =>
      simp only [save, hp, stateBind_apply, Disk.writeText]
      cases (F.disk.write p text.toUTF8 s).1 <;> rfl
    | some folder =>
      simp only [save, hp, h folder hp, ne_eq, not_true_eq_false, if_false, stateBind_apply,
        Disk.writeText]
      cases (F.disk.write p text.toUTF8 s).1 <;> rfl
  | @made folder hp hn h =>
    simp only [save, hp, hn, ne_eq, not_false_eq_true, if_true, stateBind_apply, h,
      Disk.writeText]
    cases (F.disk.write p text.toUTF8 (F.disk.makeFolders folder s).2).1 <;> rfl

theorem saveBy_skipped {rules : Rules} {p : Path} {s : σ} (hr : rules.overwrite = .ifMissing)
    (hp : (F.disk.isPresent p s).1 = true) (content : String) :
    saveBy F.disk rules p content s = (.ok .skipped, s) := by
  simp [saveBy, hr, stateBind_apply, hp, statePure_apply, F.state_isPresent]

theorem saveBy_unskipped {rules : Rules} {p : Path} {s : σ}
    (hm : rules.overwrite = .ifMissing → (F.disk.isPresent p s).1 = false) (content : String) :
    saveBy F.disk rules p content s =
      ((save F.disk p (rules.withHeader content) s).1.map fun _ => .written,
        (save F.disk p (rules.withHeader content) s).2) := by
  unfold saveBy
  split
  · rename_i hr
    simp only [stateBind_apply, hm hr, F.state_isPresent, Bool.false_eq_true, if_false]
    cases (save F.disk p (rules.withHeader content) s).1 <;> rfl
  · simp only [stateBind_apply]
    cases (save F.disk p (rules.withHeader content) s).1 <;> rfl

theorem ends_perform (w : Writing) (s : σ) : F.Ends w s (w.perform F.disk s) := by
  by_cases hs : w.rules.overwrite = .ifMissing ∧ (F.disk.isPresent w.path s).1 = true
  · rw [Writing.perform, F.saveBy_skipped hs.1 hs.2]
    exact .skipped hs.1 hs.2
  · have hm : w.rules.overwrite = .ifMissing → (F.disk.isPresent w.path s).1 = false :=
      fun hr => Bool.eq_false_iff.2 fun hp => hs ⟨hr, hp⟩
    rw [Writing.perform, F.saveBy_unskipped hm]
    obtain ⟨t, ht⟩ | ⟨folder, e, hp, hn, h⟩ := F.prepares_or w.path s
    · rw [F.save_prepared ht, Writing.toUTF8_withHeader]
      cases h : (F.disk.write w.path w.bytes t).1 with
      | ok _ => exact .written hm ht h
      | error e => exact .refused ht h
    · rw [F.save_unprepared hp hn h]
      exact .unprepared hp hn h

/-! ### One writing -/

/-- The state after a writing. -/
def after (w : Writing) (s : σ) : σ := (w.perform F.disk s).2

/-- What a writing does by its rules, whether it succeeds or not. -/
structure KeepsRules (w : Writing) (s : σ) : Prop where
  /-- No file is touched but the one that the path leads to afterwards. -/
  others : ∀ k, F.leads (F.after w s) w.path ≠ some k →
    F.content (F.after w s) k = F.content s k
  /-- What is written only if it is missing is skipped if its path is present. -/
  skipped : w.rules.overwrite = .ifMissing → (F.disk.isPresent w.path s).1 = true →
    w.perform F.disk s = (.ok .skipped, s)
  /-- Any other success leaves the header and the content, and says so. -/
  written : (w.rules.overwrite = .ifMissing → (F.disk.isPresent w.path s).1 = false) →
    ∀ o, (w.perform F.disk s).1 = .ok o → o = .written ∧
      ∃ k, F.leads (F.after w s) w.path = some k ∧ F.content (F.after w s) k = some w.bytes
  /-- A failure changes no file; it names the path that was refused, and why. -/
  failed : ∀ e, (w.perform F.disk s).1 = .error e → F.content (F.after w s) = F.content s ∧
    ((w.path.parent? = some e.path ∧ (F.disk.makeFolders e.path s).1 = .error e.cause) ∨
      (e.path = w.path ∧ ∃ t, F.Prepares w.path s t ∧
        (F.disk.write w.path w.bytes t).1 = .error e.cause))
  /-- What is written only if it is missing changes a file only if its path leads to that file
  afterwards and did not before. -/
  late : w.rules.overwrite = .ifMissing → ∀ k, F.content (F.after w s) k ≠ F.content s k →
    F.leads s w.path ≠ some k ∧ F.leads (F.after w s) w.path = some k

theorem content_of_leads_ne {w : Writing} {s : σ} {k : K}
    (hk : F.leads (F.after w s) w.path ≠ some k) :
    F.content (F.after w s) k = F.content s k := by
  have hends := F.ends_perform w s
  unfold after at hk ⊢
  generalize w.perform F.disk s = r at hends hk ⊢
  cases hends with
  | skipped => rfl
  | unprepared => exact congrFun (F.content_makeFolders _ s) k
  | refused ht h => rw [F.content_of_error h, ht.content_eq]
  | written _ ht h =>
    obtain ⟨l, hl, hc⟩ := F.content_of_ok h
    have hkl : k ≠ l := by
      rintro rfl
      exact hk hl
    rw [hc, Function.update_of_ne hkl, ht.content_eq]

theorem keepsRules (w : Writing) (s : σ) : F.KeepsRules w s := by
  have hends := F.ends_perform w s
  have skipped : w.rules.overwrite = .ifMissing → (F.disk.isPresent w.path s).1 = true →
      w.perform F.disk s = (.ok .skipped, s) := fun hr hp => F.saveBy_skipped hr hp w.content
  refine ⟨fun k => F.content_of_leads_ne, skipped, fun hm o ho => ?_, fun e he => ?_,
    fun hr k hk => ⟨fun hl => ?_, ?_⟩⟩
  · unfold after
    generalize w.perform F.disk s = r at hends ho ⊢
    cases hends with
    | skipped hr hp => exact absurd hp (by rw [hm hr]; exact Bool.false_ne_true)
    | unprepared => cases ho
    | refused => cases ho
    | written _ ht h =>
      obtain ⟨l, hl, hc⟩ := F.content_of_ok h
      exact ⟨(Except.ok.inj ho).symm, l, hl, by rw [hc, Function.update_self]⟩
  · unfold after
    generalize w.perform F.disk s = r at hends he ⊢
    cases hends with
    | skipped => cases he
    | unprepared hp hn h =>
      cases he
      exact ⟨F.content_makeFolders _ s, .inl ⟨hp, h⟩⟩
    | refused ht h =>
      cases he
      exact ⟨(F.content_of_error h).trans ht.content_eq, .inr ⟨rfl, _, ht, h⟩⟩
    | written => cases he
  · rw [after, skipped hr (F.isPresent_of_leads hl)] at hk
    exact hk rfl
  · exact by_contra fun hl => hk (F.content_of_leads_ne hl)

theorem leads_after {p : Path} {s : σ} {k : K} (h : F.leads s p = some k) (w : Writing) :
    F.leads (F.after w s) p = some k := by
  have hends := F.ends_perform w s
  unfold after
  generalize w.perform F.disk s = r at hends ⊢
  cases hends with
  | skipped => exact h
  | unprepared => exact F.leads_makeFolders h _
  | refused ht _ => exact F.leads_write (ht.leads_eq h) _ _
  | written _ ht _ => exact F.leads_write (ht.leads_eq h) _ _

/-! ### One writing after the other -/

/-- The state after writings, one after the other. -/
def afterAll (s : σ) (ws : List Writing) : σ := ws.foldl (fun s w => F.after w s) s

/-- Something holds of each writing in the state that it is asked in. -/
def Each (P : Writing → σ → Prop) (s : σ) (ws : List Writing) : Prop :=
  ∀ before w later, ws = before ++ w :: later → P w (F.afterAll s before)

theorem each_nil (P : Writing → σ → Prop) (s : σ) : F.Each P s [] := by
  intro before w later h
  simp at h

theorem each_cons {P : Writing → σ → Prop} {s : σ} {w : Writing} {ws : List Writing} :
    F.Each P s (w :: ws) ↔ P w s ∧ F.Each P (F.after w s) ws := by
  constructor
  · intro h
    exact ⟨h [] w ws rfl, fun before v later hv => h (w :: before) v later (by rw [hv]; rfl)⟩
  · rintro ⟨hw, hws⟩ before v later h
    cases before with
    | nil =>
      obtain ⟨rfl, -⟩ := List.cons.inj h
      exact hw
    | cons u before =>
      obtain ⟨rfl, hsplit⟩ := List.cons.inj h
      exact hws before v later hsplit

/-- A writing spares a file that a path leads to: it ends at another file, or it is for missing
files only and is asked at that path, or at one that leads to the file already. -/
def Spares (k : K) (p : Path) (w : Writing) (s : σ) : Prop :=
  F.leads (F.after w s) w.path = some k →
    w.rules.overwrite = .ifMissing ∧ (w.path = p ∨ F.leads s w.path = some k)

instance (k : K) (p : Path) (w : Writing) (s : σ) : Decidable (F.Spares k p w s) :=
  inferInstanceAs (Decidable (_ → _))

/-- A file that is spared is as before. -/
theorem content_of_spares {k : K} {p : Path} {w : Writing} {s : σ} (hp : F.leads s p = some k)
    (h : F.Spares k p w s) : F.content (F.after w s) k = F.content s k := by
  by_contra hc
  have hl : F.leads (F.after w s) w.path = some k :=
    by_contra fun hl => hc (F.content_of_leads_ne hl)
  obtain ⟨hr, hq⟩ := h hl
  refine ((F.keepsRules w s).late hr k hc).1 ?_
  obtain rfl | hq := hq
  · exact hp
  · exact hq

/-- A file that each writing spares is as before: its path goes on leading to it. -/
theorem content_of_each_spares {k : K} {p : Path} {s : σ} {ws : List Writing}
    (hp : F.leads s p = some k) (h : F.Each (F.Spares k p) s ws) :
    F.content (F.afterAll s ws) k = F.content s k := by
  induction ws generalizing s with
  | nil => rfl
  | cons w ws ih =>
    obtain ⟨hw, hws⟩ := F.each_cons.1 h
    rw [← F.content_of_spares hp hw]
    exact ih (F.leads_after hp w) hws

end FileSystem
end Files

/-! ### Files in memory -/

/-- A tree of files, with the places that its paths lead to. -/
def FileTree.fileSystem : Files.FileSystem FileTree Place where
  disk := disk
  content := contentAt
  leads := fileAt
  state_isPresent _ _ := rfl
  isPresent_of_leads := isPresent_of_fileAt
  content_makeFolders p t := (foldersMade_makeAll t p.ancestors).contentAt
  leads_makeFolders h q := (foldersMade_makeAll _ q.ancestors).toKeptIn.fileAt h
  leads_write {p t k} h q bytes := by
    simp only [disk]
    cases hw : t.write q bytes with
    | error e => exact h
    | ok t' =>
      obtain ⟨place, rfl, hfree, -⟩ := find_of_write hw
      exact (KeptIn.put_file hfree bytes).fileAt h
  content_of_error {p bytes t e} h := by
    simp only [disk] at h ⊢
    cases hw : t.write p bytes with
    | error _ => rfl
    | ok _ =>
      rw [hw] at h
      cases h
  content_of_ok {p bytes t} h := by
    simp only [disk] at h ⊢
    cases hw : t.write p bytes with
    | error _ =>
      rw [hw] at h
      cases h
    | ok t' =>
      obtain ⟨place, rfl, hfree, hf⟩ := find_of_write hw
      have hp : place ≠ [] := by
        rintro rfl
        exact hfree rfl
      have hc := contentAt_put t hp bytes
      refine ⟨place, fileAt_eq_some.2 ⟨hf, ?_⟩, hc⟩
      rw [hc, Function.update_self, Option.isSome_some]

namespace Files

/-- **Files keep to their rules, however many are written.**  On any disk each writing keeps
its rules in the state that it is asked in.  A file that a path leads to, such as one that was
written there, keeps its content through writings that end at other files or are for missing
files only, unless one of these comes to lead to it by the folders that it makes itself. -/
theorem writings_keep_rules {σ K : Type} [DecidableEq K] (F : FileSystem σ K) (s : σ)
    (ws : List Writing) :
    F.Each F.KeepsRules s ws ∧
      ∀ k p bytes, F.leads s p = some k → F.content s k = some bytes →
        F.Each (F.Spares k p) s ws → F.content (F.afterAll s ws) k = some bytes := by
  refine ⟨fun before w _ _ => F.keepsRules w (F.afterAll s before), fun k p bytes hp hk h => ?_⟩
  rw [F.content_of_each_spares hp h, hk]

/-- A tree with a stub that was edited. -/
def editedStub : FileTree :=
  FileTree.fileSystem.after ⟨⟨"gen/Stub.cs"⟩, {}, "class A \x7b int x; \x7d"⟩ {}

/-- An edited stub outlives that it is written only if it is missing, and that a file is
written in the folder above. -/
theorem writings_keep_rules_stub :
    let ws : List Writing := [⟨⟨"gen/Stub.cs"⟩, ⟨.ifMissing, none⟩, "class A;"⟩,
      ⟨⟨"gen/../B.cs"⟩, .generated, "class B;"⟩,
      ⟨⟨"gen/./Stub.cs"⟩, ⟨.ifMissing, none⟩, "class C;"⟩]
    FileTree.fileSystem.leads editedStub ⟨"gen/Stub.cs"⟩ = some ["gen", "Stub.cs"] ∧
      FileTree.fileSystem.Each (FileTree.fileSystem.Spares ["gen", "Stub.cs"] ⟨"gen/Stub.cs"⟩)
        editedStub ws ∧
      FileTree.fileSystem.content (FileTree.fileSystem.afterAll editedStub ws) ["gen", "Stub.cs"]
        = some "class A \x7b int x; \x7d".toUTF8 := by
  intro ws
  have hl : FileTree.fileSystem.leads editedStub ⟨"gen/Stub.cs"⟩ = some ["gen", "Stub.cs"] := by
    decide +kernel
  have hs : FileTree.fileSystem.Each
      (FileTree.fileSystem.Spares ["gen", "Stub.cs"] ⟨"gen/Stub.cs"⟩) editedStub ws :=
    FileSystem.each_cons _ |>.2 ⟨by decide +kernel, FileSystem.each_cons _ |>.2 ⟨by decide +kernel,
      FileSystem.each_cons _ |>.2 ⟨by decide +kernel, FileSystem.each_nil _ _ _⟩⟩⟩
  exact ⟨hl, hs, (writings_keep_rules FileTree.fileSystem editedStub ws).2 _ _ _ hl
    (by decide +kernel) hs⟩

/-- A path that leads to a file only once its folder is made: the file is overwritten by what
is written only if it is missing. -/
theorem not_spared_of_late_folder :
    ¬∀ (t : FileTree) (w : Writing) (k : Place) (ws : List Writing),
      (w.perform FileTree.disk t).1 = .ok .written →
        FileTree.fileSystem.leads (FileTree.fileSystem.after w t) w.path = some k →
        (∀ v ∈ ws, v.rules.overwrite = .ifMissing) →
          FileTree.fileSystem.content
              (FileTree.fileSystem.afterAll (FileTree.fileSystem.after w t) ws) k
            = FileTree.fileSystem.content (FileTree.fileSystem.after w t) k := by
  intro h
  have hkept := h {} ⟨⟨"Stub.cs"⟩, {}, "edited"⟩ ["Stub.cs"]
    [⟨⟨"gen/../Stub.cs"⟩, ⟨.ifMissing, none⟩, "class A;"⟩]
    (by decide +kernel) (by decide +kernel) (by decide +kernel)
  exact absurd hkept (by decide +kernel)

end Files
end Outline
