/-
# Images are read back

The image of a module is read as the module, up to the places of its types, which an
image does not keep.  Two things bound what can be read: the arities are machine words,
and a reader goes down `maxLevels` levels of lists and records.

| bytes | read as |
| --- | --- |
| the image of a module | the module without places |
| no header at the start | an error |
-/

import Outline.Module.Image
import Outline.Proofs.Module.Manifest

namespace Outline

open Json

/-! ### Machine words -/

namespace TypeSymbol

mutual

/-- Whether the arity of a type, and those of the types nested in it, are machine words. -/
def fits (t : TypeSymbol Nat) : Bool :=
  match t with
  | ⟨_, _, arity, _, _, _, nested, _⟩ => arity < UInt64.size && allFit nested

/-- Whether the arities of some types are. -/
def allFit : List (TypeSymbol Nat) → Bool
  | [] => true
  | t :: ts => fits t && allFit ts

end

end TypeSymbol

/-- Whether the arities of all types of a module are machine words. -/
def Module.fits (m : Module) : Bool := m.types.all (·.fits)

/-! ### Plain manifests -/

theorem isPlain_present (fs : List (String × Option Json)) :
    (object (present fs)).isPlain = fs.all fun f => f.2.all isPlain := by
  rw [isPlain, fieldsArePlain_eq_all, present, List.all_filterMap]
  congr 1
  funext f
  cases f.2 <;> rfl

theorem all_keepUnless (b : Bool) (v : Json) (p : Json → Bool) :
    (keepUnless b v).all p = (b || p v) := by
  cases b <;> rfl

theorem isPlain_map_string (texts : List String) :
    (array (texts.map .string)).isPlain = true := by
  rw [isPlain, arePlain_eq_all, List.all_map]
  exact List.all_eq_true.2 fun _ _ => rfl

theorem MemberSymbol.isPlain_manifest (s : MemberSymbol) : s.manifest.isPlain = true := by
  rw [manifest_eq, isPlain_present]
  simp [fields, all_keepUnless, isPlain]

namespace TypeSymbol

/-- A manifest is plain if the arity is a machine word and the nested types are plain. -/
theorem isPlain_of_nested (t : TypeSymbol Nat) (harity : t.arity < UInt64.size)
    (hnested : arePlain (manifests t.nested) = true) : t.manifest.isPlain = true := by
  have hmembers : arePlain (t.members.map (·.manifest)) = true := by
    rw [arePlain_eq_all, List.all_map]
    exact List.all_eq_true.2 fun s _ => s.isPlain_manifest
  have hnamespace : (t.namespaceName.map Json.string).all isPlain = true := by
    cases t.namespaceName <;> rfl
  rw [manifest_eq, isPlain_present]
  simp [fields, all_keepUnless, isPlain, harity, hmembers, hnested, hnamespace]

mutual

theorem isPlain_manifest : ∀ t : TypeSymbol Nat, t.fits = true → t.manifest.isPlain = true
  | ⟨_, _, _, _, _, _, nested, _⟩, h => by
    rw [fits, Bool.and_eq_true, decide_eq_true_eq] at h
    exact isPlain_of_nested _ h.1 (arePlain_manifests nested h.2)

theorem arePlain_manifests : ∀ ts : List (TypeSymbol Nat), allFit ts = true →
    arePlain (manifests ts) = true
  | [], _ => rfl
  | t :: ts, h => by
    rw [allFit, Bool.and_eq_true] at h
    rw [manifests, arePlain, isPlain_manifest t h.1, arePlain_manifests ts h.2]
    rfl

end

end TypeSymbol

namespace Module

theorem isPlain_manifest {m : Module} (h : m.fits = true) : m.manifest.isPlain = true := by
  have htypes : arePlain (m.types.map (·.manifest)) = true := by
    rw [arePlain_eq_all, List.all_map]
    exact List.all_eq_true.2 fun t ht => t.isPlain_manifest (List.all_eq_true.1 h t ht)
  have husings := isPlain_map_string m.usings
  have hreferences := isPlain_map_string m.references
  rw [isPlain] at husings hreferences
  rw [manifest_eq, isPlain_present]
  simp [fields, spelling, isPlain, husings, hreferences, htypes]

/-! ### Bytes -/

example : header = ⟨#[67, 83, 77, 79, 68, 1, 0, 0]⟩ := by decide

/-- Bytes are read as an image if they start with the header. -/
theorem read_header (bytes : ByteArray) : read (header ++ bytes) = readManifest bytes := by
  have hstart : (header ++ bytes).extract 0 header.size = header :=
    ByteArray.extract_append_eq_left rfl
  have hrest : (header ++ bytes).extract header.size (header ++ bytes).size = bytes :=
    ByteArray.extract_append_eq_right rfl ByteArray.size_append
  rw [read, if_pos hstart, hrest]

/-- Bytes with the header at their start are the header and the rest. -/
theorem header_append_extract {bytes : ByteArray} (h : bytes.extract 0 header.size = header) :
    header ++ bytes.extract header.size bytes.size = bytes := by
  have hsize : header.size ≤ bytes.size := by
    have := congrArg ByteArray.size h
    rw [ByteArray.size_extract] at this
    omega
  calc header ++ bytes.extract header.size bytes.size
      = bytes.extract 0 header.size ++ bytes.extract header.size bytes.size := by rw [h]
    _ = bytes.extract (min 0 header.size) (max header.size bytes.size) :=
        ByteArray.extract_append_extract
    _ = bytes := by rw [Nat.zero_min, Nat.max_eq_right hsize, ByteArray.extract_zero_size]

/-- A manifest is read as the module that it describes. -/
theorem readManifest_pretty {m : Module} (hfits : m.fits = true)
    (hdepth : m.manifest.depth ≤ maxLevels) :
    readManifest m.manifest.pretty.toUTF8 = .ok m.withoutPlaces := by
  have hparse : parseSymbols (symbols m.manifest.pretty.toUTF8) = some m.manifest := by
    rw [symbols_toUTF8]
    exact parse_pretty (isPlain_manifest hfits)
  simp only [readManifest, hparse, Option.bind_some, Manifest.module_manifest m hdepth]

/-- **Images are read back, and nothing without a header is an image.**  The image of
every module whose arities are machine words and whose manifest is no deeper than what is
read is read as the module, with all places forgotten; bytes that do not start with the
header are refused. -/
theorem read_image :
    (∀ m : Module, m.fits = true → m.manifest.depth ≤ maxLevels →
      read m.image = .ok m.withoutPlaces) ∧
    ∀ bytes : ByteArray, (∀ rest, bytes ≠ header ++ rest) →
      read bytes = .error .missingHeader := by
  refine ⟨fun m hfits hdepth => ?_, fun bytes hbytes => ?_⟩
  · rw [image, read_header, readManifest_pretty hfits hdepth]
  · have hheader : bytes.extract 0 header.size ≠ header := fun h =>
      hbytes _ (header_append_extract h).symm
    rw [read, if_neg hheader]

/-- A module with what has to be escaped in its texts and with types inside each other. -/
def nestedModule : Module where
  name := "a \"quoted\" \\ name\n\x01é😀"
  version := .v7_3
  outputKind := .console
  optimization := .debug
  overflowChecks := false
  usings := ["System", ""]
  references := []
  types := [⟨some "N", "Outer", 2, .recordStruct, true, [⟨.enumMember, "\t", true⟩],
    [⟨none, "Inner", 0, .delegate, false, [], [], 40⟩], 17⟩]

/-- The hypotheses of `Module.read_image` are satisfiable. -/
theorem read_image_nestedModule :
    nestedModule.fits = true ∧ nestedModule.manifest.depth ≤ maxLevels ∧
      read nestedModule.image = .ok nestedModule.withoutPlaces ∧
      (∀ rest, "\x7b\x7d".toUTF8 ≠ header ++ rest) ∧
      read "\x7b\x7d".toUTF8 = .error .missingHeader := by
  have hfits : nestedModule.fits = true := by decide
  have hdepth : nestedModule.manifest.depth ≤ maxLevels := by decide
  have hshort : ∀ rest, "\x7b\x7d".toUTF8 ≠ header ++ rest := by
    intro rest h
    have hsize := congrArg ByteArray.size h
    have hheader : header.size = 8 := by decide
    have hbytes : "\x7b\x7d".toUTF8.size = 2 := by decide
    rw [ByteArray.size_append, hheader, hbytes] at hsize
    omega
  exact ⟨hfits, hdepth, read_image.1 nestedModule hfits hdepth, hshort, read_image.2 _ hshort⟩

end Module
end Outline
