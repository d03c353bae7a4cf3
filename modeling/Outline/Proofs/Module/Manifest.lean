/-
# A manifest describes its module

Whatever is left out of a manifest is what the reader takes for a missing field, so the
reader finds the module again, up to the places of its types.

| field | left out | taken for missing |
| --- | --- | --- |
| `namespace` | no namespace | no namespace |
| `arity` | 0 | 0 |
| `partial`, `is_static` | false | false |
| `members`, `nested` | no items | no items |

The reader goes down a number of levels, and a manifest has to be no deeper than that.
-/

import Mathlib.Data.List.Nodup
import Outline.Module.Manifest
import Outline.Proofs.Json.Written

namespace Outline

/-! ### Levels -/

namespace Json

mutual

/-- The number of lists and records that a value has inside each other. -/
def depth : Json → Nat
  | array vs => itemsDepth vs + 1
  | object fs => fieldsDepth fs + 1
  | _ => 0

/-- The largest depth of some values. -/
def itemsDepth : List Json → Nat
  | [] => 0
  | v :: vs => max (depth v) (itemsDepth vs)

/-- The largest depth of the values of some fields. -/
def fieldsDepth : List (String × Json) → Nat
  | [] => 0
  | (_, v) :: fs => max (depth v) (fieldsDepth fs)

end

theorem depth_lt_of_mem_items {v : Json} {vs : List Json} (h : v ∈ vs) :
    v.depth < (array vs).depth := by
  rw [depth]
  induction vs with
  | nil => cases h
  | cons w vs ih =>
    rw [itemsDepth]
    rcases List.mem_cons.1 h with rfl | h
    · omega
    · have := ih h
      omega

theorem depth_lt_of_mem_fields {name : String} {v : Json} {fs : List (String × Json)}
    (h : (name, v) ∈ fs) : v.depth < (object fs).depth := by
  rw [depth]
  induction fs with
  | nil => cases h
  | cons f fs ih =>
    rw [fieldsDepth]
    rcases List.mem_cons.1 h with rfl | h
    · exact Nat.lt_succ_of_le (Nat.le_max_left _ _)
    · have := ih h
      omega

/-! ### Fields that may be left out -/

/-- Nothing under a condition, and otherwise a value. -/
def keepUnless (b : Bool) (v : Json) : Option Json := if b then none else some v

/-- The fields of a record, those without a value left out. -/
def present (fs : List (String × Option Json)) : List (String × Json) :=
  fs.filterMap fun f => f.2.map (f.1, ·)

variable {fs : List (String × Option Json)}

theorem present_keepUnless (b : Bool) (name : String) (v : Json) :
    present ((name, keepUnless b v) :: fs) = fieldUnless b name v ++ present fs := by
  cases b <;> rfl

theorem present_nil : present [] = [] := rfl

theorem present_none (name : String) : present ((name, none) :: fs) = present fs := rfl

theorem present_some (name : String) (v : Json) :
    present ((name, some v) :: fs) = (name, v) :: present fs := rfl

theorem mem_present {name : String} {v : Json} :
    (name, v) ∈ present fs ↔ (name, some v) ∈ fs := by
  simp only [present, List.mem_filterMap, Option.map_eq_some_iff, Prod.mk.injEq]
  constructor
  · rintro ⟨⟨n, x⟩, hmem, w, rfl, rfl, rfl⟩
    exact hmem
  · exact fun h => ⟨_, h, v, rfl, rfl, rfl⟩

/-- The names that are written stand in the order of all names. -/
theorem names_present (fs : List (String × Option Json)) :
    ((present fs).map (·.1)).Sublist (fs.map (·.1)) := by
  induction fs with
  | nil => exact .slnil
  | cons f fs ih =>
    obtain ⟨name, v⟩ := f
    cases v with
    | none => exact ih.cons name
    | some v => exact ih.cons_cons name

theorem lookup_eq_none {name : String} {es : List (String × Json)}
    (h : name ∉ es.map (·.1)) : es.lookup name = none := by
  rw [List.lookup_eq_none_iff]
  rintro ⟨n, v⟩ hmem
  have hne : name ≠ n := by
    rintro rfl
    exact h (List.mem_map_of_mem hmem)
  simpa using hne

/-- A field that is left out is missing, and the others are found. -/
theorem lookup_present (hfs : (fs.map (·.1)).Nodup) (name : String) :
    (present fs).lookup name = (fs.lookup name).join := by
  induction fs with
  | nil => rfl
  | cons f fs ih =>
    obtain ⟨n, v⟩ := f
    rw [List.map_cons, List.nodup_cons] at hfs
    by_cases hn : name = n
    · subst hn
      cases v with
      | some v => simp [present]
      | none =>
        -- No later field has the name, so none is found in the place of this one.
        have hleft := lookup_eq_none fun h => hfs.1 ((names_present fs).subset h)
        simpa [present, List.lookup_cons] using hleft
    · have hne : (name == n) = false := beq_eq_false_iff_ne.2 hn
      have hrest := ih hfs.2
      cases v <;> simpa [present, List.lookup_cons, hne] using hrest

/-- The fields that are not left out, by their names. -/
def found (fs : List (String × Option Json)) : Record := fun name => (fs.lookup name).join

/-- **A record that is written** is read as the fields that are not left out. -/
theorem asRecord_present {names : List String}
    (hnames : fs.map (·.1) = names) (hfs : names.Nodup) :
    (object (present fs)).asRecord plainForm names = some (found fs) := by
  subst hnames
  have honce : ∀ name, (present fs).countP (·.1 == name) ≤ 1 := by
    intro name
    have hcount := List.nodup_iff_count_le_one.1 (hfs.sublist (names_present fs)) name
    rwa [List.count, List.countP_map] at hcount
  have hlookup : (fun name => (present fs).lookup name) = found fs :=
    funext (lookup_present hfs)
  rw [asRecord, hlookup, if_pos]
  simp [honce, plainForm]

section

variable {α : Type} {name : String} {read : Json → Option α} {v : Json} {a : α}

/-- A field that is never left out is read back. -/
theorem required_found (hv : found fs name = some v) (hread : read v = some a) :
    (found fs).required name read = some a := by
  rw [Record.required, hv, Option.bind_some, hread]

/-- A field that is left out when it has its fallback is read back. -/
theorem optional_found {b : Bool} {fallback : α} (hv : found fs name = keepUnless b v)
    (hskip : b = true → fallback = a) (hread : b = false → read v = some a) :
    (found fs).optional name fallback read = some a := by
  rw [Record.optional, hv]
  cases b with
  | true => exact congrArg some (hskip rfl)
  | false => exact hread rfl

/-- A text that is left out when there is none is read back. -/
theorem nullable_found {s : Option String} (hv : found fs name = s.map .string) :
    (found fs).nullable name asString = some s := by
  rw [Record.nullable, hv]
  cases s <;> rfl

end

end Json

/-! ### The fields of a manifest -/

section

open Json

/-- The fields of a member. -/
def MemberSymbol.fields (s : MemberSymbol) : List (String × Option Json) := [
  ("kind", some (.string s.kind.tag)),
  ("name", some (.string s.name)),
  ("is_static", keepUnless (!s.isStatic) (.bool s.isStatic))]

theorem MemberSymbol.manifest_eq (s : MemberSymbol) :
    s.manifest = .object (present s.fields) := by
  rw [manifest, fields, present_some, present_some, present_keepUnless, present_nil]
  simp

/-- The fields of a type. -/
def TypeSymbol.fields (t : TypeSymbol Nat) : List (String × Option Json) := [
  ("namespace", t.namespaceName.map .string),
  ("name", some (.string t.name)),
  ("arity", keepUnless (t.arity == 0) (.natural t.arity)),
  ("kind", some (.string t.kind.tag)),
  ("partial", keepUnless (!t.isPartial) (.bool t.isPartial)),
  ("members", keepUnless t.members.isEmpty (.array (t.members.map (·.manifest)))),
  ("nested", keepUnless t.nested.isEmpty (.array (manifests t.nested)))]

theorem TypeSymbol.manifest_eq (t : TypeSymbol Nat) :
    t.manifest = .object (present t.fields) := by
  obtain ⟨namespaceName, _, _, _, _, _, _, _⟩ := t
  cases namespaceName <;>
    simp [manifest, fields, present_none, present_some, present_keepUnless, present_nil]

/-- The fields of a module, none of which is left out. -/
def Module.fields (m : Module) : List (String × Option Json) := [
  ("name", some (.string m.name)),
  ("languageVersion", some (.string m.version.number)),
  ("outputKind", some (spelling Config.outputKinds m.outputKind)),
  ("optimization", some (spelling Config.optimizations m.optimization)),
  ("overflowChecks", some (.bool m.overflowChecks)),
  ("usings", some (.array (m.usings.map .string))),
  ("references", some (.array (m.references.map .string))),
  ("types", some (.array (m.types.map (·.manifest))))]

theorem Module.manifest_eq (m : Module) : m.manifest = .object (present m.fields) := rfl

end

/-! ### Parts of a manifest -/

namespace Manifest

open Json

/-- A bare name takes no level. -/
theorem name_string {α : Type} (levels : Nat) (names : List (String × α)) (s : String) :
    name levels names (.string s) = names.lookup s := by
  cases levels <;> rfl

theorem mapM_manifest {α β : Type} {item : Json → Option β} {manifest : α → Json} {f : α → β}
    {xs : List α} (h : ∀ x ∈ xs, item (manifest x) = some (f x)) :
    (xs.map manifest).mapM item = some (xs.map f) := by
  induction xs with
  | nil => rfl
  | cons x xs ih =>
    rw [List.map_cons, List.mapM_cons, h x List.mem_cons_self,
      ih fun y hy => h y (List.mem_cons_of_mem x hy)]
    rfl

/-- Items are read as what they describe, each with one level less. -/
theorem list_manifest {α β : Type} {levels : Nat} {item : Nat → Json → Option β}
    {manifest : α → Json} (f : α → β) {xs : List α}
    (hlevels : (array (xs.map manifest)).depth ≤ levels)
    (h : ∀ rest, ∀ x ∈ xs, (manifest x).depth ≤ rest → item rest (manifest x) = some (f x)) :
    list levels item (array (xs.map manifest)) = some (xs.map f) := by
  cases levels with
  | zero => cases hlevels
  | succ rest =>
    refine mapM_manifest fun x hx => h rest x hx ?_
    have := depth_lt_of_mem_items (List.mem_map_of_mem (f := manifest) hx)
    omega

theorem lookup_memberKinds (k : MemberKind) : memberKinds.lookup k.tag = some k := by
  cases k <;> rfl

theorem lookup_typeKinds (k : TypeKind) : typeKinds.lookup k.tag = some k := by
  cases k <;> rfl

/-- A field that is written is no deeper than what is left under its record. -/
theorem depth_le_of_mem {fs : List (String × Option Json)} {rest : Nat}
    (h : (object (present fs)).depth ≤ rest + 1) {name : String} {v : Json}
    (hv : (name, some v) ∈ fs) : v.depth ≤ rest := by
  have := depth_lt_of_mem_fields (mem_present.2 hv)
  omega

/-- **A member is found in its manifest.** -/
theorem memberSymbol_manifest {levels : Nat} (s : MemberSymbol)
    (h : s.manifest.depth ≤ levels) : memberSymbol levels s.manifest = some s := by
  rw [MemberSymbol.manifest_eq] at h ⊢
  cases levels with
  | zero => cases h
  | succ rest =>
    have hrecord : asRecord plainForm ["kind", "name", "is_static"] (object (present s.fields))
        = some (found s.fields) := asRecord_present rfl (by decide)
    have hkind : (found s.fields).required "kind" (name rest memberKinds) = some s.kind :=
      required_found rfl (by rw [name_string, lookup_memberKinds])
    have hname : (found s.fields).required "name" asString = some s.name := required_found rfl rfl
    have hstatic : (found s.fields).optional "is_static" false asBool = some s.isStatic :=
      optional_found rfl (by simp) fun _ => rfl
    simp only [memberSymbol, hrecord, Option.bind_eq_bind, Option.bind_some, hkind, hname,
      hstatic]
    rfl

/-- A type is read from the fields of a record; its nested types are a list of types. -/
theorem typeSymbol_record (rest : Nat) {v : Json} {r : Record}
    (h : v.asRecord plainForm typeNames = some r) : typeSymbol (rest + 1) v = do
      return {
        namespaceName := ← r.nullable "namespace" asString
        name := ← r.required "name" asString
        arity := ← r.optional "arity" 0 asNatural
        kind := ← r.required "kind" (name rest typeKinds)
        isPartial := ← r.optional "partial" false asBool
        members := ← r.optional "members" [] (list rest memberSymbol)
        nested := ← r.optional "nested" [] (list rest typeSymbol)
        place := 0 } := by
  rw [typeSymbol, h]
  cases rest <;> rfl

/-- A type is found in its manifest, if the types nested in it are. -/
theorem typeSymbol_of_nested {rest : Nat} (t : TypeSymbol Nat) (h : t.manifest.depth ≤ rest + 1)
    (ts : List (TypeSymbol Nat)) (hempty : t.nested.isEmpty = true → [] = ts)
    (hnested : (array (TypeSymbol.manifests t.nested)).depth ≤ rest →
      list rest typeSymbol (array (TypeSymbol.manifests t.nested)) = some ts) :
    typeSymbol (rest + 1) t.manifest = some { t with nested := ts, place := 0 } := by
  rw [TypeSymbol.manifest_eq] at h ⊢
  have hdepth : ∀ {name v}, (name, some v) ∈ t.fields → v.depth ≤ rest := depth_le_of_mem h
  have hrecord : asRecord plainForm typeNames (object (present t.fields))
      = some (found t.fields) := asRecord_present rfl (by decide)
  have hnamespace : (found t.fields).nullable "namespace" asString = some t.namespaceName :=
    nullable_found rfl
  have hname : (found t.fields).required "name" asString = some t.name := required_found rfl rfl
  have harity : (found t.fields).optional "arity" 0 asNatural = some t.arity :=
    optional_found rfl (fun h => (beq_iff_eq.1 h).symm) fun _ => rfl
  have hkind : (found t.fields).required "kind" (name rest typeKinds) = some t.kind :=
    required_found rfl (by rw [name_string, lookup_typeKinds])
  have hpartial : (found t.fields).optional "partial" false asBool = some t.isPartial :=
    optional_found rfl (by simp) fun _ => rfl
  have hmembers : (found t.fields).optional "members" [] (list rest memberSymbol)
      = some t.members := by
    refine optional_found rfl (fun h => (List.isEmpty_iff.1 h).symm) fun hne => ?_
    have hmem : ("members", some (array (t.members.map (·.manifest)))) ∈ t.fields := by
      simp [TypeSymbol.fields, keepUnless, hne]
    have hread := list_manifest id (hdepth hmem) fun _ s _ => memberSymbol_manifest s
    rwa [List.map_id] at hread
  have htypes : (found t.fields).optional "nested" [] (list rest typeSymbol) = some ts := by
    refine optional_found rfl hempty fun hne => hnested ?_
    have hmem : ("nested", some (array (TypeSymbol.manifests t.nested))) ∈ t.fields := by
      simp [TypeSymbol.fields, keepUnless, hne]
    exact hdepth hmem
  rw [typeSymbol_record rest hrecord, hnamespace, hname, harity, hkind, hpartial, hmembers, htypes]
  rfl

mutual

/-- **A type is found in its manifest**, up to its places. -/
theorem typeSymbol_manifest : ∀ (t : TypeSymbol Nat) (levels : Nat), t.manifest.depth ≤ levels →
    typeSymbol levels t.manifest = some (t.map fun _ => 0)
  | _, 0, h => by
    rw [TypeSymbol.manifest_eq] at h
    cases h
  | ⟨_, _, _, _, _, _, nested, _⟩, rest + 1, h => by
    rw [typeSymbol_of_nested _ h (TypeSymbol.mapAll (fun _ => 0) nested), TypeSymbol.map]
    · intro hempty
      obtain rfl : nested = [] := List.isEmpty_iff.1 hempty
      rfl
    · intro hdepth
      cases rest with
      | zero => cases hdepth
      | succ inner => exact typeSymbols_manifests nested inner (Nat.le_of_succ_le_succ hdepth)

/-- Types are found in their manifests. -/
theorem typeSymbols_manifests : ∀ (ts : List (TypeSymbol Nat)) (levels : Nat),
    itemsDepth (TypeSymbol.manifests ts) ≤ levels →
    (TypeSymbol.manifests ts).mapM (typeSymbol levels) = some (TypeSymbol.mapAll (fun _ => 0) ts)
  | [], _, _ => rfl
  | t :: ts, levels, h => by
    rw [TypeSymbol.manifests, itemsDepth] at h
    have ht := typeSymbol_manifest t levels (by omega)
    have hts := typeSymbols_manifests ts levels (by omega)
    rw [TypeSymbol.manifests, List.mapM_cons, ht, hts, TypeSymbol.mapAll]
    rfl

end

/-- A version is read from its number. -/
theorem version_number (v : Language.Version) : Config.version (.string v.number) = some v := by
  cases v <;> decide +kernel

theorem name_outputKind (levels : Nat) (k : OutputKind) :
    name levels Config.outputKinds (spelling Config.outputKinds k) = some k := by
  rw [spelling, name_string]
  cases k <;> rfl

theorem name_optimization (levels : Nat) (o : Optimization) :
    name levels Config.optimizations (spelling Config.optimizations o) = some o := by
  rw [spelling, name_string]
  cases o <;> rfl

/-- **A module is found in its manifest**, up to the places of its types. -/
theorem module_manifest {levels : Nat} (m : Module) (h : m.manifest.depth ≤ levels) :
    module levels m.manifest = some m.withoutPlaces := by
  rw [Module.manifest_eq] at h ⊢
  cases levels with
  | zero => cases h
  | succ rest =>
    have hdepth : ∀ {name v}, (name, some v) ∈ m.fields → v.depth ≤ rest := depth_le_of_mem h
    have hrecord : asRecord plainForm moduleNames (object (present m.fields))
        = some (found m.fields) := asRecord_present rfl (by decide)
    have hname : (found m.fields).required "name" asString = some m.name := required_found rfl rfl
    have hversion : (found m.fields).required "languageVersion" Config.version = some m.version :=
      required_found rfl (version_number m.version)
    have hkind : (found m.fields).required "outputKind" (name rest Config.outputKinds)
        = some m.outputKind := required_found rfl (name_outputKind rest m.outputKind)
    have hoptimization : (found m.fields).required "optimization"
        (name rest Config.optimizations) = some m.optimization :=
      required_found rfl (name_optimization rest m.optimization)
    have hchecks : (found m.fields).required "overflowChecks" asBool = some m.overflowChecks :=
      required_found rfl rfl
    have htexts : ∀ (field : String) (texts : List String),
        found m.fields field = some (array (texts.map .string)) →
        (field, some (array (texts.map .string))) ∈ m.fields →
        (found m.fields).required field (list rest fun _ => asString) = some texts := by
      intro field texts hv hmem
      have hread : list rest (fun _ => asString) (array (texts.map .string))
          = some (texts.map id) := list_manifest id (hdepth hmem) fun _ _ _ _ => rfl
      rw [List.map_id] at hread
      exact required_found hv hread
    have husings := htexts "usings" m.usings rfl (by simp [Module.fields])
    have hreferences := htexts "references" m.references rfl (by simp [Module.fields])
    have htypes : (found m.fields).required "types" (list rest typeSymbol)
        = some (m.types.map (·.map fun _ => 0)) := by
      have hmem : ("types", some (array (m.types.map (·.manifest)))) ∈ m.fields := by
        simp [Module.fields]
      exact required_found rfl (list_manifest _ (hdepth hmem) fun levels t _ =>
        typeSymbol_manifest t levels)
    simp only [module, hrecord, Option.bind_eq_bind, Option.bind_some, hname, hversion, hkind,
      hoptimization, hchecks, husings, hreferences, htypes]
    rfl

end Manifest
end Outline
