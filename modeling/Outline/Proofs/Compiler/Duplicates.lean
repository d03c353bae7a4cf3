/-
# Types that are declared twice

Types are told apart by their keys: the namespace, the name and the number of type parameters.
A full name is one text for all three, and tells as much, since no name has a dot or a
backtick in it.  So the types that are reported are those that repeat a key, by what the first
type with this key and they are:

| first | later one | reported |
| --- | --- | --- |
| partial | partial | no |
| partial | not partial | yes |
| not partial | either | yes |
-/

import Outline.Proofs.Compiler.Phases
import Outline.Proofs.Compiler.Order
import Outline.Proofs.SyntaxTree.Names

namespace Outline

/-! ### Full names -/

namespace TypeSymbol

variable {P : Type} {t u : TypeSymbol P}

/-- What types are told apart by. -/
def key (t : TypeSymbol P) : Option String × String × Nat := (t.namespaceName, t.name, t.arity)

/-- A name without the signs that join the parts of a full name. -/
def Unmarked (name : String) : Prop := '.' ∉ name.toList ∧ '`' ∉ name.toList

/-- The part of a full name before the name: a namespace with its dot, or nothing. -/
def prefixOf : Option String → List Char
  | some n => n.toList ++ ['.']
  | none => []

/-- The part after it: the number of type parameters after a backtick, or nothing. -/
def suffixOf (arity : Nat) : List Char := if arity = 0 then [] else '`' :: Nat.toDigits 10 arity

theorem toList_fullName (t : TypeSymbol P) : t.fullName.toList
    = prefixOf t.namespaceName ++ (t.name.toList ++ suffixOf t.arity) := by
  have hend : (if t.arity = 0 then "" else "`" ++ toString t.arity).toList = suffixOf t.arity := by
    rw [suffixOf]
    split
    · rfl
    · rw [String.toList_append, Nat.toString_eq_repr, Nat.toList_repr]
      rfl
  rw [fullName, String.toList_append, hend]
  cases t.namespaceName with
  | none => rfl
  | some n => rw [String.toList_append, String.toList_append, prefixOf, List.append_assoc]; rfl

/-- What stands before the first mark of a text is told by the text. -/
theorem eq_of_append_eq {m : Char} {as bs cs ds : List Char} (ha : m ∉ as) (hb : m ∉ bs)
    (hc : ∀ c ∈ cs.head?, c = m) (hd : ∀ d ∈ ds.head?, d = m) (h : as ++ cs = bs ++ ds) :
    as = bs ∧ cs = ds := by
  have before : ∀ xs ys : List Char, m ∉ xs → (∀ y ∈ ys.head?, y = m) →
      (xs ++ ys).takeWhile (· ≠ m) = xs := by
    intro xs ys hxs hys
    rw [List.takeWhile_append_of_pos fun x hx => by
      rw [decide_eq_true_eq]
      exact ne_of_mem_of_not_mem hx hxs]
    cases ys with
    | nil => rw [List.takeWhile_nil, List.append_nil]
    | cons y ys => simp [hys y rfl]
  have heq : as = bs := by rw [← before as cs ha hc, h, before bs ds hb hd]
  subst heq
  exact ⟨rfl, List.append_cancel_left h⟩

theorem head?_suffixOf (n : Nat) : ∀ c ∈ (suffixOf n).head?, c = '`' := by
  rw [suffixOf]
  split <;> simp

theorem isDigit_of_mem_suffixOf {n : Nat} {c : Char} (h : c ∈ suffixOf n) :
    c = '`' ∨ c.isDigit = true := by
  rw [suffixOf] at h
  split at h
  · cases h
  · rcases List.mem_cons.1 h with h | h
    · exact .inl h
    · exact .inr (Nat.isDigit_of_mem_toDigits (by decide) (by decide) h)

theorem suffixOf_inj {n k : Nat} (h : suffixOf n = suffixOf k) : n = k := by
  rw [suffixOf, suffixOf] at h
  split at h <;> split at h
  · omega
  · cases h
  · cases h
  · have hdigits := congrArg (Nat.ofDigitChars 10 · 0) (List.tail_eq_of_cons_eq h)
    have hof (m : Nat) : Nat.ofDigitChars 10 (Nat.toDigits 10 m) 0 = m :=
      Nat.ofDigitChars_toDigits (by decide) (by decide)
    rwa [hof, hof] at hdigits

theorem prefixOf_inj {m n : Option String} (h : prefixOf m = prefixOf n) : m = n := by
  cases m <;> cases n
  · rfl
  · simp [prefixOf] at h
  · simp [prefixOf] at h
  · exact congrArg some (String.toList_inj.1 (List.append_cancel_right h))

/-- **A full name tells the namespace, the name and the number of type parameters**, if there
are no marks in the name. -/
theorem fullName_eq_iff (ht : Unmarked t.name) (hu : Unmarked u.name) :
    t.fullName = u.fullName ↔ t.key = u.key := by
  refine ⟨fun h => ?_, fun h => ?_⟩
  · have undotted : ∀ name, Unmarked name → ∀ n, '.' ∉ (name.toList ++ suffixOf n).reverse := by
      intro name hname n hmem
      rcases List.mem_append.1 (List.mem_reverse.1 hmem) with hmem | hmem
      · exact hname.1 hmem
      · rcases isDigit_of_mem_suffixOf hmem with hc | hc <;> cases hc
    have dotted : ∀ n, ∀ c ∈ (prefixOf n).reverse.head?, c = '.' := by
      intro n c hc
      cases n with
      | none => cases hc
      | some n => simpa [prefixOf, eq_comm] using hc
    have hlist : (t.name.toList ++ suffixOf t.arity).reverse ++ (prefixOf t.namespaceName).reverse
        = (u.name.toList ++ suffixOf u.arity).reverse ++ (prefixOf u.namespaceName).reverse := by
      rw [← List.reverse_append, ← List.reverse_append, ← toList_fullName, ← toList_fullName, h]
    -- the last dot stands before the name, and the first backtick after it
    obtain ⟨hrest, hprefix⟩ := eq_of_append_eq (undotted _ ht _) (undotted _ hu _) (dotted _)
      (dotted _) hlist
    obtain ⟨hname, hsuffix⟩ := eq_of_append_eq ht.2 hu.2 (head?_suffixOf _) (head?_suffixOf _)
      (List.reverse_injective hrest)
    rw [key, key, prefixOf_inj (List.reverse_injective hprefix), String.toList_inj.1 hname,
      suffixOf_inj hsuffix]
  · obtain ⟨hnamespace, hrest⟩ := Prod.mk.inj h
    obtain ⟨hname, harity⟩ := Prod.mk.inj hrest
    rw [fullName, fullName, hnamespace, hname, harity]

end TypeSymbol

namespace Compilation

open TypeSymbol (Unmarked)

/-! ### Declarations that repeat others -/

/-- A type with a name repeats the first one with its key of those before it, unless both are
partial. -/
def repeats (before : List (TypeSymbol Nat)) (t : TypeSymbol Nat) : Bool :=
  t.name ≠ "" && (before.find? (·.key = t.key)).any fun first => !(first.isPartial && t.isPartial)

/-- The declarations that repeat one that stands before them, in order. -/
def repeated (ds : List (Source × TypeSymbol Nat)) : List (Source × TypeSymbol Nat) :=
  (ds.zipIdx.filter fun (d, i) => repeats ((ds.take i).map (·.2)) d.2).map (·.1)

/-- What is remembered of types that were declared: for each key, whether the first one is
partial. -/
def Remembers (seen : List (String × Bool)) (before : List (TypeSymbol Nat)) : Prop :=
  ∀ t : TypeSymbol Nat, Unmarked t.name → t.name ≠ "" →
    seen.lookup t.fullName = (before.find? (·.key = t.key)).map (·.isPartial)

namespace Remembers

variable {seen : List (String × Bool)} {before : List (TypeSymbol Nat)} {u : TypeSymbol Nat}

/-- A type without a name is not remembered. -/
theorem unnamed (h : Remembers seen before) (hu : u.name = "") :
    Remembers seen (before ++ [u]) := by
  intro t ht hname
  have hne : u.key ≠ t.key := fun hk => hname ((Prod.mk.inj (Prod.mk.inj hk).2).1 ▸ hu)
  rw [h t ht hname, List.find?_append, List.find?_singleton, if_neg (by simpa using hne),
    Option.or_none]

/-- A type with a key that is known adds nothing. -/
theorem known (h : Remembers seen before) (hu : Unmarked u.name) (hname : u.name ≠ "")
    {isPartial : Bool} (hseen : seen.lookup u.fullName = some isPartial) :
    Remembers seen (before ++ [u]) := by
  intro t ht htname
  rw [h t ht htname, List.find?_append, List.find?_singleton]
  by_cases hk : u.key = t.key
  · have hfound := h u hu hname
    rw [hseen, hk] at hfound
    obtain ⟨first, hfirst, -⟩ := Option.map_eq_some_iff.1 hfound.symm
    rw [hfirst, Option.some_or]
  · rw [if_neg (by simpa using hk), Option.or_none]

/-- The first type with its key is remembered. -/
theorem first (h : Remembers seen before) (hu : Unmarked u.name) (hname : u.name ≠ "")
    (hseen : seen.lookup u.fullName = none) :
    Remembers ((u.fullName, u.isPartial) :: seen) (before ++ [u]) := by
  intro t ht htname
  rw [List.find?_append, List.find?_singleton, List.lookup_cons]
  by_cases hk : u.key = t.key
  · have hfound := h u hu hname
    rw [hseen, hk, eq_comm, Option.map_eq_none_iff] at hfound
    have hsame : t.fullName = u.fullName := (TypeSymbol.fullName_eq_iff ht hu).2 hk.symm
    rw [hfound, Option.none_or, if_pos (by simpa using hk), hsame]
    simp
  · have hne : (t.fullName == u.fullName) = false := by
      rw [beq_eq_false_iff_ne]
      exact fun he => hk ((TypeSymbol.fullName_eq_iff ht hu).1 he).symm
    rw [hne, if_neg (by simpa using hk), Option.or_none]
    exact h t ht htname

end Remembers

/-- **Exactly the declarations that repeat others are reported**, after those that were seen. -/
theorem duplicates_of_remembers {seen : List (String × Bool)}
    {before ds : List (Source × TypeSymbol Nat)} (h : Remembers seen (before.map (·.2)))
    (hds : ∀ d ∈ ds, Unmarked d.2.name) : duplicates seen ds
      = ((ds.zipIdx before.length).filter fun (d, i) =>
          repeats (((before ++ ds).take i).map (·.2)) d.2).map fun (d, _) => duplicate d.1 d.2 := by
  -- Each declaration goes from `ds` to `before`, and `seen` remembers it from then on.
  induction ds generalizing seen before with
  | nil => rfl
  | cons d ds ih =>
    obtain ⟨source, t⟩ := d
    obtain ⟨ht, hds⟩ := List.forall_mem_cons.1 hds
    have hlater {seen' : List (String × Bool)}
        (h' : Remembers seen' (before.map (·.2) ++ [t])) : duplicates seen' ds
          = ((ds.zipIdx (before.length + 1)).filter fun (d, i) =>
              repeats (((before ++ (source, t) :: ds).take i).map (·.2)) d.2).map
                fun (d, _) => duplicate d.1 d.2 := by
      have hmore : Remembers seen' ((before ++ [(source, t)]).map (·.2)) := by
        rwa [List.map_append]
      have := ih hmore hds
      rwa [List.length_append, List.append_assoc] at this
    rw [List.zipIdx_cons, List.filter_cons, duplicates]
    simp only [List.take_left]
    by_cases hname : t.name = ""
    · have hno : repeats (before.map (·.2)) t = false := by simp [repeats, hname]
      rw [if_pos hname, hno, if_neg Bool.false_ne_true, hlater (h.unnamed hname)]
    · rw [if_neg hname]
      have hlookup := h t ht hname
      cases hseen : seen.lookup t.fullName with
      | none =>
        rw [hseen, eq_comm, Option.map_eq_none_iff] at hlookup
        have hno : repeats (before.map (·.2)) t = false := by simp [repeats, hlookup]
        rw [hno, if_neg Bool.false_ne_true]
        exact hlater (h.first ht hname hseen)
      | some isPartial =>
        rw [hseen] at hlookup
        obtain ⟨first, hfirst, rfl⟩ := Option.map_eq_some_iff.1 hlookup.symm
        have hrepeats : repeats (before.map (·.2)) t = !(first.isPartial && t.isPartial) := by
          simp [repeats, hname, hfirst]
        dsimp only
        rw [hrepeats]
        cases first.isPartial && t.isPartial with
        | true => exact hlater (h.known ht hname hseen)
        | false => exact congrArg (_ :: ·) (hlater (h.known ht hname hseen))

theorem duplicates_eq_map_repeated {ds : List (Source × TypeSymbol Nat)}
    (hds : ∀ d ∈ ds, Unmarked d.2.name) :
    duplicates [] ds = (repeated ds).map fun d => duplicate d.1 d.2 := by
  have hstart : Remembers [] (([] : List (Source × TypeSymbol Nat)).map (·.2)) := fun _ _ _ => rfl
  rw [duplicates_of_remembers hstart hds, repeated, List.map_map]
  rfl

/-- What is reported of types that are declared twice is that. -/
theorem exists_of_mem_duplicates {seen : List (String × Bool)}
    {ds : List (Source × TypeSymbol Nat)} {d : Diagnostic} (h : d ∈ duplicates seen ds) :
    ∃ source t, d = duplicate source t := by
  fun_induction duplicates seen ds with
  | case1 => cases h
  | case2 _ _ _ _ _ ih => exact ih h
  | case3 _ _ _ _ _ _ _ _ ih => exact ih h
  | case4 _ _ _ _ _ _ _ _ ih =>
    rcases List.mem_cons.1 h with rfl | h
    · exact ⟨_, _, rfl⟩
    · exact ih h
  | case5 _ _ _ _ _ _ ih => exact ih h

end Compilation

/-! ### Trees and modules -/

/-- A tree that a source was parsed to. -/
def SyntaxTree.IsParsed (tree : SyntaxTree) : Prop :=
  ∃ version s, tree = SyntaxTree.parse version s

/-- Names have no marks, whether they are missing or not. -/
theorem SyntaxTree.IsParsed.unmarked {tree : SyntaxTree} (h : tree.IsParsed)
    {t : TypeSymbol Nat} (ht : t ∈ tree.types) : TypeSymbol.Unmarked t.name := by
  obtain ⟨version, s, rfl⟩ := h
  rcases SyntaxTree.isIdentifier_or_missing ht with hn | ⟨hn, -⟩
  · exact ⟨Name.not_mem_of_isIdentifier hn (by decide), Name.not_mem_of_isIdentifier hn (by decide)⟩
  · rw [hn]
    exact ⟨List.not_mem_nil, List.not_mem_nil⟩

/-- No two types of a module are taken for each other. -/
structure Module.ToldApart (m : Module) : Prop where
  /-- Types of one name are parts of one type. -/
  parts : m.types.Pairwise TypeSymbol.Agree
  injective : ∀ t ∈ m.types, ∀ u ∈ m.types, t.fullName = u.fullName ↔ t.key = u.key
  /-- Under the name of a type one with its key is found. -/
  found : ∀ t ∈ m.types, ∃ u, m.findType t.fullName = some u ∧ u.key = t.key

namespace Compilation

/-- A compilation reports what is declared twice. -/
structure ReportsRepeated (c : Compilation) : Prop where
  /-- Types stand in the order of their sources. -/
  ordered : ∀ tree ∈ c.trees, tree.types.Pairwise fun t u => t.place ≤ u.place
  /-- Exactly the declarations that repeat others are reported, in their order. -/
  reported : ∃ ds, c.declare = c.report ds ∧ ds.filter (·.code == "CS0101")
    = (repeated c.declarations).map fun d => duplicate d.1 d.2
  injective : ∀ t ∈ c.types, ∀ u ∈ c.types, t.fullName = u.fullName ↔ t.key = u.key

theorem reportsRepeated {c : Compilation} (h : ∀ tree ∈ c.trees, tree.IsParsed) :
    c.ReportsRepeated := by
  have hunmarked : ∀ t ∈ c.types, TypeSymbol.Unmarked t.name := fun t ht => by
    obtain ⟨tree, htree, ht⟩ := List.mem_flatMap.1 ht
    exact (h tree htree).unmarked ht
  refine ⟨fun tree htree => ?_, ⟨c.checks, rfl, ?_⟩,
    fun t ht u hu => TypeSymbol.fullName_eq_iff (hunmarked t ht) (hunmarked u hu)⟩
  · obtain ⟨version, s, rfl⟩ := h tree htree
    exact SyntaxTree.pairwise_types version s
  · have hdeclared : ∀ d ∈ c.declarations, TypeSymbol.Unmarked d.2.name := fun d hd =>
      hunmarked d.2 (by rw [types_eq_map_declarations]; exact List.mem_map_of_mem hd)
    have hall : ((repeated c.declarations).map fun d => duplicate d.1 d.2).filter
        (·.code == "CS0101") = (repeated c.declarations).map fun d => duplicate d.1 d.2 :=
      List.filter_eq_self.2 fun d hd => by
        obtain ⟨_, -, rfl⟩ := List.mem_map.1 hd
        rfl
    have hentry : (if c.lacksEntryPoint then [noEntryPoint] else []).filter (·.code == "CS0101")
        = [] := by cases c.lacksEntryPoint <;> rfl
    rw [checks, List.filter_append, hentry, List.append_nil, duplicates_eq_map_repeated hdeclared,
      hall]

section

variable {σ : Type} {disk : Disk (StateM σ)} {finder : Finder (StateM σ)} {profile : Profile}
  {sources : List String} {output : Option Path} {s : σ} {m : Module}

/-- A module that a run of all phases makes is what the phases before the last come to, without
an error. -/
theorem exists_described
    (h : ((start profile sources output).runAll disk finder Phase.all s).1.module = some m) :
    ∃ r, ((start profile sources output).checked r).hasErrors = false ∧
      m = ((start profile sources output).checked r).described := by
  rw [runAll_apply] at h
  refine ⟨(References.resolve finder profile.references profile.anchors s).1, ?_⟩
  rcases emit_cases disk ((start profile sources output).checked _) _ with
    ⟨-, hemit⟩ | ⟨he, hemit⟩ | ⟨p, e, -, hemit⟩
  · rw [hemit] at h
    cases h
  · rw [hemit] at h
    exact ⟨he, (Option.some.inj h).symm⟩
  · rw [hemit] at h
    cases h

/-- **Types with one name are parts of one type** in every module that is made. -/
theorem toldApart_described {r : References}
    (h : ((start profile sources output).checked r).hasErrors = false) :
    ((start profile sources output).checked r).described.ToldApart := by
  set c := (start profile sources output).parse.refer r
  have hparsed : ∀ tree ∈ c.trees, tree.IsParsed ∧ tree.hasErrors = false := by
    rw [hasErrors_checked] at h
    simp only [Bool.or_eq_false_iff] at h
    intro tree htree
    refine ⟨?_, Bool.eq_false_iff.2 (List.any_eq_false.1 h.1.1.2 tree htree)⟩
    obtain ⟨i, hi, rfl⟩ := List.mem_mapIdx.1 htree
    exact ⟨_, _, rfl⟩
  have hchecks : c.checks.any (·.isError) = false := by
    rw [hasErrors_checked, Bool.or_eq_false_iff] at h
    exact h.2
  have hnamed : named c.types = c.types := List.filter_eq_self.2 fun t ht => by
    obtain ⟨tree, htree, ht⟩ := List.mem_flatMap.1 ht
    obtain ⟨⟨version, s, rfl⟩, he⟩ := hparsed tree htree
    have hname := SyntaxTree.isIdentifier_of_hasErrors ht he
    exact decide_eq_true fun hempty => by rw [hempty] at hname; cases hname
  have hagree := ((checks_any_isError c).1 hchecks).1
  rw [hnamed] at hagree
  have hinjective := (reportsRepeated fun tree htree => (hparsed tree htree).1).injective
  refine ⟨hagree, hinjective, fun t ht => ?_⟩
  have hsome : (c.types.find? (·.fullName = t.fullName)).isSome = true :=
    List.find?_isSome.2 ⟨t, ht, by simp⟩
  obtain ⟨u, hu⟩ := Option.isSome_iff_exists.1 hsome
  have hname : u.fullName = t.fullName := by simpa using List.find?_some hu
  exact ⟨u, hu, (hinjective u (List.mem_of_find?_eq_some hu) t ht).1 hname⟩

end

/-- **What is declared twice is reported exactly.**  Of parsed trees, whatever their number and
errors, one diagnostic is reported for each declaration that repeats one before it, and no other.
Full names tell the keys of their types.  So in a module that all phases make of sources, types
with one name are parts of one type, and under the name of a type one with its key is found. -/
theorem repeated_reported {σ : Type} (c : Compilation) (hc : ∀ tree ∈ c.trees, tree.IsParsed)
    (disk : Disk (StateM σ)) (finder : Finder (StateM σ)) (profile : Profile)
    (sources : List String) (output : Option Path) (s : σ) :
    c.ReportsRepeated ∧ ∀ m,
      ((start profile sources output).runAll disk finder Phase.all s).1.module = some m →
        m.ToldApart := by
  refine ⟨reportsRepeated hc, fun m hm => ?_⟩
  obtain ⟨r, he, rfl⟩ := exists_described hm
  exact toldApart_described he

/-- Three parts of a type, one of which is not partial, and a generic type with its name: what
is not partial is reported, and without it the module has two parts and the generic type. -/
theorem repeated_reported_parts :
    let texts := ["namespace N \x7b partial class A; class A; class A<T>; \x7d",
      "namespace N; partial class A;"]
    let c := (start {} texts none).parse
    let sources := ["partial class A;", "class A<T>; partial class A;"]
    let disk := FileTree.disk
    let finder := Finder.byName FileTree.disk
    (∀ tree ∈ c.trees, tree.IsParsed) ∧ (∃ m, ((start {} sources none).runAll disk finder Phase.all
        ({} : FileTree)).1.module = some m) ∧
      (repeated c.declarations).length = 1 ∧ c.ReportsRepeated ∧ ∀ m,
        ((start {} sources none).runAll disk finder Phase.all ({} : FileTree)).1.module = some m →
          m.ToldApart := by
  intro texts c sources disk finder
  have hc : ∀ tree ∈ c.trees, tree.IsParsed := fun tree h => by
    obtain ⟨i, hi, rfl⟩ := List.mem_mapIdx.1 h
    exact ⟨_, _, rfl⟩
  have hm : (((start {} sources none).runAll disk finder Phase.all ({} : FileTree)).1.module).isSome
      = true := by decide +kernel
  exact ⟨hc, Option.isSome_iff_exists.1 hm, by decide +kernel,
    repeated_reported c hc disk finder {} sources none {}⟩

end Compilation
end Outline
