import DiagramRegistry.Proofs.Identity.Storable
import DiagramRegistry.Proofs.Validation.Appending

/-
# Keys that a stem tells apart

A store in memory knows a diagram by its key, a store on disk by the location and the stem of
the key, and its listings read the key off the stem.  For the keys of this file it makes no
difference: they can be stored, and their names have no hyphen before a digit.  The keys to which
references lead need not be of this kind, but no such key is mistaken for one.

* `Key.IsAdmissible.split?_stem`: the key is read off its stem;
* `eq_of_mem_targetsOf`: location and stem fix an admissible key among the targets of references.
-/
namespace DiagramRegistry

/-! ## Admissible keys -/

/-- The key obeys the rule of its location, and location and stem are enough to know it. -/
structure Key.IsAdmissible (k : Key) : Prop where
  /-- The key obeys the rule of its location. -/
  wellNamed : k.isWellNamed = true
  /-- The name of a versioned diagram has no hyphen before a digit. -/
  hyphens : k.location ≠ .nested → ¬ Stem.HyphenBeforeDigit k.name.toList
  /-- With the extension the stem is still the name of a file. -/
  short : k.stem.utf8ByteSize ≤ 250

instance (k : Key) : Decidable k.IsAdmissible :=
  decidable_of_iff (k.isWellNamed = true ∧
      (k.location ≠ .nested → ¬ Stem.HyphenBeforeDigit k.name.toList) ∧ k.stem.utf8ByteSize ≤ 250)
    ⟨fun ⟨hnamed, hhyphens, hshort⟩ => ⟨hnamed, hhyphens, hshort⟩,
      fun h => ⟨h.wellNamed, h.hyphens, h.short⟩⟩

namespace Key.IsAdmissible

variable {k : Key} {l : Location}

lemma isStorable (h : k.IsAdmissible) : k.IsStorable := ⟨h.wellNamed, h.short⟩

/-- A draft and its product are both admissible or both not. -/
lemma relocate (h : k.IsAdmissible) (hk : k.location ≠ .nested) (hl : l ≠ .nested) :
    (k.relocate l).IsAdmissible :=
  ⟨(h.isStorable.relocate hk hl).wellNamed, fun _ => h.hyphens hk, h.short⟩

/-- The stem of a versioned diagram splits into its name and version. -/
lemma split?_stem (h : k.IsAdmissible) (hl : k.location ≠ .nested) :
    Stem.split? k.stem = some (k.name, k.version) :=
  (Stem.split?_join_iff (isIdentifier_name h.wellNamed) (isVersion_version h.wellNamed hl)).2
    (h.hyphens hl)

end Key.IsAdmissible

/-! ## The targets of references -/

namespace Include

/-- A reference is made of a stem: a product reference has the name and the version into
which the stem splits, a nested reference has the stem for a name. -/
inductive IsMadeOf (stem : List Char) (r : Reference) : Prop where
  /-- A product reference. -/
  | product (hkind : r.kind = .product)
      (hsplit : (Stem.splitChars? stem).getD (stem, []) = (r.name.toList, r.version.toList))
  /-- A nested reference. -/
  | nested (hkind : r.kind = .nested) (hname : r.name.toList = stem) (hversion : r.version = "")

lemma exists_stem_of_reference? {path : List Char} {line : Nat} {r : Reference}
    (h : reference? path line = some r) :
    ∃ stem, '/' ∉ stem ∧ stem ⊆ path ∧ IsMadeOf stem r := by
  unfold reference? at h
  split at h
  · exact absurd h (by simp)
  · rename_i place stem haddressed
    -- the stem stands between slashes
    have hmem : stem ∈ path.splitOn '/' := by
      obtain ⟨-, hsegments⟩ := addressed?_eq_some_iff.1 haddressed
      rw [hsegments]
      simp
    have hsub : stem ⊆ path := by
      have hpath : ['/'].intercalate (path.splitOn '/') = path := List.intercalate_splitOn '/'
      have hsublist := Path.intercalate_sublist ['/'] (List.singleton_sublist.2 hmem)
      rw [hpath] at hsublist
      simpa using hsublist.subset
    refine ⟨stem, Path.not_mem_of_mem_splitOn hmem, hsub, ?_⟩
    split at h
    · generalize hparts : (Stem.splitChars? stem).getD (stem, []) = parts at h
      obtain rfl := Option.some.inj h
      exact .product rfl (by simp [hparts])
    · split at h
      · obtain rfl := Option.some.inj h
        exact .nested rfl (by simp) rfl
      · exact absurd h (by simp)

/-- A path is declared with slashes only. -/
lemma not_mem_declaredPath (argument : List Char) : '\\' ∉ declaredPath argument := by
  intro hmem
  obtain ⟨c, -, hc⟩ := List.mem_map.1 hmem
  split at hc
  · exact absurd hc (by decide)
  · contradiction

/-- Every reference of a document is read off the path that a directive declares. -/
lemma exists_argument_of_mem {content : String} {r : Reference} (h : r ∈ referencesOf content) :
    ∃ argument line, reference? (declaredPath argument) line = some r := by
  unfold referencesOf at h
  cases hread : includes content with
  | error fault => simp [hread, Except.toOption] at h
  | ok rs =>
    obtain rfl := eq_of_includes_eq_ok hread
    rw [hread] at h
    obtain ⟨l, -, hl⟩ := List.mem_filterMap.1 ((firstOccurrences_sublist _ _).subset h)
    obtain ⟨argument, -, hreference⟩ := Option.bind_eq_some_iff.1 hl
    exact ⟨argument, l.2, hreference⟩

/-- Every reference of a document is made of a stem without separators. -/
lemma exists_stem_of_mem {content : String} {r : Reference} (h : r ∈ referencesOf content) :
    ∃ stem, '/' ∉ stem ∧ '\\' ∉ stem ∧ IsMadeOf stem r := by
  obtain ⟨argument, line, hreference⟩ := exists_argument_of_mem h
  obtain ⟨stem, hslash, hsub, hmade⟩ := exists_stem_of_reference? hreference
  exact ⟨stem, hslash, fun hmem => not_mem_declaredPath argument (hsub hmem), hmade⟩

/-- The name and the version of a reference have only characters of its stem. -/
lemma IsMadeOf.subset {stem : List Char} {r : Reference} (h : IsMadeOf stem r) :
    r.name.toList ⊆ stem ∧ r.version.toList ⊆ stem := by
  cases h with
  | nested hkind hname hversion => exact ⟨hname ▸ List.Subset.refl _, by simp [hversion]⟩
  | product hkind hsplit =>
    cases hparts : Stem.splitChars? stem with
    | none =>
      rw [hparts, Option.getD_none, Prod.mk.injEq] at hsplit
      rw [← hsplit.1, ← hsplit.2]
      exact ⟨List.Subset.refl _, List.nil_subset _⟩
    | some p =>
      rw [hparts, Option.getD_some] at hsplit
      rw [hsplit] at hparts
      rw [(Stem.eq_of_splitChars? hparts).1]
      exact ⟨List.subset_append_left _ _, fun c hc => by simp [hc]⟩

end Include

/-- No reference of the document is named by dots, or has dots for a version. -/
def HasPlainReferences (content : String) : Prop :=
  ∀ r ∈ referencesOf content, r.name ≠ "." ∧ r.name ≠ ".." ∧ r.version ≠ "." ∧ r.version ≠ ".."

instance (content : String) : Decidable (HasPlainReferences content) := by
  unfold HasPlainReferences
  infer_instance

variable {content : String} {t k : Key}

/-- A target comes from a reference that is made of a stem. -/
lemma exists_reference_of_mem_targetsOf (h : t ∈ targetsOf content) :
    ∃ r ∈ referencesOf content, ∃ stem, '/' ∉ stem ∧ '\\' ∉ stem ∧ Include.IsMadeOf stem r ∧
      r.target = some t := by
  rw [targetsOf_eq] at h
  obtain ⟨r, hr, htarget⟩ := List.mem_filterMap.1 h
  obtain ⟨stem, hslash, hback, hmade⟩ := Include.exists_stem_of_mem hr
  exact ⟨r, hr, stem, hslash, hback, hmade, htarget⟩

/-- Stores look for the targets of references in their own directories only. -/
lemma isSafe_of_mem_targetsOf (hcontent : HasPlainReferences content) (h : t ∈ targetsOf content) :
    t.IsSafe := by
  obtain ⟨r, hr, stem, hslash, hback, hmade, htarget⟩ := exists_reference_of_mem_targetsOf h
  obtain ⟨hname, hversion⟩ := hmade.subset
  obtain ⟨hn, hn', hv, hv'⟩ := hcontent r hr
  have hsafe : (Key.production r.name r.version).IsSafe :=
    ⟨⟨fun hmem => hslash (hname hmem), fun hmem => hback (hname hmem), hn, hn'⟩,
      fun hmem => hslash (hversion hmem), fun hmem => hback (hversion hmem), hv, hv'⟩
  cases hmade with
  | product hkind hsplit =>
    rw [Reference.target, hkind] at htarget
    rw [← Option.some.inj htarget]
    exact hsafe
  | nested hkind hstem hempty =>
    rw [Reference.target, hkind] at htarget
    rw [← Option.some.inj htarget]
    exact ⟨hsafe.name, by simp [Key.nested]⟩

/-- A target with the location and the stem of an admissible key is this key. -/
theorem eq_of_mem_targetsOf (h : t ∈ targetsOf content) (hk : k.IsAdmissible)
    (hl : t.location = k.location) (hs : t.stem = k.stem) : t = k := by
  obtain ⟨r, hr, stem, -, -, hmade, htarget⟩ := exists_reference_of_mem_targetsOf h
  obtain ⟨name, version, location⟩ := k
  cases hmade with
  | nested hkind hstem hempty =>
    rw [Reference.target, hkind] at htarget
    obtain rfl := Option.some.inj htarget
    obtain rfl : Location.nested = location := hl
    have hname : r.name = name := by
      rw [← show Key.stem ⟨name, version, .nested⟩ = name from Key.stem_eq_name hk.wellNamed rfl, ← hs]
      exact Stem.join_empty.symm
    rw [Key.nested, hname, show version = "" from Key.version_eq_empty hk.wellNamed rfl]
  | product hkind hsplit =>
    rw [Reference.target, hkind] at htarget
    obtain rfl := Option.some.inj htarget
    obtain rfl : Location.production = location := hl
    have hkey := hk.split?_stem (by simp)
    rw [← hs, Stem.split?_eq_some_iff] at hkey
    change Stem.splitChars? (Stem.join r.name r.version).toList =
      some (name.toList, version.toList) at hkey
    by_cases hempty : r.version = ""
    · -- without a version the name would be the stem of the key, which splits further
      exfalso
      rw [hempty, Stem.join_empty] at hkey
      cases hparts : Stem.splitChars? stem with
      | none =>
        rw [hparts, Option.getD_none, Prod.mk.injEq] at hsplit
        rw [← hsplit.1, hparts] at hkey
        exact absurd hkey (by simp)
      | some p =>
        rw [hparts, Option.getD_some] at hsplit
        rw [hsplit] at hparts
        obtain ⟨digit, rest, hdigits, hdigit⟩ :=
          exists_digit_of_isVersion (Key.isVersion_version hk.wellNamed (by simp))
        refine (Stem.eq_of_splitChars? hparts).2.2 ⟨name.toList, digit, rest, ?_, hdigit⟩
        rw [(Stem.eq_of_splitChars? hkey).1, hdigits]
    · have hparts : Stem.splitChars? stem = some (r.name.toList, r.version.toList) := by
        cases hparts : Stem.splitChars? stem with
        | none =>
          rw [hparts, Option.getD_none, Prod.mk.injEq] at hsplit
          exact absurd (String.toList_inj.1 (by simp [← hsplit.2])) hempty
        | some p => rw [← hsplit, hparts, Option.getD_some]
      rw [Stem.toList_join hempty, ← (Stem.eq_of_splitChars? hparts).1, hparts, Option.some.injEq,
        Prod.mk.injEq] at hkey
      rw [Key.production, String.toList_inj.1 hkey.1, String.toList_inj.1 hkey.2]

end DiagramRegistry
