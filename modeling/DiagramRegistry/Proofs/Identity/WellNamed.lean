import DiagramRegistry.Proofs.Reference.OwnPath
import DiagramRegistry.Proofs.Repository.Places

/-
# Well-named keys

A key is well named when it obeys the rule of its location: an identifier as name, a version at
staging and production, none at nested.  Location and stem fix such a key, whatever hyphens there
are in its name.  This is not because a stem is split into name and version where they were joined,
which it is not if the name has a hyphen before a digit: but names have no dots, and in front of the
first dot of a version there are only digits, so the joining hyphen is the last one before the
first dot.

* `Key.isSafe_of_isWellNamed`: no well-named key leads out of its directory;
* `Key.eq_of_stem`: location and stem fix a well-named key.
-/
namespace DiagramRegistry

/-- In front of the first dot of a version are digits. -/
lemma exists_dot_of_isVersion {version : String} (h : isVersion version = true) :
    ∃ digits rest, version.toList = digits ++ '.' :: rest ∧ ∀ c ∈ digits, c.isDigit = true := by
  obtain ⟨v, hv⟩ := Option.isSome_iff_exists.1 h
  simp only [Version.parse?, Version.ofChars?, Option.bind_eq_bind, Option.bind_eq_some_iff] at hv
  obtain ⟨⟨major, rest⟩, hmajor, -⟩ := hv
  unfold Version.numberThenDot? at hmajor
  split at hmajor
  · rename_i n rest' hnumber
    obtain ⟨_, -, hpair⟩ := Option.map_eq_some_iff.1 hnumber
    refine ⟨version.toList.takeWhile Char.isDigit, rest', ?_, fun c => List.mem_takeWhile_imp⟩
    rw [← (Prod.mk.inj hpair).2, List.takeWhile_append_dropWhile]
  · exact absurd hmajor (by simp)

namespace Key

variable {j k : Key} {l : Location}

section
variable (h : k.isWellNamed = true)
include h

/-! ## Names, versions and stems -/

lemma isIdentifier_name : isIdentifier k.name = true := by
  rw [isWellNamed, Bool.and_eq_true] at h
  exact h.1

lemma isVersion_version (hl : k.location ≠ .nested) : isVersion k.version = true := by
  rw [isWellNamed, Bool.and_eq_true] at h
  cases hk : k.location with
  | nested => exact absurd hk hl
  | staging => simpa [hk] using h.2
  | production => simpa [hk] using h.2

lemma version_eq_empty (hl : k.location = .nested) : k.version = "" := by
  rw [isWellNamed, Bool.and_eq_true] at h
  simpa [hl] using h.2

lemma stem_eq_name (hl : k.location = .nested) : k.stem = k.name := by
  rw [stem, version_eq_empty h hl, Stem.join_empty]

lemma stem_ne_empty_of_isWellNamed : k.stem ≠ "" :=
  stem_ne_empty (ne_empty_of_isIdentifier (isIdentifier_name h))

/-- A draft and its product are both well named or both not. -/
lemma isWellNamed_relocate (hk : k.location ≠ .nested) (hl : l ≠ .nested) :
    (k.relocate l).isWellNamed = true := by
  have hversion := isVersion_version h hk
  have hname := isIdentifier_name h
  cases l with
  | nested => exact absurd rfl hl
  | staging => simp [isWellNamed, Key.relocate, hname, hversion]
  | production => simp [isWellNamed, Key.relocate, hname, hversion]

/-- The stem has only characters of stems. -/
lemma isChar_stem : ∀ c ∈ k.stem.toList, Stem.isChar c = true := by
  by_cases hl : k.location = .nested
  · intro c hc
    rw [stem_eq_name h hl] at hc
    rw [Stem.isChar, isNameChar_of_isIdentifier (isIdentifier_name h) c hc, Bool.true_or]
  · exact Stem.isChar_of_mem_join (isIdentifier_name h) (isVersion_version h hl)

lemma not_mem_stem {c : Char} (hc : Stem.isChar c = false) : c ∉ k.stem.toList := fun hmem => by
  rw [isChar_stem h c hmem] at hc
  exact absurd hc (by simp)

lemma not_mem_name {c : Char} (hc : isNameChar c = false) : c ∉ k.name.toList := fun hmem => by
  rw [isNameChar_of_isIdentifier (isIdentifier_name h) c hmem] at hc
  exact absurd hc (by simp)

/-- What begins with a digit is no dots. -/
lemma isSafe_of_isWellNamed : k.IsSafe := by
  refine ⟨⟨not_mem_name h (by decide), not_mem_name h (by decide), ?_, ?_⟩, ?_⟩
  · exact fun he => not_mem_name h (c := '.') (by decide) (by rw [he]; decide)
  · exact fun he => not_mem_name h (c := '.') (by decide) (by rw [he]; decide)
  · by_cases hl : k.location = .nested
    · rw [version_eq_empty h hl]
      decide
    · have hversion := isVersion_version h hl
      have hchar {c : Char} (hc : Version.isChar c = false) : c ∉ k.version.toList := fun hmem => by
        rw [isChar_of_isVersion hversion c hmem] at hc
        exact absurd hc (by simp)
      obtain ⟨digit, rest, hdigits, hdigit⟩ := exists_digit_of_isVersion hversion
      refine ⟨hchar (by decide), hchar (by decide), ?_, ?_⟩ <;> intro he
      · rw [he] at hdigits
        rw [← (List.cons.inj hdigits).1] at hdigit
        exact absurd hdigit (by decide)
      · rw [he] at hdigits
        rw [← (List.cons.inj hdigits).1] at hdigit
        exact absurd hdigit (by decide)

/-- The characters of the stem of a versioned diagram. -/
lemma toList_stem (hl : k.location ≠ .nested) :
    k.stem.toList = k.name.toList ++ '-' :: k.version.toList :=
  Stem.toList_join (ne_empty_of_isVersion (isVersion_version h hl))

/-! ## What location and stem tell -/

/-- The name ends at the last hyphen before the first dot. -/
lemma exists_cutAtLast? (hl : k.location ≠ .nested) :
    ∃ digits, Text.cutAtLast? '-' (k.stem.toList.takeWhile (· ≠ '.')) =
      some (k.name.toList, digits) := by
  obtain ⟨digits, rest, hversion, hdigits⟩ := exists_dot_of_isVersion (isVersion_version h hl)
  have hnot (c : Char) (hc : c.isDigit = false) : c ∉ digits := fun hmem => by
    rw [hdigits c hmem] at hc
    exact absurd hc (by simp)
  have hbefore : ∀ c ∈ k.name.toList ++ '-' :: digits, decide (c ≠ '.') = true := by
    intro c hc
    rw [decide_eq_true_iff]
    rintro rfl
    rw [List.mem_append, List.mem_cons] at hc
    rcases hc with hc | hc | hc
    · exact not_mem_name h (by decide) hc
    · exact absurd hc (by decide)
    · exact hnot '.' (by decide) hc
  refine ⟨digits, ?_⟩
  rw [toList_stem h hl, hversion, ← List.cons_append, ← List.append_assoc,
    List.takeWhile_append_of_pos hbefore, List.takeWhile_cons_of_neg (by simp), List.append_nil,
    Path.cutAtLast?_append_cons (hnot '-' (by decide))]

end

/-- Location and stem fix a well-named key. -/
theorem eq_of_stem (hj : j.isWellNamed = true) (hk : k.isWellNamed = true)
    (hl : j.location = k.location) (hs : j.stem = k.stem) : j = k := by
  have hparts : j.name = k.name ∧ j.version = k.version := by
    by_cases hnested : k.location = .nested
    · rw [stem_eq_name hj (hl.trans hnested), stem_eq_name hk hnested] at hs
      exact ⟨hs, (version_eq_empty hj (hl.trans hnested)).trans (version_eq_empty hk hnested).symm⟩
    · have hnested' : j.location ≠ .nested := by rwa [hl]
      obtain ⟨digits, hcut⟩ := exists_cutAtLast? hj hnested'
      obtain ⟨digits', hcut'⟩ := exists_cutAtLast? hk hnested
      rw [hs, hcut', Option.some.injEq, Prod.mk.injEq] at hcut
      have hname : j.name = k.name := String.toList_inj.1 hcut.1.symm
      have hstem := congrArg String.toList hs
      rw [toList_stem hj hnested', toList_stem hk hnested, hname,
        List.append_cancel_left_eq] at hstem
      exact ⟨hname, String.toList_inj.1 (List.cons.inj hstem).2⟩
  obtain ⟨jname, jversion, jlocation⟩ := j
  obtain ⟨kname, kversion, klocation⟩ := k
  simp only at hl hparts
  rw [hl, hparts.1, hparts.2]

end Key

end DiagramRegistry
