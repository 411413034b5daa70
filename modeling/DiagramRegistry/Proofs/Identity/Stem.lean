import DiagramRegistry.Identity.Key
import Mathlib.Data.List.TakeWhile
import Mathlib.Tactic.Common

/-
# What survives in a stem

A stem is cut at the first hyphen that a digit follows.  Versions begin with a digit, so the
cut comes at the right place unless the name has such a hyphen of its own: then it comes too
early, and a part of the name ends up in front of the version.

* `Stem.split?_join_iff`: name and version come back exactly when the name has no such hyphen;
* `Stem.not_hyphenBeforeDigit_of_split?`: no stem at all splits into a name that has one.
-/
namespace DiagramRegistry

/-! ## Identifiers and versions as texts -/

/-- The characters of an identifier. -/
lemma isNameChar_of_isIdentifier {name : String} (h : isIdentifier name = true) :
    ∀ c ∈ name.toList, isNameChar c = true := by
  unfold isIdentifier at h
  cases hname : name.toList with
  | nil => simp [hname, identifierChars] at h
  | cons c cs =>
    rw [hname, identifierChars, Bool.and_eq_true, List.all_eq_true] at h
    have hstart : isNameChar c = true := by
      have := h.1
      simp only [isNameStart, isNameChar, Char.isAlphanum, Bool.or_eq_true] at this ⊢
      tauto
    intro d hd
    rcases List.mem_cons.1 hd with rfl | hd
    · exact hstart
    · exact h.2 d hd

lemma ne_empty_of_isIdentifier {name : String} (h : isIdentifier name = true) : name ≠ "" := by
  rintro rfl
  exact absurd h (by decide)

lemma ne_hyphen_of_isIdentifier {name : String} (h : isIdentifier name = true) {c : Char}
    {cs : List Char} (hname : name.toList = c :: cs) : c ≠ '-' := by
  rw [isIdentifier, hname, identifierChars, Bool.and_eq_true] at h
  rintro rfl
  exact absurd h.1 (by decide)

namespace Version

/-- The characters of a version. -/
def isChar (c : Char) : Bool := c.isAlphanum || c == '-' || c == '.'

/-- What is in front of the rest are digits. -/
lemma mem_of_leadingNumber? {cs rest : List Char} {n : Nat} {c : Char}
    (h : leadingNumber? cs = some (n, rest)) (hc : c ∈ cs) : isChar c = true ∨ c ∈ rest := by
  obtain ⟨_, -, hpair⟩ := Option.map_eq_some_iff.1 h
  rw [← List.takeWhile_append_dropWhile (p := Char.isDigit) (l := cs), (Prod.mk.inj hpair).2,
    List.mem_append] at hc
  exact hc.imp_left fun hc => by simp [isChar, Char.isAlphanum, List.mem_takeWhile_imp hc]

lemma mem_of_numberThenDot? {cs rest : List Char} {n : Nat} {c : Char}
    (h : numberThenDot? cs = some (n, rest)) (hc : c ∈ cs) : isChar c = true ∨ c ∈ rest := by
  unfold numberThenDot? at h
  split at h
  · rename_i n' rest' hnumber
    obtain ⟨-, rfl⟩ := Prod.mk.inj (Option.some.inj h)
    rcases mem_of_leadingNumber? hnumber hc with hc | hc
    · exact .inl hc
    · rcases List.mem_cons.1 hc with rfl | hc
      · exact .inl (by decide)
      · exact .inr hc
  · exact absurd h (by simp)

/-- A character of a text is the one at which the text is split, or lies in a part. -/
lemma exists_mem_splitOn {cs : List Char} {c x : Char} (hc : c ∈ cs) :
    c = x ∨ ∃ part ∈ cs.splitOn x, c ∈ part := by
  induction cs with
  | nil => simp at hc
  | cons d cs ih =>
    rw [List.splitOn_cons_eq_if_modifyHead]
    obtain ⟨first, rest, hsplit⟩ :=
      List.exists_cons_of_ne_nil (List.splitOn_ne_nil x cs)
    rw [hsplit] at ih ⊢
    rw [List.modifyHead_cons]
    by_cases hd : d = x
    · rw [if_pos (by simp [hd])]
      rcases List.mem_cons.1 hc with rfl | hc
      · exact .inl hd
      · exact (ih hc).imp_right fun ⟨part, hpart, hmem⟩ =>
          ⟨part, List.mem_cons_of_mem _ hpart, hmem⟩
    · rw [if_neg (by simp [hd])]
      rcases List.mem_cons.1 hc with rfl | hc
      · exact .inr ⟨_, List.mem_cons_self, List.mem_cons_self⟩
      · rcases ih hc with rfl | ⟨part, hpart, hmem⟩
        · exact .inl rfl
        · rcases List.mem_cons.1 hpart with rfl | hpart
          · exact .inr ⟨_, List.mem_cons_self, List.mem_cons_of_mem _ hmem⟩
          · exact .inr ⟨part, List.mem_cons_of_mem _ hpart, hmem⟩

lemma mem_of_prerelease? {cs : List Char} {text : String} {c : Char}
    (h : prerelease? cs = some text) (hc : c ∈ cs) : isChar c = true := by
  cases cs with
  | nil => exact absurd hc (by simp)
  | cons hyphen cs =>
    rw [prerelease?] at h
    split at h
    · rename_i hpre
      rcases List.mem_cons.1 hc with rfl | hc
      · rw [hpre.1]
        decide
      · rcases exists_mem_splitOn (x := '.') hc with rfl | ⟨part, hpart, hmem⟩
        · decide
        · have hall := List.all_eq_true.1 hpre.2 part hpart
          simp only [isPrereleasePart, Bool.and_eq_true, List.all_eq_true] at hall
          rw [isChar, hall.1.2 c hmem, Bool.true_or]
    · exact absurd h (by simp)

lemma exists_digit_of_ofChars? {cs : List Char} {v : Version} (h : ofChars? cs = some v) :
    ∃ digit rest, cs = digit :: rest ∧ digit.isDigit = true := by
  cases cs with
  | nil => exact absurd h (by simp [ofChars?, numberThenDot?, leadingNumber?, number?])
  | cons c rest =>
    refine ⟨c, rest, rfl, ?_⟩
    by_contra hc
    exact absurd h (by simp [ofChars?, numberThenDot?, leadingNumber?, number?, hc])

end Version

/-- The characters of a version. -/
lemma isChar_of_isVersion {version : String} (h : isVersion version = true) :
    ∀ c ∈ version.toList, Version.isChar c = true := by
  intro c hc
  obtain ⟨v, hv⟩ := Option.isSome_iff_exists.1 h
  simp only [Version.parse?, Version.ofChars?, Option.bind_eq_bind, Option.bind_eq_some_iff] at hv
  obtain ⟨⟨major, minor?⟩, hmajor, ⟨minor, patch?⟩, hminor, ⟨patch, rest⟩, hpatch, pre, hpre, -⟩ :=
    hv
  rcases Version.mem_of_numberThenDot? hmajor hc with hc | hc
  · exact hc
  rcases Version.mem_of_numberThenDot? hminor hc with hc | hc
  · exact hc
  rcases Version.mem_of_leadingNumber? hpatch hc with hc | hc
  · exact hc
  · exact Version.mem_of_prerelease? hpre hc

/-- A version begins with a digit. -/
lemma exists_digit_of_isVersion {version : String} (h : isVersion version = true) :
    ∃ digit rest, version.toList = digit :: rest ∧ digit.isDigit = true := by
  obtain ⟨v, hv⟩ := Option.isSome_iff_exists.1 h
  exact Version.exists_digit_of_ofChars? hv

lemma ne_empty_of_isVersion {version : String} (h : isVersion version = true) :
    version ≠ "" := by
  rintro rfl
  exact absurd h (by decide)

namespace Stem

/-! ## The first hyphen that a digit follows -/

/-- A text has a hyphen that a digit directly follows. -/
def HyphenBeforeDigit (cs : List Char) : Prop :=
  ∃ before digit after, cs = before ++ '-' :: digit :: after ∧ digit.isDigit = true

variable {cs a b : List Char} {c : Char} {name version stem : String}

lemma hyphenBeforeDigit_cons_iff :
    HyphenBeforeDigit (c :: cs) ↔
      (c = '-' ∧ ∃ digit after, cs = digit :: after ∧ digit.isDigit = true) ∨
        HyphenBeforeDigit cs := by
  constructor
  · rintro ⟨before, digit, after, heq, hdigit⟩
    cases before with
    | nil =>
      obtain ⟨rfl, rfl⟩ := List.cons.inj heq
      exact .inl ⟨rfl, digit, after, rfl, hdigit⟩
    | cons x before =>
      obtain ⟨-, rfl⟩ := List.cons.inj heq
      exact .inr ⟨before, digit, after, rfl, hdigit⟩
  · rintro (⟨rfl, digit, after, rfl, hdigit⟩ | ⟨before, digit, after, rfl, hdigit⟩)
    · exact ⟨[], digit, after, rfl, hdigit⟩
    · exact ⟨c :: before, digit, after, rfl, hdigit⟩

lemma HyphenBeforeDigit.append (h : HyphenBeforeDigit a) (b : List Char) :
    HyphenBeforeDigit (a ++ b) := by
  obtain ⟨before, digit, after, rfl, hdigit⟩ := h
  exact ⟨before, digit, after ++ b, by simp, hdigit⟩

/-- The test at a hyphen is whether a digit is next. -/
lemma head?_isDigit_iff :
    (cs.head?.map Char.isDigit).getD false = true ↔
      ∃ digit after, cs = digit :: after ∧ digit.isDigit = true := by
  cases cs <;> simp

lemma cutBeforeDigit?_eq_none_iff : cutBeforeDigit? cs = none ↔ ¬ HyphenBeforeDigit cs := by
  induction cs with
  | nil => simp [cutBeforeDigit?, HyphenBeforeDigit]
  | cons c cs ih =>
    rw [hyphenBeforeDigit_cons_iff, ← head?_isDigit_iff, cutBeforeDigit?]
    split
    · rename_i h
      simp [h]
    · rename_i h
      rw [Option.map_eq_none_iff, ih, or_iff_right h]

instance (cs : List Char) : Decidable (HyphenBeforeDigit cs) :=
  decidable_of_iff (cutBeforeDigit? cs ≠ none) (by rw [ne_eq, cutBeforeDigit?_eq_none_iff, not_not])

/-- The cut comes at a hyphen before a digit, and at the first one. -/
lemma cutBeforeDigit?_eq_some (h : cutBeforeDigit? cs = some (a, b)) :
    cs = a ++ '-' :: b ∧ ¬ HyphenBeforeDigit a ∧
      ∃ digit after, b = digit :: after ∧ digit.isDigit = true := by
  induction cs generalizing a with
  | nil => exact absurd h (by simp [cutBeforeDigit?])
  | cons c cs ih =>
    rw [cutBeforeDigit?] at h
    split at h
    · rename_i hc
      obtain ⟨rfl, rfl⟩ := Prod.mk.inj (Option.some.inj h)
      exact ⟨by rw [hc.1]; rfl, by simp [HyphenBeforeDigit], head?_isDigit_iff.1 hc.2⟩
    · rename_i hc
      obtain ⟨⟨a', b'⟩, hcut, heq⟩ := Option.map_eq_some_iff.1 h
      obtain ⟨rfl, rfl⟩ := Prod.mk.inj heq
      obtain ⟨rfl, ha, hb⟩ := ih hcut
      refine ⟨rfl, fun hca => ?_, hb⟩
      rcases hyphenBeforeDigit_cons_iff.1 hca with ⟨rfl, digit, after, rfl, hdigit⟩ | hca
      · exact hc ⟨rfl, by simpa using hdigit⟩
      · exact ha hca

/-- What a first part without such a hyphen is joined to begins behind the cut. -/
lemma cutBeforeDigit?_append (ha : ¬ HyphenBeforeDigit a)
    (hb : ∃ digit after, b = digit :: after ∧ digit.isDigit = true) :
    cutBeforeDigit? (a ++ '-' :: b) = some (a, b) := by
  induction a with
  | nil =>
    have hnext := head?_isDigit_iff.2 hb
    simp [cutBeforeDigit?, hnext]
  | cons c a ih =>
    have hno : ¬ (c = '-' ∧ (((a ++ '-' :: b).head?).map Char.isDigit).getD false = true) := by
      rintro ⟨rfl, hnext⟩
      -- a hyphen in the first part is followed by a character of it, or by the joining hyphen
      cases a with
      | nil => exact absurd hnext (by simp [Char.isDigit])
      | cons d a => exact ha ⟨[], d, a, rfl, by simpa using hnext⟩
    rw [hyphenBeforeDigit_cons_iff, not_or] at ha
    rw [List.cons_append, cutBeforeDigit?, if_neg hno, ih ha.2]
    rfl

/-! ## Splitting -/

/-- The characters of a stem with a version. -/
lemma toList_join (h : version ≠ "") :
    (join name version).toList = name.toList ++ '-' :: version.toList := by
  simp [join, h, toString]

lemma join_empty : join name "" = name := by simp [join]

lemma split?_eq_some_iff :
    split? stem = some (name, version) ↔
      splitChars? stem.toList = some (name.toList, version.toList) := by
  simp only [split?, Option.map_eq_some_iff, Prod.mk.injEq]
  constructor
  · rintro ⟨⟨a, b⟩, h, rfl, rfl⟩
    simpa using h
  · intro h
    exact ⟨_, h, by simp, by simp⟩

/-- The parts into which a text is cut make it up with the hyphen between them. -/
lemma eq_of_cut? (h : cut? cs = some (a, b)) : cs = a ++ '-' :: b := by
  rcases Option.or_eq_some_iff.1 h with hcut | ⟨-, hcut⟩
  · exact (cutBeforeDigit?_eq_some hcut).1
  · exact Text.cutAtLast?_append hcut

/-- The parts of a stem, with the hyphen between them, make it up; the name is not empty. -/
lemma eq_of_splitChars? (h : splitChars? cs = some (a, b)) :
    cs = a ++ '-' :: b ∧ a ≠ [] ∧ ¬ HyphenBeforeDigit a := by
  obtain ⟨hcut, hne⟩ := Option.filter_eq_some_iff.1 h
  refine ⟨eq_of_cut? hcut, by simpa using hne, ?_⟩
  rcases Option.or_eq_some_iff.1 hcut with hcut | ⟨hnone, hcut⟩
  · exact (cutBeforeDigit?_eq_some hcut).2.1
  · intro ha
    refine cutBeforeDigit?_eq_none_iff.1 hnone ?_
    rw [Text.cutAtLast?_append hcut]
    exact ha.append _

/-- Different stems split into different parts. -/
lemma eq_of_split? {stem' : String} {parts : String × String} (h : split? stem = some parts)
    (h' : split? stem' = some parts) : stem = stem' := by
  obtain ⟨name, version⟩ := parts
  have hstem := (eq_of_splitChars? (split?_eq_some_iff.1 h)).1
  have hstem' := (eq_of_splitChars? (split?_eq_some_iff.1 h')).1
  exact String.toList_inj.1 (hstem.trans hstem'.symm)

/-- A name that a stem splits into has no hyphen before a digit. -/
theorem not_hyphenBeforeDigit_of_split? (h : split? stem = some (name, version)) :
    ¬ HyphenBeforeDigit name.toList :=
  (eq_of_splitChars? (split?_eq_some_iff.1 h)).2.2

/-- A name without a hyphen before a digit and a version that begins with a digit come back. -/
lemma splitChars?_append (ha : a ≠ []) (hno : ¬ HyphenBeforeDigit a)
    (hb : ∃ digit after, b = digit :: after ∧ digit.isDigit = true) :
    splitChars? (a ++ '-' :: b) = some (a, b) := by
  rw [splitChars?, cut?, cutBeforeDigit?_append hno hb]
  simp [ha]

/-- Joined and split again, a name and a version come back exactly when the name has no hyphen
before a digit. -/
theorem split?_join_iff (hname : isIdentifier name = true) (hversion : isVersion version = true) :
    split? (join name version) = some (name, version) ↔ ¬ HyphenBeforeDigit name.toList := by
  refine ⟨not_hyphenBeforeDigit_of_split?, fun hno => ?_⟩
  have hne : name.toList ≠ [] := fun h =>
    ne_empty_of_isIdentifier hname (String.toList_inj.1 (by simpa using h))
  rw [split?_eq_some_iff, toList_join (ne_empty_of_isVersion hversion)]
  exact splitChars?_append hne hno (exists_digit_of_isVersion hversion)

/-- The parts into which the stem of a diagram splits: they make up the same stem, the name is
a beginning of the name of the diagram, and the version begins with a digit. -/
lemma exists_split?_join (hname : isIdentifier name = true) (hversion : isVersion version = true) :
    ∃ name' version', split? (join name version) = some (name', version') ∧
      join name' version' = join name version ∧ name'.toList <+: name.toList ∧ name' ≠ "" ∧
      ∃ digit rest, version'.toList = digit :: rest ∧ digit.isDigit = true := by
  have hnext := exists_digit_of_isVersion hversion
  have hstem : (join name version).toList = name.toList ++ '-' :: version.toList :=
    toList_join (ne_empty_of_isVersion hversion)
  have hhas : HyphenBeforeDigit (join name version).toList := by
    obtain ⟨digit, rest, hrest, hdigit⟩ := hnext
    exact ⟨name.toList, digit, rest, by rw [hstem, hrest], hdigit⟩
  obtain ⟨⟨a, b⟩, hcut⟩ :=
    Option.ne_none_iff_exists'.1 (mt cutBeforeDigit?_eq_none_iff.1 (not_not.2 hhas))
  obtain ⟨heq, ha, digit, rest, rfl, hdigit⟩ := cutBeforeDigit?_eq_some hcut
  have hprefix : a <+: name.toList := by
    rw [hstem] at heq
    rcases List.append_eq_append_iff.1 heq with ⟨c, rfl, hc⟩ | ⟨c, hc, -⟩
    · cases c with
      | nil => exact List.prefix_rfl.trans (by simp)
      | cons hyphen c =>
        -- beyond the name the first part would hold the hyphen that joins it to the version
        obtain ⟨digit', rest', hrest', hdigit'⟩ := hnext
        obtain ⟨rfl, htail⟩ := List.cons.inj hc
        rw [hrest'] at htail
        cases c with
        | nil =>
          rw [(List.cons.inj htail).1] at hdigit'
          exact absurd hdigit' (by decide)
        | cons d c =>
          rw [(List.cons.inj htail).1] at hdigit'
          exact absurd ⟨name.toList, d, c, rfl, hdigit'⟩ ha
    · exact ⟨c, hc.symm⟩
  have hne : a ≠ [] := by
    rintro rfl
    obtain ⟨c, cs, hcs⟩ := List.exists_cons_of_ne_nil fun h : name.toList = [] =>
      ne_empty_of_isIdentifier hname (String.toList_inj.1 (by simpa using h))
    rw [hstem, hcs] at heq
    exact ne_hyphen_of_isIdentifier hname hcs (List.cons.inj heq).1
  have hversion' : String.ofList (digit :: rest) ≠ "" := by
    intro h
    exact absurd (congrArg String.toList h) (by simp)
  refine ⟨String.ofList a, String.ofList (digit :: rest), ?_, ?_, by simpa using hprefix, ?_,
    digit, rest, by simp, hdigit⟩
  · rw [split?, splitChars?, cut?, hcut]
    simp [hne]
  · exact String.toList_inj.1 (by rw [toList_join hversion', heq]; simp)
  · intro h
    exact hne (by simpa using congrArg String.toList h)

end Stem

end DiagramRegistry
