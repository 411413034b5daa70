import DiagramRegistry.Proofs.Identity.Stem
import DiagramRegistry.Proofs.Reference.Grammar

/-
# References by canonical paths

A product is referred to by its canonical path in an include directive.  Reading the directive
gives one product reference with that path, and the name and the version are those that the
stem in the path splits into: they are those of the product when its name has no hyphen before
a digit.  Then a document that includes its own path is found to refer to itself.

* `Include.includes_directive`: the reference that the directive of a product makes;
* `Validation.hasError_selfReference_of_directive`: a document with its own directive.
-/
namespace DiagramRegistry

variable {name version : String}

/-! ## The characters of stems -/

/-- The characters that the stem of a well-named diagram can have. -/
def Stem.isChar (c : Char) : Bool := isNameChar c || Version.isChar c

lemma Stem.isChar_of_mem_join (hname : isIdentifier name = true)
    (hversion : isVersion version = true) : ∀ c ∈ (join name version).toList, isChar c = true := by
  intro c hc
  rw [toList_join (ne_empty_of_isVersion hversion), List.mem_append, List.mem_cons] at hc
  rcases hc with hc | rfl | hc
  · rw [isChar, isNameChar_of_isIdentifier hname c hc, Bool.true_or]
  · decide
  · rw [isChar, isChar_of_isVersion hversion c hc, Bool.or_true]

/-! ## Reading the directive of a product -/

namespace Include

/-- The characters of the canonical path of a product. -/
lemma toList_path (name : String) (hversion : isVersion version = true) :
    (Reference.toProduct name version).path.toList =
      "products".toList ++ '/' :: ((Stem.join name version).toList ++
        '/' :: ((Stem.join name version).toList ++ ".puml".toList)) := by
  have hjoin : s!"{name}-{version}" = Stem.join name version := by
    rw [Stem.join, if_neg (ne_empty_of_isVersion hversion)]
  simp only [Reference.toProduct, Reference.canonicalPathOf, hjoin, Option.getD_some]
  simp [toString, Location.directory, DiagramType.fileExtension]

/-- The directive that refers to a product. -/
def directive (name version : String) : String :=
  "!include " ++ (Reference.toProduct name version).path

/-- An argument without marks around it and without backslashes is the declared path. -/
lemma declaredPath_eq {cs : List Char} {c : Char} (hquote : c ≠ '"') (hangle : c ≠ '<')
    (hback : '\\' ∉ c :: cs) : declaredPath (c :: cs) = c :: cs := by
  have hunquote : unquote (c :: cs) = c :: cs := by simp [unquote, between?, hquote, hangle]
  rw [declaredPath, hunquote]
  conv => rhs; rw [← List.map_id (c :: cs)]
  refine List.map_congr_left fun d hd => if_neg ?_
  rintro rfl
  exact hback hd

/-- A line that is, but for the blanks around it, an include directive without marks declares
the path after the keyword. -/
lemma ofLine?_eq {line path cs : List Char} {c : Char} {number : Nat}
    (hline : Text.trim line = "!include ".toList ++ path) (hpath : path = c :: cs)
    (hblank : Text.isBlank c = false) (hquote : c ≠ '"') (hangle : c ≠ '<')
    (hback : '\\' ∉ path) : ofLine? line number = reference? path number := by
  have hkeyword : afterKeyword? ("!include ".toList ++ path) = some (' ' :: path) := by
    have hafter : Text.after? "!include".toList ("!include ".toList ++ path) =
        some (' ' :: path) := Text.after?_eq_some_iff.2 (by rfl)
    rw [afterKeyword?, hafter]
    rfl
  have hargument : argument? ("!include ".toList ++ path) = some path := by
    have htrim : Text.trimStart path = path := by simp [hpath, Text.trimStart, hblank]
    have hspace : Text.isBlank ' ' = true := by decide
    have hne : path ≠ [] := by simp [hpath]
    rw [argument?, hkeyword]
    simp only [hspace, htrim, ne_eq, hne, not_false_eq_true, and_self, if_true]
  rw [ofLine?, hline, hargument, Option.bind_some]
  subst hpath
  rw [declaredPath_eq hquote hangle hback]

/-- The location and the stem that a canonical path names. -/
lemma addressed?_eq {stem : List Char} (hslash : '/' ∉ stem) (hne : stem ≠ []) :
    addressed? ("products".toList ++ '/' :: (stem ++ '/' :: (stem ++ ".puml".toList))) =
      some ("products".toList, stem) := by
  have hfile : '/' ∉ stem ++ ".puml".toList := by
    rw [List.mem_append, not_or]
    exact ⟨hslash, by decide⟩
  have hplace : '/' ∉ "products".toList := by decide
  have hsplit : ("products".toList ++ '/' :: (stem ++ '/' :: (stem ++ ".puml".toList))).splitOn '/' =
      ["products".toList, stem, stem ++ ".puml".toList] := by
    rw [List.splitOn_append_cons_self, List.splitOn_append_cons_self,
      List.splitOn_eq_singleton hplace, List.splitOn_eq_singleton hslash,
      List.splitOn_eq_singleton hfile]
    rfl
  rw [addressed?, hsplit]
  simp [hne]

lemma trim_directive (hversion : isVersion version = true) :
    Text.trim (directive name version).toList = (directive name version).toList := by
  have hends : ∃ cs, (directive name version).toList = '!' :: cs ++ ['l'] := by
    refine ⟨"include ".toList ++ ("products".toList ++ '/' :: ((Stem.join name version).toList ++
        '/' :: ((Stem.join name version).toList ++ ".pum".toList))), ?_⟩
    rw [directive, String.toList_append, toList_path name hversion]
    simp
  obtain ⟨cs, hcs⟩ := hends
  rw [hcs, Text.trim_eq (by decide) (by decide)]

section
variable (hname : isIdentifier name = true) (hversion : isVersion version = true)
include hname hversion

lemma not_mem_path {c : Char} (hc : Stem.isChar c = false) (hslash : c ≠ '/')
    (hplace : c ∉ "products".toList) (hpuml : c ∉ ".puml".toList) :
    c ∉ (Reference.toProduct name version).path.toList := by
  have hstem : c ∉ (Stem.join name version).toList := fun hmem => by
    rw [Stem.isChar_of_mem_join hname hversion c hmem] at hc
    exact absurd hc (by simp)
  simp only [toList_path name hversion, List.mem_append, List.mem_cons, not_or]
  exact ⟨hplace, hslash, hstem, hslash, hstem, hpuml⟩

/-- A line with the directive of a product makes a product reference with the canonical path,
to the name and the version that the stem splits into. -/
lemma ofLine?_directive {line : List Char} {name' version' : String} (number : Nat)
    (hsplit : Stem.split? (Stem.join name version) = some (name', version'))
    (hline : Text.trim line = (directive name version).toList) :
    ofLine? line number =
      some ⟨name', version', .product, (Reference.toProduct name version).path, number⟩ := by
  have hpath := toList_path name hversion
  have hcut := Stem.split?_eq_some_iff.1 hsplit
  have hslash : '/' ∉ (Stem.join name version).toList := fun hmem =>
    absurd (Stem.isChar_of_mem_join hname hversion _ hmem) (by decide)
  have hne : (Stem.join name version).toList ≠ [] := by
    rw [Stem.toList_join (ne_empty_of_isVersion hversion)]
    simp
  rw [directive, String.toList_append] at hline
  rw [ofLine?_eq hline hpath (by decide) (by decide) (by decide)
    (not_mem_path hname hversion (by decide) (by decide) (by decide) (by decide)), reference?,
    hpath, addressed?_eq hslash hne, ← hpath]
  simp [hcut, Location.directory]

/-- The references of a document that consists of the directive of a product. -/
theorem includes_directive {name' version' : String}
    (hsplit : Stem.split? (Stem.join name version) = some (name', version')) :
    includes (directive name version) =
      .ok [⟨name', version', .product, (Reference.toProduct name version).path, 1⟩] := by
  have hno {c : Char} (hc : Stem.isChar c = false) (hslash : c ≠ '/')
      (hplace : c ∉ "products".toList) (hpuml : c ∉ ".puml".toList)
      (hkeyword : c ∉ "!include ".toList) : c ∉ (directive name version).toList := by
    rw [directive, String.toList_append, List.mem_append, not_or]
    exact ⟨hkeyword, not_mem_path hname hversion hc hslash hplace hpuml⟩
  have hlines : Text.lines (directive name version).toList = [(directive name version).toList] := by
    refine Text.lines_of_not_mem (hno (by decide) (by decide) (by decide) (by decide) (by decide)) ?_
    rw [directive, String.toList_append]
    simp
  have hnul := hno (c := '\x00') (by decide) (by decide) (by decide) (by decide) (by decide)
  have hline := ofLine?_directive hname hversion 1 hsplit (trim_directive hversion)
  simp [includes, Text.numberedLines, hlines, hnul, hline, firstOccurrences]

end

/-- A reference on some line is among the references of a document, up to what makes two
references the same. -/
lemma exists_mem_firstOccurrences {rs : List Reference} {r : Reference} (hr : r ∈ rs)
    {seen : List (ReferenceKind × String × String)} (hseen : r.identity ∉ seen) :
    ∃ r' ∈ firstOccurrences seen rs, r'.identity = r.identity := by
  induction rs generalizing seen with
  | nil => simp at hr
  | cons s rs ih =>
    rw [firstOccurrences]
    by_cases hs : s.identity = r.identity
    · rw [if_neg (by rwa [hs])]
      exact ⟨s, List.mem_cons_self, hs⟩
    · have hmem : r ∈ rs := (List.mem_cons.1 hr).resolve_left fun h => hs (by rw [h])
      split
      · exact ih hmem hseen
      · obtain ⟨r', hr', hid⟩ := ih hmem (List.not_mem_cons_of_ne_of_not_mem (Ne.symm hs) hseen)
        exact ⟨r', List.mem_cons_of_mem _ hr', hid⟩

/-- What a line makes is among the references of a document that can be read. -/
lemma exists_mem_includes {content : String} {line : List Char} {rs : List Reference}
    {r : Reference} (hread : includes content = .ok rs) (hmem : line ∈ Text.lines content.toList)
    (hline : ∀ number, ∃ r', ofLine? line number = some r' ∧ r'.identity = r.identity) :
    ∃ r' ∈ rs, r'.identity = r.identity := by
  obtain ⟨i, hi, rfl⟩ := List.getElem_of_mem hmem
  have hnumbered : ((Text.lines content.toList)[i], 1 + i) ∈ Text.numberedLines content := by
    rw [Text.numberedLines, List.mk_add_mem_zipIdx_iff_getElem?]
    exact List.getElem?_eq_getElem hi
  obtain ⟨r', hr', hid⟩ := hline (1 + i)
  obtain rfl := eq_of_includes_eq_ok hread
  rw [← hid]
  exact exists_mem_firstOccurrences (List.mem_filterMap.2 ⟨_, hnumbered, hr'⟩) (by simp)

end Include

/-! ## Documents that include themselves -/

/-- A document that can be read and has a line with the directive of its own product refers to
itself, if its stem splits into its own name and version. -/
theorem Validation.hasError_selfReference_of_directive (hname : isIdentifier name = true)
    (hversion : isVersion version = true)
    (hsplit : Stem.split? (Stem.join name version) = some (name, version)) {d : Diagram}
    (hdname : d.key.name = name) (hdversion : d.key.version = version) {rs : List Reference}
    (hread : includes d.content = .ok rs) {line : List Char}
    (hmem : line ∈ Text.lines d.content.toList)
    (hline : Text.trim line = (Include.directive name version).toList)
    (catalogue : Option Catalogue) (strictness : Strictness) :
    (run catalogue strictness d).2.hasError .selfReference = true := by
  obtain ⟨r, hr, hid⟩ := Include.exists_mem_includes (r := ⟨name, version, .product, "", 0⟩) hread
    hmem fun number => ⟨_, Include.ofLine?_directive hname hversion number hsplit hline, rfl⟩
  obtain ⟨hkind, hpair⟩ := Prod.mk.inj hid
  obtain ⟨hrname, hrversion⟩ := Prod.mk.inj hpair
  have hcheck := Reference.hasError_selfReference_iff.2 ⟨hrname ▸ hname, hkind, hrname, hrversion⟩
  rw [Findings.hasError, List.any_eq_true] at hcheck ⊢
  obtain ⟨f, hf, hcode⟩ := hcheck
  have hreferences : referencesOf d.content = rs := by simp [referencesOf, hread, Except.toOption]
  have hpasses : f ∈ (passes catalogue d.key d.content).2.errors := by
    have hown : f ∈ (Reference.checkAll d.key rs .none).errors :=
      Reference.errors_check_subset_checkAll hr (by rwa [hdname, hdversion])
    simp only [passes_eq, own, hreferences, Findings.errors_append, List.mem_append]
    exact .inl (.inr hown)
  refine ⟨f, ?_, hcode⟩
  cases strictness with
  | staging => exact hpasses
  | production =>
    refine List.mem_filter.2 ⟨hpasses, ?_⟩
    rw [of_decide_eq_true hcode]
    rfl

end DiagramRegistry
