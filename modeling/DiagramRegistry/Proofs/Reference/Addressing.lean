import DiagramRegistry.Proofs.Identity.Admissible
import Mathlib.Data.List.DropRight

/-
# Where an include leads

An include directive is read as a reference through the last three segments of its path.  The
same file is described twice more: by the key that the reference leads to, which fixes where
the repository looks, and by the canonical path of the reference, with which its path is
compared.  For nested references and for product references with a version all three agree.  A
product reference without a version leads to the file that has the name for a stem, also when
its path has a hyphen behind the name.

* `Include.lastThree_of_addressed?` : the last three segments name a location and a stem.
* `Reference.hasWarning_path_iff` : a path is found incorrect when it is not the canonical one.
* `includes_lead_to_declared_file` : where the references of a document lead.
-/
namespace DiagramRegistry

namespace Include

variable {path place stem : List Char} {line : Nat} {r : Reference}

/-- The path of the file that a location directory and a stem name. -/
def layout (place stem : List Char) : List Char :=
  place ++ '/' :: (stem ++ '/' :: (stem ++ ".puml".toList))

/-- The last three segments of a path, with the slashes between them. -/
def lastThree (path : List Char) : List Char := ['/'].intercalate ((path.splitOn '/').rtake 3)

/-- The last three segments of a path that addresses a location and a stem. -/
lemma lastThree_of_addressed? (h : addressed? path = some (place, stem)) :
    lastThree path = layout place stem := by
  obtain @⟨front, -, hfront⟩ := addressed?_eq_some_iff.1 h
  rw [lastThree, hfront, List.rtake]
  simp [layout, List.intercalate]

lemma intercalate_append {xs ys : List (List Char)} (hxs : xs ≠ []) (hys : ys ≠ []) :
    ['/'].intercalate (xs ++ ys) = ['/'].intercalate xs ++ '/' :: ['/'].intercalate ys := by
  induction xs with
  | nil => exact absurd rfl hxs
  | cons x xs ih =>
    by_cases hempty : xs = []
    · subst hempty
      rw [List.singleton_append, List.intercalate_cons_of_ne_nil hys, List.intercalate_singleton]
      simp
    · rw [List.cons_append, List.intercalate_cons_of_ne_nil (by simp [hempty]), ih hempty,
        List.intercalate_cons_of_ne_nil hempty]
      simp

/-- A path that differs from its last three segments has something in front of them. -/
lemma ne_lastThree_iff (h : addressed? path = some (place, stem)) :
    path ≠ lastThree path ↔ ∃ front, path = front ++ '/' :: lastThree path := by
  constructor
  · intro hne
    obtain @⟨front, -, hfront⟩ := addressed?_eq_some_iff.1 h
    have hjoin : ['/'].intercalate (front ++ [place, stem, stem ++ ".puml".toList]) = path := by
      rw [← hfront]
      exact List.intercalate_splitOn '/'
    have hlast : ['/'].intercalate [place, stem, stem ++ ".puml".toList] = lastThree path := by
      rw [lastThree_of_addressed? h]
      simp [layout, List.intercalate]
    by_cases hempty : front = []
    · rw [hempty, List.nil_append, hlast] at hjoin
      exact absurd hjoin.symm hne
    · rw [intercalate_append hempty (by simp), hlast] at hjoin
      exact ⟨_, hjoin.symm⟩
  · rintro ⟨front, hfront⟩ heq
    have hlength := congrArg List.length hfront
    rw [← heq, List.length_append, List.length_cons] at hlength
    omega

/-- The stem that a reference is made of is its name, with its version behind a hyphen; without
a version the hyphen may be there or not. -/
lemma IsMadeOf.stem_cases (h : IsMadeOf stem r) :
    (r.kind = .nested ∧ r.version = "" ∧ stem = r.name.toList) ∨
      (r.kind = .product ∧ stem = r.name.toList ++ '-' :: r.version.toList) ∨
      (r.kind = .product ∧ r.version = "" ∧ stem = r.name.toList) := by
  cases h with
  | nested hkind hname hversion => exact .inl ⟨hkind, hversion, hname.symm⟩
  | product hkind hsplit =>
    right
    cases hparts : Stem.splitChars? stem with
    | none =>
      rw [hparts, Option.getD_none, Prod.mk.injEq] at hsplit
      exact .inr ⟨hkind, String.toList_inj.1 (by simp [← hsplit.2]), hsplit.1⟩
    | some parts =>
      rw [hparts, Option.getD_some] at hsplit
      rw [hsplit] at hparts
      exact .inl ⟨hkind, (Stem.eq_of_splitChars? hparts).1⟩

/-- A reference leads to the location that its path addresses, and is made of the stem there. -/
lemma exists_target_of_reference? (h : reference? path line = some r) :
    ∃ stem t, IsMadeOf stem r ∧ r.path.toList = path ∧ r.target = some t ∧
      addressed? path = some (t.location.directory.toList, stem) := by
  unfold reference? at h
  split at h
  · exact absurd h (by simp)
  · rename_i place stem haddressed
    split at h
    · rename_i hplace
      generalize hparts : (Stem.splitChars? stem).getD (stem, []) = parts at h
      obtain rfl := Option.some.inj h
      refine ⟨stem, _, .product rfl (by simp [hparts]), by simp, rfl, ?_⟩
      rw [haddressed, hplace]
      rfl
    · split at h
      · rename_i hplace
        obtain rfl := Option.some.inj h
        refine ⟨stem, _, .nested rfl (by simp) rfl, by simp, rfl, ?_⟩
        rw [haddressed, hplace]
        rfl
      · exact absurd h (by simp)

end Include

/-! ## The three descriptions of a file -/

/-- The file that a key is stored in, by its location and its stem. -/
lemma Key.toList_relativePath (k : Key) :
    k.relativePath.toList = Include.layout k.location.directory.toList k.stem.toList := by
  simp [relativePath, fileName, DiagramType.fileExtension, Include.layout, toString]

lemma Findings.hasWarning_iff {fs : Findings} {code : Code} :
    fs.hasWarning code = true ↔ code ∈ fs.warningCodes := by
  simp [hasWarning, warningCodes]

namespace Reference

open Include

variable {r : Reference} {t : Key} {path : String}

/-- The file that the declared path names with its last three segments. -/
def declaredFile (r : Reference) : String := String.ofList (lastThree r.path.toList)

/-- A path that differs from the file it names has something in front of it. -/
lemma path_ne_declaredFile_iff {place stem : List Char}
    (h : addressed? r.path.toList = some (place, stem)) :
    r.path ≠ r.declaredFile ↔ ∃ front, r.path = front ++ "/" ++ r.declaredFile := by
  have hne : r.path ≠ r.declaredFile ↔ r.path.toList ≠ lastThree r.path.toList := by
    rw [ne_eq, ← String.toList_inj, declaredFile, String.toList_ofList]
  rw [hne, ne_lastThree_iff h]
  constructor
  · rintro ⟨front, hfront⟩
    refine ⟨String.ofList front, String.toList_inj.1 ?_⟩
    simpa [declaredFile] using hfront
  · rintro ⟨front, hfront⟩
    refine ⟨front.toList, ?_⟩
    simpa [declaredFile] using congrArg String.toList hfront

lemma canonicalPath_product (hkind : r.kind = .product) :
    r.canonicalPath = some (String.ofList
      (layout "products".toList (r.name.toList ++ '-' :: r.version.toList))) := by
  unfold canonicalPath canonicalPathOf
  rw [hkind]
  refine congrArg some (String.toList_inj.1 ?_)
  simp [layout, toString, Location.directory, DiagramType.fileExtension]

/-- Without a version the canonical path has a bare hyphen behind the name. -/
lemma canonicalPath_unversioned (hkind : r.kind = .product) (hversion : r.version = "") :
    r.canonicalPath = some s!"products/{r.name}-/{r.name}-.puml" := by
  rw [canonicalPath_product hkind, hversion]
  refine congrArg some (String.toList_inj.1 ?_)
  simp [layout, toString]

lemma canonicalPath_nested (hkind : r.kind = .nested) :
    r.canonicalPath = some (String.ofList (layout "nested".toList r.name.toList)) := by
  unfold canonicalPath canonicalPathOf
  rw [hkind]
  refine congrArg some (String.toList_inj.1 ?_)
  simp [layout, toString, Location.directory, DiagramType.fileExtension]

/-- A reference that names a version or needs none leads to the file of its stem, which is also
its canonical path. -/
lemma target_of_versioned {stem : List Char} (hmade : IsMadeOf stem r)
    (hversioned : r.kind = .nested ∨ r.version ≠ "") (ht : r.target = some t) :
    t.stem.toList = stem ∧
      r.canonicalPath = some (String.ofList (layout t.location.directory.toList stem)) := by
  rcases hmade.stem_cases with ⟨hkind, -, rfl⟩ | ⟨hkind, rfl⟩ | ⟨hkind, hversion, -⟩
  · rw [target, hkind] at ht
    obtain rfl := Option.some.inj ht
    exact ⟨congrArg String.toList Stem.join_empty, canonicalPath_nested hkind⟩
  · have hversion : r.version ≠ "" := hversioned.resolve_left (by simp [hkind])
    rw [target, hkind] at ht
    obtain rfl := Option.some.inj ht
    exact ⟨Stem.toList_join hversion, canonicalPath_product hkind⟩
  · simp [hkind, hversion] at hversioned

lemma warnings_checkVersion (r : Reference) (found : Findings) :
    (r.checkVersion found).warnings = found.warnings := by
  unfold checkVersion
  split
  · rfl
  · split <;> rfl

lemma warnings_checkPath (code : Code) (hpath : r.canonicalPath = some path) (found : Findings) :
    (r.checkPath code found).warningCodes =
      found.warningCodes ++ if r.path = path then [] else [code] := by
  unfold checkPath
  rw [hpath]
  by_cases h : r.path = path
  · simp [h]
  · simp [h, Findings.warningCodes, Findings.warning, Finding.onLine]

/-- The warnings about a product reference are about its path. -/
lemma warningCodes_check_product (hkind : r.kind = .product) (hname : isIdentifier r.name = true)
    (hpath : r.canonicalPath = some path) (ownerName ownerVersion : String) :
    (r.check ownerName ownerVersion .none).warningCodes =
      if r.path = path then [] else [.incorrectReferencePath] := by
  simp only [check, hname, hkind, checkProduct, Bool.not_true, Bool.false_eq_true, if_false,
    warnings_checkPath _ hpath]
  split <;> simp [Findings.warningCodes, Findings.error, warnings_checkVersion, Findings.none]

lemma hasWarning_incorrectReferencePath_iff (hkind : r.kind = .product)
    (hname : isIdentifier r.name = true) (hpath : r.canonicalPath = some path)
    (ownerName ownerVersion : String) :
    (r.check ownerName ownerVersion .none).hasWarning .incorrectReferencePath = true ↔
      r.path ≠ path := by
  rw [Findings.hasWarning_iff, warningCodes_check_product hkind hname hpath]
  split <;> simp_all

/-- The warnings about a nested reference are about its version and its path. -/
lemma warningCodes_check_nested (hkind : r.kind = .nested) (hname : isIdentifier r.name = true)
    (hpath : r.canonicalPath = some path) (ownerName ownerVersion : String) :
    (r.check ownerName ownerVersion .none).warningCodes =
      (if r.version = "" then [] else [.unexpectedNestedVersion]) ++
        if r.path = path then [] else [.incorrectNestedPath] := by
  simp only [check, hname, hkind, checkNested, Bool.not_true, Bool.false_eq_true, if_false,
    warnings_checkPath _ hpath]
  congr 1
  split <;> split <;>
    simp_all [Findings.warningCodes, Findings.error, Findings.warning, Findings.none,
      Finding.onLine]

/-- A reference with a valid name has its path found incorrect just when it is not the
canonical one. -/
lemma hasWarning_path_iff (hname : isIdentifier r.name = true)
    (hpath : r.canonicalPath = some path) (ownerName ownerVersion : String) :
    ((r.check ownerName ownerVersion .none).hasWarning .incorrectReferencePath = true ∨
        (r.check ownerName ownerVersion .none).hasWarning .incorrectNestedPath = true) ↔
      r.path ≠ path := by
  rw [Findings.hasWarning_iff, Findings.hasWarning_iff]
  cases hkind : r.kind with
  | product =>
    rw [warningCodes_check_product hkind hname hpath]
    split <;> simp_all
  | nested =>
    rw [warningCodes_check_nested hkind hname hpath]
    split <;> split <;> simp_all
  | unknown label => exact absurd hpath (by simp [canonicalPath, canonicalPathOf, hkind])

end Reference

/-- Where the references of a document lead.  A nested reference and a product reference with a
version lead to the file that the last three segments of the declared path name, which is also
the canonical path; the path is found incorrect just when there is something in front of it.  A
product reference without a version leads to the file that has the name for a stem, with or
without a hyphen behind the name in the path.  Its canonical path is always the one with the hyphen,
and its path is found incorrect just when it is another. -/
theorem includes_lead_to_declared_file {content : String} {rs : List Reference}
    (hread : includes content = .ok rs) {r : Reference} (hr : r ∈ rs) :
    ∃ target, r.target = some target ∧
      (r.kind = .nested ∨ r.version ≠ "" →
        target.relativePath = r.declaredFile ∧ r.canonicalPath = some r.declaredFile ∧
        ∀ ownerName ownerVersion, isIdentifier r.name = true →
          let found := r.check ownerName ownerVersion .none
          (found.hasWarning .incorrectReferencePath = true ∨
              found.hasWarning .incorrectNestedPath = true ↔
            ∃ front, r.path = front ++ "/" ++ r.declaredFile)) ∧
      (r.kind = .product → r.version = "" →
        target.relativePath = s!"products/{r.name}/{r.name}.puml" ∧
        (r.declaredFile = s!"products/{r.name}/{r.name}.puml" ∨
          r.declaredFile = s!"products/{r.name}-/{r.name}-.puml") ∧
        r.canonicalPath = some s!"products/{r.name}-/{r.name}-.puml" ∧
        ∀ ownerName ownerVersion, isIdentifier r.name = true →
          ((r.check ownerName ownerVersion .none).hasWarning .incorrectReferencePath = true ↔
            r.path ≠ s!"products/{r.name}-/{r.name}-.puml")) := by
  have hmem : r ∈ referencesOf content := by
    rw [referencesOf, hread]
    exact hr
  obtain ⟨argument, line, hreference⟩ := Include.exists_argument_of_mem hmem
  obtain ⟨stem, target, hmade, hpath, htarget, haddressed⟩ :=
    Include.exists_target_of_reference? hreference
  rw [← hpath] at haddressed
  have hdeclared : r.declaredFile.toList =
      Include.layout target.location.directory.toList stem := by
    rw [Reference.declaredFile, String.toList_ofList, Include.lastThree_of_addressed? haddressed]
  refine ⟨target, htarget, fun hversioned => ?_, fun hkind hversion => ?_⟩
  · obtain ⟨hstem, hcanonical⟩ := Reference.target_of_versioned hmade hversioned htarget
    rw [← hdeclared, String.ofList_toList] at hcanonical
    refine ⟨String.toList_inj.1 ?_, hcanonical, fun ownerName ownerVersion hname => ?_⟩
    · rw [Key.toList_relativePath, hstem, hdeclared]
    · rw [← Reference.path_ne_declaredFile_iff haddressed]
      exact Reference.hasWarning_path_iff hname hcanonical ownerName ownerVersion
  · rw [Reference.target, hkind, hversion] at htarget
    obtain rfl := Option.some.inj htarget
    have hcanonical := Reference.canonicalPath_unversioned hkind hversion
    refine ⟨String.toList_inj.1 ?_, ?_, hcanonical, fun ownerName ownerVersion hname => ?_⟩
    · rw [Key.toList_relativePath]
      simp [Include.layout, Key.stem, Stem.join, Key.production, toString, Location.directory]
    · rcases hmade.stem_cases with ⟨hnested, -, -⟩ | ⟨-, rfl⟩ | ⟨-, -, rfl⟩
      · exact absurd (hkind.symm.trans hnested) (by simp)
      · right
        refine String.toList_inj.1 (hdeclared.trans ?_)
        simp [Include.layout, hversion, toString, Key.production, Location.directory]
      · left
        refine String.toList_inj.1 (hdeclared.trans ?_)
        simp [Include.layout, toString, Key.production, Location.directory]
    · exact Reference.hasWarning_incorrectReferencePath_iff hkind hname hcanonical ownerName
        ownerVersion

/-- A product with a version, included from a library. -/
theorem include_from_library :
    let r : Reference := ⟨"lock", "1.2.0", .product, "lib/products/lock-1.2.0/lock-1.2.0.puml", 2⟩
    includes "@startuml\n!include lib/products/lock-1.2.0/lock-1.2.0.puml\n@enduml" = .ok [r] ∧
      r.version ≠ "" ∧ isIdentifier r.name = true ∧
      ∃ target, r.target = some target ∧ target.relativePath = r.declaredFile ∧
        ((r.check "door" "1.0.0" .none).hasWarning .incorrectReferencePath = true ∨
          (r.check "door" "1.0.0" .none).hasWarning .incorrectNestedPath = true) := by
  intro r
  have hread : includes "@startuml\n!include lib/products/lock-1.2.0/lock-1.2.0.puml\n@enduml" =
      .ok [r] := by decide +kernel
  have hversion : r.version ≠ "" := by decide
  have hname : isIdentifier r.name = true := by decide
  obtain ⟨target, htarget, hversioned, -⟩ := includes_lead_to_declared_file hread (r := r) (by simp)
  obtain ⟨hfile, -, hwarning⟩ := hversioned (.inr hversion)
  exact ⟨hread, hversion, hname, target, htarget, hfile,
    (hwarning "door" "1.0.0" hname).2 ⟨"lib", by decide⟩⟩

/-- A hyphen behind the name of a product without a version is dropped: the reference leads to
another file than the one that its path names. -/
theorem include_with_bare_hyphen :
    let r : Reference := ⟨"lock", "", .product, "products/lock-/lock-.puml", 1⟩
    includes "!include products/lock-/lock-.puml" = .ok [r] ∧
      r.declaredFile = "products/lock-/lock-.puml" ∧
      r.target.map Key.relativePath = some "products/lock/lock.puml" := by
  decide +kernel

end DiagramRegistry
