import DiagramRegistry.Proofs.Identity.Admissible
import DiagramRegistry.Proofs.Reference.Agreement
import DiagramRegistry.Proofs.Repository.Confinement

/-
# What references reach

An include directive names a key, whatever its text.  The key is a product or a nested diagram,
and it has a stem.  So all that validation can learn from a disk is what the files of products and
of nested diagrams hold: the files `products/stem/stem.puml` and `nested/stem/stem.puml` below
the root.  This is also true of the diagrams that are reached through the references of others.

* `OnDisk.SameReferable`: two repositories in which these files are the same;
* `OnDisk.SameReferable.run_eq`: they let validation have the same outcome;
* `OnDisk.no_path_escapes`: operations on given keys do not leave the directories of the
  diagrams either.
-/
namespace DiagramRegistry

variable {content : String} {t k : Key}

/-! ## The targets of references -/

namespace Include

/-- A reference names something. -/
lemma name_ne_empty_of_reference? {path : List Char} {line : Nat} {r : Reference}
    (h : reference? path line = some r) : r.name ≠ "" := by
  unfold reference? at h
  split at h
  · exact absurd h (by simp)
  · rename_i place stem haddressed
    obtain ⟨hstem, -⟩ := addressed?_eq_some_iff.1 haddressed
    split at h
    · obtain rfl := Option.some.inj h
      rw [ne_eq, ← String.toList_inj, String.toList_ofList]
      cases hparts : Stem.splitChars? stem with
      | none => exact hstem
      | some parts => exact (Stem.eq_of_splitChars? hparts).2.1
    · split at h
      · obtain rfl := Option.some.inj h
        rw [ne_eq, ← String.toList_inj, String.toList_ofList]
        exact hstem
      · exact absurd h (by simp)

end Include

/-- References lead to products and nested diagrams with a stem. -/
structure Key.IsReferable (k : Key) : Prop where
  /-- The key is not that of a draft. -/
  location : k.location ≠ .staging
  /-- The key has a stem. -/
  stem : k.stem ≠ ""

lemma isReferable_of_mem_targetsOf (h : t ∈ targetsOf content) : t.IsReferable := by
  rw [targetsOf_eq] at h
  obtain ⟨r, hr, htarget⟩ := List.mem_filterMap.1 h
  obtain ⟨argument, line, hreference⟩ := Include.exists_argument_of_mem hr
  have hname := Include.name_ne_empty_of_reference? hreference
  unfold Reference.target at htarget
  split at htarget
  · obtain rfl := Option.some.inj htarget
    exact ⟨by simp [Key.production], Key.stem_ne_empty hname⟩
  · obtain rfl := Option.some.inj htarget
    exact ⟨by simp [Key.nested], Key.stem_ne_empty hname⟩
  · exact absurd htarget (by simp)

/-! ## What a diagram is read from -/

namespace OnDisk

open Disk

variable {s s' : OnDisk} {d : Diagram}

/-- The path of the file that is kept at a location under a stem. -/
def filePath (root : String) (l : Location) (stem : String) : String :=
  Path.join (Path.join (Path.join root l.directory) stem) (stem ++ ".puml")

/-- What the file holds that a path leads to. -/
def held? (disk : Disk) (path : String) : Option Contents :=
  match disk.leadsTo path with
  | .ok (.file f) => some f.contents
  | _ => none

/-- The text is the name of an entry, so it leads nowhere else. -/
structure IsPlainName (stem : String) : Prop where
  /-- It is not empty. -/
  ne_empty : stem ≠ ""
  /-- It has no slash in it. -/
  slash : '/' ∉ stem.toList
  /-- It has no backslash in it. -/
  backslash : '\\' ∉ stem.toList
  /-- It does not stand for the directory itself, nor for the one above. -/
  dots : stem ≠ "." ∧ stem ≠ ".."

/-- Two repositories at the same root have the same files of products and nested diagrams.  About
everything else on the disks nothing is said. -/
structure SameReferable (s s' : OnDisk) : Prop where
  /-- The root is the same. -/
  root : s'.root = s.root
  /-- The files of products hold the same. -/
  products : ∀ stem, IsPlainName stem →
    held? s'.disk (filePath s.root .production stem) =
      held? s.disk (filePath s.root .production stem)
  /-- The files of nested diagrams hold the same. -/
  nested : ∀ stem, IsPlainName stem →
    held? s'.disk (filePath s.root .nested stem) = held? s.disk (filePath s.root .nested stem)

lemma IsPlainName.of_isSafe (hk : k.IsSafe) (hstem : k.stem ≠ "") : IsPlainName k.stem := by
  refine ⟨hstem, hk.not_mem_stem, ?_, hk.stem_ne_dots⟩
  rw [Key.stem, Stem.join]
  split
  · exact hk.name.2.1
  · simp [toString, hk.name.2.1, hk.version.2.1]

lemma held?_eq_some_iff {disk : Disk} {path : String} {c : Contents} :
    held? disk path = some c ↔ ∃ p f, disk.find path = .ok (p, .file f) ∧ f.contents = c := by
  unfold held?
  split
  · rename_i f h
    obtain ⟨p, hfind⟩ := leadsTo_eq_file_iff.1 h
    simp [hfind]
  · rename_i h
    refine iff_of_false (by simp) ?_
    rintro ⟨p, f, hfind, -⟩
    exact h f (leadsTo_eq_file_iff.2 ⟨p, hfind⟩)

/-- The file of a diagram is kept at its location under its stem. -/
lemma reached?_eq_held? (s : OnDisk) (k : Key) :
    s.reached? k = held? s.disk (filePath s.root k.location k.stem) := by
  have hpath : Layout.diagramPath s.root k = filePath s.root k.location k.stem := by
    rw [Layout.diagramPath, Layout.diagramDirectory, Layout.locationDirectory, Key.fileName_eq,
      filePath]
  ext c
  rw [reached?_eq_some_iff, held?_eq_some_iff, hpath]

/-- Whether a diagram exists depends on its file. -/
lemma contains_eq_isSome (hk : k.IsSafe) : s.contains k = .ok (s.reached? k).isSome := by
  rw [OnDisk.contains, Layout.checkedPath_eq_ok_iff.2 ⟨hk, rfl⟩]
  refine congrArg Except.ok ?_
  rw [Bool.eq_iff_iff, isFile_iff, Option.isSome_iff_exists]
  simp only [reached?_eq_some_iff]
  constructor
  · rintro ⟨p, f, hfind⟩
    exact ⟨f.contents, p, f, hfind, rfl⟩
  · rintro ⟨-, p, f, hfind, -⟩
    exact ⟨p, f, hfind⟩

/-- What a file holds is read as a document, or is none. -/
def readAs (k : Key) (path : String) : Contents → Except Failure String
  | .text content => .ok content
  | .binary _ => .error (readFailure k path .notText)

/-- What is read depends on what the file holds. -/
lemma map_content_load {c : Contents} (hk : k.IsSafe) (h : s.reached? k = some c) :
    (s.load k).map Diagram.content = readAs k (Layout.diagramPath s.root k) c := by
  obtain ⟨p, f, hfind, rfl⟩ := reached?_eq_some_iff.1 h
  simp only [OnDisk.load, Layout.checkedPath_eq_ok_iff.2 ⟨hk, rfl⟩, Disk.readText, hfind, bind,
    Except.bind]
  cases f.contents <;> rfl

namespace SameReferable

/-- In trees it is enough that the files of products and nested diagrams are the same at their
places. -/
lemma of_view (hroot : s'.root = s.root) (htree : s.disk.IsTree) (htree' : s'.disk.IsTree)
    (hup : ".." ∉ Path.segments s.root)
    (hview : ∀ l stem, l ≠ .staging → s'.view (l, stem) = s.view (l, stem)) :
    SameReferable s s' := by
  classical
  have hsame {l : Location} {stem : String} (hl : l ≠ .staging) (h : IsPlainName stem) :
      held? s'.disk (filePath s.root l stem) = held? s.disk (filePath s.root l stem) := by
    have hk : (Key.mk stem "" l).IsSafe := ⟨⟨h.slash, h.backslash, h.dots⟩, by simp⟩
    have hstem : (Key.mk stem "" l).stem = stem := Stem.join_empty
    have hheld := reached?_eq_held? s ⟨stem, "", l⟩
    have hheld' := reached?_eq_held? s' ⟨stem, "", l⟩
    rw [hstem] at hheld hheld'
    rw [hroot] at hheld'
    rw [← hheld, ← hheld', OnDisk.reached?_eq htree hup hk,
      OnDisk.reached?_eq htree' (hroot ▸ hup) hk, placed?_eq hk, placed?_eq hk, hroot,
      hview _ _ hl]
  exact ⟨hroot, fun stem => hsame (by simp), fun stem => hsame (by simp)⟩

/-- The file of a diagram to which a reference leads holds the same. -/
lemma reached?_eq (h : SameReferable s s') (hk : k.IsSafe) (hreferable : k.IsReferable) :
    s'.reached? k = s.reached? k := by
  have hplain := IsPlainName.of_isSafe hk hreferable.stem
  rw [reached?_eq_held?, reached?_eq_held?, h.root]
  cases hl : k.location with
  | staging => exact absurd hl hreferable.location
  | production => exact h.products _ hplain
  | nested => exact h.nested _ hplain

/-- The repositories answer alike about all keys to which references lead. -/
lemma agreeOn (h : SameReferable s s') :
    Catalogue.AgreeOn Key.IsReferable (Store.catalogue s) (Store.catalogue s') := by
  refine ⟨fun k hk => ?_, fun k hk hpresent => ?_, fun k content _ _ t ht =>
    isReferable_of_mem_targetsOf ht⟩
  · change s.contains k = s'.contains k
    by_cases hsafe : k.IsSafe
    · rw [contains_eq_isSome hsafe, contains_eq_isSome hsafe, h.reached?_eq hsafe hk]
    · -- a key that is not safe is refused by both
      obtain ⟨reason, hpath⟩ := Layout.exists_checkedPath_error s.root hsafe
      rw [OnDisk.contains, OnDisk.contains, h.root, hpath]
      rfl
  · change s.contains k = .ok true at hpresent
    change (s.load k).map Diagram.content = (s'.load k).map Diagram.content
    by_cases hsafe : k.IsSafe
    · rw [contains_eq_isSome hsafe, Except.ok.injEq, Option.isSome_iff_exists] at hpresent
      obtain ⟨c, hc⟩ := hpresent
      rw [map_content_load hsafe hc, map_content_load hsafe ((h.reached?_eq hsafe hk).trans hc),
        h.root]
    · obtain ⟨reason, hpath⟩ := Layout.exists_checkedPath_error s.root hsafe
      rw [OnDisk.contains, hpath] at hpresent
      exact absurd hpresent (by simp [Except.map])

/-- Validation has the same outcome. -/
theorem run_eq (h : SameReferable s s') (strictness : Strictness) (d : Diagram) :
    Validation.run (some (Store.catalogue s)) strictness d =
      Validation.run (some (Store.catalogue s')) strictness d :=
  h.agreeOn.run_eq strictness fun _ => isReferable_of_mem_targetsOf

/-- The references of any document are resolved alike, for a diagram with any key. -/
theorem resolve_eq (h : SameReferable s s') (root : Key) (content : String) (found : Findings) :
    resolve (some (Store.catalogue s)) root (referencesOf content) found =
      resolve (some (Store.catalogue s')) root (referencesOf content) found :=
  h.agreeOn.resolve_eq root found fun _ => isReferable_of_mem_targetsOf

end SameReferable

/-! ## No path escapes -/

/-- An operation keeps to the directories of its diagrams. -/
structure KeyedOperation.StaysHome (op : KeyedOperation) (s : OnDisk) : Prop where
  /-- The paths that it is about go on from the root to the location, to the stem and to the
  file. -/
  path : ∀ k ∈ op.keys, ∃ path, Layout.checkedPath s.root k = .ok path ∧
    Path.components path = Path.components s.root ++
      [.entry k.location.directory, .entry k.stem, .entry (k.stem ++ ".puml")]
  /-- Its changes are made in these directories, but for missing directories on the way there. -/
  confined : Confined op.keys s (op.action.perform s).2
  /-- A question changes nothing, and its answer depends on what the paths lead to. -/
  question : op.IsQuestion → (op.action.perform s).2 = s ∧
    ∀ s' : OnDisk, s'.root = s.root →
      (∀ k ∈ op.keys, s'.disk.leadsTo (Layout.diagramPath s.root k) =
        s.disk.leadsTo (Layout.diagramPath s.root k)) →
      (op.action.perform s').1 = (op.action.perform s).1

lemma KeyedOperation.staysHome (op : KeyedOperation) (hsafe : ∀ k ∈ op.keys, k.IsSafe)
    (hstem : ∀ k ∈ op.keys, k.stem ≠ "") (s : OnDisk) : op.StaysHome s where
  path k hk := ⟨_, Layout.checkedPath_eq_ok_iff.2 ⟨hsafe k hk, rfl⟩,
    Layout.components_diagramPath s.root (hsafe k hk) (hstem k hk)⟩
  confined := op.confined hsafe hstem s
  question hquestion := ⟨(op.question hquestion rfl rfl).1, fun _ hroot hsame =>
    (op.question hquestion hroot (hsame _ op.subject_mem_keys)).2⟩

/-- Nothing leads out of the directories of diagrams.  An operation on given keys is refused and
changes nothing if a name or a version could lead elsewhere.  Otherwise, and if there is a stem, it
keeps to the directories of its diagrams.  References reach the files of products and of nested
diagrams only: where these are the same, they are resolved alike, whatever the documents say, and
validation has the same outcome. -/
theorem no_path_escapes (s : OnDisk) :
    (∀ op : KeyedOperation, (¬ ∀ k ∈ op.keys, k.IsSafe) →
      ∃ reason, op.action.perform s = (.error (.repository reason), s)) ∧
    (∀ op : KeyedOperation, (∀ k ∈ op.keys, k.IsSafe) → (∀ k ∈ op.keys, k.stem ≠ "") →
      op.StaysHome s) ∧
    ∀ s', SameReferable s s' →
      (∀ root content found, resolve (some (Store.catalogue s)) root (referencesOf content) found =
        resolve (some (Store.catalogue s')) root (referencesOf content) found) ∧
      ∀ strictness d, Validation.run (some (Store.catalogue s)) strictness d =
        Validation.run (some (Store.catalogue s')) strictness d :=
  ⟨fun op hunsafe => op.refused hunsafe s, fun op hsafe hstem => op.staysHome hsafe hstem s,
    fun _ h => ⟨h.resolve_eq, h.run_eq⟩⟩

/-- A repository with one product. -/
def oneProduct : OnDisk where
  root := "registry"
  disk :=
    { entries := [(["registry"], .directory), (["registry", "products"], .directory),
        (["registry", "products", "lock-1.0.0"], .directory),
        (["registry", "products", "lock-1.0.0", "lock-1.0.0.puml"],
          .file ⟨.text "@startuml\n[*] --> Idle\n@enduml\n", ⟨0, 0⟩, ⟨0, 0⟩⟩)]
      workingDirectory := [] }

/-- The same repository, on a disk with a file beside it. -/
def besideSecret : OnDisk :=
  { oneProduct with
    disk := oneProduct.disk.put ["secret.puml"]
      (.file ⟨.text "!include products/lock-1.0.0/lock-1.0.0.puml", ⟨0, 0⟩, ⟨0, 0⟩⟩) }

lemma sameReferable_besideSecret : SameReferable oneProduct besideSecret := by
  refine .of_view rfl (by decide +kernel) (by decide +kernel) (by decide +kernel)
    fun l stem _ => ?_
  have hplace : oneProduct.disk.placeOf oneProduct.root = ["registry"] := by decide +kernel
  refine (fileAt?_put_file (by simp) _ _).trans (if_neg ?_)
  change oneProduct.disk.placeOf oneProduct.root ++ _ ≠ _
  rw [hplace]
  simp

/-- Neither an operation with dots for a name nor a reference by dots leads to the file beside the
repository. -/
theorem secret_out_of_reach :
    let stray := KeyedOperation.read (.nested "..")
    let moving := KeyedOperation.move ⟨0, 0⟩ "lock" "1.0.0" .production .staging
    let d := Diagram.new ⟨0, 0⟩ (.staging "door" "1.0.0")
      "!include ../../secret.puml\n!include \"C:\\..\\products\\lock-1.0.0\\lock-1.0.0.puml\""
    (∃ reason, stray.action.perform besideSecret = (.error (.repository reason), besideSecret)) ∧
      moving.StaysHome besideSecret ∧
      targetsOf d.content = [.production "lock" "1.0.0"] ∧
      Validation.run (some (Store.catalogue oneProduct)) .production d =
        Validation.run (some (Store.catalogue besideSecret)) .production d := by
  intro stray moving d
  have hstray : ¬ ∀ k ∈ stray.keys, k.IsSafe := fun h =>
    (h _ (List.mem_singleton_self _)).name.2.2.2 rfl
  have hsafe : ∀ k ∈ moving.keys, k.IsSafe := by
    rw [KeyedOperation.forall_isSafe_iff]
    exact ⟨by decide, by decide⟩
  have hstem : ∀ k ∈ moving.keys, k.stem ≠ "" := by decide
  obtain ⟨hrefused, hstays, -⟩ := no_path_escapes besideSecret
  obtain ⟨-, -, hsame⟩ := no_path_escapes oneProduct
  exact ⟨hrefused stray hstray, hstays moving hsafe hstem, by decide +kernel,
    (hsame besideSecret sameReferable_besideSecret).2 .production d⟩

end OnDisk

end DiagramRegistry
