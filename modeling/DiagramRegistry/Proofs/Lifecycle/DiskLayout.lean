import DiagramRegistry.Proofs.Lifecycle.Backends
import Mathlib.Order.BooleanAlgebra.Set

/-
# The layout of a repository on disk

Below the root of a repository lie the directories of the locations, in them one directory for each
stored diagram, and in this the document of the diagram and nothing else.  Every session of calls
about keys that can be stored keeps it so, and a call that fails changes nothing at all.  Which
diagrams are stored is known from the answers: a call that succeeds has done what it says.

This needs a root whose path does not lead through what lies below it, and leaves room for the paths
of the diagrams.

* `Lifecycle.IsLaidOut`: the layout;
* `Lifecycle.call_keeps`: what one call does;
* `Lifecycle.sessions_keep_layout`: what a session in a new repository does;
* `Lifecycle.layout_is_broken`: roots for which it does not.
-/
namespace DiagramRegistry.Lifecycle

open OnDisk

variable {s s' : OnDisk} {k : Key} {content : String} {stored : Key → Option String}
  {files : Location × String → Option Contents} {homes : Set (Location × String)}

/-! ## What is stored -/

/-- What a successful call makes of the documents that are stored. -/
def Call.entered (call : Call) (stored : Key → Option String) : Key → Option String :=
  match call with
  | .create _ request => Function.update stored request.key (some request.content)
  | .update _ key content => Function.update stored key (some content)
  | .delete key => Function.update stored key none
  | .promote _ name version =>
    Function.update (Function.update stored (.staging name version) none)
      (.production name version) (stored (.staging name version))
  | .get _ | .list _ | .validate _ _ => stored

/-- The documents that are stored after a session, told from the answers. -/
def storedAfter (s : OnDisk) (stored : Key → Option String) : List Call → Key → Option String
  | [] => stored
  | call :: calls =>
    storedAfter (call.after s)
      (match (Action.perform call.action s).1 with
        | .ok _ => call.entered stored
        | .error _ => stored)
      calls

/-- Below the root of a repository lie the directories of the locations and, for each stored
diagram, a directory with its document, and nothing else. -/
structure IsLaidOut (s : OnDisk) (stored : Key → Option String) : Prop where
  /-- Every location has its directory in the root. -/
  location : ∀ l : Location, s.disk.find (Layout.locationDirectory s.root l) =
    .ok (s.rootPlace ++ [l.directory], .directory)
  /-- Every stored diagram has its directory in that of its location. -/
  home : ∀ k content, stored k = some content →
    s.disk.find (Layout.diagramDirectory s.root k) =
      .ok (s.rootPlace ++ [k.location.directory, k.stem], .directory)
  /-- In the directory lies the document. -/
  document : ∀ k content, stored k = some content → ∃ f : File, f.contents = .text content ∧
    s.disk.find (Layout.diagramPath s.root k) =
      .ok (s.rootPlace ++ [k.location.directory, k.stem, k.fileName], .file f)
  /-- There is nothing else. -/
  only : ∀ p n, p ≠ [] → s.disk.at? (s.rootPlace ++ p) = some n →
    (∃ l : Location, p = [l.directory]) ∨
      ∃ k content, stored k = some content ∧ (p = [k.location.directory, k.stem] ∨
        p = [k.location.directory, k.stem, k.fileName])
  /-- Different diagrams have different directories. -/
  apart : ∀ j k, stored j ≠ none → stored k ≠ none → j.location = k.location → j.stem = k.stem →
    j = k

/-! ## Changes of what is stored -/

/-- The stored diagrams are those that have files, and directories. -/
structure Records (files : Location × String → Option Contents) (homes : Set (Location × String))
    (stored : Key → Option String) : Prop where
  /-- Only storable diagrams are stored. -/
  storable : ∀ k content, stored k = some content → k.IsStorable
  /-- Where a file is there is a directory, and nowhere else. -/
  homes : ∀ q, q ∈ homes ↔ (files q).isSome = true
  /-- The files hold the documents. -/
  files : ∀ k : Key, k.IsStorable → files (k.location, k.stem) = (stored k).map .text

namespace Records

lemma empty (hfiles : ∀ q, files q = none) (hhomes : homes = ∅) :
    Records files homes fun _ => none where
  storable _ _ h := absurd h (by simp)
  files _ _ := hfiles _
  homes q := by simp [hfiles, hhomes]

/-- A document is put into its directory. -/
lemma put (h : Records files homes stored) (hk : k.IsStorable) (content : String) :
    Records (Function.update files (k.location, k.stem) (some (.text content)))
      (insert (k.location, k.stem) homes) (Function.update stored k (some content)) where
  storable j c hj := by
    rw [Function.update_apply] at hj
    split at hj
    · rename_i hjk
      rwa [hjk]
    · exact h.storable j c hj
  files j hj := by
    rw [hj.update_apply hk, Function.update_apply, h.files j hj]
    split <;> rfl
  homes q := by
    rw [Set.mem_insert_iff, Function.update_apply, h.homes]
    split <;> simp_all

/-- A document is taken away with its directory. -/
lemma erase (h : Records files homes stored) (hk : k.IsStorable) :
    Records (Function.update files (k.location, k.stem) none)
      (homes \ {(k.location, k.stem)}) (Function.update stored k none) where
  storable j c hj := by
    rw [Function.update_apply] at hj
    split at hj
    · exact absurd hj (by simp)
    · exact h.storable j c hj
  files j hj := by
    rw [hj.update_apply hk, Function.update_apply, h.files j hj]
    split <;> rfl
  homes q := by
    rw [Set.mem_sdiff, Set.mem_singleton_iff, Function.update_apply, h.homes]
    split <;> simp_all

end Records

/-- The repository is tidy, and has the stored diagrams. -/
structure Keeps (s : OnDisk) (stored : Key → Option String) : Prop where
  /-- The repository is tidy. -/
  tidy : s.Tidy
  /-- It has the stored diagrams. -/
  records : Records s.view s.homes stored

namespace Keeps

lemma of_leaves (hleaves : Leaves s files homes s') (h : Records files homes stored) :
    Keeps s' stored :=
  ⟨hleaves.tidy, by rwa [hleaves.view, hleaves.homes]⟩

/-- The directories of stored diagrams are the only ones in those of the locations. -/
lemma exists_stored (h : Keeps s stored) (hk : k.IsStorable)
    (hsome : (s.view (k.location, k.stem)).isSome = true) : ∃ content, stored k = some content := by
  rw [h.records.files k hk, Option.isSome_map] at hsome
  exact Option.isSome_iff_exists.1 hsome

/-- Such a repository has its layout. -/
theorem isLaidOut (h : Keeps s stored) : IsLaidOut s stored where
  location l := (h.tidy.onward_location l).find_eq h.tidy.tree h.tidy.at?_rootPlace
    (h.tidy.location l) fun _ => rfl
  home k content hstored := by
    have hk := h.records.storable k content hstored
    have hview := h.records.files k hk
    rw [hstored] at hview
    obtain ⟨-, -, -, -, -, hhome⟩ := h.tidy.exists_at? hk hview
    exact (h.tidy.onward_home hk).find_eq h.tidy.tree h.tidy.at?_rootPlace hhome fun _ => rfl
  document k content hstored := by
    have hk := h.records.storable k content hstored
    have hview := h.records.files k hk
    rw [hstored] at hview
    obtain ⟨f, content', hcontent, hf, hat, -⟩ := h.tidy.exists_at? hk hview
    obtain rfl := Contents.text.inj hcontent
    exact ⟨f, hf, h.tidy.find_document hk hat⟩
  only p n hp hn := by
    cases h.tidy.below p n hp hn with
    | location l => exact .inl ⟨l, rfl⟩
    | @home k hk =>
      have hhome : (k.location, k.stem) ∈ s.homes := hn
      obtain ⟨content, hstored⟩ := h.exists_stored hk ((h.records.homes _).1 hhome)
      exact .inr ⟨k, content, hstored, .inl rfl⟩
    | @document k hk f content hf =>
      have hview := (Tidy.view_eq hk).trans (Disk.fileAt?_eq_some_iff.2 ⟨f, hn, rfl⟩)
      obtain ⟨content, hstored⟩ := h.exists_stored hk (by rw [hview]; rfl)
      exact .inr ⟨k, content, hstored, .inr rfl⟩
  apart j k hj hk hl hs := by
    obtain ⟨_, hj⟩ := Option.ne_none_iff_exists'.1 hj
    obtain ⟨_, hk⟩ := Option.ne_none_iff_exists'.1 hk
    exact (h.records.storable _ _ hj).eq_of_stem (h.records.storable _ _ hk) hl hs

end Keeps

/-! ## Calls -/

/-- A call on storable keys that succeeds has done what it says; one that fails has done nothing. -/
theorem call_keeps (h : Keeps s stored) {call : Call} (hcall : ∀ k ∈ call.keys, k.IsStorable) :
    Ensures call.action s (fun _ s' => Keeps s' (call.entered stored)) (fun _ s' => s' = s) := by
  cases call with
  | create now r =>
    have hk : r.key.IsStorable := hcall _ (by simp [Call.keys])
    refine Ensures.bind ((create_leaves h.tidy hk).mono (fun d s' hleaves => ?_) fun _ _ hs => hs)
    exact Ensures.pure (.of_leaves hleaves (h.records.put hk r.content))
  | get k =>
    refine Ensures.bind ((get_ensures s k).mono (fun d s' hs => ?_) fun _ _ hs => hs.1)
    exact Ensures.pure (hs.1 ▸ h)
  | update now k content =>
    have hk : k.IsStorable := hcall _ (by simp [Call.keys])
    refine Ensures.bind ((update_leaves h.tidy hk).mono (fun d s' hleaves => ?_) fun _ _ hs => hs)
    exact Ensures.pure (.of_leaves hleaves (h.records.put hk content))
  | delete k =>
    have hk : k.IsStorable := hcall _ (by simp [Call.keys])
    refine Ensures.bind ((delete_leaves h.tidy hk).mono (fun d s' hleaves => ?_) fun _ _ hs => hs)
    exact Ensures.pure (.of_leaves hleaves (h.records.erase hk))
  | list l =>
    refine Ensures.bind ((list_ensures s l).mono (fun ds s' hs => ?_) fun _ _ hs => hs)
    exact Ensures.pure (hs ▸ h)
  | validate k strictness =>
    refine Ensures.bind ((validate_ensures s k strictness).mono (fun found s' hs => ?_)
      fun _ _ hs => hs)
    exact Ensures.pure (hs ▸ h)
  | promote now name version =>
    have hdraft : (Key.staging name version).IsStorable := hcall _ (by simp [Call.keys])
    have hproduct : (Key.production name version).IsStorable := hcall _ (by simp [Call.keys])
    refine Ensures.bind ((promote_leaves h.tidy hdraft).mono ?_ fun _ _ hs => hs)
    rintro ⟨key, found⟩ s' ⟨c, hc, hleaves⟩
    refine Ensures.pure (.of_leaves hleaves ?_)
    -- the document of the draft is that of the product
    have hview := (h.records.files _ hdraft).symm.trans hc
    obtain ⟨content, hstored, rfl⟩ := Option.map_eq_some_iff.1 hview
    have hne : (Location.production, Stem.join name version) ≠
        (Location.staging, Stem.join name version) := by simp
    rw [← Set.insert_sdiff_singleton_comm hne, Call.entered, hstored]
    exact (h.records.erase hdraft).put hproduct content

/-- A call that fails leaves the repository as it is. -/
lemma after_eq_of_failure (h : Keeps s stored) {call : Call} {failure : Failure}
    (hcall : ∀ k ∈ call.keys, k.IsStorable)
    (hfails : (Action.perform call.action s).1 = .error failure) : call.after s = s := by
  cases call_keeps h hcall with
  | value answer s' hperform hkeeps =>
    exact absurd ((congrArg Prod.fst hperform).symm.trans hfails) (by simp)
  | error failure' s' hperform hs => exact (congrArg Prod.snd hperform).trans hs

/-- Sessions keep the layout. -/
theorem keeps_run (h : Keeps s stored) {calls : List Call}
    (hcalls : ∀ call ∈ calls, ∀ k ∈ call.keys, k.IsStorable) :
    Keeps (run s calls) (storedAfter s stored calls) := by
  induction calls generalizing s stored with
  | nil => exact h
  | cons call calls ih =>
    rw [List.forall_mem_cons] at hcalls
    refine ih ?_ hcalls.2
    cases call_keeps h hcalls.1 with
    | value answer s' hperform hkeeps =>
      have hanswer : Action.perform call.action s = (.ok answer, s') := hperform
      simp only [Call.after, hanswer]
      exact hkeeps
    | error failure s' hperform hs =>
      have hanswer : Action.perform call.action s = (.error failure, s') := hperform
      simp only [Call.after, hanswer]
      rwa [hs]

/-- In a repository that was set up where nothing lay below its root, every session about storable
keys leaves the directories of the locations and, for each stored diagram, a directory with its
document and nothing else.  A further call that fails leaves the whole disk as it is. -/
theorem sessions_keep_layout {s₀ s : OnDisk} (hfresh : s₀.IsFresh)
    (hsetUp : OnDisk.setUp.perform s₀ = (.ok (), s)) (calls : List Call)
    (hcalls : ∀ call ∈ calls, ∀ k ∈ call.keys, k.IsStorable) :
    IsLaidOut (run s calls) (storedAfter s (fun _ => none) calls) ∧
      ∀ (call : Call) (failure : Failure), (∀ k ∈ call.keys, k.IsStorable) →
        (Action.perform call.action (run s calls)).1 = .error failure →
        call.after (run s calls) = run s calls := by
  obtain ⟨htidy, -, hview⟩ := hfresh.tidy_of_setUp hsetUp
  have hkeeps := keeps_run ⟨htidy, .empty hview (hfresh.homes_of_setUp hsetUp)⟩ hcalls
  exact ⟨hkeeps.isLaidOut, fun call failure hcall hfails =>
    after_eq_of_failure hkeeps hcall hfails⟩

/-- A draft is made and promoted whose stem listings take for that of another diagram. -/
def promoteHyphens : List Call :=
  [.create ⟨0, 0⟩ ⟨"a-1", "1.0.0", .staging, "@startuml\n[*] --> Idle\n@enduml\n"⟩,
    .promote ⟨0, 0⟩ "a-1" "1.0.0"]

/-- It has its directory all the same, and a draft that is not there is not promoted. -/
theorem promoteHyphens_keeps_layout :
    ∃ s, OnDisk.setUp.perform (onEmptyDisk "d") = (.ok (), s) ∧
      IsLaidOut (run s promoteHyphens) (storedAfter s (fun _ => none) promoteHyphens) ∧
      storedAfter s (fun _ => none) promoteHyphens (.production "a-1" "1.0.0") =
        some "@startuml\n[*] --> Idle\n@enduml\n" ∧
      (Call.promote ⟨1, 0⟩ "a-1" "1.0.0").after (run s promoteHyphens) = run s promoteHyphens := by
  have hfresh : (onEmptyDisk "d").IsFresh :=
    ⟨by decide +kernel, Disk.staysAbove_of_not_mem (by decide +kernel), by decide +kernel,
      fun p hp => by simp [onEmptyDisk, Disk.at?, hp]⟩
  have hcalls : ∀ call ∈ promoteHyphens, ∀ k ∈ call.keys, k.IsStorable := by decide +kernel
  have hknown : (OnDisk.setUp.perform (onEmptyDisk "d")).1 = .ok () ∧
      storedAfter (OnDisk.setUp.perform (onEmptyDisk "d")).2 (fun _ => none) promoteHyphens
        (.production "a-1" "1.0.0") = some "@startuml\n[*] --> Idle\n@enduml\n" ∧
      (Action.perform (Call.promote ⟨1, 0⟩ "a-1" "1.0.0").action
        (run (OnDisk.setUp.perform (onEmptyDisk "d")).2 promoteHyphens)).1 =
          .error (.notFound (.staging "a-1" "1.0.0")) := by
    decide +kernel
  generalize hr : OnDisk.setUp.perform (onEmptyDisk "d") = r at hknown ⊢
  obtain ⟨result, s⟩ := r
  obtain ⟨rfl, hstored, hfails⟩ := hknown
  obtain ⟨hlayout, hsame⟩ := sessions_keep_layout hfresh hr promoteHyphens hcalls
  exact ⟨s, rfl, hlayout, hstored, hsame _ _ (by decide +kernel) hfails⟩

/-! ## Other roots -/

/-- A diagram is not written whose document cannot be put beside its place first. -/
lemma write_of_long (s : OnDisk) (now : Instant) (d : Diagram) {e : OsError}
    (hbeside : Disk.checkText (Path.withExtension (Layout.diagramPath s.root d.key) "tmp") =
      .error e) :
    Ensures (write now d) s (fun _ _ => False)
      (fun _ s' => ∃ disk, s' = { s with disk } ∧ Disk.Extends s.disk disk) := by
  unfold write
  refine Ensures.bind (Ensures.ask (fun path hpath => ?_) fun _ _ => ⟨_, rfl, .refl _⟩)
  obtain ⟨-, rfl⟩ := Layout.checkedPath_eq_ok_iff.1 hpath
  obtain ⟨disk, hs, hext⟩ := ensureParent_extends (Layout.diagramPath s.root d.key) s
  rcases hmake : (ensureParent (Layout.diagramPath s.root d.key)).perform s with
    ⟨failure | _, s₁⟩ <;> rw [hmake] at hs <;> obtain rfl := hs
  · exact Ensures.bind (.error failure _ hmake ⟨disk, rfl, hext⟩)
  · refine Ensures.bind (.value () _ hmake ?_)
    have hwrite : disk.writeFile now (Path.withExtension (Layout.diagramPath s.root d.key) "tmp")
        (.text d.content) = .error e := by
      simp [Disk.writeFile, Disk.locate, hbeside, bind, Except.bind]
    have hperform : (change (Disk.writeFile now
        (Path.withExtension (Layout.diagramPath s.root d.key) "tmp") (.text d.content))).perform
          { s with disk } = (.error (.io e), { s with disk }) := by
      rw [perform_change]
      simp only [hwrite]
    exact Ensures.bind (.error _ _ hperform ⟨disk, rfl, hext⟩)

/-- The directory of a diagram is made where nothing is yet. -/
lemma perform_ensureDirectory_of_free {p : Place} (hk : k.IsStorable)
    (hlocate : s.disk.locate (Layout.diagramDirectory s.root k) = .ok (some p))
    (hfree : s.disk.at? p = none) :
    (ensureDirectory k).perform s = (.ok (), { s with disk := s.disk.put p .directory }) := by
  have hexists : Store.directoryExists (directoryOf k) s = false := by
    change s.disk.isDirectory (Path.join s.root (directoryOf k)) = false
    rw [join_directoryOf s.root hk, ← Bool.not_eq_true, Disk.isDirectory_iff]
    rintro ⟨q, hfind⟩
    have hat := (Disk.find_eq_ok_iff.1 hfind).2.2.1
    rw [← Disk.placeOf_of_find hfind, Disk.placeOf_of_locate hlocate, hfree] at hat
    exact absurd hat (by simp)
  have hensure := Disk.ensureDirectory_of_locate hlocate (by simp [hfree])
  rw [if_pos hfree] at hensure
  simp only [ensureDirectory, Action.perform_bind, Action.perform_ask, hexists,
    Bool.false_eq_true, if_false, perform_createDirectory, join_directoryOf s.root hk]
  rw [OnDisk.perform_ensureDirectory, hensure]
  rfl

/-- Where the directory of a diagram can be made, but the paths in it are too long, creating the
diagram fails and leaves the directory behind. -/
lemma create_of_long (now : Instant) {p : Place} {r : Request} (hk : r.key.IsStorable)
    (hlocate : s.disk.locate (Layout.diagramDirectory s.root r.key) = .ok (some p))
    (hfree : s.disk.at? p = none) (hnul : '\x00' ∉ s.root.toList)
    (hidentity : ensureIdentity r.key = .ok ())
    (hlong : Disk.maxPath < s.root.utf8ByteSize + r.key.location.directory.utf8ByteSize +
      r.key.stem.utf8ByteSize + (Layout.besideName r.key.stem).utf8ByteSize) :
    Ensures (create now r) s (fun _ _ => False)
      (fun _ s' => s'.disk.at? p = some .directory) := by
  have hbeside : Disk.checkText (Path.withExtension (Layout.diagramPath s.root r.key) "tmp") =
      .error .nameTooLong := by
    rw [Layout.beside_eq hk.isSafe]
    exact checkText_in_home_of_long hk hk.isEntryName_besideName hnul hlong
  have hpath : Disk.checkText (Layout.diagramPath s.root r.key) = .error .nameTooLong := by
    refine checkText_in_home_of_long hk hk.isEntryName_fileName hnul ?_
    have hname : (Layout.besideName r.key.stem).utf8ByteSize ≤ r.key.fileName.utf8ByteSize := by
      rw [hk.besideName_eq, Key.fileName_eq, String.utf8ByteSize_append, String.utf8ByteSize_append]
      exact Nat.add_le_add_left (by decide) _
    omega
  have hcontains : (Store.catalogue s).contains r.key = .ok false := by
    change s.contains r.key = _
    rw [OnDisk.contains, Layout.checkedPath_eq_ok_iff.2 ⟨hk.isSafe, rfl⟩]
    simp [Except.map, Disk.isFile, Disk.find, hpath, bind, Except.bind]
  have hmake := perform_ensureDirectory_of_free hk hlocate hfree
  unfold create
  refine Ensures.bind (Ensures.ask (fun _ _ => ?_) fun _ hfails =>
    absurd (hidentity.symm.trans hfails) (by simp))
  refine Ensures.bind (Ensures.ask (fun present hpresent => ?_) fun _ hfails =>
    absurd (hcontains.symm.trans hfails) (by simp))
  obtain rfl := Except.ok.inj (hcontains.symm.trans hpresent)
  rw [if_neg (by simp)]
  refine Ensures.bind (.value () _ hmake ?_)
  refine Ensures.bind (validated_ensures _ _ _ fun d found hkey _ => ?_)
  replace hkey : d.key = r.key := hkey
  rw [← hkey] at hbeside
  have hwrite := write_of_long { s with disk := s.disk.put p .directory } now d hbeside
  refine Ensures.bind (hwrite.mono (fun _ _ h => h.elim) ?_)
  rintro _ _ ⟨disk, rfl, hext⟩
  exact hext.old _ _ (by rw [Disk.at?_put _ (Disk.ne_nil_of_locate hlocate), if_pos rfl])

/-- Below a root that consists of slashes there is nothing after setting the repository up where the
directory of a diagram is to be. -/
lemma locate_of_slashes {n : Nat}
    (hsetUp : OnDisk.setUp.perform (onEmptyDisk (slashes n)) = (.ok (), s)) (hk : k.IsStorable)
    (hroom : n + 10 + k.stem.utf8ByteSize ≤ Disk.maxPath) :
    s.root = slashes n ∧ ∃ p, s.disk.locate (Layout.diagramDirectory s.root k) = .ok (some p) ∧
      s.disk.at? p = none := by
  have habove : (onEmptyDisk (slashes n)).disk.StaysAbove (slashes n) :=
    Disk.staysAbove_of_not_mem (by simp [segments_slashes])
  obtain ⟨hroot, hpartly, hext, hfind⟩ := isPartlySetUp_of_makeDirectories hsetUp rfl habove
    (isPartlySetUp_of_nothing fun p hp => by simp [onEmptyDisk, Disk.at?, hp])
  replace hroot : s.root = slashes n := hroot
  obtain ⟨q, hq⟩ := hfind k.location (by cases k.location <;> simp [Location.all])
  have hplace : q = s.rootPlace ++ [k.location.directory] := by
    rw [← Disk.placeOf_of_find hq, Layout.placeOf_locationDirectory, rootPlace, hroot]
    rfl
  have hlocation := (Disk.find_eq_ok_iff.1 hq).2.2.1
  rw [hplace] at hlocation
  have htree : s.disk.IsTree := hext.tree (show (⟨[], []⟩ : Disk).IsTree by decide)
  have hway : s.disk.walk (s.disk.origin s.root) (Path.segments s.root) = .ok s.rootPlace := by
    rw [rootPlace, Disk.placeOf, hroot, segments_slashes]
    rfl
  have hnul : '\x00' ∉ s.root.toList := hroot ▸ nul_not_mem_slashes n
  have hsize : s.root.utf8ByteSize = n := by rw [hroot, utf8ByteSize_slashes]
  have hdirectory : k.location.directory.utf8ByteSize ≤ 8 := by cases k.location <;> decide
  have hjoined := Tidy.utf8ByteSize_locationDirectory_le s.root k.location
  have honward := (Disk.onward_join (fun _ hs => absurd hs (by simp))
    k.location.isEntryName_directory ⟨_, (List.append_nil _).symm, hway⟩ hnul (by omega)).join
      hk.isEntryName_stem (by change (Layout.locationDirectory _ _).utf8ByteSize + _ + _ ≤ _; omega)
  refine ⟨hroot, _, Disk.Onward.locate_eq [k.location.directory] honward htree
    (htree.at?_above hlocation (by simp)) hlocation, ?_⟩
  -- only the directories of the locations have been made
  rw [Option.eq_none_iff_forall_ne_some]
  intro node hnode
  rw [rootPlace, Disk.placeOf_congr hpartly.workingDirectory, hroot] at hnode
  obtain ⟨-, l, hl⟩ := hpartly.below _ _ (by simp) hnode
  exact absurd hl (by simp)

/-- Below a root whose path leads through the directory of a draft this directory is there,
although there is no draft.  Below a root whose path is nearly as long as a path can be a draft
cannot be made, but its directory is. -/
theorem layout_is_broken :
    (let s₀ := onEmptyDisk "d/staging/a-1.0.0/../.."
      ∃ s, OnDisk.setUp.perform s₀ = (.ok (), s) ∧
        ¬ IsLaidOut (run s [.list .staging]) (storedAfter s (fun _ => none) [.list .staging])) ∧
    (let s₀ := onEmptyDisk (slashes 4075)
      ∃ s, OnDisk.setUp.perform s₀ = (.ok (), s) ∧
        ∃ (call : Call) (failure : Failure), (∀ k ∈ call.keys, k.IsStorable) ∧
          (Action.perform call.action s).1 = .error failure ∧ call.after s ≠ s) := by
  constructor
  · intro s₀
    let s : OnDisk := ⟨s₀.root, [(["d", "nested"], .directory), (["d", "products"], .directory),
      (["d", "staging", "a-1.0.0"], .directory), (["d", "staging"], .directory),
      (["d"], .directory)], []⟩
    have hsetUp : OnDisk.setUp.perform s₀ = (.ok (), s) := by decide +kernel
    have hat : (run s [.list .staging]).disk.at?
        ((run s [.list .staging]).rootPlace ++ ["staging", "a-1.0.0"]) = some .directory := by
      decide +kernel
    refine ⟨s, hsetUp, fun h => ?_⟩
    -- nothing is stored
    have hstored : storedAfter s (fun _ => none) [.list .staging] = fun _ => none := by
      simp only [storedAfter, Call.entered]
      split <;> rfl
    rw [hstored] at h
    rcases h.only _ _ (by simp) hat with ⟨l, hl⟩ | ⟨k, content, hk, -⟩
    · exact absurd hl (by simp)
    · exact absurd hk (by simp)
  · intro s₀
    have hroot : Path.segments s₀.root = [] := segments_slashes 4075
    have hnul : '\x00' ∉ s₀.root.toList := nul_not_mem_slashes 4075
    have hsize : s₀.root.utf8ByteSize = 4075 := utf8ByteSize_slashes 4075
    have hwalk : s₀.disk.walk (s₀.disk.origin s₀.root) (Path.segments s₀.root) = .ok [] := by
      rw [hroot, Disk.walk_nil, Disk.origin]
      exact congrArg Except.ok (ite_self _)
    obtain ⟨s, hs, hsame⟩ := OnDisk.exists_setUp (s := s₀) (by decide) hwalk rfl hnul
      (by rw [hsize]; decide) fun l f => by simp [s₀, onEmptyDisk, Disk.at?]
    let r : Request := ⟨"a", "1.0.0", .staging, "@startuml\n[*] --> Idle\n@enduml\n"⟩
    have hk : r.key.IsStorable := by decide +kernel
    obtain ⟨-, p, hlocate, hfree⟩ := locate_of_slashes hs hk (by decide +kernel)
    refine ⟨s, hs, .create ⟨0, 0⟩ r, ?_⟩
    cases create_of_long ⟨0, 0⟩ hk hlocate hfree (by rw [hsame]; exact hnul) (by decide +kernel)
      (by rw [hsame, hsize]; decide +kernel) with
    | value _ _ _ hnever => exact hnever.elim
    | error failure s' hperform hmade =>
      replace hperform : (create ⟨0, 0⟩ r).perform s = (.error failure, s') := hperform
      have hcall : Action.perform (Call.create ⟨0, 0⟩ r).action s = (.error failure, s') := by
        rw [Call.action, Action.perform_bind, hperform]
      refine ⟨failure, ?_, by rw [hcall], fun hsame => ?_⟩
      · exact fun k hmem => List.mem_singleton.1 hmem ▸ hk
      · rw [Call.after, hcall] at hsame
        rw [show s' = s from hsame, hfree] at hmade
        exact absurd hmade (by simp)

end DiagramRegistry.Lifecycle
