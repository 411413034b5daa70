import DiagramRegistry.Proofs.Disk.Confined
import DiagramRegistry.Proofs.Identity.Admissible
import DiagramRegistry.Proofs.Reference.Agreement
import DiagramRegistry.Proofs.Repository.View

/-
# Operations on given keys stay in the directories of the diagrams

An operation that is about given keys is refused if the name or the version of a key could lead
out of the directory of the diagram.  If it is not, it is about a path that goes on from the root to
the location, to the stem and to the file.  It changes nothing elsewhere, but for directories that
are made on the way there, and if it only asks, what else is on the disk has no influence on the
answer.

* `Layout.components_diagramPath`: the path of the file of a diagram;
* `OnDisk.KeyedOperation.refused`: keys that are not safe;
* `OnDisk.KeyedOperation.confined`: what an operation on other keys can change;
* `OnDisk.KeyedOperation.question`: what its answer depends on.
-/
namespace DiagramRegistry

open Disk

/-! ## The paths of diagrams -/

namespace Layout

variable {root q : String} {k : Key} {d : Disk} {p : Place}

/-- A key that is not safe is refused. -/
lemma exists_checkedPath_error (root : String) (h : ¬ k.IsSafe) :
    ∃ reason, checkedPath root k = .error (.repository reason) := by
  have hsafe (value field : String) : ensureSafe value field = .ok () ∨
      ∃ reason, ensureSafe value field = .error (.repository reason) := by
    unfold ensureSafe
    split
    · exact .inr ⟨_, rfl⟩
    · exact .inl rfl
  unfold checkedPath
  rcases hsafe k.name "name" with hn | ⟨reason, hn⟩
  · rcases hsafe k.version "version" with hv | ⟨reason, hv⟩
    · exact absurd ⟨ensureSafe_eq_ok_iff.1 hn, ensureSafe_eq_ok_iff.1 hv⟩ h
    · exact ⟨reason, by rw [hn, hv]; rfl⟩
  · exact ⟨reason, by rw [hn]; rfl⟩

/-- The path of a diagram's file goes on from the root by three entries. -/
lemma components_diagramPath (root : String) (hk : k.IsSafe) (hstem : k.stem ≠ "") :
    Path.components (diagramPath root k) = Path.components root ++
      [.entry k.location.directory, .entry k.stem, .entry (k.stem ++ ".puml")] := by
  rw [components_diagramPath_eq root hk, place, if_neg hstem]
  rfl

/-- The path of the directory of a file is that of the diagram's directory, up to dots. -/
lemma isBeginning_of_parent? (hk : k.IsSafe) (h : Path.parent? (diagramPath root k) = some q) :
    Path.IsBeginning (diagramPath root k) q (Path.segments (diagramDirectory root k)) := by
  have hne : Path.segments (diagramDirectory root k) ≠ [] := by
    rw [diagramDirectory, segments_directory root _ hk.not_mem_stem]
    simp
  obtain ⟨q', hq'⟩ := Path.exists_parent (segments_diagramPath_eq root hk)
    (fileName_ne "." (by decide)) hne
  obtain rfl : q' = q := Option.some.inj (hq'.parent.symm.trans h)
  exact hq'.toIsBeginning

lemma origin_diagramDirectory (hk : k.IsSafe) :
    d.origin (diagramDirectory root k) = d.origin (diagramPath root k) := by
  rw [origin_diagramPath hk, diagramDirectory, origin_join hk.not_mem_stem, locationDirectory,
    origin_join (not_mem_directory _)]

lemma placeOf_of_parent? (hk : k.IsSafe) (h : Path.parent? (diagramPath root k) = some q) :
    d.placeOf q = d.placeOf (diagramDirectory root k) := by
  rw [placeOf_of_isBeginning (isBeginning_of_parent? hk h), placeOf, origin_diagramDirectory hk]

/-- What is on the way to the directory of a file is on the way to the diagram's directory. -/
lemma onWay_of_parent? (hk : k.IsSafe) (h : Path.parent? (diagramPath root k) = some q)
    (hp : d.OnWay q p) : d.OnWay (diagramDirectory root k) p := by
  obtain ⟨first, hfirst, hplace⟩ := hp.exists_of_isBeginning (isBeginning_of_parent? hk h)
  exact ⟨first, hfirst, by rwa [origin_diagramDirectory hk]⟩

/-- The path of the directory of a file ends in the stem. -/
lemma exists_segments_of_parent? (hk : k.IsSafe) (hstem : k.stem ≠ "")
    (h : Path.parent? (diagramPath root k) = some q) :
    ∃ init, Path.segments q = init ++ [k.stem] := by
  have hdirectory : (Path.segments (diagramDirectory root k)).filter (· ≠ ".") =
      (Path.segments root).filter (· ≠ ".") ++ [k.location.directory] ++ [k.stem] := by
    rw [diagramDirectory, segments_directory root _ hk.not_mem_stem, if_neg hstem]
    simp [(directory_ne k.location).2.1, hk.stem_ne_dots.1]
  rcases (isBeginning_of_parent? hk h).segments with hseg | ⟨-, hseg⟩
  · exact ⟨_, hseg.trans hdirectory⟩
  · rw [hdirectory, ← List.cons_append] at hseg
    exact ⟨_, hseg⟩

end Layout

/-! ## What a path leads to -/

namespace Disk

variable {d d' : Disk} {path : String}

/-- What a path leads to, wherever it is. -/
def leadsTo (d : Disk) (path : String) : Except OsError Node := (d.find path).map Prod.snd

lemma leadsTo_eq_file_iff {f : File} :
    d.leadsTo path = .ok (.file f) ↔ ∃ p, d.find path = .ok (p, .file f) := by
  unfold leadsTo
  cases d.find path with
  | error e => simp [Except.map]
  | ok r => simp [Except.map, Prod.ext_iff]

lemma isFile_iff_leadsTo : d.isFile path = true ↔ ∃ f, d.leadsTo path = .ok (.file f) := by
  simp only [isFile_iff, leadsTo_eq_file_iff]
  exact exists_comm

lemma isFile_congr (h : d'.leadsTo path = d.leadsTo path) : d'.isFile path = d.isFile path := by
  rw [Bool.eq_iff_iff, isFile_iff_leadsTo, isFile_iff_leadsTo, h]

lemma readText_eq (d : Disk) (path : String) :
    d.readText path = d.leadsTo path >>= fun
      | .directory => .error .isDirectory
      | .file f =>
        match f.contents with
        | .text content => .ok (content, f)
        | .binary _ => .error .notText := by
  unfold readText leadsTo
  cases d.find path <;> rfl

lemma readText_congr (h : d'.leadsTo path = d.leadsTo path) :
    d'.readText path = d.readText path := by
  rw [readText_eq, readText_eq, h]

end Disk

namespace OnDisk

variable {s s' t : OnDisk} {ks : List Key} {k : Key} {α β : Type}

/-! ## Changes in the directories of diagrams -/

/-- The place is in the directory of one of the diagrams, or is the directory itself. -/
def InHome (s : OnDisk) (ks : List Key) (p : Place) : Prop :=
  ∃ k ∈ ks, s.disk.placeOf s.root ++ [k.location.directory, k.stem] <+: p

/-- The place is on the way to the directory of one of the diagrams. -/
def OnWayHome (s : OnDisk) (ks : List Key) (p : Place) : Prop :=
  ∃ k ∈ ks, s.disk.OnWay (Layout.diagramDirectory s.root k) p

/-- One repository comes from another by changes in the directories of the diagrams, for which
directories may have been made on the way. -/
structure Confined (ks : List Key) (s s' : OnDisk) : Prop where
  /-- The root is the same. -/
  root : s'.root = s.root
  /-- The disk is changed in the directories of the diagrams only. -/
  disk : ChangesWithin (s.InHome ks) (s.OnWayHome ks) s.disk s'.disk

namespace Confined

lemma refl (ks : List Key) (s : OnDisk) : Confined ks s s := ⟨rfl, .refl _⟩

/-- A sequence changes what its actions change, also when it stops at a failure. -/
lemma bind {x : Action OnDisk α} {f : α → Action OnDisk β} (hx : Confined ks s (x.perform t).2)
    (hf : ∀ a t', x.perform t = (.ok a, t') → Confined ks s t' →
      Confined ks s ((f a).perform t').2) :
    Confined ks s ((x >>= f).perform t).2 := by
  rw [Action.perform_bind]
  rcases hperform : x.perform t with ⟨failure | a, t'⟩ <;> rw [hperform] at hx
  · exact hx
  · exact hf a t' hperform hx

/-- A question changes nothing. -/
lemma bind_ask {question : OnDisk → Except Failure α} {f : α → Action OnDisk β}
    (h : Confined ks s t) (hf : ∀ a, question t = .ok a → Confined ks s ((f a).perform t).2) :
    Confined ks s ((Action.ask question >>= f).perform t).2 :=
  bind h fun a t' hperform _ => by
    obtain ⟨ha, rfl⟩ := Prod.mk.inj hperform
    exact hf a ha

lemma change {f : Disk → Except OsError Disk} (h : Confined ks s t)
    (hf : ∀ disk, f t.disk = .ok disk →
      ChangesWithin (s.InHome ks) (s.OnWayHome ks) t.disk disk) :
    Confined ks s ((change f).perform t).2 := by
  rw [perform_change]
  split
  · rename_i disk hdisk
    exact ⟨h.root, h.disk.trans (hf disk hdisk)⟩
  · exact h

section
variable (h : Confined ks s t) (hmem : k ∈ ks) (hk : k.IsSafe) (hstem : k.stem ≠ "")
include h hmem hk hstem

/-- The place of the directory of a diagram. -/
lemma inHome_of_prefix {p : Place}
    (hp : t.disk.placeOf (Layout.diagramDirectory s.root k) <+: p) : s.InHome ks p := by
  rw [placeOf_congr h.disk.workingDirectory, Layout.placeOf_diagramDirectory hk,
    if_neg hstem] at hp
  exact ⟨k, hmem, hp⟩

lemma inHome_document : s.InHome ks (t.disk.placeOf (Layout.diagramPath s.root k)) := by
  refine h.inHome_of_prefix hmem hk hstem ?_
  rw [Layout.placeOf_diagramPath_eq hk]
  exact List.prefix_append _ _

lemma inHome_beside :
    s.InHome ks (t.disk.placeOf (Path.withExtension (Layout.diagramPath s.root k) "tmp")) := by
  refine h.inHome_of_prefix hmem hk hstem ?_
  rw [Layout.placeOf_beside hk]
  exact List.prefix_append _ _

lemma inHome_parent {q : String} (hq : Path.parent? (Layout.diagramPath s.root k) = some q) :
    s.InHome ks (t.disk.placeOf q) := by
  refine h.inHome_of_prefix hmem hk hstem ?_
  rw [Layout.placeOf_of_parent? hk hq]

/-- For a document its directory is made. -/
lemma ensureParent :
    Confined ks s ((ensureParent (Layout.diagramPath s.root k)).perform t).2 := by
  unfold OnDisk.ensureParent
  split
  · exact h
  · rename_i q hq
    obtain ⟨init, hseg⟩ := Layout.exists_segments_of_parent? hk hstem hq
    rw [perform_ensureDirectory]
    refine ⟨h.root, h.disk.trans (.ensureDirectory hseg hk.stem_ne_dots.1 fun p hp => ?_)⟩
    rw [onWay_congr h.disk.workingDirectory] at hp
    exact ⟨k, hmem, Layout.onWay_of_parent? hk hq hp⟩

/-- A directory that a document has left is removed. -/
lemma removeEmptyParent :
    Confined ks s ((removeEmptyParent (Layout.diagramPath s.root k)).perform t).2 := by
  unfold OnDisk.removeEmptyParent
  split
  · exact h
  · rename_i q hq
    refine h.change fun disk hdisk => ?_
    split at hdisk
    · exact absurd hdisk (by simp)
    · exact .of_removeDirectory hdisk (h.inHome_parent hmem hk hstem hq)
    · obtain rfl := Except.ok.inj hdisk
      exact .refl _

end

/-- A document is written beside its place and then renamed. -/
lemma write {now : Instant} {d : Diagram} (hk : d.key.IsSafe) (hstem : d.key.stem ≠ "") :
    Confined [d.key] s ((write now d).perform s).2 := by
  have hmem : d.key ∈ [d.key] := List.mem_singleton_self _
  refine bind_ask (.refl _ s) fun path hpath => ?_
  obtain ⟨-, rfl⟩ := Layout.checkedPath_eq_ok_iff.1 hpath
  refine bind ((refl _ s).ensureParent hmem hk hstem) fun _ t _ ht => ?_
  refine bind (ht.change fun disk hdisk => ?_) fun _ t' _ ht' => ht'.change fun disk hdisk => ?_
  · exact .of_writeFile hdisk (ht.inHome_beside hmem hk hstem)
  · exact .of_renameFile hdisk (ht'.inHome_beside hmem hk hstem)
      (ht'.inHome_document hmem hk hstem)

/-- A file is moved from one directory to the other. -/
lemma move {name version : String} {origin destination : Location}
    (hk : (Key.mk name version origin).IsSafe) (hstem : (Key.mk name version origin).stem ≠ "") :
    Confined [⟨name, version, origin⟩, ⟨name, version, destination⟩] s
      ((move name version origin destination).perform s).2 := by
  have hk' : (Key.mk name version destination).IsSafe := hk.relocate destination
  have hmem : Key.mk name version origin ∈
      [Key.mk name version origin, ⟨name, version, destination⟩] := by simp
  have hmem' : Key.mk name version destination ∈
      [Key.mk name version origin, ⟨name, version, destination⟩] := by simp
  refine bind_ask (.refl _ s) fun path hpath => ?_
  obtain ⟨-, rfl⟩ := Layout.checkedPath_eq_ok_iff.1 hpath
  refine bind_ask (.refl _ s) fun path hpath => ?_
  obtain ⟨-, rfl⟩ := Layout.checkedPath_eq_ok_iff.1 hpath
  refine bind_ask (.refl _ s) fun present _ => ?_
  split
  · refine bind_ask (.refl _ s) fun taken _ => ?_
    split
    · exact .refl _ s
    · refine bind ((refl _ s).ensureParent hmem' hk' hstem) fun _ t _ ht => ?_
      refine bind (ht.change fun disk hdisk => ?_) fun _ t' _ ht' =>
        ht'.removeEmptyParent hmem hk hstem
      exact .of_renameFile hdisk (ht.inHome_document hmem hk hstem)
        (ht.inHome_document hmem' hk' hstem)
  · exact .refl _ s

/-- A file is removed. -/
lemma delete (hk : k.IsSafe) (hstem : k.stem ≠ "") :
    Confined [k] s ((delete k).perform s).2 := by
  have hmem : k ∈ [k] := List.mem_singleton_self _
  refine bind_ask (.refl _ s) fun path hpath => ?_
  obtain ⟨-, rfl⟩ := Layout.checkedPath_eq_ok_iff.1 hpath
  refine bind ?_ fun _ t _ ht => ht.removeEmptyParent hmem hk hstem
  rw [Action.perform_of]
  split
  · rename_i disk hdisk
    exact ⟨rfl, .of_removeFile hdisk ((refl _ s).inHome_document hmem hk hstem)⟩
  · exact .refl _ s

end Confined

/-! ## What an answer depends on -/

lemma contains_congr (hroot : t.root = s.root)
    (h : t.disk.leadsTo (Layout.diagramPath s.root k) =
      s.disk.leadsTo (Layout.diagramPath s.root k)) : t.contains k = s.contains k := by
  rw [OnDisk.contains, OnDisk.contains, hroot]
  cases hpath : Layout.checkedPath s.root k with
  | error failure => rfl
  | ok path =>
    obtain ⟨-, rfl⟩ := Layout.checkedPath_eq_ok_iff.1 hpath
    exact congrArg Except.ok (isFile_congr h)

lemma load_congr (hroot : t.root = s.root)
    (h : t.disk.leadsTo (Layout.diagramPath s.root k) =
      s.disk.leadsTo (Layout.diagramPath s.root k)) : t.load k = s.load k := by
  rw [OnDisk.load, OnDisk.load, hroot]
  cases hpath : Layout.checkedPath s.root k with
  | error failure => rfl
  | ok path =>
    obtain ⟨-, rfl⟩ := Layout.checkedPath_eq_ok_iff.1 hpath
    simp only [bind, Except.bind, readText_congr h]

/-! ## Operations on given keys -/

/-- The operations that are about given keys. -/
inductive KeyedOperation where
  /-- Ask whether a diagram exists. -/
  | contains (k : Key)
  /-- Read a document. -/
  | read (k : Key)
  /-- Load a diagram. -/
  | load (k : Key)
  /-- Store a diagram. -/
  | write (now : Instant) (d : Diagram)
  /-- Move a diagram to another location. -/
  | move (now : Instant) (name version : String) (origin destination : Location)
  /-- Remove a diagram. -/
  | delete (k : Key)

/-- What an operation on given keys replies. -/
inductive Reply where
  /-- Whether a diagram exists. -/
  | existence (present : Bool)
  /-- A document. -/
  | document (content : String)
  /-- A diagram. -/
  | diagram (d : Diagram)
  /-- It is done. -/
  | done

namespace KeyedOperation

/-- The keys that an operation is about. -/
def keys : KeyedOperation → List Key
  | contains k | read k | load k | delete k => [k]
  | write _ d => [d.key]
  | move _ name version origin destination =>
    [⟨name, version, origin⟩, ⟨name, version, destination⟩]

/-- The operation only asks. -/
def IsQuestion : KeyedOperation → Prop
  | contains _ | read _ | load _ => True
  | write _ _ | move _ _ _ _ _ | delete _ => False

/-- The operation on a repository on disk. -/
def action : KeyedOperation → Action OnDisk Reply
  | contains k => .ask fun s => ((Store.catalogue s).contains k).map .existence
  | read k => .ask fun s => ((Store.catalogue s).read k).map .document
  | load k => .ask fun s => (Store.load k s).map .diagram
  | write now d => do
    Store.write now d
    return .done
  | move now name version origin destination => do
    Store.move now name version origin destination
    return .done
  | delete k => do
    Store.delete k
    return .done

variable {op : KeyedOperation}

/-- The key of the diagram that an operation is about to begin with. -/
def subject : KeyedOperation → Key
  | contains k | read k | load k | delete k => k
  | write _ d => d.key
  | move _ name version origin _ => ⟨name, version, origin⟩

lemma subject_mem_keys (op : KeyedOperation) : op.subject ∈ op.keys := by
  cases op <;> exact List.mem_cons_self

/-- All keys of an operation have the name and the version of its first one. -/
lemma forall_isSafe_iff : (∀ k ∈ op.keys, k.IsSafe) ↔ op.subject.IsSafe := by
  cases op with
  | move now name version origin destination =>
    refine ⟨fun h => h _ List.mem_cons_self, fun h k hk => ?_⟩
    rcases List.mem_pair.1 hk with rfl | rfl
    · exact h
    · exact h.relocate destination
  | contains | read | load | write | delete => simp [keys, subject]

/-- What begins with the path of a diagram fails if the path is refused, and what would come
after it is not done. -/
lemma perform_checkedPath_of_refused {failure : Failure} (f : String → Action OnDisk α)
    (g : α → Action OnDisk β) (h : Layout.checkedPath s.root k = .error failure) :
    ((Action.ask (fun s => Layout.checkedPath s.root k) >>= f) >>= g).perform s =
      (.error failure, s) := by
  rw [Action.perform_bind, Action.perform_bind, Action.perform_ask, h]

/-- An operation whose path is refused fails and changes nothing. -/
lemma perform_of_refused {failure : Failure}
    (h : Layout.checkedPath s.root op.subject = .error failure) :
    op.action.perform s = (.error failure, s) := by
  cases op with
  | contains k =>
    change Layout.checkedPath s.root k = _ at h
    change ((s.contains k).map _, s) = _
    rw [OnDisk.contains, h]
    rfl
  | read k =>
    change Layout.checkedPath s.root k = _ at h
    change (((s.load k).map _).map _, s) = _
    rw [OnDisk.load, h]
    rfl
  | load k =>
    change Layout.checkedPath s.root k = _ at h
    change ((s.load k).map _, s) = _
    rw [OnDisk.load, h]
    rfl
  | write | move | delete => exact perform_checkedPath_of_refused _ _ h

/-- An operation about a key that is not safe is refused by the repository, and nothing is
changed. -/
theorem refused (op : KeyedOperation) (h : ¬ ∀ k ∈ op.keys, k.IsSafe) (s : OnDisk) :
    ∃ reason, op.action.perform s = (.error (.repository reason), s) := by
  rw [forall_isSafe_iff] at h
  obtain ⟨reason, hpath⟩ := Layout.exists_checkedPath_error s.root h
  exact ⟨reason, perform_of_refused hpath⟩

/-- Any other operation makes its changes in the directories of its diagrams. -/
theorem confined (op : KeyedOperation) (hsafe : ∀ k ∈ op.keys, k.IsSafe)
    (hstem : ∀ k ∈ op.keys, k.stem ≠ "") (s : OnDisk) :
    Confined op.keys s (op.action.perform s).2 := by
  cases op with
  | contains k => exact .refl _ s
  | read k => exact .refl _ s
  | load k => exact .refl _ s
  | write now d =>
    have hmem : d.key ∈ [d.key] := List.mem_singleton_self _
    exact .bind (.write (hsafe _ hmem) (hstem _ hmem)) fun _ _ _ h => h
  | move now name version origin destination =>
    have hmem : Key.mk name version origin ∈
        (move now name version origin destination).keys := List.mem_cons_self
    exact .bind (.move (hsafe _ hmem) (hstem _ hmem)) fun _ _ _ h => h
  | delete k =>
    have hmem : k ∈ [k] := List.mem_singleton_self _
    exact .bind (.delete (hsafe _ hmem) (hstem _ hmem)) fun _ _ _ h => h

/-- A question changes nothing, and the answer depends on what the path of the diagram leads to
and on nothing else. -/
theorem question (op : KeyedOperation) (hquestion : op.IsQuestion) (hroot : t.root = s.root)
    (hsame : t.disk.leadsTo (Layout.diagramPath s.root op.subject) =
      s.disk.leadsTo (Layout.diagramPath s.root op.subject)) :
    (op.action.perform s).2 = s ∧ (op.action.perform t).1 = (op.action.perform s).1 := by
  cases op with
  | contains k =>
    refine ⟨rfl, ?_⟩
    change (t.contains k).map _ = (s.contains k).map _
    rw [contains_congr (k := k) hroot hsame]
  | read k =>
    refine ⟨rfl, ?_⟩
    change ((t.load k).map _).map _ = ((s.load k).map _).map _
    rw [load_congr (k := k) hroot hsame]
  | load k =>
    refine ⟨rfl, ?_⟩
    change (t.load k).map _ = (s.load k).map _
    rw [load_congr (k := k) hroot hsame]
  | write | move | delete => exact hquestion.elim

end KeyedOperation

end OnDisk

end DiagramRegistry
