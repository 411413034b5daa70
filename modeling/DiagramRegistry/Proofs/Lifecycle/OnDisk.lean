import DiagramRegistry.Proofs.Lifecycle.InMemory
import DiagramRegistry.Proofs.Repository.Listing

/-
# The life cycle over a repository on disk

What the operations of the life cycle do to the files of diagrams is said by a pair of
conditions, one on how they end with a value and one on how they end with an error (`Ensures`).
The conditions are put together along the steps of an operation.  Where an operation ends with
an error, all files of diagrams are as they were.

* `Lifecycle.create_ensures`, `Lifecycle.update_ensures`, `Lifecycle.delete_ensures`,
  `Lifecycle.promote_ensures`: what the operations that change something do;
* `Lifecycle.get_ensures`, `Lifecycle.list_ensures`: the others change nothing.
-/
namespace DiagramRegistry

/-- Carried out on a state, an action ends with a value and a state for which the first
condition holds, or with an error and a state for which the second one does. -/
inductive Ensures {σ ε α : Type} (x : ExceptT ε (StateM σ) α) (s : σ) (good : α → σ → Prop)
    (bad : ε → σ → Prop) : Prop where
  /-- There is a value. -/
  | value (a : α) (s' : σ) (h : x.run.run s = (.ok a, s')) (hgood : good a s')
  /-- There is an error. -/
  | error (e : ε) (s' : σ) (h : x.run.run s = (.error e, s')) (hbad : bad e s')

namespace Ensures

variable {σ ε α β : Type} {x : ExceptT ε (StateM σ) α} {f : α → ExceptT ε (StateM σ) β} {s : σ}
  {good good' : α → σ → Prop} {bad bad' : ε → σ → Prop}

lemma pure {a : α} (h : good a s) : Ensures (Pure.pure a : ExceptT ε (StateM σ) α) s good bad :=
  .value a s rfl h

/-- In a sequence the second action starts where the first has ended with a value. -/
lemma bind {good : β → σ → Prop} (h : Ensures x s (fun a s' => Ensures (f a) s' good bad) bad) :
    Ensures (x >>= f) s good bad := by
  have hrun : (x >>= f).run.run s =
      match x.run.run s with
      | (.ok a, s') => (f a).run.run s'
      | (.error e, s') => (.error e, s') := by
    rw [ExceptT.run_bind, StateT.run_bind]
    rcases StateT.run (ExceptT.run x) s with ⟨_ | _, _⟩ <;> rfl
  cases h with
  | error e s' hx hbad => exact .error e s' (by rw [hrun, hx]) hbad
  | value a s' hx hgood =>
    cases hgood with
    | value b s'' hf hgood => exact .value b s'' (by rw [hrun, hx]; exact hf) hgood
    | error e s'' hf hbad => exact .error e s'' (by rw [hrun, hx]; exact hf) hbad

lemma mono (h : Ensures x s good bad) (hgood : ∀ a s', good a s' → good' a s')
    (hbad : ∀ e s', bad e s' → bad' e s') : Ensures x s good' bad' := by
  cases h with
  | value a s' hx h => exact .value a s' hx (hgood a s' h)
  | error e s' hx h => exact .error e s' hx (hbad e s' h)

lemma ask {good : α → σ → Prop} {bad : Failure → σ → Prop} {question : σ → Except Failure α}
    (hgood : ∀ a, question s = .ok a → good a s)
    (hbad : ∀ failure, question s = .error failure → bad failure s) :
    Ensures (Action.ask question) s good bad := by
  cases h : question s with
  | ok a => exact .value a s (congrArg (·, s) h) (hgood a h)
  | error failure => exact .error failure s (congrArg (·, s) h) (hbad failure h)

lemma fail {good : α → σ → Prop} {bad : Failure → σ → Prop} {failure : Failure}
    (h : bad failure s) : Ensures (Action.fail failure : Action σ α) s good bad :=
  .error failure s rfl h

end Ensures

namespace OnDisk

variable {s s' : OnDisk} {k : Key} {l : Location}

/-- The path of the root leads to a directory. -/
def HasRoot (s : OnDisk) : Prop :=
  ∃ p, s.disk.walk (s.disk.origin s.root) (Path.segments s.root) = .ok p ∧
    s.disk.at? p = some .directory

lemma hasRoot_of_find {p : Place} {n : Node}
    (h : s.disk.find (Layout.locationDirectory s.root l) = .ok (p, n)) : s.HasRoot := by
  obtain ⟨-, hw, -, -⟩ := Disk.find_eq_ok_iff.1 h
  rw [Layout.locationDirectory, Disk.origin_join (Layout.not_mem_directory l),
    Path.segments_join (Layout.not_mem_directory l) (Layout.directory_ne l).1] at hw
  obtain ⟨r, hr, hstep⟩ := Disk.walk_append_eq_ok_iff.1 hw
  exact ⟨r, hr, (Disk.step_eq_ok_iff.1 (Disk.walk_singleton_eq_ok_iff.1 hstep)).1⟩

lemma HasRoot.mono {disk : Disk} (h : s.HasRoot) (hkeep : Disk.KeepsDirectories s.disk disk) :
    HasRoot { s with disk } := by
  obtain ⟨p, hw, hp⟩ := h
  refine ⟨p, ?_, hkeep.directory p hp⟩
  rw [Disk.origin_congr hkeep.workingDirectory]
  exact Disk.walk_mono hkeep.directory hw hp

/-- Where the root is found, a diagram does not exist only if its place is free, provided that
its path can be followed. -/
lemma view_eq_none_of_contains (htree : s.disk.IsTree) (hroot : s.HasRoot) (hk : k.IsSafe)
    (hfollow : Disk.Followable (Layout.diagramPath s.root k)) (h : s.contains k = .ok false) :
    s.view (k.location, k.stem) = none := by
  obtain ⟨p, hw, -⟩ := hroot
  rw [contains, Layout.checkedPath_eq_ok_iff.2 ⟨hk, rfl⟩] at h
  rw [← placed?_eq hk, Option.eq_none_iff_forall_ne_some]
  intro c hc
  obtain ⟨f, hf, -⟩ := Disk.fileAt?_eq_some_iff.1 hc
  have hfile := Disk.isFile_iff.2 ⟨_, f, find_of_placed? htree hk hw hfollow hf⟩
  simp [Except.map, hfile] at h

/-- A diagram that is loaded is the text in its file. -/
lemma view_of_load {d : Diagram} (h : s.load k = .ok d) :
    s.view (k.location, k.stem) = some (.text d.content) := by
  obtain ⟨hk, p, f, hfind, hf, -⟩ := load_eq_ok_iff.1 h
  rw [← placed?_eq hk, placed?_of_find hfind, hf]

/-! ## Operations of the store -/

lemma write_ensures (now : Instant) (d : Diagram) (s : OnDisk) :
    Ensures (write now d) s
      (fun _ s' => d.key.IsSafe ∧ Disk.Followable (Layout.diagramPath s.root d.key) ∧
        Becomes s s' (Function.update s.view (d.key.location, d.key.stem)
          (some (.text d.content))))
      (fun _ s' => Becomes s s' s.view) := by
  rcases write_cases now d s with ⟨s', h, hk, hfollow, -, hdone⟩ | ⟨failure, s', h, hkept⟩
  · exact .value () s' h ⟨hk, hfollow, hdone⟩
  · exact .error failure s' h hkept

lemma move_ensures (k : Key) (destination : Location) (s : OnDisk) (htree : s.disk.IsTree) :
    Ensures (move k.name k.version k.location destination) s
      (fun _ s' => k.IsSafe ∧
        Disk.Followable (Layout.diagramPath s.root (k.relocate destination)) ∧
        s.view (destination, k.stem) = none ∧
        Becomes s s' (Function.update (Function.update s.view (k.location, k.stem) none)
          (destination, k.stem) (s.view (k.location, k.stem))))
      (fun _ s' => Becomes s s' s.view) := by
  rcases move_cases k destination s htree with
    ⟨s', h, hk, -, hfollow, -, hnone, hdone⟩ | ⟨failure, s', h, hkept⟩
  · exact .value () s' h ⟨hk, hfollow, hnone, hdone⟩
  · exact .error failure s' h hkept

lemma ensureDirectory_ensures (path : String) (s : OnDisk) :
    Ensures (ensureDirectory path) s
      (fun _ s' => ∃ disk, s' = { s with disk } ∧ Disk.Extends s.disk disk ∧
        (path ≠ "" → ∃ p, disk.find path = .ok (p, .directory)))
      (fun _ s' => ∃ disk, s' = { s with disk } ∧ Disk.Extends s.disk disk) := by
  have hrun := perform_ensureDirectory path s
  have hext := Disk.ensureDirectory_extends path s.disk
  cases h : (s.disk.ensureDirectory path).1 with
  | error e =>
    rw [h] at hrun
    exact .error (.io e) _ hrun ⟨_, rfl, hext⟩
  | ok u =>
    rw [h] at hrun
    exact .value u _ hrun ⟨_, rfl, hext, fun hne => Disk.exists_find_of_ensureDirectory hne h⟩

/-- Making the directories of locations adds directories, and then the path of the root leads to
one. -/
lemma makeDirectories_ensures (ls : List Location) (s : OnDisk) :
    Ensures (makeDirectories ls) s
      (fun _ s' => ∃ disk, s' = { s with disk } ∧ Disk.Extends s.disk disk ∧
        (ls ≠ [] → s'.HasRoot))
      (fun _ s' => ∃ disk, s' = { s with disk } ∧ Disk.Extends s.disk disk) := by
  induction ls generalizing s with
  | nil => exact .pure ⟨s.disk, rfl, .refl _, fun hne => absurd rfl hne⟩
  | cons l ls ih =>
    have hrun := perform_makeDirectories_cons l ls s
    have hext := Disk.ensureDirectory_extends (Layout.locationDirectory s.root l) s.disk
    rcases hmake : s.disk.ensureDirectory (Layout.locationDirectory s.root l) with ⟨e | _, disk⟩ <;>
      rw [hmake] at hrun hext
    · exact .error (.io e) _ hrun ⟨disk, rfl, hext⟩
    · have hok : (s.disk.ensureDirectory (Layout.locationDirectory s.root l)).1 = .ok () := by
        rw [hmake]
      obtain ⟨p, hp⟩ := Disk.exists_find_of_ensureDirectory (Layout.locationDirectory_ne _ _) hok
      rw [hmake] at hp
      have hroot : HasRoot { s with disk } := hasRoot_of_find (s := { s with disk }) hp
      cases ih { s with disk } with
      | value a s' hrest hgood =>
        obtain ⟨disk', rfl, hext', -⟩ := hgood
        exact .value a _ (hrun.trans hrest)
          ⟨disk', rfl, hext.trans hext', fun _ => hroot.mono hext'.keepsDirectories⟩
      | error e s' hrest hbad =>
        obtain ⟨disk', rfl, hext'⟩ := hbad
        exact .error e _ (hrun.trans hrest) ⟨disk', rfl, hext.trans hext'⟩

/-- Setting a repository up adds directories, and then the path of the root leads to one. -/
lemma setUp_ensures (s : OnDisk) :
    Ensures setUp s
      (fun _ s' => ∃ disk, s' = { s with disk } ∧ Disk.Extends s.disk disk ∧ s'.HasRoot)
      (fun _ s' => ∃ disk, s' = { s with disk } ∧ Disk.Extends s.disk disk) := by
  rw [setUp_eq]
  refine (makeDirectories_ensures Location.all s).mono ?_ fun _ _ h => h
  rintro _ _ ⟨disk, rfl, hext, hroot⟩
  exact ⟨disk, rfl, hext, hroot (by decide)⟩

end OnDisk

/-! ## Operations of the life cycle -/

namespace Lifecycle

open OnDisk

variable {s : OnDisk} {k : Key} {now : Instant} {name version content : String}

lemma ensureDirectory_becomes (k : Key) (s : OnDisk) :
    Ensures (ensureDirectory k) s
      (fun _ s' => ∃ disk, s' = { s with disk } ∧ Disk.Extends s.disk disk)
      (fun _ s' => ∃ disk, s' = { s with disk } ∧ Disk.Extends s.disk disk) := by
  unfold ensureDirectory
  refine Ensures.bind (Ensures.ask (fun present _ => ?_) fun _ h => absurd h (by simp))
  split
  · exact Ensures.pure ⟨s.disk, rfl, .refl _⟩
  · refine Ensures.bind (Ensures.ask (fun root hroot => ?_) fun _ h => absurd h (by simp))
    exact (OnDisk.ensureDirectory_ensures _ s).mono
      (fun _ _ ⟨disk, hs, hext, _⟩ => ⟨disk, hs, hext⟩) fun _ _ h => h

/-- A validated diagram has the key and the content that it had before. -/
lemma validated_ensures {good : Diagram × Findings → OnDisk → Prop} {bad : Failure → OnDisk → Prop}
    (strictness : Strictness) (d : Diagram) (s : OnDisk)
    (h : ∀ d' found, d'.key = d.key → d'.content = d.content → good (d', found) s) :
    Ensures (validated strictness d) s good bad := by
  refine Ensures.ask (fun result hresult => ?_) fun _ h => absurd h (by simp)
  have hfst := run_fst (some (Store.catalogue s)) strictness d
  rw [Except.ok.inj hresult] at hfst
  obtain ⟨d', found⟩ := result
  obtain rfl : d' = _ := hfst
  exact h _ found rfl rfl

/-- Creating puts the document where no diagram was. -/
lemma create_ensures (htree : s.disk.IsTree) (hroot : s.HasRoot) (r : Request) :
    Ensures (create now r) s
      (fun _ s' => s.view (r.key.location, r.key.stem) = none ∧
        Becomes s s' (Function.update s.view (r.key.location, r.key.stem)
          (some (.text r.content))))
      (fun _ s' => Becomes s s' s.view) := by
  unfold create
  refine Ensures.bind (Ensures.ask (fun _ _ => ?_) fun _ _ => .refl s)
  refine Ensures.bind (Ensures.ask (fun present hpresent => ?_) fun _ _ => .refl s)
  split
  · exact Ensures.fail (.refl s)
  · rename_i hfree
    obtain rfl : present = false := by simpa using hfree
    refine Ensures.bind ((ensureDirectory_becomes r.key s).mono ?_ ?_)
    · rintro _ _ ⟨disk, rfl, hext⟩
      have hmade : Becomes s { s with disk } s.view := .of_disk hext.becomes fun _ => rfl
      refine Ensures.bind (validated_ensures _ _ _ fun d' found hkey hcontent => ?_)
      refine Ensures.bind ((write_ensures now d' { s with disk }).mono ?_ ?_)
      · rintro _ s' ⟨hk, hfollow, hdone⟩
        rw [hkey] at hk hfollow hdone
        rw [hcontent, hmade.view] at hdone
        exact Ensures.pure
          ⟨view_eq_none_of_contains htree hroot hk hfollow hpresent, hmade.trans hdone⟩
      · rintro _ s' hkept
        rw [hmade.view] at hkept
        exact hmade.trans hkept
    · rintro _ _ ⟨disk, rfl, hext⟩
      exact .of_disk hext.becomes fun _ => rfl

/-- Updating replaces the document of a diagram that was there. -/
lemma update_ensures (s : OnDisk) (k : Key) (content : String) :
    Ensures (update now k content) s
      (fun _ s' => (s.view (k.location, k.stem)).isSome = true ∧
        Becomes s s' (Function.update s.view (k.location, k.stem) (some (.text content))))
      (fun _ s' => Becomes s s' s.view) := by
  unfold update
  split
  · exact Ensures.fail (.refl s)
  · refine Ensures.bind (Ensures.ask (fun before hbefore => ?_) fun _ _ => .refl s)
    have hpresent := view_of_load hbefore
    refine Ensures.bind (validated_ensures _ _ _ fun d' found hkey hcontent => ?_)
    refine Ensures.bind ((write_ensures now d' s).mono ?_ fun _ _ h => h)
    rintro _ s' ⟨-, -, hdone⟩
    rw [hkey, hcontent] at hdone
    exact Ensures.pure ⟨by rw [hpresent]; rfl, hdone⟩

/-- Looking at a diagram changes nothing. -/
lemma get_ensures (s : OnDisk) (k : Key) :
    Ensures (get k) s (fun d s' => s' = s ∧ s.view (k.location, k.stem) = some (.text d.content))
      (fun failure s' => s' = s ∧ s.load k = .error failure) := by
  unfold get
  refine Ensures.bind (Ensures.ask (fun d hd => ?_) fun failure h => ⟨rfl, h⟩)
  have hview := view_of_load hd
  exact Ensures.pure ⟨rfl, hview⟩

/-- Deleting takes a diagram away that was there. -/
lemma delete_ensures (s : OnDisk) (k : Key) :
    Ensures (delete k) s
      (fun _ s' => (s.view (k.location, k.stem)).isSome = true ∧
        Becomes s s' (Function.update s.view (k.location, k.stem) none))
      (fun _ s' => Becomes s s' s.view) := by
  rcases delete_cases k s with ⟨s', h, -, -, hsome, hdone⟩ | ⟨failure, h⟩
  · exact .value () s' h ⟨hsome, hdone⟩
  · exact .error failure s h (.refl s)

lemma list_ensures (s : OnDisk) (location : Location) :
    Ensures (list location) s (fun _ s' => s' = s) (fun _ s' => s' = s) := by
  unfold list
  refine Ensures.bind (Ensures.ask (fun ds _ => ?_) fun _ _ => rfl)
  exact Ensures.pure rfl

/-- Promoting moves the document of a draft, which is a text, to production, where nothing
was. -/
lemma promote_ensures (htree : s.disk.IsTree) (now : Instant) (name version : String) :
    Ensures (promote now name version) s
      (fun answer s' => answer.1 = .production name version ∧
        (Key.production name version).IsSafe ∧
        Disk.Followable (Layout.diagramPath s.root (.production name version)) ∧
        (∃ content, s.view (.staging, Stem.join name version) = some (.text content)) ∧
        s.view (.production, Stem.join name version) = none ∧
        Becomes s s' (Function.update
          (Function.update s.view (.staging, Stem.join name version) none)
          (.production, Stem.join name version) (s.view (.staging, Stem.join name version))))
      (fun _ s' => Becomes s s' s.view) := by
  unfold promote
  refine Ensures.bind (Ensures.ask (fun d hd => ?_) fun _ _ => .refl s)
  refine Ensures.bind (Ensures.ask (fun present _ => ?_) fun _ _ => .refl s)
  split
  · exact Ensures.fail (.refl s)
  · refine Ensures.bind (validated_ensures _ _ _ fun d' found _ _ => ?_)
    dsimp only
    by_cases hvalid : found.isValid = true
    · rw [if_pos hvalid]
      have hview := view_of_load hd
      refine Ensures.bind ((move_ensures (.staging name version) .production s htree).mono ?_
        fun _ _ h => h)
      rintro _ s' ⟨hk, hfollow, hnone, hdone⟩
      exact Ensures.pure ⟨rfl, hk.relocate _, hfollow, ⟨_, hview⟩, hnone, hdone⟩
    · rw [if_neg hvalid]
      exact Ensures.fail (.refl s)

end Lifecycle

end DiagramRegistry
