import DiagramRegistry.Proofs.Lifecycle.OnDisk
import DiagramRegistry.Proofs.Repository.TidyOperations

/-
# The life cycle over a tidy repository

In a tidy repository an operation of the life cycle on a diagram that can be stored is carried out
as a whole or not at all.  It can only fail before it changes anything, as nothing stands in the way
of the changes themselves, so a failure leaves not even a directory behind.

* `Lifecycle.create_leaves`, `Lifecycle.update_leaves`, `Lifecycle.delete_leaves`,
  `Lifecycle.promote_leaves`: what the operations that change something leave behind.
-/
namespace DiagramRegistry.Lifecycle

open OnDisk

variable {s : OnDisk} {k : Key} {now : Instant} {name version content : String}

/-! ## The directory of a diagram -/

/-- The directory that a diagram is given, with the root in front. -/
lemma join_directoryOf (root : String) (hk : k.IsStorable) :
    Path.join root (directoryOf k) = Layout.diagramDirectory root k :=
  Path.join_join k.location.isEntryName_directory.slash k.location.isEntryName_directory.ne_empty
    hk.isEntryName_stem.slash

/-- On disk a directory is made below the root. -/
lemma perform_createDirectory (path : String) (s : OnDisk) :
    Action.perform (Store.createDirectory path) s =
      (OnDisk.ensureDirectory (Path.join s.root path)).perform s := by
  have hperform : Action.perform (Store.createDirectory path) s = Action.perform (do
      let root ← Action.ask fun s : OnDisk => .ok s.root
      OnDisk.ensureDirectory (Path.join root path)) s := rfl
  rw [hperform, Action.perform_bind, Action.perform_ask]

/-- A diagram is given its directory. -/
lemma leaves_ensureDirectory (h : Tidy s) (hk : k.IsStorable) :
    ∃ s', (ensureDirectory k).perform s = (.ok (), s') ∧
      Leaves s s.view (insert (k.location, k.stem) s.homes) s' := by
  unfold ensureDirectory
  rw [Action.perform_bind, Action.perform_ask]
  dsimp only
  rw [Action.perform_ite]
  split
  · rename_i hexists
    -- the diagram has a directory already
    change s.disk.isDirectory (Path.join s.root (directoryOf k)) = true at hexists
    rw [join_directoryOf s.root hk] at hexists
    obtain ⟨p, hfind⟩ := Disk.isDirectory_iff.1 hexists
    have hat := (Disk.find_eq_ok_iff.1 hfind).2.2.1
    rw [← Disk.placeOf_of_find hfind, Layout.placeOf_diagramDirectory hk.isSafe,
      if_neg hk.stem_ne_empty] at hat
    have hmem : (k.location, k.stem) ∈ s.homes := hat
    exact ⟨s, rfl, .refl s, h, (Set.insert_eq_of_mem hmem).symm⟩
  · obtain ⟨s', hs', hleaves⟩ := h.exists_ensureDirectory hk (h.onward_home hk)
    refine ⟨s', ?_, hleaves⟩
    rw [perform_createDirectory, join_directoryOf s.root hk]
    exact hs'

/-! ## Operations that change something -/

/-- Creating puts a document into a directory of its own. -/
lemma create_leaves (h : Tidy s) {r : Request} (hk : r.key.IsStorable) :
    Ensures (create now r) s
      (fun _ s' => Leaves s
        (Function.update s.view (r.key.location, r.key.stem) (some (.text r.content)))
        (insert (r.key.location, r.key.stem) s.homes) s')
      (fun _ s' => s' = s) := by
  unfold create
  refine Ensures.bind (Ensures.ask (fun _ _ => ?_) fun _ _ => rfl)
  refine Ensures.bind (Ensures.ask (fun present _ => ?_) fun _ _ => rfl)
  split
  · exact Ensures.fail rfl
  · obtain ⟨s₁, hs₁, hmade⟩ := leaves_ensureDirectory h hk
    refine Ensures.bind (.value () s₁ hs₁ ?_)
    refine Ensures.bind (validated_ensures _ _ _ fun d found hkey hcontent => ?_)
    replace hkey : d.key = r.key := hkey
    replace hcontent : d.content = r.content := hcontent
    obtain ⟨s₂, hs₂, hwritten⟩ := hmade.tidy.leaves_write now (d := d) (hkey ▸ hk)
    rw [hkey, hcontent] at hwritten
    refine Ensures.bind (.value () s₂ hs₂ (Ensures.pure ?_))
    have hboth := hmade.trans hwritten
    rw [hmade.view, hmade.homes, Set.insert_idem] at hboth
    exact hboth

/-- Updating replaces a document in its directory. -/
lemma update_leaves (h : Tidy s) (hk : k.IsStorable) :
    Ensures (update now k content) s
      (fun _ s' => Leaves s (Function.update s.view (k.location, k.stem) (some (.text content)))
        (insert (k.location, k.stem) s.homes) s')
      (fun _ s' => s' = s) := by
  unfold update
  split
  · exact Ensures.fail rfl
  · refine Ensures.bind (Ensures.ask (fun before _ => ?_) fun _ _ => rfl)
    refine Ensures.bind (validated_ensures _ _ _ fun d found hkey hcontent => ?_)
    obtain ⟨s', hs', hwritten⟩ := h.leaves_write now (d := d) (hkey ▸ hk)
    rw [hkey, hcontent] at hwritten
    exact Ensures.bind (.value () s' hs' (Ensures.pure hwritten))

/-- Deleting takes a document away with its directory. -/
lemma delete_leaves (h : Tidy s) (hk : k.IsStorable) :
    Ensures (delete k) s
      (fun _ s' => Leaves s (Function.update s.view (k.location, k.stem) none)
        (s.homes \ {(k.location, k.stem)}) s')
      (fun _ s' => s' = s) := by
  cases hview : s.view (k.location, k.stem) with
  | none => exact .error _ s (h.delete_eq_notFound hk hview) rfl
  | some c =>
    obtain ⟨s', hs', hleaves⟩ := h.leaves_delete hk hview
    exact .value () s' hs' hleaves

/-- Promoting moves a document from its directory to a new one. -/
lemma promote_leaves (h : Tidy s) (hk : (Key.staging name version).IsStorable) :
    Ensures (promote now name version) s
      (fun _ s' => ∃ c, s.view (.staging, Stem.join name version) = some c ∧
        Leaves s (Function.update
          (Function.update s.view (.staging, Stem.join name version) none)
          (.production, Stem.join name version) (some c))
        (insert (.production, Stem.join name version) s.homes \
          {(.staging, Stem.join name version)}) s')
      (fun _ s' => s' = s) := by
  have hpromoted : (Key.production name version).IsStorable :=
    hk.relocate (by simp [Key.staging]) (by simp)
  unfold promote
  refine Ensures.bind (Ensures.ask (fun d hd => ?_) fun _ _ => rfl)
  refine Ensures.bind (Ensures.ask (fun present hpresent => ?_) fun _ _ => rfl)
  split
  · exact Ensures.fail rfl
  · rename_i hfree
    refine Ensures.bind (validated_ensures _ _ _ fun d' found _ _ => ?_)
    dsimp only
    split
    · have hview := view_of_load hd
      have hcontains : s.contains (.production name version) = .ok present := hpresent
      have hnone : s.view (.production, Stem.join name version) = none := by
        rw [h.contains_eq hpromoted, Except.ok.injEq] at hcontains
        rw [← hcontains] at hfree
        exact Option.not_isSome_iff_eq_none.1 hfree
      obtain ⟨s', hs', hmoved⟩ := h.leaves_move hk hpromoted hview hnone
      exact Ensures.bind (.value () s' hs' (Ensures.pure ⟨_, hview, hmoved⟩))
    · exact Ensures.fail rfl

/-! ## Operations that change nothing -/

lemma validate_ensures (s : OnDisk) (k : Key) (strictness : Strictness) :
    Ensures (validate k strictness) s (fun _ s' => s' = s) (fun _ s' => s' = s) := by
  unfold validate
  refine Ensures.bind (Ensures.ask (fun d _ => ?_) fun _ _ => rfl)
  exact Ensures.bind (validated_ensures _ _ _ fun d' found _ _ => Ensures.pure rfl)

end DiagramRegistry.Lifecycle
