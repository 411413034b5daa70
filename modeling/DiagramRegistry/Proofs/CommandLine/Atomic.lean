import DiagramRegistry.CommandLine.Run
import DiagramRegistry.Proofs.Lifecycle.OnDisk
import DiagramRegistry.Proofs.Repository.PartialMap

/-
# Commands are all or nothing

A command chains several steps, any of which may fail: reading a file, making directories,
writing beside a diagram, renaming, cleaning up, and looking at the result.  When it ends with
exit code zero, the files of diagrams have changed as the command says and in no other way.
When it does not, they are as they were, with one exception: a promotion looks at the promoted
diagram by its path in the end, and if the path of the root leads through the directory of the
draft, this directory is gone by then.

* `CommandLine.command_ensures`: what a command does to the files of diagrams;
* `CommandLine.run_is_atomic`: what a command line does to them, by its exit code.
-/
namespace DiagramRegistry.CommandLine

open OnDisk

variable {s s' : OnDisk} {k : Key} {α β : Type}

/-! ## Tasks -/

section
variable {good : α → OnDisk → Prop} {bad : Problem → OnDisk → Prop}

lemma act_ensures {x : Action OnDisk α}
    (h : Ensures x s good fun failure s' => bad (.ofFailure failure) s') :
    Ensures (Task.act x) s good bad := by
  cases h with
  | value a s' hx hgood =>
    have hperform : x.perform s = (.ok a, s') := hx
    exact .value a s' (by simp [Task.act, StateT.run, hperform]) hgood
  | error failure s' hx hbad =>
    have hperform : x.perform s = (.error failure, s') := hx
    exact .error _ s' (by simp [Task.act, StateT.run, hperform]) hbad

lemma taskAsk_ensures {question : OnDisk → Except Problem α}
    (hgood : ∀ a, question s = .ok a → good a s)
    (hbad : ∀ p, question s = .error p → bad p s) : Ensures (Task.ask question) s good bad := by
  cases h : question s with
  | ok a => exact .value a s (congrArg (·, s) h) (hgood a h)
  | error p => exact .error p s (congrArg (·, s) h) (hbad p h)

/-- A question that has an answer leads on. -/
lemma look_ensures {question : OnDisk → α} (hgood : good (question s) s) :
    Ensures (Task.look question) s good bad :=
  taskAsk_ensures (fun _ h => Except.ok.inj h ▸ hgood) fun _ h => absurd h (by simp)

lemma summary_ensures {around : Surroundings} {d : Diagram} {good : Summary → OnDisk → Prop}
    (hgood : ∀ summary, good summary s) : Ensures (summary around d) s good bad :=
  look_ensures (hgood _)

end

/-! ## Problems -/

lemma status_ofFailure_ne (failure : Failure) : (Problem.ofFailure failure).status ≠ .ok := by
  cases failure <;> simp [Problem.ofFailure]

lemma code_eq_zero_iff {status : Status} : status.code = 0 ↔ status = .ok := by
  cases status <;> simp [Status.code]

/-! ## What commands do -/

/-- What a command does to the files of diagrams on a disk when it is carried out: the commands
that look at something do nothing, and the others change what they address. -/
def Command.Effect (disk : Disk) (before after : Location × String → Option Contents) :
    Command → Prop
  | .validate _ _ _ => after = before
  | .view _ _ _ => after = before
  | .list _ => after = before
  | .create name version file location => ∃ k content, addressed name version location = .ok k ∧
      disk.fileAt? (disk.placeOf file) = some (.text content) ∧
      before (k.location, k.stem) = none ∧
      after = Function.update before (k.location, k.stem) (some (.text content))
  | .update name version file location => ∃ k content, addressed name version location = .ok k ∧
      disk.fileAt? (disk.placeOf file) = some (.text content) ∧
      (before (k.location, k.stem)).isSome = true ∧
      after = Function.update before (k.location, k.stem) (some (.text content))
  | .delete name version location => ∃ k, addressed name version location = .ok k ∧
      (before (k.location, k.stem)).isSome = true ∧
      after = Function.update before (k.location, k.stem) none
  | .promote name version =>
      (before (.staging, Stem.join name version)).isSome = true ∧
      before (.production, Stem.join name version) = none ∧
      after = Function.update (Function.update before (.staging, Stem.join name version) none)
        (.production, Stem.join name version) (before (.staging, Stem.join name version))

/-- What a command does depends on the disk by the files that it has. -/
lemma Command.Effect.congr {disk disk' : Disk}
    {before after : Location × String → Option Contents} {c : Command}
    (h : c.Effect disk' before after)
    (hfiles : ∀ path, disk'.fileAt? (disk'.placeOf path) = disk.fileAt? (disk.placeOf path)) :
    c.Effect disk before after := by
  cases c with
  | create name version file location =>
    obtain ⟨k, content, hk, hfile, hrest⟩ := h
    exact ⟨k, content, hk, (hfiles file) ▸ hfile, hrest⟩
  | update name version file location =>
    obtain ⟨k, content, hk, hfile, hrest⟩ := h
    exact ⟨k, content, hk, (hfiles file) ▸ hfile, hrest⟩
  | validate | view | list | delete | promote => exact h

/-- A promotion was carried out, but the root is not found any more. -/
def OutOfReach (c : Command) (s s' : OnDisk) : Prop :=
  (∃ name version, c = .promote name version) ∧ c.Effect s.disk s.view s'.view ∧
    ".." ∈ Path.segments s.root ∧
    s'.disk.isDirectory (Layout.locationDirectory s.root .production) = false

/-- What is at the place of a diagram as a text can be loaded, if the root is found or has no
double dots in its path. -/
lemma exists_load_of_view {content : String} (htree : s.disk.IsTree) (hk : k.IsSafe)
    (hfollow : Disk.Followable (Layout.diagramPath s.root k))
    (hview : s.view (k.location, k.stem) = some (.text content))
    (hroot : ".." ∉ Path.segments s.root ∨ s.HasRoot) : ∃ d, s.load k = .ok d := by
  classical
  rw [← placed?_eq hk] at hview
  have hreached : s.reached? k = some (.text content) := by
    rcases hroot with hup | ⟨p, hw, -⟩
    · rw [reached?_eq htree hup hk, if_pos hfollow, hview]
    · obtain ⟨f, hf, hc⟩ := Disk.fileAt?_eq_some_iff.1 hview
      exact reached?_eq_some_iff.2 ⟨_, f, find_of_placed? htree hk hw hfollow hf, hc⟩
  obtain ⟨d, hd, -⟩ := exists_load_of_reached? hk hreached
  exact ⟨d, hd⟩

/-- Where such a text cannot be loaded, the directories of locations are not found, and the path
of the root has double dots. -/
lemma unreachable_of_load {content : String} {failure : Failure} (htree : s.disk.IsTree)
    (hk : k.IsSafe) (hfollow : Disk.Followable (Layout.diagramPath s.root k))
    (hview : s.view (k.location, k.stem) = some (.text content))
    (hload : s.load k = .error failure) :
    ".." ∈ Path.segments s.root ∧
      ∀ l, s.disk.isDirectory (Layout.locationDirectory s.root l) = false := by
  have hfar : ¬ (".." ∉ Path.segments s.root ∨ s.HasRoot) := fun hnear => by
    obtain ⟨d, hd⟩ := exists_load_of_view htree hk hfollow hview hnear
    rw [hload] at hd
    exact absurd hd (by simp)
  rw [not_or, not_not] at hfar
  refine ⟨hfar.1, fun l => Bool.eq_false_iff.2 fun hdir => ?_⟩
  obtain ⟨p, hp⟩ := Disk.isDirectory_iff.1 hdir
  exact hfar.2 (hasRoot_of_find hp)

lemma fileText_eq_ok {file content : String} (h : fileText file s = .ok content) :
    s.disk.fileAt? (s.disk.placeOf file) = some (.text content) := by
  unfold fileText at h
  split at h
  · rename_i content' f hread
    obtain rfl := Except.ok.inj h
    exact Disk.fileAt?_of_readText hread
  · exact absurd h (by simp)

lemma status_of_fileText {file : String} {p : Problem} (h : fileText file s = .error p) :
    p.status ≠ .ok := by
  unfold fileText at h
  split at h
  · exact absurd h (by simp)
  · rw [← Except.error.inj h]
    simp

/-! ## Single commands -/

/-- How a command ends well: what it does is done, and only a command that changes nothing has
objections. -/
def Done (c : Command) (s : OnDisk) (r : Report) (s' : OnDisk) : Prop :=
  s'.root = s.root ∧ c.Effect s.disk s.view s'.view ∧ (r.isGood = true ∨ s'.view = s.view)

/-- How a command ends with a problem: nothing is done, or it was done and is out of reach. -/
def Undone (c : Command) (s : OnDisk) (p : Problem) (s' : OnDisk) : Prop :=
  s'.root = s.root ∧ p.status ≠ .ok ∧ (s'.view = s.view ∨ OutOfReach c s s')

variable {c : Command}

/-- A problem that comes before anything was changed. -/
lemma undone_of_same {p : Problem} (hp : p.status ≠ .ok) : Undone c s p s := ⟨rfl, hp, .inl rfl⟩

/-- A failure that has left the files of diagrams as they were. -/
lemma undone_of_failure {failure : Failure} (h : Becomes s s' s.view) :
    Undone c s (.ofFailure failure) s' :=
  ⟨h.root, status_ofFailure_ne failure, .inl h.view⟩

lemma status_of_locationOf {location : Option String} {p : Problem}
    (h : locationOf location = .error p) : p.status ≠ .ok := by
  unfold locationOf at h
  split at h
  · exact absurd h (by simp)
  · rename_i text
    cases hparse : Location.parse text with
    | ok l => simp [hparse, Except.mapError] at h
    | error failure =>
      rw [hparse] at h
      rw [← Except.error.inj h]
      exact status_ofFailure_ne failure

lemma status_of_addressed {name : String} {version location : Option String} {p : Problem}
    (h : addressed name version location = .error p) : p.status ≠ .ok := by
  unfold addressed at h
  cases hl : locationOf location with
  | error p' =>
    rw [hl] at h
    obtain rfl := Except.error.inj h
    exact status_of_locationOf hl
  | ok l =>
    rw [hl] at h
    change keyOf name version l = .error p at h
    unfold keyOf at h
    split at h
    · exact absurd h (by simp)
    · rw [← Except.error.inj h]
      simp
    · exact absurd h (by simp)
    · rw [← Except.error.inj h]
      simp

lemma lift_ensures {good : α → OnDisk → Prop} {bad : Problem → OnDisk → Prop}
    {answer : Except Problem α} (hgood : ∀ a, answer = .ok a → good a s)
    (hbad : ∀ p, answer = .error p → bad p s) : Ensures (Task.lift answer) s good bad :=
  taskAsk_ensures hgood hbad

/-- Validating a file changes nothing. -/
lemma validateFile_ensures (settings : Settings) (file : String) (strictness : Option String)
    (identity : Option (String × String)) (s : OnDisk) :
    Ensures (validateFile settings file strictness identity) s (fun _ s' => s' = s)
      (fun p s' => s' = s ∧ p.status ≠ .ok) := by
  have hstrictness (text : String) (p : Problem) (h : strictnessOf text = .error p) :
      p.status ≠ .ok := by
    unfold strictnessOf at h
    split at h
    · exact absurd h (by simp)
    · rw [← Except.error.inj h]
      simp
  unfold validateFile
  refine Ensures.bind (look_ensures ?_)
  split
  · refine Ensures.bind (taskAsk_ensures (fun content _ => ?_)
      fun p h => ⟨rfl, status_of_fileText h⟩)
    cases strictness with
    | none => exact Ensures.bind (Ensures.pure (look_ensures rfl))
    | some text =>
      exact Ensures.bind (lift_ensures (fun _ _ => look_ensures rfl)
        fun p h => ⟨rfl, hstrictness text p h⟩)
  · exact lift_ensures (fun _ h => absurd h (by simp)) fun p h => ⟨rfl, by
      rw [← Except.error.inj h]
      simp⟩

lemma mapM_summary_ensures (around : Surroundings) (ds : List Diagram) (s : OnDisk)
    {bad : Problem → OnDisk → Prop} :
    Ensures (ds.mapM (summary around)) s (fun _ s' => s' = s) bad := by
  induction ds with
  | nil => exact Ensures.pure rfl
  | cons d ds ih =>
    rw [List.mapM_cons]
    refine Ensures.bind (summary_ensures fun _ => Ensures.bind (ih.mono ?_ fun _ _ h => h))
    rintro _ _ rfl
    exact Ensures.pure rfl

/-- Reading the document of a command comes before anything is done. -/
lemma ask_fileText_ensures {good : String → OnDisk → Prop} {file : String}
    (hgood : ∀ content, s.disk.fileAt? (s.disk.placeOf file) = some (.text content) →
      good content s) :
    Ensures (Task.ask (fileText file)) s good (Undone c s) :=
  taskAsk_ensures (fun content h => hgood content (fileText_eq_ok h))
    fun _ h => undone_of_same (status_of_fileText h)

/-- So does making a key of the arguments. -/
lemma lift_addressed_ensures {good : Key → OnDisk → Prop} {name : String}
    {version location : Option String}
    (hgood : ∀ k, addressed name version location = .ok k → good k s) :
    Ensures (Task.lift (addressed name version location)) s good (Undone c s) :=
  lift_ensures hgood fun _ h => undone_of_same (status_of_addressed h)

/-- Looking at a diagram changes nothing either. -/
lemma act_get_ensures {good : Diagram → OnDisk → Prop} (k : Key) (hgood : ∀ d, good d s) :
    Ensures (Task.act (Lifecycle.get k)) s good (Undone c s) := by
  refine act_ensures ((Lifecycle.get_ensures s k).mono ?_ ?_)
  · rintro d _ ⟨rfl, -⟩
    exact hgood d
  · rintro failure _ ⟨rfl, -⟩
    exact undone_of_failure (.refl _)

/-- A promotion that was carried out looks at the promoted diagram in the end.  It is at its
place, so only the way to it can be missing. -/
lemma act_get_promoted_ensures {good : Diagram → OnDisk → Prop} {name version content : String}
    (htree : s'.disk.IsTree) (hroot : s'.root = s.root)
    (hsafe : (Key.production name version).IsSafe)
    (hfollow : Disk.Followable (Layout.diagramPath s.root (.production name version)))
    (hview : s'.view (.production, Stem.join name version) = some (.text content))
    (heffect : (Command.promote name version).Effect s.disk s.view s'.view)
    (hgood : ∀ d, good d s') :
    Ensures (Task.act (Lifecycle.get (.production name version))) s' good
      (Undone (.promote name version) s) := by
  refine act_ensures ((Lifecycle.get_ensures s' (.production name version)).mono ?_ ?_)
  · rintro d _ ⟨rfl, -⟩
    exact hgood d
  · rintro failure _ ⟨rfl, hload⟩
    rw [← hroot] at hfollow
    obtain ⟨hup, hfar⟩ := unreachable_of_load htree hsafe hfollow hview hload
    rw [hroot] at hup hfar
    exact ⟨hroot, status_ofFailure_ne failure,
      .inr ⟨⟨name, version, rfl⟩, heffect, hup, hfar .production⟩⟩

/-- What the single commands do, in a repository that is set up. -/
theorem command_ensures (around : Surroundings) (settings : Settings) (c : Command)
    (htree : s.disk.IsTree) (hroot : s.HasRoot) :
    Ensures (c.run around settings) s (Done c s) (Undone c s) := by
  cases c with
  | validate file strictness identity =>
    refine (validateFile_ensures settings file strictness identity s).mono ?_ ?_
    · rintro _ _ rfl
      exact ⟨rfl, rfl, .inr rfl⟩
    · rintro p _ ⟨rfl, hp⟩
      exact undone_of_same hp
  | create name version file location =>
    refine Ensures.bind (ask_fileText_ensures fun content hfile => ?_)
    refine Ensures.bind (lift_addressed_ensures fun k hk => ?_)
    refine Ensures.bind (act_ensures ((Lifecycle.create_ensures htree hroot _).mono ?_
      fun _ _ h => undone_of_failure h))
    rintro ⟨d, found⟩ s' ⟨hnone, hdone⟩
    refine Ensures.bind (summary_ensures fun _ => Ensures.pure ?_)
    exact ⟨hdone.root, ⟨k, content, hk, hfile, hnone, hdone.view⟩, .inl rfl⟩
  | update name version file location =>
    refine Ensures.bind (ask_fileText_ensures fun content hfile => ?_)
    refine Ensures.bind (lift_addressed_ensures fun k hk => ?_)
    refine Ensures.bind (act_ensures ((Lifecycle.update_ensures s k content).mono ?_
      fun _ _ h => undone_of_failure h))
    rintro ⟨d, found⟩ s' ⟨hsome, hdone⟩
    refine Ensures.bind (summary_ensures fun _ => Ensures.pure ?_)
    exact ⟨hdone.root, ⟨k, content, hk, hfile, hsome, hdone.view⟩, .inl rfl⟩
  | view name version location =>
    refine Ensures.bind (lift_addressed_ensures fun k _ => ?_)
    refine Ensures.bind (act_get_ensures k fun d => ?_)
    exact Ensures.bind (summary_ensures fun _ => Ensures.pure ⟨rfl, rfl, .inl rfl⟩)
  | list location =>
    refine Ensures.bind (lift_ensures (fun l _ => ?_)
      fun p h => undone_of_same (status_of_locationOf h))
    refine Ensures.bind (act_ensures ((Lifecycle.list_ensures s l).mono ?_ ?_))
    · rintro ds _ rfl
      refine Ensures.bind ((mapM_summary_ensures around ds _).mono ?_ fun _ _ h => h)
      rintro _ _ rfl
      exact Ensures.pure ⟨rfl, rfl, .inl rfl⟩
    · rintro failure _ rfl
      exact undone_of_failure (.refl _)
  | delete name version location =>
    refine Ensures.bind (lift_addressed_ensures fun k hk => ?_)
    refine Ensures.bind (act_get_ensures k fun d => ?_)
    refine Ensures.bind (summary_ensures fun _ => ?_)
    refine Ensures.bind (act_ensures ((Lifecycle.delete_ensures s k).mono ?_
      fun _ _ h => undone_of_failure h))
    rintro _ s' ⟨hsome, hdone⟩
    exact Ensures.pure ⟨hdone.root, ⟨k, hk, hsome, hdone.view⟩, .inl rfl⟩
  | promote name version =>
    refine Ensures.bind (act_ensures ((Lifecycle.promote_ensures htree around.now name version).mono
      ?_ fun _ _ h => undone_of_failure h))
    rintro ⟨k, found⟩ s' ⟨hk, hsafe, hfollow, ⟨content, hcontent⟩, hnone, hdone⟩
    obtain rfl : k = .production name version := hk
    have heffect : (Command.promote name version).Effect s.disk s.view s'.view :=
      ⟨by rw [hcontent]; rfl, hnone, hdone.view⟩
    have hview : s'.view (.production, Stem.join name version) = some (.text content) := by
      rw [hdone.view, Function.update_self, hcontent]
    refine Ensures.bind (act_get_promoted_ensures (hdone.tree htree) hdone.root hsafe hfollow hview
      heffect fun d => ?_)
    exact Ensures.bind (summary_ensures fun _ => Ensures.pure ⟨hdone.root, heffect, .inl rfl⟩)

/-! ## Command lines -/

/-- The root that an invocation works below, if the environment makes settings. -/
def Invocation.root? (around : Surroundings) (i : Invocation) : Option String :=
  (Settings.ofLookup around.valueOf).toOption.map fun settings => (settings.withRoot i.root).root

/-- The exit code of a command line: help is a success, and arguments that do not fit a command
are not. -/
def exitCode : Except Refusal Outcome → Nat
  | .error .help => 0
  | .error .usage => Status.usage.code
  | .ok outcome => outcome.status.code

/-- Setting the repository up leaves the files of diagrams and all other files alone. -/
lemma effect_of_extends {disk : Disk} (h : Disk.Extends s.disk disk) :
    ({ s with disk } : OnDisk).view = s.view ∧
      ∀ path, disk.fileAt? (disk.placeOf path) = s.disk.fileAt? (s.disk.placeOf path) :=
  ⟨(Becomes.of_disk h.becomes fun _ => rfl).view, fun path => by
    rw [h.becomes.files, Disk.placeOf_congr h.workingDirectory]⟩

/-- What the single commands do, together with setting the repository up. -/
lemma task_ensures (around : Surroundings) (settings : Settings) (c : Command)
    (htree : s.disk.IsTree) :
    Ensures (Task.act setUp >>= fun _ => c.run around settings) s (Done c s) (Undone c s) := by
  refine Ensures.bind (act_ensures ((setUp_ensures s).mono ?_ ?_))
  · rintro _ _ ⟨disk, rfl, hext, hroot⟩
    obtain ⟨hview, hfiles⟩ := effect_of_extends hext
    refine (command_ensures around settings c (hext.tree htree) hroot).mono ?_ ?_
    · rintro r s' ⟨hsame, heffect, hgood⟩
      rw [hview] at heffect hgood
      exact ⟨hsame, heffect.congr hfiles, hgood⟩
    · rintro p s' ⟨hsame, hp, hkept | ⟨hpromote, heffect, hup, hgone⟩⟩
      · exact ⟨hsame, hp, .inl (hkept.trans hview)⟩
      · rw [hview] at heffect
        exact ⟨hsame, hp, .inr ⟨hpromote, heffect.congr hfiles, hup, hgone⟩⟩
  · rintro failure _ ⟨disk, rfl, hext⟩
    exact ⟨rfl, status_ofFailure_ne failure, .inl (effect_of_extends hext).1⟩

/-- Command lines are all or nothing on a disk that is a tree.  With exit code zero the files of
diagrams have changed as the command says; with another they have not, unless a promotion was
carried out and took a directory away that the path of the root leads through. -/
theorem run_is_atomic (around : Surroundings) (args : List String) (disk : Disk)
    (htree : disk.IsTree) :
    let (result, disk') := run around args disk
    match Invocation.parse args with
    | .error _ => disk' = disk
    | .ok i =>
      match i.root? around with
      | none => exitCode result ≠ 0 ∧ disk' = disk
      | some root =>
        let before : OnDisk := ⟨root, disk⟩
        let after : OnDisk := ⟨root, disk'⟩
        (exitCode result = 0 → i.command.Effect disk before.view after.view) ∧
          (exitCode result ≠ 0 → after.view = before.view ∨ OutOfReach i.command before after) := by
  unfold run
  cases Invocation.parse args with
  | error refusal => rfl
  | ok i =>
    dsimp only
    unfold Invocation.run Invocation.root?
    cases Settings.ofLookup around.valueOf with
    | error failure =>
      exact ⟨fun h => status_ofFailure_ne failure (code_eq_zero_iff.1 h), rfl⟩
    | ok settings =>
      dsimp only [Except.toOption, Option.map_some]
      generalize settings.withRoot i.root = settings
      cases task_ensures (s := ⟨settings.root, disk⟩) around settings i.command htree with
      | value r s' h hdone =>
        obtain ⟨root, disk'⟩ := s'
        obtain ⟨rfl, heffect, hgood⟩ := hdone
        rw [h]
        refine ⟨fun _ => heffect, fun hcode => .inl (hgood.resolve_left fun hr => hcode ?_)⟩
        simp [exitCode, Outcome.ofReport, hr, Status.code]
      | error p s' h hundone =>
        obtain ⟨root, disk'⟩ := s'
        obtain ⟨rfl, hp, hkept⟩ := hundone
        rw [h]
        exact ⟨fun hcode => absurd (code_eq_zero_iff.1 hcode) hp, fun _ => hkept⟩

/-- An environment without variables, at the beginning of time. -/
def Surroundings.plain : Surroundings := ⟨⟨0, 0⟩, fun _ => "", fun _ => none⟩

/-- A draft that is promoted with exit code zero is moved. -/
theorem oneDraft_is_promoted :
    let s := oneDraft "d"
    let ended := run .plain ["--root", "d", "promote", "a", "1.0.0"] s.disk
    exitCode ended.1 = 0 ∧
      (Command.promote "a" "1.0.0").Effect s.disk s.view (⟨"d", ended.2⟩ : OnDisk).view := by
  intro s
  have heffect (args : List String) (i : Invocation)
      (hi : (Invocation.parse args).toOption = some i)
      (hroot : i.root? .plain = some s.root) (hcode : exitCode (run .plain args s.disk).1 = 0) :
      i.command.Effect s.disk s.view (⟨s.root, (run .plain args s.disk).2⟩ : OnDisk).view := by
    have h := run_is_atomic .plain args s.disk (by decide +kernel)
    cases hparse : Invocation.parse args with
    | error refusal => simp [hparse, Except.toOption] at hi
    | ok i' =>
      obtain rfl : i' = i := by simpa [hparse, Except.toOption] using hi
      rw [hparse] at h
      dsimp only at h
      rw [hroot] at h
      exact h.1 hcode
  have hcode : exitCode (run .plain ["--root", "d", "promote", "a", "1.0.0"] s.disk).1 = 0 := by
    decide +kernel
  exact ⟨hcode, heffect _ ⟨some "d", false, .promote "a" "1.0.0"⟩ (by decide +kernel) rfl hcode⟩

/-- Through the directory of the draft the path of the root leads nowhere once the draft is
promoted: the exit code says that something went wrong, and yet the draft has moved. -/
theorem promotion_out_of_reach :
    let s := oneDraft "d/staging/a-1.0.0/../.."
    let ended := run .plain ["--root", s.root, "promote", "a", "1.0.0"] s.disk
    s.disk.IsTree ∧ exitCode ended.1 = 65 ∧
      s.view (.staging, "a-1.0.0") = some (.text "@startuml\n[*] --> Idle\n@enduml\n") ∧
      (⟨s.root, ended.2⟩ : OnDisk).view (.staging, "a-1.0.0") = none := by decide +kernel

end DiagramRegistry.CommandLine
