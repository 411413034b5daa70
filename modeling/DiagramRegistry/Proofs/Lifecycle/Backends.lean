import DiagramRegistry.Proofs.Lifecycle.Alike
import DiagramRegistry.Proofs.Repository.SetUp

/-
# The two kinds of store are interchangeable

A session is answered alike by an empty store in memory and by a repository on disk that was set up
where nothing lay below its root, as long as the keys are admissible and no reference is named by
dots.  The times of diagrams are excepted, and the references in listings.

This needs a root whose path does not lead through what lies below it, as operations make and
remove directories there, and whose path leaves room for those of the diagrams.

* `Lifecycle.sameAnswers_of_mirrors`: sessions on stores of which one mirrors the other;
* `Lifecycle.backends_agree`: sessions on new stores;
* `Lifecycle.backends_differ`: roots for which they are not answered alike.
-/
namespace DiagramRegistry.Lifecycle

variable {m : Memory} {s : OnDisk} {now : Instant} {k : Key}

/-! ## Sessions -/

/-- The keys that a call is about. -/
def Call.keys : Call → List Key
  | .create _ request => [request.key]
  | .get key | .update _ key _ | .delete key | .validate key _ => [key]
  | .list _ => []
  | .promote _ name version => [.staging name version, .production name version]

/-- The documents that a call is to store. -/
def Call.contents : Call → List String
  | .create _ request => [request.content]
  | .update _ _ content => [content]
  | _ => []

/-- A call about admissible keys, with documents whose references are not named by dots. -/
structure Call.IsAdmissible (call : Call) : Prop where
  /-- The keys are admissible. -/
  keys : ∀ k ∈ call.keys, k.IsAdmissible
  /-- The references of the documents are not named by dots. -/
  contents : ∀ content ∈ call.contents, HasPlainReferences content

instance (call : Call) : Decidable call.IsAdmissible :=
  decidable_of_iff ((∀ k ∈ call.keys, k.IsAdmissible) ∧
      ∀ content ∈ call.contents, HasPlainReferences content)
    ⟨fun ⟨hkeys, hcontents⟩ => ⟨hkeys, hcontents⟩, fun h => ⟨h.keys, h.contents⟩⟩

/-- An answer without times, and in a listing without references. -/
def Answer.timeless : Answer → Answer
  | .stored d found => .stored d.timeless found
  | .diagram d => .diagram d.timeless
  | .diagrams ds => .diagrams (ds.map fun d => { d.timeless with references := [] })
  | .removed => .removed
  | .findings found => .findings found
  | .promoted key found => .promoted key found

/-- A listing without times and references is made of what it shows. -/
lemma timeless_diagrams {ds ds' : List Diagram}
    (h : ds.map Mirrors.listed = ds'.map Mirrors.listed) :
    (Answer.diagrams ds).timeless = (Answer.diagrams ds').timeless := by
  have hshown : ∀ ds : List Diagram, (Answer.diagrams ds).timeless =
      .diagrams ((ds.map Mirrors.listed).map fun e => ⟨e.1, e.2, [], ⟨0, 0⟩, ⟨0, 0⟩⟩) := fun ds => by
    rw [Answer.timeless, List.map_map]
    rfl
  rw [hshown, hshown, h]

/-- The call, made at another time. -/
def Call.at (now : Instant) : Call → Call
  | .create _ request => .create now request
  | .get key => .get key
  | .update _ key content => .update now key content
  | .delete key => .delete key
  | .list location => .list location
  | .validate key strictness => .validate key strictness
  | .promote _ name version => .promote now name version

/-- Every call is answered alike, at whatever times it is made. -/
theorem call_alike (h : Mirrors m s) {call : Call} (hcall : call.IsAdmissible) (now' : Instant) :
    EndAlike (fun answer answer' => answer.timeless = answer'.timeless) m s call.action
      (call.at now').action := by
  cases call with
  | create now r =>
    have hk : r.key.IsAdmissible := hcall.keys _ (by simp [Call.keys])
    have hplain := hcall.contents r.content (by simp [Call.contents])
    refine (create_alike h now now' hk hplain).bind fun v w m' s' hvw h' => .pure ?_ h'
    rw [Answer.timeless, Answer.timeless, hvw.1, hvw.2]
  | get k =>
    have hk : k.IsAdmissible := hcall.keys _ (by simp [Call.keys])
    refine (get_alike h hk).bind fun d d' m' s' hd h' => .pure ?_ h'
    rw [Answer.timeless, Answer.timeless, hd]
  | update now k content =>
    have hk : k.IsAdmissible := hcall.keys _ (by simp [Call.keys])
    have hplain := hcall.contents content (by simp [Call.contents])
    refine (update_alike h now now' hk hplain).bind fun v w m' s' hvw h' => .pure ?_ h'
    rw [Answer.timeless, Answer.timeless, hvw.1, hvw.2]
  | delete k =>
    have hk : k.IsAdmissible := hcall.keys _ (by simp [Call.keys])
    exact (delete_alike h hk).bind fun _ _ m' s' _ h' => .pure rfl h'
  | list l =>
    exact (list_alike h l).bind fun ds ds' m' s' hds h' => .pure (timeless_diagrams hds) h'
  | validate k strictness =>
    have hk : k.IsAdmissible := hcall.keys _ (by simp [Call.keys])
    refine (validate_alike h strictness hk).bind fun found found' m' s' hfound h' => .pure ?_ h'
    rw [hfound]
  | promote now name version =>
    have hk : (Key.staging name version).IsAdmissible := hcall.keys _ (by simp [Call.keys])
    refine (promote_alike h now now' hk).bind fun v w m' s' hvw h' => .pure ?_ h'
    rw [hvw]

/-- The answers to the calls of a session. -/
def answers {σ : Type} [Store σ] (s : σ) : List Call → List (Except Failure Answer)
  | [] => []
  | call :: calls => (Action.perform call.action s).1 :: answers (call.after s) calls

/-- A session on a store in memory and one on a store on disk have the same answers, up to times
and the references in listings. -/
def SameAnswers (m : Memory) (calls : List Call) (s : OnDisk) (calls' : List Call) : Prop :=
  (answers m calls).map (Except.map Answer.timeless) =
    (answers s calls').map (Except.map Answer.timeless)

instance (m : Memory) (calls : List Call) (s : OnDisk) (calls' : List Call) :
    Decidable (SameAnswers m calls s calls') := inferInstanceAs (Decidable (_ = _))

/-- The answers are not the same if the first call fails on disk only. -/
lemma not_sameAnswers_of_failure {call call' : Call} {calls calls' : List Call} {failure : Failure}
    (hs : (Action.perform call'.action s).1 = .error failure)
    (hm : (Action.perform call.action m).1.toBool = true) :
    ¬ SameAnswers m (call :: calls) s (call' :: calls') := by
  intro h
  have hfirst := (List.cons.inj h).1
  rw [hs] at hfirst
  cases hanswer : (Action.perform call.action m).1 with
  | error failure' =>
    rw [hanswer] at hm
    exact absurd hm (by simp [Except.toBool])
  | ok answer =>
    rw [hanswer] at hfirst
    exact absurd hfirst (by simp [Except.map])

/-- Sessions are answered alike, at whatever times their calls are made. -/
theorem sameAnswers_of_mirrors (h : Mirrors m s) {calls calls' : List Call}
    (hcalls : ∀ call ∈ calls, call.IsAdmissible)
    (hsame : List.Forall₂ (fun call call' => ∃ now, call' = Call.at now call) calls calls') :
    SameAnswers m calls s calls' := by
  induction hsame generalizing m s with
  | nil => rfl
  | @cons call call' calls calls' hcall _ ih =>
    rw [List.forall_mem_cons] at hcalls
    obtain ⟨now, rfl⟩ := hcall
    simp only [SameAnswers, answers, List.map_cons, Call.after]
    cases call_alike h hcalls.1 now with
    | value answer answer' m' s' hm hs hanswers h' =>
      rw [hm, hs, ih h' hcalls.2, Except.map, Except.map, hanswers]
    | failure failure m' s' hm hs h' => rw [hm, hs, ih h' hcalls.2]

/-! ## Roots without room -/

lemma nul_not_mem_join {base name : String} (hname : Disk.IsEntryName name)
    (hbase : '\x00' ∉ base.toList) : '\x00' ∉ (Path.join base name).toList := by
  intro hmem
  rcases Path.mem_toList_join hname.slash hmem with hmem | hmem | hmem
  · exact hbase hmem
  · exact absurd hmem (by decide)
  · exact hname.nul hmem

lemma nul_not_mem_diagramDirectory {root : String} (hk : k.IsStorable)
    (hnul : '\x00' ∉ root.toList) : '\x00' ∉ (Layout.diagramDirectory root k).toList :=
  nul_not_mem_join hk.isEntryName_stem (nul_not_mem_join k.location.isEntryName_directory hnul)

lemma le_utf8ByteSize_diagramDirectory (root : String) (hk : k.IsStorable) :
    root.utf8ByteSize + k.location.directory.utf8ByteSize + k.stem.utf8ByteSize ≤
      (Layout.diagramDirectory root k).utf8ByteSize := by
  have hlocation : root.utf8ByteSize + k.location.directory.utf8ByteSize ≤
      (Layout.locationDirectory root k.location).utf8ByteSize :=
    Path.le_utf8ByteSize_join root k.location.isEntryName_directory.slash
  have hstem : (Layout.locationDirectory root k.location).utf8ByteSize + k.stem.utf8ByteSize ≤
      (Layout.diagramDirectory root k).utf8ByteSize :=
    Path.le_utf8ByteSize_join _ hk.isEntryName_stem.slash
  omega

/-- Where the root leaves no room for a path in the directory of a diagram, the path is refused. -/
lemma checkText_in_home_of_long {root name : String} (hk : k.IsStorable)
    (hname : Disk.IsEntryName name) (hnul : '\x00' ∉ root.toList)
    (hlong : Disk.maxPath < root.utf8ByteSize + k.location.directory.utf8ByteSize +
      k.stem.utf8ByteSize + name.utf8ByteSize) :
    Disk.checkText (Path.join (Layout.diagramDirectory root k) name) = .error .nameTooLong := by
  have hdirectory := le_utf8ByteSize_diagramDirectory root hk
  have hsize := Path.le_utf8ByteSize_join (Layout.diagramDirectory root k) hname.slash
  exact Disk.checkText_eq_nameTooLong
    (nul_not_mem_join hname (nul_not_mem_diagramDirectory hk hnul)) (by omega)

/-- Where the root leaves no room for the directory of a diagram, its path is refused, too. -/
lemma checkText_eq_of_long {root : String} (hk : k.IsStorable) (hnul : '\x00' ∉ root.toList)
    (hlong : Disk.maxPath < root.utf8ByteSize + k.location.directory.utf8ByteSize +
      k.stem.utf8ByteSize) :
    Disk.checkText (Layout.diagramDirectory root k) = .error .nameTooLong ∧
      Disk.checkText (Layout.diagramPath root k) = .error .nameTooLong := by
  have hdirectory := le_utf8ByteSize_diagramDirectory root hk
  exact ⟨Disk.checkText_eq_nameTooLong (nul_not_mem_diagramDirectory hk hnul) (by omega),
    checkText_in_home_of_long hk hk.isEntryName_fileName hnul (by omega)⟩

/-- Then nothing can be created. -/
lemma perform_create_of_long (now : Instant) {r : Request}
    (hidentity : ensureIdentity r.key = .ok ())
    (hk : r.key.IsStorable) (hnul : '\x00' ∉ s.root.toList)
    (hlong : Disk.maxPath < s.root.utf8ByteSize + r.key.location.directory.utf8ByteSize +
      r.key.stem.utf8ByteSize) :
    (Action.perform (Call.create now r).action s).1 = .error (.io .nameTooLong) := by
  obtain ⟨hdirectory, hpath⟩ := checkText_eq_of_long hk hnul hlong
  have hfind {path : String} (h : Disk.checkText path = .error .nameTooLong) :
      s.disk.find path = .error .nameTooLong := by
    simp [Disk.find, h, bind, Except.bind]
  have hcontains : (Store.catalogue s).contains r.key = .ok false := by
    change s.contains r.key = _
    rw [OnDisk.contains, Layout.checkedPath_eq_ok_iff.2 ⟨hk.isSafe, rfl⟩, Except.map, Disk.isFile,
      hfind hpath]
  have hjoin : Path.join s.root (directoryOf r.key) = Layout.diagramDirectory s.root r.key :=
    join_directoryOf s.root hk
  have hexists : Store.directoryExists (directoryOf r.key) s = false := by
    change s.disk.isDirectory (Path.join s.root (directoryOf r.key)) = false
    rw [hjoin, Disk.isDirectory, hfind hdirectory]
  have hmake : Action.perform (Store.createDirectory (directoryOf r.key)) s =
      (.error (.io .nameTooLong), s) := by
    have hlocate : s.disk.locate (Layout.diagramDirectory s.root r.key) = .error .nameTooLong := by
      simp [Disk.locate, hdirectory, bind, Except.bind]
    have hensure : s.disk.ensureDirectory (Layout.diagramDirectory s.root r.key) =
        (.error .nameTooLong, s.disk) := by
      have hne : Layout.diagramDirectory s.root r.key ≠ "" := by
        intro hempty
        rw [hempty] at hdirectory
        exact absurd hdirectory (by decide)
      simp [Disk.ensureDirectory, hne, Disk.makeWithAncestors, Disk.makeDirectory, hlocate,
        Disk.isDirectory, hfind hdirectory, bind, Except.bind]
    rw [perform_createDirectory, hjoin, OnDisk.perform_ensureDirectory, hensure]
    rfl
  have hcreate : (create now r).perform s = (.error (.io .nameTooLong), s) := by
    simp only [create, contains, ensureDirectory, Action.perform_bind, Action.perform_ask,
      hidentity, hcontains, hexists, hmake, Bool.false_eq_true, if_false]
  rw [Call.action, Action.perform_bind, hcreate]

/-- A path that consists of slashes leads to the top. -/
def slashes (n : Nat) : String := String.ofList (List.replicate n '/')

lemma segments_slashes (n : Nat) : Path.segments (slashes n) = [] := by
  induction n with
  | zero => simp [slashes, Path.segments]
  | succ n ih =>
    have hcons : slashes (n + 1) = String.ofList ([] ++ '/' :: List.replicate n '/') := rfl
    rw [hcons, Path.segments_slash]
    exact (congrArg _ ih).trans (by simp [Path.segments])

lemma utf8ByteSize_slashes (n : Nat) : (slashes n).utf8ByteSize = n := by
  rw [slashes, String.utf8ByteSize_ofList]
  induction n with
  | zero => rfl
  | succ n ih =>
    rw [List.replicate_succ, String.utf8Len_cons, ih]
    rfl

lemma nul_not_mem_slashes (n : Nat) : '\x00' ∉ (slashes n).toList := by
  rw [slashes, String.toList_ofList]
  intro hmem
  exact absurd (List.eq_of_mem_replicate hmem) (by decide)

/-! ## New stores -/

/-- The two kinds of store are interchangeable.  A store on disk that was set up where nothing lay
below its root answers every session of admissible calls as an empty store in memory does, up to
times and the references in listings; the calls may be made at other times. -/
theorem backends_agree {s₀ s : OnDisk} (hfresh : s₀.IsFresh)
    (hsetUp : OnDisk.setUp.perform s₀ = (.ok (), s)) (calls calls' : List Call)
    (hcalls : ∀ call ∈ calls, call.IsAdmissible)
    (hsame : List.Forall₂ (fun call call' => ∃ now, call' = Call.at now call) calls calls') :
    SameAnswers .empty calls s calls' := by
  obtain ⟨htidy, -, hview⟩ := hfresh.tidy_of_setUp hsetUp
  exact sameAnswers_of_mirrors ⟨htidy, .empty hview⟩ hcalls hsame

/-- A repository with the given root on an empty disk. -/
def onEmptyDisk (root : String) : OnDisk := ⟨root, ⟨[], []⟩⟩

/-- A draft is made and promoted, and then looked at. -/
def lookAtProduct : List Call := oneProduct ++ [.get (.production "a" "1.0.0")]

/-- Below a plain root it is found where it was promoted to, as in memory a second earlier. -/
theorem lookAtProduct_agrees :
    ∃ s, OnDisk.setUp.perform (onEmptyDisk "d") = (.ok (), s) ∧
      SameAnswers .empty lookAtProduct s (lookAtProduct.map (Call.at ⟨1, 0⟩)) := by
  have hok : (OnDisk.setUp.perform (onEmptyDisk "d")).1 = .ok () := by decide +kernel
  have habove : (onEmptyDisk "d").disk.StaysAbove "d" :=
    Disk.staysAbove_of_not_mem (by decide +kernel)
  have hfresh : (onEmptyDisk "d").IsFresh :=
    ⟨by decide +kernel, habove, by decide +kernel, fun p hp => by
      simp [onEmptyDisk, Disk.at?, hp]⟩
  have hcalls : ∀ call ∈ lookAtProduct, call.IsAdmissible := by decide +kernel
  obtain ⟨r, hr⟩ : ∃ r, OnDisk.setUp.perform (onEmptyDisk "d") = r := ⟨_, rfl⟩
  rw [hr] at hok ⊢
  obtain ⟨_, s⟩ := r
  obtain rfl := hok
  refine ⟨s, rfl, backends_agree hfresh hr _ _ hcalls ?_⟩
  exact List.forall₂_map_right_iff.2 (List.forall₂_same.2 fun call _ => ⟨_, rfl⟩)

/-- Below a root whose path leads through the directory of the draft it is not found once it is
promoted, as the directory goes with the draft.  Below a root whose path is nearly as long as a path
can be not even the draft can be made. -/
theorem backends_differ :
    (∀ call ∈ lookAtProduct, call.IsAdmissible) ∧
    (let s₀ := onEmptyDisk "d/staging/a-1.0.0/../.."
      ∃ s, OnDisk.setUp.perform s₀ = (.ok (), s) ∧
        ¬ SameAnswers .empty lookAtProduct s lookAtProduct) ∧
    (let s₀ := onEmptyDisk (slashes 4085)
      ∃ s, OnDisk.setUp.perform s₀ = (.ok (), s) ∧
        ¬ SameAnswers .empty lookAtProduct s lookAtProduct) := by
  refine ⟨by decide +kernel, ?_, ?_⟩
  · intro s₀
    have hdiffers : (OnDisk.setUp.perform s₀).1 = .ok () ∧
        ¬ SameAnswers .empty lookAtProduct (OnDisk.setUp.perform s₀).2 lookAtProduct := by
      decide +kernel
    generalize OnDisk.setUp.perform s₀ = r at hdiffers ⊢
    obtain ⟨result, s⟩ := r
    obtain rfl : result = .ok () := hdiffers.1
    exact ⟨s, rfl, hdiffers.2⟩
  · intro s₀
    have hseg : Path.segments s₀.root = [] := segments_slashes 4085
    have hnul : '\x00' ∉ s₀.root.toList := nul_not_mem_slashes 4085
    have hsize : s₀.root.utf8ByteSize = 4085 := utf8ByteSize_slashes 4085
    have hwalk : s₀.disk.walk (s₀.disk.origin s₀.root) (Path.segments s₀.root) = .ok [] := by
      rw [hseg, Disk.walk_nil, Disk.origin]
      exact congrArg Except.ok (ite_self _)
    obtain ⟨s, hs, hroot⟩ := OnDisk.exists_setUp (s := s₀) (by decide) hwalk rfl hnul
      (by rw [hsize]; decide) fun l f => by simp [s₀, onEmptyDisk, Disk.at?]
    -- the first call is refused on disk only
    have hcreate := perform_create_of_long (s := s) ⟨0, 0⟩
      (r := ⟨"a", "1.0.0", .staging, "@startuml\n[*] --> Idle\n@enduml\n"⟩) (by decide +kernel)
      (by decide +kernel) (by rw [hroot]; exact hnul) (by rw [hroot, hsize]; decide +kernel)
    exact ⟨s, hs, not_sameAnswers_of_failure hcreate (by decide +kernel)⟩

end DiagramRegistry.Lifecycle
