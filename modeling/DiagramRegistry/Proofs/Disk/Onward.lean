import DiagramRegistry.Proofs.Disk.Files

/-
# Paths that go on from a directory

The paths of a repository first lead to its root and then go on along the names of
directories and files.  What such a path leads to is decided by what lies at the places below
the directory from which it goes on (`Disk.Onward`).  The way to this directory is not touched by
changes below it, unless it leads there itself (`Disk.StaysAbove`).

* `Disk.Onward.find_eq`, `Disk.Onward.find_eq_notFound`: what a path leads to;
* `Disk.Onward.locate_eq`: the place that a path names;
* `Disk.Onward.exists_parent`: the path of the directory in which the place lies;
* `Disk.ensureDirectory_of_locate`: making a directory in one that is there.
-/
namespace DiagramRegistry.Disk

variable {d d' : Disk} {p q r : Place} {n : Node} {path name : String}
  {ss above init names : List String}

/-! ## Going down -/

/-- A name that an entry of a directory can have. -/
structure IsEntryName (s : String) : Prop where
  /-- It does not stand for the directory itself. -/
  dot : s ≠ "."
  /-- It does not stand for the directory above. -/
  up : s ≠ ".."
  /-- It is not too long. -/
  short : s.utf8ByteSize ≤ maxName
  /-- It has no slash in it. -/
  slash : '/' ∉ s.toList
  /-- It has no NUL character in it. -/
  nul : '\x00' ∉ s.toList
  /-- It is not empty. -/
  ne_empty : s ≠ ""

/-- In a tree every entry of a directory and of the directories below it is found. -/
lemma walk_names (htree : d.IsTree) (h : ∀ s ∈ names, IsEntryName s)
    (hp : d.at? p = some .directory) (hat : d.at? (p ++ names) = some n) :
    d.walk p names = .ok (p ++ names) := by
  induction names generalizing p with
  | nil => simp
  | cons s names ih =>
    rw [List.forall_mem_cons] at h
    rw [List.append_cons] at hat ⊢
    have hs : ∃ m, d.at? (p ++ [s]) = some m ∧ (names ≠ [] → m = .directory) := by
      cases names with
      | nil => exact ⟨n, by simpa using hat, fun hne => absurd rfl hne⟩
      | cons t names => exact ⟨_, htree.at?_above hat (by simp), fun _ => rfl⟩
    obtain ⟨m, hm, hdir⟩ := hs
    have hstep : d.step p s = .ok (p ++ [s]) :=
      step_eq_ok_iff.2 ⟨hp, (along_entry h.1.dot h.1.up).symm, fun _ _ =>
        ⟨h.1.short, by rw [hm]; rfl⟩⟩
    refine walk_cons_eq_ok_iff.2 ⟨_, hstep, ?_⟩
    cases names with
    | nil => simp
    | cons t names => exact ih h.2 (by rw [hm, hdir (by simp)]) hat

/-- Where no file stands in the way, going down ends at the first place with nothing there. -/
lemma walk_eq_notFound (h : ∀ s ∈ names, IsEntryName s) (hp : d.at? p = some .directory)
    (hway : ∀ init name, init ++ [name] <+: names → init ++ [name] ≠ names →
      ∀ f, d.at? (p ++ (init ++ [name])) ≠ some (.file f))
    (hnone : d.at? (p ++ names) = none) : d.walk p names = .error .notFound := by
  induction names generalizing p with
  | nil => simp [hp] at hnone
  | cons s names ih =>
    rw [List.forall_mem_cons] at h
    have hstep : d.step p s =
        if (d.at? (p ++ [s])).isSome then .ok (p ++ [s]) else .error .notFound := by
      simp only [step, hp, h.1.dot, h.1.up, Nat.not_lt.2 h.1.short, if_false]
    rw [walk, List.foldlM_cons, hstep]
    cases hs : d.at? (p ++ [s]) with
    | none => rfl
    | some m =>
      have hne : names ≠ [] := by
        rintro rfl
        rw [hs] at hnone
        exact absurd hnone (by simp)
      have hdir : d.at? (p ++ [s]) = some .directory := by
        cases m with
        | directory => exact hs
        | file f =>
          have hbegins : [] ++ [s] <+: s :: names := List.prefix_cons_inj s |>.2 List.nil_prefix
          exact absurd hs (hway [] s hbegins (by simpa using Ne.symm hne) f)
      refine ih h.2 hdir (fun init name hinit hne' => ?_) (by rwa [List.append_assoc])
      rw [List.append_assoc]
      exact hway (s :: init) name ((List.prefix_cons_inj s).2 hinit) (by simpa using hne')

/-! ## Changes away from a walk -/

/-- A walk sees only what is at the places that it goes through. -/
lemma walk_congr (h : ∀ init, init <+: ss →
      d'.at? (init.foldl along p) = d.at? (init.foldl along p))
    (hw : d.walk p ss = .ok q) : d'.walk p ss = .ok q := by
  induction ss generalizing p with
  | nil => exact hw
  | cons s ss ih =>
    obtain ⟨t, ht, hrest⟩ := walk_cons_eq_ok_iff.1 hw
    obtain ⟨hdir, rfl, hentry⟩ := step_eq_ok_iff.1 ht
    have hhere := h [] List.nil_prefix
    have hnext := h [s] ((List.prefix_cons_inj s).2 List.nil_prefix)
    refine walk_cons_eq_ok_iff.2 ⟨_, step_eq_ok_iff.2 ⟨hhere.trans hdir, rfl, fun hdot hup => ?_⟩,
      ih (fun init hinit => h (s :: init) ((List.prefix_cons_inj s).2 hinit)) hrest⟩
    rw [List.foldl_cons, List.foldl_nil, along_entry hdot hup] at hnext
    rw [hnext]
    exact hentry hdot hup

/-- On its way a path does not lead below the place that it names. -/
def StaysAbove (d : Disk) (path : String) : Prop :=
  ∀ init ∈ (Path.segments path).inits, d.placeOf path <+: init.foldl along (d.origin path) →
    init.foldl along (d.origin path) = d.placeOf path

instance (d : Disk) (path : String) : Decidable (d.StaysAbove path) := by
  unfold StaysAbove
  infer_instance

lemma staysAbove_congr (h : d'.workingDirectory = d.workingDirectory) (path : String) :
    d'.StaysAbove path ↔ d.StaysAbove path := by
  unfold StaysAbove
  rw [placeOf_congr h, origin_congr h]

/-- Only double dots lead back from below. -/
lemma staysAbove_of_not_mem (h : ".." ∉ Path.segments path) : d.StaysAbove path := by
  have hlength : ∀ (ss : List String) (p : Place), ".." ∉ ss →
      p.length ≤ (ss.foldl along p).length := by
    intro ss
    induction ss with
    | nil => exact fun p _ => le_refl _
    | cons s ss ih =>
      intro p hss
      rw [List.mem_cons, not_or] at hss
      refine le_trans ?_ (ih _ hss.2)
      rw [along, if_neg (Ne.symm hss.1)]
      split <;> simp
  intro init hinit hbegins
  obtain ⟨rest, hrest⟩ := (List.mem_inits _ _).1 hinit
  have hup : ".." ∉ rest := fun hmem => h (hrest ▸ List.mem_append_right _ hmem)
  have hle : (init.foldl along (d.origin path)).length ≤ (d.placeOf path).length := by
    rw [placeOf, ← hrest, List.foldl_append]
    exact hlength rest _ hup
  exact (hbegins.eq_of_length_le hle).symm

/-! ## Places that are taken once -/

/-- No place below the given one is taken twice. -/
def OnceBelow (d : Disk) (r : Place) : Prop :=
  d.entries.Pairwise fun e e' => e.1 = e'.1 → ∀ name rest, e.1 ≠ r ++ name :: rest

lemma OnceBelow.erase (h : d.OnceBelow r) (p : Place) : (d.erase p).OnceBelow r :=
  h.sublist List.filter_sublist

lemma OnceBelow.put (h : d.OnceBelow r) (p : Place) (n : Node) : (d.put p n).OnceBelow r := by
  refine List.pairwise_cons.2 ⟨fun e he heq => ?_, h.sublist List.filter_sublist⟩
  exact absurd heq.symm (by simpa using (List.mem_filter.1 he).2)

/-- Then no two entries of a directory have the same name. -/
lemma OnceBelow.children (h : d.OnceBelow r) (p : Place) :
    (d.children (r ++ p)).Pairwise fun e e' => e.1 ≠ e'.1 := by
  refine List.pairwise_filterMap.2 (h.imp fun hne entry hentry entry' hentry' heq => ?_)
  obtain ⟨name, hname, rfl⟩ := Option.map_eq_some_iff.1 hentry
  obtain ⟨name', hname', rfl⟩ := Option.map_eq_some_iff.1 hentry'
  obtain rfl : name = name' := heq
  have hplace := eq_of_childName? hname
  obtain ⟨first, rest, hfirst⟩ : ∃ first rest, p ++ [name] = first :: rest := by
    cases p <;> simp
  refine hne (hplace.trans (eq_of_childName? hname').symm) first rest ?_
  rw [hplace, List.append_assoc, hfirst]

/-! ## Going on from a directory -/

/-- A path leads to a place and goes on from there along the names of entries. -/
structure Onward (d : Disk) (path : String) (r : Place) (names : List String) : Prop where
  /-- The path is accepted as a whole. -/
  text : checkText path = .ok ()
  /-- It can be walked along up to the place. -/
  way : ∃ above, Path.segments path = above ++ names ∧ d.walk (d.origin path) above = .ok r
  /-- Behind it follow the names of entries. -/
  names : ∀ s ∈ names, IsEntryName s

/-- An entry joined to a path that goes on from a place. -/
lemma onward_join {base : String} (hnames : ∀ s ∈ names, IsEntryName s) (hname : IsEntryName name)
    (hway : ∃ above, Path.segments base = above ++ names ∧
      d.walk (d.origin base) above = .ok r)
    (hnul : '\x00' ∉ base.toList) (hsize : base.utf8ByteSize + 1 + name.utf8ByteSize ≤ maxPath) :
    Onward d (Path.join base name) r (names ++ [name]) := by
  obtain ⟨above, hseg, hw⟩ := hway
  refine ⟨checkText_eq_ok_iff.2 ⟨fun hmem => ?_, Path.join_ne_empty base hname.slash hname.ne_empty,
    le_trans (Path.utf8ByteSize_join_le hname.slash) hsize⟩, ⟨above, ?_, ?_⟩, ?_⟩
  · rcases Path.mem_toList_join hname.slash hmem with hmem | hmem | hmem
    · exact hnul hmem
    · exact absurd hmem (by decide)
    · exact hname.nul hmem
  · rw [Path.segments_join hname.slash hname.ne_empty, hseg, List.append_assoc]
  · rw [origin_join hname.slash]
    exact hw
  · exact List.forall_mem_append.2 ⟨hnames, by simpa using hname⟩

namespace Onward

/-- An entry joined to a path that goes on goes on further. -/
lemma join {base : String} (h : Onward d base r names) (hname : IsEntryName name)
    (hsize : base.utf8ByteSize + 1 + name.utf8ByteSize ≤ maxPath) :
    Onward d (Path.join base name) r (names ++ [name]) :=
  onward_join h.names hname h.way (checkText_eq_ok_iff.1 h.text).1 hsize

/-- The place is reached before the last name as well. -/
lemma walk_init (h : Onward d path r (init ++ [name])) :
    ∃ above, Path.segments path = (above ++ init) ++ [name] ∧
      d.walk (d.origin path) above = .ok r ∧ (∀ s ∈ init, IsEntryName s) ∧ IsEntryName name := by
  obtain ⟨above, hseg, hw⟩ := h.way
  have hnames := h.names
  rw [List.forall_mem_append] at hnames
  exact ⟨above, by rw [hseg, List.append_assoc], hw, hnames.1, hnames.2 name (by simp)⟩

/-- What lies at the place is found along the path. -/
lemma find_eq (h : Onward d path r names) (htree : d.IsTree) (hr : d.at? r = some .directory)
    (hat : d.at? (r ++ names) = some n) (hslash : Path.endsWithSlash path = true → n = .directory) :
    d.find path = .ok (r ++ names, n) := by
  obtain ⟨above, hseg, hw⟩ := h.way
  refine find_eq_ok_iff.2 ⟨h.text, ?_, hat, hslash⟩
  rw [hseg]
  exact walk_append_eq_ok_iff.2 ⟨r, hw, walk_names htree h.names hr hat⟩

lemma walk_eq_notFound (h : Onward d path r names) (hr : d.at? r = some .directory)
    (hway : ∀ init name, init ++ [name] <+: names → init ++ [name] ≠ names →
      ∀ f, d.at? (r ++ (init ++ [name])) ≠ some (.file f))
    (hnone : d.at? (r ++ names) = none) :
    d.walk (d.origin path) (Path.segments path) = .error .notFound := by
  obtain ⟨above, hseg, hw⟩ := h.way
  rw [hseg, walk_append_of_ok hw]
  exact Disk.walk_eq_notFound h.names hr hway hnone

/-- Where nothing lies, nothing is found. -/
lemma find_eq_notFound (h : Onward d path r names) (hr : d.at? r = some .directory)
    (hway : ∀ init name, init ++ [name] <+: names → init ++ [name] ≠ names →
      ∀ f, d.at? (r ++ (init ++ [name])) ≠ some (.file f))
    (hnone : d.at? (r ++ names) = none) : d.find path = .error .notFound := by
  unfold find
  rw [h.text, h.walk_eq_notFound hr hway hnone]
  rfl

/-- The place that the path names is free or taken if the directory is there. -/
lemma locate_eq (init : List String) (h : Onward d path r (init ++ [name])) (htree : d.IsTree)
    (hr : d.at? r = some .directory) (hdir : d.at? (r ++ init) = some .directory) :
    d.locate path = .ok (some (r ++ (init ++ [name]))) := by
  obtain ⟨above, hseg, hw, hinit, hname⟩ := h.walk_init
  exact locate_eq_ok_iff.2 ⟨h.text, above ++ init, name, r ++ init, hseg,
    walk_append_eq_ok_iff.2 ⟨r, hw, walk_names htree hinit hr hdir⟩, hdir, hname.dot, hname.up,
    hname.short, (List.append_assoc _ _ _).symm⟩

/-- Without the directory there is no such place. -/
lemma locate_eq_notFound (init : List String) (h : Onward d path r (init ++ [name]))
    (hr : d.at? r = some .directory)
    (hway : ∀ first s, first ++ [s] <+: init → first ++ [s] ≠ init →
      ∀ f, d.at? (r ++ (first ++ [s])) ≠ some (.file f))
    (hnone : d.at? (r ++ init) = none) : d.locate path = .error .notFound := by
  obtain ⟨above, hseg, hw, hinit, -⟩ := h.walk_init
  have hwalk : d.walk (d.origin path) (above ++ init) = .error .notFound := by
    rw [walk_append_of_ok hw]
    exact Disk.walk_eq_notFound hinit hr hway hnone
  unfold locate
  rw [h.text, hseg, List.getLast?_concat, List.dropLast_concat, hwalk]
  rfl

/-- The directory of the last name has a path that goes on in the same way. -/
lemma exists_parent (init : List String) (h : Onward d path r (init ++ [name]))
    (hinit : init ≠ []) :
    ∃ q, Path.parent? path = some q ∧ Onward d q r init := by
  obtain ⟨above, hseg, hw, hnames, hname⟩ := h.walk_init
  obtain ⟨q, hq⟩ := Path.exists_parent hseg hname.dot (by simp [hinit])
  exact ⟨q, hq.parent, checkText_of_isParent hq h.text,
    exists_walk_of_isParent hq (fun hmem => (hnames "." hmem).dot rfl) hw, hnames⟩

end Onward

/-! ## Making a directory -/

lemma makeDirectory_of_locate (h : d.locate path = .ok (some p)) :
    d.makeDirectory path =
      if (d.at? p).isSome then .error .exists else .ok (d.put p .directory) := by
  simp [makeDirectory, h, bind, Except.bind]

/-- A directory is made in one that is there, or is there already. -/
lemma ensureDirectory_of_locate (h : d.locate path = .ok (some p))
    (hfile : ∀ f, d.at? p ≠ some (.file f)) :
    d.ensureDirectory path = (.ok (), if d.at? p = none then d.put p .directory else d) := by
  have hne : path ≠ "" := (checkText_eq_ok_iff.1 (locate_eq_ok_iff.1 h).1).2.1
  rw [ensureDirectory, if_neg hne, makeWithAncestors, makeDirectory_of_locate h]
  cases hat : d.at? p with
  | none => simp
  | some n =>
    cases n with
    | file f => exact absurd hat (hfile f)
    | directory =>
      have hdir : d.isDirectory path = true :=
        isDirectory_iff.2 ⟨p, find_of_locate h hat fun _ => rfl⟩
      simp [hdir]

end DiagramRegistry.Disk
