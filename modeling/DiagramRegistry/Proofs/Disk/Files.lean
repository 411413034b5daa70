import DiagramRegistry.Proofs.Disk.Following

/-
# What changes of a disk do to its files

A change of a disk puts something at one place or takes something away from it, and says so by
its places rather than by its paths.  Making directories adds directories and nothing else
(`Disk.Extends`), also when it is refused on the way, so no file is touched by it.

* `Disk.makeDirectory_eq_ok_iff`, `Disk.writeFile_eq_ok_iff`, `Disk.renameFile_eq_ok_iff`,
  `Disk.removeFile_eq_ok_iff`: what each change does;
* `Disk.ensureDirectory_extends`, `Disk.exists_find_of_ensureDirectory`: making a directory with
  those it lies in.
-/
namespace DiagramRegistry.Disk

variable {d d' d'' : Disk} {p q : Place} {n : Node} {path source target name : String}
  {paths : List String} {now : Instant} {contents : Contents}

/-! ## Trees and files -/

/-- Everything that is not at the top lies in a directory. -/
def IsTree (d : Disk) : Prop :=
  ∀ e ∈ d.entries, e.1 ≠ [] → d.at? e.1.dropLast = some .directory

instance (d : Disk) : Decidable d.IsTree :=
  inferInstanceAs (Decidable (∀ e ∈ d.entries, e.1 ≠ [] → _))

/-- What the file at a place holds. -/
def fileAt? (d : Disk) (p : Place) : Option Contents :=
  match d.at? p with
  | some (.file f) => some f.contents
  | _ => none

lemma isTree_iff : d.IsTree ↔ ∀ p name n, d.at? (p ++ [name]) = some n →
    d.at? p = some .directory := by
  constructor
  · intro h p name n hn
    have := h _ (exists_mem_of_at? (by simp) hn) (by simp)
    rwa [List.dropLast_concat] at this
  · rintro h ⟨p, n⟩ hmem hne
    obtain ⟨q, name, rfl⟩ := (List.eq_nil_or_concat' p).resolve_left hne
    have hsome : (d.at? (q ++ [name])).isSome = true := by
      simp only [at?, hne, if_false, Option.isSome_map, List.find?_isSome]
      exact ⟨_, hmem, by simp⟩
    obtain ⟨m, hm⟩ := Option.isSome_iff_exists.1 hsome
    simpa using h q name m hm

lemma fileAt?_eq_some_iff {c : Contents} :
    d.fileAt? p = some c ↔ ∃ f, d.at? p = some (.file f) ∧ f.contents = c := by
  unfold fileAt?
  split
  · rename_i f hf
    simp [hf]
  · rename_i hf
    refine iff_of_false (by simp) ?_
    rintro ⟨f, h, -⟩
    exact hf f h

lemma fileAt?_congr (h : d'.at? p = d.at? p) : d'.fileAt? p = d.fileAt? p := by
  rw [fileAt?, fileAt?, h]

lemma fileAt?_of_directory (h : d.at? p = some .directory) : d.fileAt? p = none := by
  rw [fileAt?, h]

lemma fileAt?_put_file (hp : p ≠ []) (f : File) (q : Place) :
    (d.put p (.file f)).fileAt? q = if q = p then some f.contents else d.fileAt? q := by
  unfold fileAt?
  rw [at?_put d hp]
  by_cases hq : q = p <;> simp [hq]

lemma fileAt?_erase (hp : p ≠ []) (q : Place) :
    (d.erase p).fileAt? q = if q = p then none else d.fileAt? q := by
  unfold fileAt?
  rw [at?_erase d hp]
  by_cases hq : q = p <;> simp [hq]

lemma ne_nil_of_file {f : File} (h : d.at? p = some (.file f)) : p ≠ [] := by
  rintro rfl
  exact absurd h (by simp)

lemma ne_nil_of_locate (h : d.locate path = .ok (some p)) : p ≠ [] := by
  obtain ⟨-, -, name, r, -, -, -, -, -, -, rfl⟩ := locate_eq_ok_iff.1 h
  simp

lemma parent_of_locate (h : d.locate path = .ok (some p)) :
    d.at? p.dropLast = some .directory := by
  obtain ⟨-, -, name, r, -, -, hr, -, -, -, rfl⟩ := locate_eq_ok_iff.1 h
  rwa [List.dropLast_concat]

lemma isDirectory_iff : d.isDirectory path = true ↔ ∃ p, d.find path = .ok (p, .directory) := by
  unfold isDirectory
  split
  · rename_i p h
    simp [h]
  · rename_i h
    exact iff_of_false (by simp) fun ⟨p, hp⟩ => h p hp

lemma isFile_iff : d.isFile path = true ↔ ∃ p f, d.find path = .ok (p, .file f) := by
  unfold isFile
  split
  · rename_i p f h
    simp [h]
  · rename_i h
    exact iff_of_false (by simp) fun ⟨p, f, hp⟩ => h p f hp

lemma readText_eq_ok_iff {content : String} {f : File} :
    d.readText path = .ok (content, f) ↔
      ∃ p, d.find path = .ok (p, .file f) ∧ f.contents = .text content := by
  unfold readText
  cases hfind : d.find path with
  | error e => simp [bind, Except.bind]
  | ok r =>
    obtain ⟨p, _ | g⟩ := r
    · simp [bind, Except.bind]
    · simp only [bind, Except.bind, Except.ok.injEq, Prod.mk.injEq, Node.file.injEq]
      cases hg : g.contents with
      | text c =>
        simp only [Except.ok.injEq, Prod.mk.injEq]
        constructor
        · rintro ⟨rfl, rfl⟩
          exact ⟨p, ⟨rfl, rfl⟩, hg⟩
        · rintro ⟨-, ⟨-, rfl⟩, hf⟩
          exact ⟨Contents.text.inj (hg.symm.trans hf), rfl⟩
      | binary bytes =>
        refine iff_of_false (by simp) ?_
        rintro ⟨-, ⟨-, rfl⟩, hf⟩
        rw [hg] at hf
        exact absurd hf (by simp)

/-- What is read along a path is at the place that the path names. -/
lemma fileAt?_of_readText {content : String} {f : File} (h : d.readText path = .ok (content, f)) :
    d.fileAt? (d.placeOf path) = some (.text content) := by
  obtain ⟨p, hfind, hf⟩ := readText_eq_ok_iff.1 h
  rw [placeOf_of_find hfind]
  exact fileAt?_eq_some_iff.2 ⟨f, (find_eq_ok_iff.1 hfind).2.2.1, hf⟩

/-- What something lies in, however deep, is a directory. -/
lemma IsTree.at?_above {below : List String} (h : d.IsTree) (hn : d.at? (p ++ below) = some n)
    (hne : below ≠ []) : d.at? p = some .directory := by
  induction below using List.reverseRecOn generalizing n with
  | nil => exact absurd rfl hne
  | append_singleton below name ih =>
    rw [← List.append_assoc] at hn
    have hdir := isTree_iff.1 h _ _ _ hn
    cases below with
    | nil => rwa [List.append_nil] at hdir
    | cons s below => exact ih hdir (by simp)

/-! ## Paths in a tree -/

/-- A path that can be followed as far as its text is concerned. -/
structure Followable (path : String) : Prop where
  /-- It is accepted as a whole. -/
  text : checkText path = .ok ()
  /-- No name in it is too long. -/
  names : ∀ s ∈ Path.segments path, s.utf8ByteSize ≤ maxName

lemma utf8ByteSize_le_of_walk {ss : List String} (h : d.walk p ss = .ok q) :
    ∀ s ∈ ss, s.utf8ByteSize ≤ maxName := by
  induction ss generalizing p with
  | nil => simp
  | cons s ss ih =>
    obtain ⟨r, hr, hwalk⟩ := walk_cons_eq_ok_iff.1 h
    refine List.forall_mem_cons.2 ⟨?_, ih hwalk⟩
    by_cases hdots : s = "." ∨ s = ".."
    · rcases hdots with rfl | rfl <;> decide
    · rw [not_or] at hdots
      exact ((step_eq_ok_iff.1 hr).2.2 hdots.1 hdots.2).1

/-- In a tree every directory is found along the names that lead to it. -/
lemma walk_of_isTree {ss : List String} (htree : d.IsTree) (hup : ".." ∉ ss)
    (hlen : ∀ s ∈ ss, s.utf8ByteSize ≤ maxName)
    (hdir : d.at? (ss.foldl along p) = some .directory) :
    d.walk p ss = .ok (ss.foldl along p) := by
  induction ss using List.reverseRecOn with
  | nil => rfl
  | append_singleton ss s ih =>
    simp only [List.mem_append, List.mem_singleton, not_or] at hup hlen
    rw [List.foldl_concat] at hdir ⊢
    have hparent : d.at? (ss.foldl along p) = some .directory := by
      by_cases hdot : s = "."
      · rwa [along, if_pos hdot] at hdir
      · rw [along_entry hdot (Ne.symm hup.2)] at hdir
        exact isTree_iff.1 htree _ _ _ hdir
    refine walk_append_eq_ok_iff.2 ⟨_, ih hup.1 (fun t ht => hlen t (.inl ht)) hparent,
      walk_singleton_eq_ok_iff.2 (step_eq_ok_iff.2 ⟨hparent, rfl, fun hdot hne => ?_⟩)⟩
    rw [along_entry hdot hne] at hdir
    exact ⟨hlen s (.inr rfl), by rw [hdir]; rfl⟩

lemma followable_of_find (h : d.find path = .ok (p, n)) : Followable path := by
  obtain ⟨hc, hw, -, -⟩ := find_eq_ok_iff.1 h
  exact ⟨hc, utf8ByteSize_le_of_walk hw⟩

lemma followable_of_locate (h : d.locate path = .ok (some p)) : Followable path := by
  obtain ⟨hc, init, name, r, hseg, hw, -, -, -, hlen, -⟩ := locate_eq_ok_iff.1 h
  refine ⟨hc, fun s hs => ?_⟩
  rw [hseg, List.mem_append, List.mem_singleton] at hs
  rcases hs with hs | rfl
  · exact utf8ByteSize_le_of_walk hw s hs
  · exact hlen

/-- In a tree, a path whose last part goes down only leads to the file at the place that it
names, if its first part leads anywhere. -/
lemma find_file_of_walk {above below : List String} {r : Place} {f : File} (htree : d.IsTree)
    (hseg : Path.segments path = above ++ (below ++ [name]))
    (habove : d.walk (d.origin path) above = .ok r) (hup : ".." ∉ below ++ [name])
    (hdot : name ≠ ".") (hslash : Path.endsWithSlash path = false) (hfollow : Followable path)
    (hat : d.at? (d.placeOf path) = some (.file f)) :
    d.find path = .ok (d.placeOf path, .file f) := by
  have hnames := hfollow.names
  rw [hseg] at hnames
  simp only [List.mem_append, List.mem_singleton, not_or] at hup hnames
  have hplace : d.placeOf path = below.foldl along r ++ [name] := by
    rw [placeOf, hseg, List.foldl_append, ← eq_of_walk habove, List.foldl_concat,
      along_entry hdot (Ne.symm hup.2)]
  have hparent : d.at? (below.foldl along r) = some .directory := by
    rw [hplace] at hat
    exact isTree_iff.1 htree _ _ _ hat
  have hbelow := walk_of_isTree htree hup.1 (fun s hs => hnames s (.inr (.inl hs))) hparent
  have hlocate : d.locate path = .ok (some (d.placeOf path)) :=
    locate_eq_ok_iff.2 ⟨hfollow.text, above ++ below, name, _, by rw [hseg, List.append_assoc],
      walk_append_eq_ok_iff.2 ⟨r, habove, hbelow⟩, hparent, hdot, Ne.symm hup.2,
      hnames name (.inr (.inr rfl)), hplace⟩
  exact find_of_locate hlocate hat fun h => by rw [hslash] at h; exact absurd h (by simp)

/-! ## Trees that stay trees -/

namespace IsTree

/-- Anything may be put into a directory, as long as no directory is replaced by a file. -/
lemma put (h : d.IsTree) (hp : p ≠ []) (hparent : d.at? p.dropLast = some .directory)
    (hkind : d.at? p = some .directory → n = .directory) : (d.put p n).IsTree := by
  refine isTree_iff.2 fun q name m hm => ?_
  have hq : d.at? q = some .directory := by
    rw [at?_put d hp] at hm
    split at hm
    · rename_i he
      rwa [← he, List.dropLast_concat] at hparent
    · exact isTree_iff.1 h q name m hm
  rw [at?_put d hp]
  split
  · rename_i he
    rw [hkind (he ▸ hq)]
  · exact hq

/-- What nothing lies in may be taken away. -/
lemma erase (h : d.IsTree) (hp : p ≠ []) (hempty : ∀ name, d.at? (p ++ [name]) = none) :
    (d.erase p).IsTree := by
  refine isTree_iff.2 fun q name n hn => ?_
  rw [at?_erase d hp] at hn
  split at hn
  · exact absurd hn (by simp)
  · have hne : q ≠ p := by
      rintro rfl
      rw [hempty] at hn
      exact absurd hn (by simp)
    rw [at?_erase d hp, if_neg hne]
    exact isTree_iff.1 h q name n hn

/-- Nothing lies in a file. -/
lemma at?_below_file (h : d.IsTree) {f : File} (hf : d.at? p = some (.file f)) (name : String) :
    d.at? (p ++ [name]) = none := by
  cases hat : d.at? (p ++ [name]) with
  | none => rfl
  | some n =>
    rw [isTree_iff.1 h p name n hat] at hf
    exact absurd hf (by simp)

end IsTree

lemma eq_of_childName? (h : childName? p q = some name) : q = p ++ [name] := by
  unfold childName? at h
  split at h
  · rename_i hne
    rw [← hne.2]
    exact (List.dropLast_append_getLast? name h).symm
  · exact absurd h (by simp)

/-- The entries of a directory lie in it. -/
lemma exists_at?_of_mem_children {entry : String × Node} (h : entry ∈ d.children p) :
    ∃ n, d.at? (p ++ [entry.1]) = some n := by
  obtain ⟨⟨q, m⟩, hmem, hchild⟩ := List.mem_filterMap.1 h
  obtain ⟨name, hname, rfl⟩ := Option.map_eq_some_iff.1 hchild
  have hq := eq_of_childName? hname
  have hsome : (d.entries.find? fun e => e.1 = p ++ [name]).isSome = true :=
    List.find?_isSome.2 ⟨_, hmem, decide_eq_true hq⟩
  obtain ⟨e, he⟩ := Option.isSome_iff_exists.1 hsome
  exact ⟨e.2, by simp [at?, he]⟩

/-- What lies in a directory is among its entries. -/
lemma mem_children_of_at? (h : d.at? (p ++ [name]) = some n) : (name, n) ∈ d.children p :=
  List.mem_filterMap.2 ⟨_, exists_mem_of_at? (by simp) h, by simp [childName?]⟩

/-- A directory has no entries when nothing lies in it. -/
lemma children_eq_nil_iff : d.children p = [] ↔ ∀ name, d.at? (p ++ [name]) = none := by
  constructor
  · intro h name
    cases hat : d.at? (p ++ [name]) with
    | none => rfl
    | some n =>
      have hmem : (name, n) ∈ d.children p := mem_children_of_at? hat
      rw [h] at hmem
      exact absurd hmem (by simp)
  · intro h
    refine List.eq_nil_iff_forall_not_mem.2 fun entry hmem => ?_
    obtain ⟨n, hn⟩ := exists_at?_of_mem_children hmem
    rw [h] at hn
    exact absurd hn (by simp)

/-! ## Single changes -/

lemma locate_mono (hkeep : KeepsDirectories d d') (h : d.locate path = .ok (some p)) :
    d'.locate path = .ok (some p) := by
  obtain ⟨hc, init, name, r, hseg, hw, hr, hname⟩ := locate_eq_ok_iff.1 h
  refine locate_eq_ok_iff.2 ⟨hc, init, name, r, hseg, ?_, hkeep.directory r hr, hname⟩
  rw [origin_congr hkeep.workingDirectory]
  exact walk_mono hkeep.directory hw hr

lemma makeDirectory_eq_ok_iff :
    d.makeDirectory path = .ok d' ↔
      ∃ p, d.locate path = .ok (some p) ∧ d.at? p = none ∧ d' = d.put p .directory := by
  unfold makeDirectory
  cases hl : d.locate path with
  | error e => simp [bind, Except.bind]
  | ok place =>
    cases place with
    | none => simp [bind, Except.bind]
    | some p => cases hat : d.at? p <;> simp [bind, Except.bind, hat, eq_comm]

lemma writeFile_eq_ok_iff :
    d.writeFile now path contents = .ok d' ↔
      ∃ p f, d.locate path = .ok (some p) ∧ Path.endsWithSlash path = false ∧
        d.at? p ≠ some .directory ∧ f = (match d.at? p with
          | some (.file g) => { g with contents, modified := now }
          | _ => (⟨contents, now, now⟩ : File)) ∧ d' = d.put p (.file f) := by
  unfold writeFile
  cases hl : d.locate path with
  | error e => simp [bind, Except.bind]
  | ok place =>
    cases place with
    | none => simp [bind, Except.bind]
    | some p =>
      cases hslash : Path.endsWithSlash path with
      | true => simp [bind, Except.bind]
      | false =>
        cases hat : d.at? p with
        | none => simp [bind, Except.bind, hat, @eq_comm _ d']
        | some m => cases m <;> simp [bind, Except.bind, hat, @eq_comm _ d']

lemma renameFile_eq_ok_iff :
    d.renameFile source target = .ok d' ↔
      ∃ s f t, d.find source = .ok (s, .file f) ∧ d.locate target = .ok (some t) ∧
        Path.endsWithSlash target = false ∧ d.at? t ≠ some .directory ∧
        d' = (d.erase s).put t (.file f) := by
  unfold renameFile
  cases hf : d.find source with
  | error e => simp [bind, Except.bind]
  | ok r =>
    obtain ⟨s, _ | f⟩ := r
    · simp [bind, Except.bind]
    · cases hl : d.locate target with
      | error e => simp [bind, Except.bind]
      | ok place =>
        cases place with
        | none => simp [bind, Except.bind]
        | some t =>
          cases hslash : Path.endsWithSlash target with
          | true => simp [bind, Except.bind]
          | false =>
            cases hat : d.at? t with
            | none => simp [bind, Except.bind, hat, @eq_comm _ d']
            | some m => cases m <;> simp [bind, Except.bind, hat, @eq_comm _ d']

lemma removeFile_eq_ok_iff :
    d.removeFile path = .ok d' ↔
      ∃ p f, d.locate path = .ok (some p) ∧ d.at? p = some (.file f) ∧
        Path.endsWithSlash path = false ∧ d' = d.erase p := by
  unfold removeFile
  cases hl : d.locate path with
  | error e => simp [bind, Except.bind]
  | ok place =>
    cases place with
    | none => simp [bind, Except.bind]
    | some p =>
      cases hat : d.at? p with
      | none => simp [bind, Except.bind, hat]
      | some m =>
        cases m with
        | directory => simp [bind, Except.bind, hat]
        | file f =>
          cases hslash : Path.endsWithSlash path <;>
            simp [bind, Except.bind, hat, @eq_comm _ d']

/-! ## The files after a change -/

/-- One disk comes from another by changes after which it has the given files; directories may
have been added. -/
structure Becomes (d d' : Disk) (files : Place → Option Contents) : Prop
    extends KeepsDirectories d d' where
  /-- It is a tree if the other is. -/
  tree : d.IsTree → d'.IsTree
  /-- What the file at a place holds. -/
  files : d'.fileAt? = files

lemma writeFile_becomes (h : d.writeFile now path contents = .ok d') :
    Becomes d d' (Function.update d.fileAt? (d.placeOf path) (some contents)) := by
  obtain ⟨p, f, hl, -, hfree, hf, rfl⟩ := writeFile_eq_ok_iff.1 h
  have hp := ne_nil_of_locate hl
  have hcontents : f.contents = contents := by
    rw [hf]
    split <;> rfl
  rw [placeOf_of_locate hl]
  refine ⟨⟨rfl, fun q hq => ?_⟩, fun htree => htree.put hp (parent_of_locate hl) fun h =>
    absurd h hfree,
    funext fun q => ?_⟩
  · have hne : q ≠ p := by
      rintro rfl
      exact hfree hq
    rwa [at?_put d hp, if_neg hne]
  · rw [fileAt?_put_file hp, hcontents, Function.update_apply]

lemma removeFile_becomes (h : d.removeFile path = .ok d') :
    Becomes d d' (Function.update d.fileAt? (d.placeOf path) none) := by
  obtain ⟨p, f, hl, hf, -, rfl⟩ := removeFile_eq_ok_iff.1 h
  have hp := ne_nil_of_locate hl
  rw [placeOf_of_locate hl]
  refine ⟨⟨rfl, fun q hq => ?_⟩, fun htree => htree.erase hp (htree.at?_below_file hf),
    funext fun q => ?_⟩
  · have hne : q ≠ p := by
      rintro rfl
      rw [hf] at hq
      exact absurd hq (by simp)
    rwa [at?_erase d hp, if_neg hne]
  · rw [fileAt?_erase hp, Function.update_apply]

lemma renameFile_becomes (h : d.renameFile source target = .ok d') :
    Becomes d d' (Function.update (Function.update d.fileAt? (d.placeOf source) none)
      (d.placeOf target) (d.fileAt? (d.placeOf source))) := by
  obtain ⟨s, f, t, hfind, hl, -, hfree, rfl⟩ := renameFile_eq_ok_iff.1 h
  have hf := (find_eq_ok_iff.1 hfind).2.2.1
  have hs := ne_nil_of_file hf
  have ht := ne_nil_of_locate hl
  -- the file goes before it comes again, which touches no directory
  have hkeep : ∀ q, d.at? q = some .directory → (d.erase s).at? q = some .directory := by
    intro q hq
    have hne : q ≠ s := by
      rintro rfl
      rw [hf] at hq
      exact absurd hq (by simp)
    rwa [at?_erase d hs, if_neg hne]
  have hfree' : (d.erase s).at? t ≠ some .directory := by
    rw [at?_erase d hs]
    split
    · simp
    · exact hfree
  rw [placeOf_of_find hfind, placeOf_of_locate hl]
  refine ⟨⟨rfl, fun q hq => ?_⟩, fun htree => ?_, funext fun q => ?_⟩
  · have hne : q ≠ t := by
      rintro rfl
      exact hfree hq
    rw [at?_put _ ht, if_neg hne]
    exact hkeep q hq
  · exact (htree.erase hs (htree.at?_below_file hf)).put ht (hkeep _ (parent_of_locate hl))
      fun h => absurd h hfree'
  · rw [fileAt?_put_file ht, fileAt?_erase hs, Function.update_apply, Function.update_apply,
      fileAt?_eq_some_iff.2 ⟨f, hf, rfl⟩]

lemma removeDirectory_eq_ok_iff :
    d.removeDirectory path = .ok d' ↔
      ∃ p, d.find path = .ok (p, .directory) ∧ p ≠ [] ∧ d.children p = [] ∧ d' = d.erase p := by
  unfold removeDirectory
  cases hf : d.find path with
  | error e => simp [bind, Except.bind]
  | ok r =>
    obtain ⟨p, _ | f⟩ := r
    · by_cases hp : p = []
      · simp [bind, Except.bind, hp]
      · by_cases hempty : d.children p = [] <;>
          simp [bind, Except.bind, hp, hempty, @eq_comm _ d']
    · simp [bind, Except.bind]

/-- Without an empty directory a tree is still one, and has the same files. -/
lemma erase_directory (hp : p ≠ []) (hdir : d.at? p = some .directory)
    (hempty : d.children p = []) :
    (d.IsTree → (d.erase p).IsTree) ∧ (d.erase p).fileAt? = d.fileAt? := by
  refine ⟨fun htree => htree.erase hp (children_eq_nil_iff.1 hempty), funext fun q => ?_⟩
  rw [fileAt?_erase hp]
  split
  · rename_i hq
    rw [hq, fileAt?_of_directory hdir]
  · rfl

/-! ## Making directories -/

/-- The one disk has what the other has, and besides only directories. -/
structure Extends (d d' : Disk) : Prop where
  /-- The working directory is the same. -/
  workingDirectory : d'.workingDirectory = d.workingDirectory
  /-- What was there stays as it was. -/
  old : ∀ p n, d.at? p = some n → d'.at? p = some n
  /-- What is new is a directory. -/
  new : ∀ p n, d'.at? p = some n → d.at? p = some n ∨ n = .directory
  /-- It is a tree if the other is. -/
  tree : d.IsTree → d'.IsTree

namespace Extends

lemma refl (d : Disk) : Extends d d := ⟨rfl, fun _ _ h => h, fun _ _ h => .inl h, id⟩

lemma trans (h : Extends d d') (h' : Extends d' d'') : Extends d d'' := by
  refine ⟨h'.workingDirectory.trans h.workingDirectory, fun p n hn => h'.old p n (h.old p n hn),
    fun p n hn => ?_, fun ht => h'.tree (h.tree ht)⟩
  rcases h'.new p n hn with hn | hn
  · exact h.new p n hn
  · exact .inr hn

lemma keepsDirectories (h : Extends d d') : KeepsDirectories d d' :=
  ⟨h.workingDirectory, fun p hp => h.old p _ hp⟩

/-- No file is touched. -/
lemma becomes (h : Extends d d') : Becomes d d' d.fileAt? := by
  refine ⟨h.keepsDirectories, h.tree, funext fun p => ?_⟩
  cases hat : d.at? p with
  | some n => exact fileAt?_congr ((h.old p n hat).trans hat.symm)
  | none =>
    have hd : d.fileAt? p = none := by rw [fileAt?, hat]
    rw [hd]
    cases hat' : d'.at? p with
    | none => rw [fileAt?, hat']
    | some n =>
      rcases h.new p n hat' with hn | rfl
      · rw [hat] at hn
        exact absurd hn (by simp)
      · exact fileAt?_of_directory hat'

lemma put_directory (hp : p ≠ []) (hparent : d.at? p.dropLast = some .directory)
    (hfree : d.at? p = none) : Extends d (d.put p .directory) := by
  have hold : ∀ q n, d.at? q = some n → (d.put p .directory).at? q = some n := by
    intro q n hn
    have hne : q ≠ p := by
      rintro rfl
      rw [hfree] at hn
      exact absurd hn (by simp)
    rw [at?_put d hp, if_neg hne]
    exact hn
  refine ⟨rfl, hold, fun q n hn => ?_, fun htree => isTree_iff.2 fun q name n hn => ?_⟩
  · rw [at?_put d hp] at hn
    split at hn
    · exact .inr (Option.some.inj hn).symm
    · exact .inl hn
  · rw [at?_put d hp] at hn
    split at hn
    · rename_i hq
      rw [← hq, List.dropLast_concat] at hparent
      exact hold q _ hparent
    · exact hold q _ (isTree_iff.1 htree q name n hn)

end Extends

lemma makeDirectory_extends (h : d.makeDirectory path = .ok d') : Extends d d' := by
  obtain ⟨p, hl, hfree, rfl⟩ := makeDirectory_eq_ok_iff.1 h
  exact .put_directory (ne_nil_of_locate hl) (parent_of_locate hl) hfree

/-- A directory that was made is found. -/
lemma exists_find_of_makeDirectory (h : d.makeDirectory path = .ok d') :
    ∃ p, d'.find path = .ok (p, .directory) := by
  have hext := makeDirectory_extends h
  obtain ⟨p, hl, hfree, rfl⟩ := makeDirectory_eq_ok_iff.1 h
  refine ⟨p, find_of_locate (locate_mono hext.keepsDirectories hl) ?_ fun _ => rfl⟩
  rw [at?_put d (ne_nil_of_locate hl), if_pos rfl]

/-- Directories are made one after the other, also when one of them is refused in the end. -/
lemma makeWithAncestors_induction {P : Disk → Prop} (h : P d)
    (hmake : ∀ d d' path, P d → path ∈ paths → d.makeDirectory path = .ok d' → P d') :
    P (makeWithAncestors paths d).2 := by
  induction paths generalizing d with
  | nil => exact h
  | cons path above ih =>
    unfold makeWithAncestors
    split
    · rename_i d' hd'
      exact hmake d d' path h List.mem_cons_self hd'
    · have habove := ih h fun d d' path hd hmem => hmake d d' path hd (List.mem_cons_of_mem _ hmem)
      split
      · rename_i e d' hd'
        rwa [hd'] at habove
      · rename_i u d' hd'
        rw [hd'] at habove
        split
        · rename_i d'' hd''
          exact hmake d' d'' path habove List.mem_cons_self hd''
        · split <;> exact habove
    · split <;> exact h

lemma makeWithAncestors_extends : Extends d (makeWithAncestors paths d).2 :=
  makeWithAncestors_induction (.refl d) fun _ _ _ hext _ hmake =>
    hext.trans (makeDirectory_extends hmake)

/-- The directories that a directory lies in are named by the first of its components. -/
lemma exists_of_mem_ancestors {cs : List Path.Component} (h : path ∈ ancestors cs.reverse) :
    ∃ first, first ≠ [] ∧ first <+: cs.dropLast ∧ path = Path.ofComponents first := by
  induction cs using List.reverseRecOn with
  | nil => exact absurd h (by simp [ancestors])
  | append_singleton cs c ih =>
    rw [List.reverse_append, List.reverse_singleton, List.singleton_append, ancestors] at h
    split at h
    · exact absurd h (by simp)
    · rename_i hne
      rw [List.reverse_reverse, List.mem_cons] at h
      rw [List.dropLast_concat]
      rcases h with rfl | h
      · exact ⟨cs, fun hcs => hne (by rw [hcs]; rfl), List.prefix_rfl, rfl⟩
      · obtain ⟨first, hfirst, hle, rfl⟩ := ih h
        exact ⟨first, hfirst, hle.trans (List.dropLast_prefix _), rfl⟩

/-- If none was refused the first of them is there. -/
lemma exists_find_of_makeWithAncestors {above : List String}
    (h : (makeWithAncestors (path :: above) d).1 = .ok ()) :
    ∃ p, (makeWithAncestors (path :: above) d).2.find path = .ok (p, .directory) := by
  unfold makeWithAncestors at h ⊢
  split at h
  · rename_i d' hmake
    exact exists_find_of_makeDirectory hmake
  · split at h
    · exact absurd h (by simp)
    · split at h
      · rename_i d'' hmake
        exact exists_find_of_makeDirectory hmake
      · split at h
        · rename_i hdir
          rw [if_pos hdir]
          exact isDirectory_iff.1 hdir
        · exact absurd h (by simp)
  · split at h
    · rename_i hdir
      rw [if_pos hdir]
      exact isDirectory_iff.1 hdir
    · exact absurd h (by simp)

lemma ensureDirectory_extends (path : String) (d : Disk) :
    Extends d (d.ensureDirectory path).2 := by
  unfold ensureDirectory
  split
  · exact .refl d
  · exact makeWithAncestors_extends

/-- To have a directory only those are made that the beginnings of its path name, and the
directory itself. -/
lemma ensureDirectory_induction {P : Disk → Prop} {init : List String}
    (hseg : Path.segments path = init ++ [name]) (hdot : name ≠ ".") (h : P d)
    (hmake : ∀ d p first, P d → first <+: init ++ [name] →
      p = first.foldl along (d.origin path) → d.at? p = none → p ≠ [] → P (d.put p .directory)) :
    P (d.ensureDirectory path).2 := by
  unfold ensureDirectory
  split
  · exact h
  · refine makeWithAncestors_induction h fun d d' q hd hq hd' => ?_
    obtain ⟨p, hlocate, hfree, rfl⟩ := makeDirectory_eq_ok_iff.1 hd'
    have hplace := placeOf_of_locate hlocate
    have hne := ne_nil_of_locate hlocate
    rcases List.mem_cons.1 hq with rfl | hq
    · rw [placeOf, hseg] at hplace
      exact hmake d p _ hd List.prefix_rfl hplace.symm hfree hne
    · obtain ⟨cs, hcs, hle, rfl⟩ := exists_of_mem_ancestors hq
      obtain ⟨first, hfirst, hbegins⟩ := Path.isBeginning_of_prefix hseg hdot hcs hle
      rw [placeOf_of_isBeginning hbegins] at hplace
      exact hmake d p first hd (hfirst.trans (List.prefix_append _ _)) hplace.symm hfree hne

/-- A directory that is ensured is found. -/
lemma exists_find_of_ensureDirectory (hne : path ≠ "") (h : (d.ensureDirectory path).1 = .ok ()) :
    ∃ p, (d.ensureDirectory path).2.find path = .ok (p, .directory) := by
  rw [ensureDirectory, if_neg hne] at h ⊢
  exact exists_find_of_makeWithAncestors h

end DiagramRegistry.Disk
