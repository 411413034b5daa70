import DiagramRegistry.Disk.Tree
import DiagramRegistry.Proofs.Disk.Paths
import Mathlib.Data.String.Basic

/-
# Following paths

A path names a place, whether something is there or not: dots stay, double dots go up, and
every other segment goes down.  In a tree of directories and files nothing else can happen, so
wherever a path is followed with success it leads to the place that it names.  This file says
when paths can be followed, and that they still can after directories were added and files
were changed.

* `Disk.find_eq_ok_iff`, `Disk.locate_eq_ok_iff`: when a path leads to something, and when it
  names a place in a directory;
* `Disk.find_directory_mono`: directories are found as long as the directories stay;
* `Disk.exists_find_parent`: the directory that a path names a place in is found.
-/
namespace DiagramRegistry.Disk

variable {d d' : Disk} {p q : Place} {n : Node} {path base name s : String} {ss ss' : List String}

/-! ## The place that a path names -/

/-- The place that a segment goes to. -/
def along (p : Place) (s : String) : Place :=
  if s = "." then p else if s = ".." then p.dropLast else p ++ [s]

/-- The place that a path names. -/
def placeOf (d : Disk) (path : String) : Place := (Path.segments path).foldl along (d.origin path)

lemma along_entry (hdot : s ≠ ".") (hup : s ≠ "..") : along p s = p ++ [s] := by
  rw [along, if_neg hdot, if_neg hup]

lemma origin_join (h : '/' ∉ name.toList) : d.origin (Path.join base name) = d.origin base := by
  simp only [origin, Path.isAbsolute_join h]

/-- An entry joined to a path names a place in the directory that the path names. -/
lemma placeOf_join (h : '/' ∉ name.toList) (hne : name ≠ "") (hdot : name ≠ ".")
    (hup : name ≠ "..") : d.placeOf (Path.join base name) = d.placeOf base ++ [name] := by
  simp only [placeOf, Path.segments_join h hne, origin_join h, List.foldl_append, List.foldl_cons,
    List.foldl_nil, along_entry hdot hup]

lemma placeOf_join_empty : d.placeOf (Path.join base "") = d.placeOf base := by
  have h : '/' ∉ "".toList := by simp
  rw [placeOf, placeOf, Path.segments_join_empty, origin_join h]

/-- Dots make no difference to the place. -/
lemma foldl_along_filter : (ss.filter (· ≠ ".")).foldl along p = ss.foldl along p := by
  induction ss generalizing p with
  | nil => rfl
  | cons s ss ih =>
    by_cases hdot : s = "."
    · rw [List.filter_cons_of_neg (by simpa using hdot), ih, List.foldl_cons, along, if_pos hdot]
    · rw [List.filter_cons_of_pos (by simpa using hdot), List.foldl_cons, List.foldl_cons, ih]

/-- The beginning of a path names the place that its segments lead to. -/
lemma placeOf_of_isBeginning {init : List String} (h : Path.IsBeginning path base init) :
    d.placeOf base = init.foldl along (d.origin path) := by
  have horigin : d.origin base = d.origin path := by simp only [origin, h.absolute]
  rw [placeOf, horigin]
  rcases h.segments with hseg | ⟨-, hseg⟩
  · rw [hseg, foldl_along_filter]
  · rw [hseg, List.foldl_cons, along, if_pos rfl, foldl_along_filter]

/-! ## Steps and walks -/

lemma checkText_eq_ok_iff :
    checkText path = .ok () ↔
      '\x00' ∉ path.toList ∧ path ≠ "" ∧ path.utf8ByteSize ≤ maxPath := by
  unfold checkText
  by_cases h0 : '\x00' ∈ path.toList
  · simp [h0]
  · by_cases he : path = ""
    · simp [he]
    · by_cases hs : maxPath < path.utf8ByteSize
      · simp [h0, he, hs]
      · simp [h0, he, hs, Nat.not_lt.1 hs]

lemma checkText_eq_nameTooLong (hnul : '\x00' ∉ path.toList) (hlong : maxPath < path.utf8ByteSize) :
    checkText path = .error .nameTooLong := by
  have hne : path ≠ "" := by
    rintro rfl
    exact absurd hlong (by decide)
  simp [checkText, hnul, hne, hlong]

/-- A step is possible from a directory only, and leads to something. -/
lemma step_eq_ok_iff :
    d.step p s = .ok q ↔ d.at? p = some .directory ∧ q = along p s ∧
      (s ≠ "." → s ≠ ".." → s.utf8ByteSize ≤ maxName ∧ (d.at? (p ++ [s])).isSome = true) := by
  unfold step
  split
  · rename_i hp
    by_cases hdot : s = "."
    · simp [hdot, hp, along, @eq_comm _ p]
    · by_cases hup : s = ".."
      · simp [hup, hp, along, @eq_comm _ p.dropLast]
      · by_cases hlen : maxName < s.utf8ByteSize
        · simp [hdot, hup, hlen, Nat.not_le.2 hlen]
        · by_cases hat : (d.at? (p ++ [s])).isSome = true
          · simp [hdot, hup, hlen, hat, hp, along, Nat.not_lt.1 hlen, @eq_comm _ (p ++ [s])]
          · simp [hdot, hup, hlen, hat]
  · rename_i hp
    exact iff_of_false (by simp) fun h => hp h.1

@[simp] lemma walk_nil : d.walk p [] = .ok p := rfl

lemma walk_cons_eq_ok_iff :
    d.walk p (s :: ss) = .ok q ↔ ∃ r, d.step p s = .ok r ∧ d.walk r ss = .ok q := by
  rw [walk, List.foldlM_cons]
  cases d.step p s with
  | error e => simp [bind, Except.bind]
  | ok r => simp [bind, Except.bind, walk]

lemma walk_append_eq_ok_iff :
    d.walk p (ss ++ ss') = .ok q ↔ ∃ r, d.walk p ss = .ok r ∧ d.walk r ss' = .ok q := by
  induction ss generalizing p with
  | nil => simp
  | cons s ss ih =>
    simp only [List.cons_append, walk_cons_eq_ok_iff, ih]
    constructor
    · rintro ⟨r, hr, t, ht, hq⟩
      exact ⟨t, ⟨r, hr, ht⟩, hq⟩
    · rintro ⟨t, ⟨r, hr, ht⟩, hq⟩
      exact ⟨r, hr, t, ht, hq⟩

/-- A walk goes on from where its first part has led. -/
lemma walk_append_of_ok (h : d.walk p ss = .ok q) : d.walk p (ss ++ ss') = d.walk q ss' := by
  rw [walk] at h
  rw [walk, List.foldlM_append, h]
  rfl

lemma walk_singleton_eq_ok_iff : d.walk p [s] = .ok q ↔ d.step p s = .ok q := by
  simp [walk_cons_eq_ok_iff]

/-- A walk leads to the place that its segments name. -/
lemma eq_of_walk (h : d.walk p ss = .ok q) : q = ss.foldl along p := by
  induction ss generalizing p with
  | nil => simpa [eq_comm] using h
  | cons s ss ih =>
    obtain ⟨r, hr, hq⟩ := walk_cons_eq_ok_iff.1 h
    rw [ih hq, (step_eq_ok_iff.1 hr).2.1, List.foldl_cons]

/-- A walk to a directory can be made on every disk that has the same directories. -/
lemma walk_mono (hkeep : ∀ r, d.at? r = some .directory → d'.at? r = some .directory)
    (h : d.walk p ss = .ok q) (hq : d.at? q = some .directory) : d'.walk p ss = .ok q := by
  induction ss generalizing p with
  | nil => exact h
  | cons s ss ih =>
    obtain ⟨r, hr, hwalk⟩ := walk_cons_eq_ok_iff.1 h
    obtain ⟨hp, hrs, hentry⟩ := step_eq_ok_iff.1 hr
    -- the step leads to a directory: from there the walk goes on, or it is the last
    have hdir : d.at? r = some .directory := by
      cases ss with
      | nil =>
        have : r = q := by simpa using hwalk
        rwa [this]
      | cons t ts =>
        obtain ⟨u, hu, -⟩ := walk_cons_eq_ok_iff.1 hwalk
        exact (step_eq_ok_iff.1 hu).1
    refine walk_cons_eq_ok_iff.2 ⟨r, step_eq_ok_iff.2 ⟨hkeep p hp, hrs, fun hdot hup => ?_⟩,
      ih hwalk⟩
    rw [hrs, along_entry hdot hup] at hdir
    exact ⟨(hentry hdot hup).1, by rw [hkeep _ hdir]; rfl⟩

/-- Dots can be left out of a walk. -/
lemma walk_filter (h : d.walk p ss = .ok q) : d.walk p (ss.filter (· ≠ ".")) = .ok q := by
  induction ss generalizing p with
  | nil => exact h
  | cons s ss ih =>
    obtain ⟨r, hr, hwalk⟩ := walk_cons_eq_ok_iff.1 h
    by_cases hdot : s = "."
    · subst hdot
      have hrp : r = p := (step_eq_ok_iff.1 hr).2.1
      rw [hrp] at hwalk
      simpa using ih hwalk
    · rw [List.filter_cons_of_pos (by simpa using hdot)]
      exact walk_cons_eq_ok_iff.2 ⟨r, hr, ih hwalk⟩

/-! ## Paths that lead to something -/

/-- A path leads to something when it is well formed and can be walked along; a file is not
found behind a slash. -/
lemma find_eq_ok_iff :
    d.find path = .ok (p, n) ↔
      checkText path = .ok () ∧ d.walk (d.origin path) (Path.segments path) = .ok p ∧
        d.at? p = some n ∧ (Path.endsWithSlash path = true → n = .directory) := by
  unfold find
  cases hc : checkText path with
  | error e => simp [bind, Except.bind]
  | ok u =>
    cases hw : d.walk (d.origin path) (Path.segments path) with
    | error e => simp [bind, Except.bind]
    | ok r =>
      simp only [bind, Except.bind, Except.ok.injEq, true_and]
      cases hat : d.at? r with
      | none =>
        refine iff_of_false (by simp) ?_
        rintro ⟨rfl, hn, -⟩
        simp [hat] at hn
      | some m =>
        cases m with
        | directory =>
          simp only [Except.ok.injEq, Prod.mk.injEq]
          constructor
          · rintro ⟨rfl, rfl⟩
            exact ⟨rfl, hat, fun _ => rfl⟩
          · rintro ⟨rfl, hn, -⟩
            exact ⟨rfl, Option.some.inj (hat.symm.trans hn)⟩
        | file f =>
          by_cases hslash : Path.endsWithSlash path = true
          · simp only [hslash, if_true, true_implies]
            refine iff_of_false (by simp) ?_
            rintro ⟨rfl, hn, rfl⟩
            simp [hat] at hn
          · simp only [hslash, Bool.false_eq_true, if_false, false_implies, and_true,
              Except.ok.injEq, Prod.mk.injEq]
            constructor
            · rintro ⟨rfl, rfl⟩
              exact ⟨rfl, hat⟩
            · rintro ⟨rfl, hn⟩
              exact ⟨rfl, Option.some.inj (hat.symm.trans hn)⟩

lemma placeOf_of_find (h : d.find path = .ok (p, n)) : d.placeOf path = p :=
  (eq_of_walk (find_eq_ok_iff.1 h).2.1).symm

/-- A path names a place when all of it but its last segment leads to a directory. -/
lemma locate_eq_ok_iff :
    d.locate path = .ok (some p) ↔
      checkText path = .ok () ∧ ∃ init name r, Path.segments path = init ++ [name] ∧
        d.walk (d.origin path) init = .ok r ∧ d.at? r = some .directory ∧
        name ≠ "." ∧ name ≠ ".." ∧ name.utf8ByteSize ≤ maxName ∧ p = r ++ [name] := by
  constructor
  · intro h
    unfold locate at h
    cases hc : checkText path with
    | error e => simp [hc, bind, Except.bind] at h
    | ok u =>
      rcases List.eq_nil_or_concat' (Path.segments path) with hseg | ⟨init, name, hseg⟩
      · simp [hc, hseg, bind, Except.bind] at h
      · cases hw : d.walk (d.origin path) init with
        | error e => simp [hc, hseg, hw, bind, Except.bind] at h
        | ok r =>
          simp only [hc, hseg, hw, bind, Except.bind, List.getLast?_concat,
            List.dropLast_concat] at h
          split at h
          · rename_i hr
            split at h
            · exact absurd h (by simp)
            · rename_i hdots
              rw [not_or] at hdots
              split at h
              · exact absurd h (by simp)
              · rename_i hlen
                exact ⟨rfl, init, name, r, hseg, hw, hr, hdots.1, hdots.2, Nat.not_lt.1 hlen,
                  (Option.some.inj (Except.ok.inj h)).symm⟩
          · exact absurd h (by simp)
  · rintro ⟨hc, init, name, r, hseg, hw, hr, hdot, hup, hlen, rfl⟩
    simp [locate, bind, Except.bind, hc, hseg, hw, hr, hdot, hup, Nat.not_lt.2 hlen]

/-- The place that is found to be free or taken is the one that the path names. -/
lemma placeOf_of_locate (h : d.locate path = .ok (some p)) : d.placeOf path = p := by
  obtain ⟨-, init, name, r, hseg, hw, -, hdot, hup, -, rfl⟩ := locate_eq_ok_iff.1 h
  rw [placeOf, hseg, List.foldl_append, ← eq_of_walk hw, List.foldl_cons, List.foldl_nil,
    along_entry hdot hup]

/-- What is at a place that a path names is found along the path. -/
lemma find_of_locate (h : d.locate path = .ok (some p)) (hn : d.at? p = some n)
    (hslash : Path.endsWithSlash path = true → n = .directory) : d.find path = .ok (p, n) := by
  obtain ⟨hc, init, name, r, hseg, hw, hr, hdot, hup, hlen, rfl⟩ := locate_eq_ok_iff.1 h
  have hstep : d.step r name = .ok (r ++ [name]) :=
    step_eq_ok_iff.2 ⟨hr, (along_entry hdot hup).symm, fun _ _ => ⟨hlen, by rw [hn]; rfl⟩⟩
  refine find_eq_ok_iff.2 ⟨hc, ?_, hn, hslash⟩
  rw [hseg]
  exact walk_append_eq_ok_iff.2 ⟨r, hw, walk_singleton_eq_ok_iff.2 hstep⟩

/-- A path that leads to something behind a name names the place where it is. -/
lemma locate_of_find {init : List String} (hseg : Path.segments path = init ++ [name])
    (hdot : name ≠ ".") (hup : name ≠ "..") (h : d.find path = .ok (p, n)) :
    d.locate path = .ok (some p) := by
  obtain ⟨hc, hw, -, -⟩ := find_eq_ok_iff.1 h
  rw [hseg] at hw
  obtain ⟨r, hr, hname⟩ := walk_append_eq_ok_iff.1 hw
  obtain ⟨hdir, rfl, hentry⟩ := step_eq_ok_iff.1 (walk_singleton_eq_ok_iff.1 hname)
  rw [along_entry hdot hup]
  exact locate_eq_ok_iff.2 ⟨hc, init, name, r, hseg, hr, hdir, hdot, hup, (hentry hdot hup).1, rfl⟩

/-! ## Directories -/

/-- The one disk has the working directory and all directories of the other. -/
structure KeepsDirectories (d d' : Disk) : Prop where
  /-- The working directory is the same. -/
  workingDirectory : d'.workingDirectory = d.workingDirectory
  /-- Directories stay. -/
  directory : ∀ p, d.at? p = some .directory → d'.at? p = some .directory

lemma origin_congr (h : d'.workingDirectory = d.workingDirectory) (path : String) :
    d'.origin path = d.origin path := by
  rw [origin, origin, h]

lemma placeOf_congr (h : d'.workingDirectory = d.workingDirectory) (path : String) :
    d'.placeOf path = d.placeOf path := by
  rw [placeOf, placeOf, origin_congr h]

/-- Directories are found as long as the directories stay. -/
lemma find_directory_mono (hkeep : KeepsDirectories d d') (h : d.find path = .ok (p, .directory)) :
    d'.find path = .ok (p, .directory) := by
  obtain ⟨hc, hw, hp, hslash⟩ := find_eq_ok_iff.1 h
  refine find_eq_ok_iff.2 ⟨hc, ?_, hkeep.directory p hp, hslash⟩
  rw [origin_congr hkeep.workingDirectory]
  exact walk_mono hkeep.directory hw hp

/-- So is the directory that an entry was joined to. -/
lemma find_of_locate_join (hslash : '/' ∉ name.toList) (hne : name ≠ "") (hbase : base ≠ "")
    (h : d.locate (Path.join base name) = .ok (some p)) :
    ∃ r, p = r ++ [name] ∧ d.find base = .ok (r, .directory) := by
  obtain ⟨hc, init, name', r, hseg, hw, hr, -, -, -, hp⟩ := locate_eq_ok_iff.1 h
  rw [Path.segments_join hslash hne] at hseg
  obtain ⟨rfl, hname⟩ := List.append_inj' hseg rfl
  obtain rfl : name = name' := by simpa using hname
  obtain ⟨hnul, -, hsize⟩ := checkText_eq_ok_iff.1 hc
  have hsub : base.toList.Sublist (Path.join base name).toList := by
    rcases Path.toList_join_eq base hslash with e | e <;> rw [e]
    · exact List.sublist_append_left _ _
    · exact List.sublist_append_left _ _
  have hle := String.utf8Len_le_of_sublist hsub
  rw [← String.utf8ByteSize_ofList, ← String.utf8ByteSize_ofList, String.ofList_toList,
    String.ofList_toList] at hle
  rw [origin_join hslash] at hw
  exact ⟨r, hp, find_eq_ok_iff.2 ⟨checkText_eq_ok_iff.2 ⟨fun hmem => hnul (hsub.subset hmem),
    hbase, by omega⟩, hw, hr, fun _ => rfl⟩⟩

/-- The path of a directory is accepted if that of an entry is. -/
lemma checkText_of_isParent {init : List String} (hq : Path.IsParent path base init)
    (h : checkText path = .ok ()) : checkText base = .ok () := by
  obtain ⟨hnul, -, hsize⟩ := checkText_eq_ok_iff.1 h
  refine checkText_eq_ok_iff.2 ⟨fun hmem => hnul (hq.sublist.subset hmem), hq.ne_empty, ?_⟩
  have hle := String.utf8Len_le_of_sublist hq.sublist
  rw [← String.utf8ByteSize_ofList, ← String.utf8ByteSize_ofList, String.ofList_toList,
    String.ofList_toList] at hle
  omega

/-- It goes the same way, and its last segments are the same if they are no dots. -/
lemma exists_walk_of_isParent {above below : List String}
    (hq : Path.IsParent path base (above ++ below)) (hdots : "." ∉ below)
    (hw : d.walk (d.origin path) above = .ok p) :
    ∃ above', Path.segments base = above' ++ below ∧ d.walk (d.origin base) above' = .ok p := by
  have horigin : d.origin base = d.origin path := by simp only [origin, hq.absolute]
  have hkeep : below.filter (· ≠ ".") = below :=
    List.filter_eq_self.2 fun s hs => by simpa using ne_of_mem_of_not_mem hs hdots
  rw [horigin]
  rcases hq.segments with hseg | ⟨hhead, hseg⟩
  · exact ⟨_, by rw [hseg, List.filter_append, hkeep], walk_filter hw⟩
  · refine ⟨"." :: above.filter (· ≠ "."), by
      rw [hseg, List.filter_append, hkeep, List.cons_append], ?_⟩
    cases above with
    | nil =>
      obtain ⟨rest, rfl⟩ := List.head?_eq_some_iff.1 hhead
      exact absurd List.mem_cons_self hdots
    | cons s above =>
      obtain rfl : s = "." := by simpa using hhead
      obtain ⟨t, ht, -⟩ := walk_cons_eq_ok_iff.1 hw
      have htp := (step_eq_ok_iff.1 ht).2.1
      rw [htp, along, if_pos rfl] at ht
      exact walk_cons_eq_ok_iff.2 ⟨_, ht, walk_filter hw⟩

/-- The directory that a path names a place in is found. -/
lemma exists_find_parent (h : d.locate path = .ok (some p))
    (hlong : 2 ≤ (Path.segments path).length) :
    ∃ q, Path.parent? path = some q ∧ d.find q = .ok (p.dropLast, .directory) := by
  obtain ⟨hc, init, name, r, hseg, hw, hr, hdot, hup, hlen, rfl⟩ := locate_eq_ok_iff.1 h
  have hinit : init ≠ [] := by
    rintro rfl
    rw [hseg] at hlong
    exact absurd hlong (by simp)
  obtain ⟨q, hq⟩ := Path.exists_parent hseg hdot hinit
  rw [← List.append_nil init] at hq
  obtain ⟨above, hsegq, hwq⟩ := exists_walk_of_isParent hq (by simp) hw
  rw [List.append_nil] at hsegq
  refine ⟨q, hq.parent, find_eq_ok_iff.2 ⟨checkText_of_isParent hq hc, ?_, ?_, fun _ => rfl⟩⟩
  · rw [hsegq, hwq, List.dropLast_concat]
  · rw [List.dropLast_concat]
    exact hr

end DiagramRegistry.Disk
