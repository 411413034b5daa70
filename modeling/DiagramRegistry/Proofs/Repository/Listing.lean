import DiagramRegistry.Proofs.Disk.Names
import DiagramRegistry.Proofs.Disk.Onward
import DiagramRegistry.Proofs.Identity.Order
import DiagramRegistry.Proofs.Identity.Stem
import DiagramRegistry.Proofs.Repository.View
import Mathlib.Data.List.Pairwise

/-
# Listings of a repository on disk

A listing goes through the directories of a location, reads their names as stems, and loads
the diagrams to which the keys that it reads off lead.  A diagram is therefore listed under the
key that its stem splits into.  The file of a key need not lie in the directory whose name it was
read off.  Different stems split into different keys, so no key comes up twice as long as names are
texts.  But names that are no texts can be read as the same stem, or as the stem of a diagram that
has a directory of its own, and such a diagram is listed once for each of them.

* `OnDisk.list_eq`: the listing of a location that has a directory;
* `OnDisk.listing_is_exact`: the keys of a listing, whatever else lies on the disk;
* `OnDisk.list_after_write`: how a diagram is listed that was just written.
-/
namespace DiagramRegistry

section
variable {ε α β : Type} {f : α → Except ε β} {xs : List α} {ys : List β} {e : ε}

/-- A question is put to each element in turn, and each has to be answered. -/
lemma mapM_eq_ok_iff : xs.mapM f = .ok ys ↔ List.Forall₂ (fun x y => f x = .ok y) xs ys := by
  induction xs generalizing ys with
  | nil => cases ys <;> simp [pure, Except.pure]
  | cons x xs ih =>
    rw [List.mapM_cons]
    cases hx : f x with
    | error e => cases ys <;> simp [bind, Except.bind, hx]
    | ok y =>
      cases hxs : xs.mapM f with
      | error e => cases ys <;> simp [bind, Except.bind, hx, ← ih, hxs]
      | ok zs => cases ys <;> simp [bind, Except.bind, pure, Except.pure, hx, ← ih, hxs]

lemma mem_of_mapM {y : β} (h : xs.mapM f = .ok ys) : y ∈ ys ↔ ∃ x ∈ xs, f x = .ok y := by
  have hall := mapM_eq_ok_iff.1 h
  clear h
  induction hall with
  | nil => simp
  | cons hx _ ih => simp [ih, hx, @eq_comm _ y]

lemma exists_of_mapM_error (h : xs.mapM f = .error e) : ∃ x ∈ xs, f x = .error e := by
  induction xs with
  | nil => exact absurd h (by simp [pure, Except.pure])
  | cons x xs ih =>
    rw [List.mapM_cons] at h
    cases hx : f x with
    | error e' =>
      simp only [hx, bind, Except.bind, Except.error.injEq] at h
      exact ⟨x, List.mem_cons_self, h ▸ hx⟩
    | ok y =>
      cases hxs : xs.mapM f with
      | error e' =>
        simp only [hx, hxs, bind, Except.bind, Except.error.injEq] at h
        obtain ⟨x', hx', herror⟩ := ih (by rw [hxs, h])
        exact ⟨x', List.mem_cons_of_mem _ hx', herror⟩
      | ok zs => simp [hx, hxs, bind, Except.bind, pure, Except.pure] at h

/-- What is given for the elements of a list is different exactly when no two of them are given the
same. -/
lemma nodup_filterMap_iff {g : α → Option β} (h : xs.Nodup) :
    (xs.filterMap g).Nodup ↔ ∀ x ∈ xs, ∀ y ∈ xs, ∀ z, g x = some z → g y = some z → x = y := by
  rw [List.Nodup, List.pairwise_filterMap]
  constructor
  · intro hpairwise x hx y hy z hz hz'
    have hsymm : Std.Symm fun x y => ∀ z, g x = some z → ∀ z', g y = some z' → z ≠ z' :=
      ⟨fun _ _ hne z hz z' hz' heq => hne z' hz' z hz heq.symm⟩
    by_contra hne
    exact hpairwise.forall hx hy hne z hz z hz' rfl
  · exact fun hinj => h.imp_of_mem fun hx hy hne z hz z' hz' heq =>
      hne (hinj _ hx _ hy z hz (heq ▸ hz'))

end

namespace OnDisk

variable {s s' : OnDisk} {k j : Key} {d : Diagram} {now : Instant} {l : Location} {p : Place}
  {stem content : String} {entries : List (String × Node)}

/-! ## Loading -/

/-- Location and stem fix the path. -/
lemma diagramPath_congr (root : String) (hl : j.location = k.location) (hs : j.stem = k.stem) :
    Layout.diagramPath root j = Layout.diagramPath root k := by
  simp only [Layout.diagramPath, Layout.diagramDirectory, Key.fileName_eq, hl, hs]

/-- A diagram is loaded whose path leads to a text. -/
lemma load_eq_ok_iff :
    s.load k = .ok d ↔ k.IsSafe ∧ ∃ p f, s.disk.find (Layout.diagramPath s.root k) =
      .ok (p, .file f) ∧ f.contents = .text d.content ∧
        d = ⟨k, d.content, [], f.created, f.modified⟩ := by
  unfold load
  cases hpath : Layout.checkedPath s.root k with
  | error failure =>
    refine iff_of_false (by simp [bind, Except.bind]) fun ⟨hsafe, _⟩ => ?_
    rw [Layout.checkedPath_eq_ok_iff.2 ⟨hsafe, rfl⟩] at hpath
    exact absurd hpath (by simp)
  | ok path =>
    obtain ⟨hsafe, rfl⟩ := Layout.checkedPath_eq_ok_iff.1 hpath
    simp only [bind, Except.bind, hsafe, true_and]
    cases hread : s.disk.readText (Layout.diagramPath s.root k) with
    | error e =>
      refine iff_of_false (by simp) fun ⟨p, f, hfind, hf, _⟩ => ?_
      rw [Disk.readText_eq_ok_iff.2 ⟨p, hfind, hf⟩] at hread
      exact absurd hread (by simp)
    | ok r =>
      obtain ⟨content, f⟩ := r
      obtain ⟨p, hfind, hf⟩ := Disk.readText_eq_ok_iff.1 hread
      simp only [Except.ok.injEq]
      constructor
      · rintro rfl
        exact ⟨p, f, hfind, hf, rfl⟩
      · rintro ⟨p', f', hfind', hf', hd⟩
        rw [hfind, Except.ok.injEq, Prod.mk.injEq, Node.file.injEq] at hfind'
        obtain ⟨rfl, rfl⟩ := hfind'
        rw [hf, Contents.text.injEq] at hf'
        rw [hd, hf']

lemma exists_load_of_reached? (hk : k.IsSafe) (h : s.reached? k = some (.text content)) :
    ∃ d, s.load k = .ok d ∧ d.key = k ∧ d.content = content := by
  obtain ⟨p, f, hfind, hf⟩ := reached?_eq_some_iff.1 h
  exact ⟨⟨k, content, [], f.created, f.modified⟩,
    load_eq_ok_iff.2 ⟨hk, p, f, hfind, hf, rfl⟩, rfl, rfl⟩

/-- A diagram is loaded under the key that was asked for. -/
lemma key_of_load (h : s.load k = .ok d) : d.key = k := by
  obtain ⟨-, -, f, -, -, hd⟩ := load_eq_ok_iff.1 h
  rw [hd]

lemma keys_of_mapM_load {ks : List Key} {ds : List Diagram} (h : ks.mapM s.load = .ok ds) :
    ds.map Diagram.key = ks := by
  have hall := mapM_eq_ok_iff.1 h
  clear h
  induction hall with
  | nil => rfl
  | cons hd _ ih => rw [List.map_cons, key_of_load hd, ih]

/-! ## Listing -/

/-- The listing of a location that has a directory. -/
theorem list_eq (h : s.disk.find (Layout.locationDirectory s.root l) = .ok (p, .directory)) :
    s.list l = sortByKey Diagram.key <$> (s.keysAmong l (s.disk.children p)).mapM s.load := by
  have hdir : s.disk.isDirectory (Layout.locationDirectory s.root l) = true :=
    Disk.isDirectory_iff.2 ⟨p, h⟩
  have hlist : s.disk.list (Layout.locationDirectory s.root l) = .ok (s.disk.children p) := by
    simp [Disk.list, h, bind, Except.bind]
  simp only [list, hdir, if_true, hlist]

/-- The key that is read off an entry of a location, when the diagram is there. -/
def keyOf? (s : OnDisk) (l : Location) (entry : String × Node) : Option Key :=
  (if entry.2 = .directory then keyForStem? l (Disk.readName entry.1) else none).filter fun k =>
    s.disk.isFile (Layout.diagramPath s.root k)

lemma keyOf?_eq_some_iff {name : String} {n : Node} :
    s.keyOf? l (name, n) = some k ↔
      n = .directory ∧ keyForStem? l (Disk.readName name) = some k ∧
        s.disk.isFile (Layout.diagramPath s.root k) = true := by
  by_cases hn : n = .directory
  · simp only [keyOf?, hn, if_true, Option.filter_eq_some_iff, true_and]
  · simp only [keyOf?, hn, if_false, Option.filter_none, reduceCtorEq, false_and]

lemma keysAmong_eq : s.keysAmong l entries = entries.filterMap (s.keyOf? l) :=
  List.filter_filterMap

lemma mem_keysAmong_iff :
    k ∈ s.keysAmong l entries ↔
      (∃ name, (name, .directory) ∈ entries ∧ keyForStem? l (Disk.readName name) = some k) ∧
        s.disk.isFile (Layout.diagramPath s.root k) = true := by
  rw [keysAmong_eq, List.mem_filterMap]
  constructor
  · rintro ⟨⟨name, n⟩, hmem, hkey⟩
    obtain ⟨rfl, hread, hfile⟩ := keyOf?_eq_some_iff.1 hkey
    exact ⟨⟨name, hmem, hread⟩, hfile⟩
  · rintro ⟨⟨name, hmem, hread⟩, hfile⟩
    exact ⟨_, hmem, keyOf?_eq_some_iff.2 ⟨rfl, hread, hfile⟩⟩

/-- At the locations of versioned diagrams the key is what the stem splits into. -/
lemma keyForStem?_eq_some_iff (hl : l ≠ .nested) :
    keyForStem? l stem = some k ↔
      Stem.split? stem = some (k.name, k.version) ∧ k.location = l := by
  have hsplit : keyForStem? l stem = (Stem.split? stem).map fun p => ⟨p.1, p.2, l⟩ := by
    cases l with
    | nested => exact absurd rfl hl
    | staging => rfl
    | production => rfl
  rw [hsplit, Option.map_eq_some_iff]
  constructor
  · rintro ⟨p, hp, rfl⟩
    exact ⟨hp, rfl⟩
  · rintro ⟨hp, rfl⟩
    exact ⟨_, hp, rfl⟩

/-- The key of a directory is one of the location. -/
lemma location_of_keyForStem? (h : keyForStem? l stem = some k) : k.location = l := by
  by_cases hl : l = .nested
  · subst hl
    exact congrArg Key.location (Option.some.inj h).symm
  · exact ((keyForStem?_eq_some_iff hl).1 h).2

/-- Different stems have different keys. -/
lemma eq_of_keyForStem? {stem' : String} (h : keyForStem? l stem = some k)
    (h' : keyForStem? l stem' = some k) : stem = stem' := by
  by_cases hl : l = .nested
  · subst hl
    exact congrArg Key.name (Option.some.inj (h.trans h'.symm))
  · obtain ⟨hsplit, -⟩ := (keyForStem?_eq_some_iff hl).1 h
    obtain ⟨hsplit', -⟩ := (keyForStem?_eq_some_iff hl).1 h'
    exact Stem.eq_of_split? hsplit hsplit'

/-- The key has the stem that it is read off, unless a hyphen ends the stem: then the key has no
version, and its stem no hyphen at the end. -/
lemma stem_of_keyForStem? (h : keyForStem? l stem = some k) :
    stem = k.stem ∨ l ≠ .nested ∧ k.version = "" ∧ stem = k.stem ++ "-" := by
  by_cases hl : l = .nested
  · subst hl
    obtain rfl := Option.some.inj h
    exact .inl Stem.join_empty.symm
  · obtain ⟨hsplit, -⟩ := (keyForStem?_eq_some_iff hl).1 h
    obtain ⟨heq, -⟩ := Stem.eq_of_splitChars? (Stem.split?_eq_some_iff.1 hsplit)
    by_cases hversion : k.version = ""
    · refine .inr ⟨hl, hversion, String.toList_inj.1 ?_⟩
      rw [heq, Key.stem, hversion, Stem.join_empty]
      simp
    · exact .inl (String.toList_inj.1 (by rw [Key.stem, Stem.toList_join hversion, heq]))

/-- Entries have different names.  So the keys that are read off them are different when no two
directories are read as the directory of one diagram, and only then. -/
lemma nodup_keysAmong_iff (h : entries.Pairwise fun e e' => e.1 ≠ e'.1) :
    (s.keysAmong l entries).Nodup ↔
      ∀ k ∈ s.keysAmong l entries, ∀ name name', (name, .directory) ∈ entries →
        keyForStem? l (Disk.readName name) = some k → (name', .directory) ∈ entries →
        keyForStem? l (Disk.readName name') = some k → name = name' := by
  have hnodup : entries.Nodup := h.imp fun hne heq => hne (congrArg Prod.fst heq)
  rw [keysAmong_eq, nodup_filterMap_iff hnodup]
  constructor
  · intro hinj k hk name name' hmem hread hmem' hread'
    obtain ⟨⟨_, n⟩, -, hkey⟩ := List.mem_filterMap.1 hk
    have hfile := (keyOf?_eq_some_iff.1 hkey).2.2
    exact congrArg Prod.fst (hinj _ hmem _ hmem' k (keyOf?_eq_some_iff.2 ⟨rfl, hread, hfile⟩)
      (keyOf?_eq_some_iff.2 ⟨rfl, hread', hfile⟩))
  · rintro hone ⟨name, n⟩ hmem ⟨name', n'⟩ hmem' k hkey hkey'
    obtain ⟨rfl, hread, -⟩ := keyOf?_eq_some_iff.1 hkey
    obtain ⟨rfl, hread', -⟩ := keyOf?_eq_some_iff.1 hkey'
    rw [hone k (List.mem_filterMap.2 ⟨_, hmem, hkey⟩) name name' hmem hread hmem' hread']

/-- Directories whose names are texts are read as they are, so they have different keys. -/
lemma nodup_keysAmong (h : entries.Pairwise fun e e' => e.1 ≠ e'.1)
    (htext : ∀ name, (name, .directory) ∈ entries → Disk.IsText name) :
    (s.keysAmong l entries).Nodup := by
  refine (nodup_keysAmong_iff h).2 fun k _ name name' hmem hkey hmem' hkey' => ?_
  rw [Disk.readName_of_isText (htext _ hmem)] at hkey
  rw [Disk.readName_of_isText (htext _ hmem')] at hkey'
  exact eq_of_keyForStem? hkey hkey'

/-- A key with the stem of a versioned diagram that is read off a directory is what this stem
splits into. -/
lemma split?_of_keyForStem? (hversion : isVersion k.version = true) (hl : l ≠ .nested)
    (h : keyForStem? l stem = some j) (hstem : j.stem = k.stem) :
    Stem.split? k.stem = some (j.name, j.version) := by
  obtain ⟨hsplit, -⟩ := (keyForStem?_eq_some_iff hl).1 h
  have hne : j.version ≠ "" := by
    -- without a version the whole stem would be a name, but stems have a hyphen before a digit
    intro hempty
    obtain ⟨digit, rest, hrest, hdigit⟩ := exists_digit_of_isVersion hversion
    refine Stem.not_hyphenBeforeDigit_of_split? hsplit ?_
    have hjoin : j.name = Stem.join k.name k.version := by
      rw [← show j.stem = j.name by rw [Key.stem, hempty, Stem.join_empty], hstem, Key.stem]
    rw [hjoin, Stem.toList_join (ne_empty_of_isVersion hversion), hrest]
    exact ⟨_, digit, rest, rfl, hdigit⟩
  have hsame : stem = j.stem :=
    (stem_of_keyForStem? h).resolve_right fun hhyphen => hne hhyphen.2.1
  rw [← hstem, ← hsame, hsplit]

/-- The directory of a diagram that is there is an entry of the directory of its location. -/
lemma mem_children_of_reached? (hk : k.IsSafe) (hne : k.stem ≠ "") {c : Contents}
    (h : s.reached? k = some c) :
    ∃ p, s.disk.find (Layout.locationDirectory s.root k.location) = .ok (p, .directory) ∧
      (k.stem, .directory) ∈ s.disk.children p := by
  obtain ⟨q, f, hfind, -⟩ := reached?_eq_some_iff.1 h
  have hseg := Layout.segments_diagramPath_eq s.root hk
  have hfile := Disk.locate_of_find hseg (Layout.fileName_ne "." (by decide))
    (Layout.fileName_ne ".." (by decide)) hfind
  have hbase : Layout.diagramDirectory s.root k ≠ "" := by
    intro hempty
    have := Layout.segments_directory s.root k.location hk.not_mem_stem
    rw [show Path.join (Layout.locationDirectory s.root k.location) k.stem = "" from hempty] at this
    exact absurd this (by simp [Path.segments])
  obtain ⟨r, -, hdir⟩ := Disk.find_of_locate_join (Layout.not_mem_fileName hk)
    (Layout.fileName_ne "" (by decide)) hbase hfile
  have hlocate := Disk.locate_of_find (Path.segments_join hk.not_mem_stem hne) hk.stem_ne_dots.1
    hk.stem_ne_dots.2 hdir
  obtain ⟨p, rfl, hfound⟩ := Disk.find_of_locate_join hk.not_mem_stem hne
    (Layout.locationDirectory_ne _ _) hlocate
  exact ⟨p, hfound, Disk.mem_children_of_at? (Disk.find_eq_ok_iff.1 hdir).2.2.1⟩

/-- A path that leads to something has no NUL in it, so the stem is read as it is. -/
lemma readName_stem {c : Contents} (h : s.reached? k = some c) :
    Disk.readName k.stem = k.stem := by
  obtain ⟨p, f, hfind, -⟩ := reached?_eq_some_iff.1 h
  have hnul := (Disk.checkText_eq_ok_iff.1 (Disk.find_eq_ok_iff.1 hfind).1).1
  refine Disk.readName_of_isText fun hmem => hnul (Path.mem_toList_join_of_mem _ ?_)
  rw [Key.fileName_eq, String.toList_append]
  exact List.mem_append_left _ hmem

/-! ## What a listing shows -/

/-- A diagram exists when its key is safe and its path leads to a file. -/
lemma contains_eq_ok_true_iff :
    s.contains k = .ok true ↔
      k.IsSafe ∧ s.disk.isFile (Layout.diagramPath s.root k) = true := by
  unfold contains
  cases hpath : Layout.checkedPath s.root k with
  | error failure =>
    refine iff_of_false (by simp [Except.map]) fun ⟨hsafe, _⟩ => ?_
    rw [Layout.checkedPath_eq_ok_iff.2 ⟨hsafe, rfl⟩] at hpath
    exact absurd hpath (by simp)
  | ok path =>
    obtain ⟨hsafe, rfl⟩ := Layout.checkedPath_eq_ok_iff.1 hpath
    simp [Except.map, hsafe]

/-- A diagram that exists comes up in the listing of its location if its key is what its stem stands
for. -/
lemma mem_keysAmong_of_contains (hk : s.contains k = .ok true) (hne : k.stem ≠ "")
    (hkey : keyForStem? k.location k.stem = some k) :
    ∃ p, s.disk.find (Layout.locationDirectory s.root k.location) = .ok (p, .directory) ∧
      k ∈ s.keysAmong k.location (s.disk.children p) := by
  obtain ⟨hsafe, hfile⟩ := contains_eq_ok_true_iff.1 hk
  obtain ⟨q, f, hfind⟩ := Disk.isFile_iff.1 hfile
  have hreached := reached?_eq_some_iff.2 ⟨q, f, hfind, rfl⟩
  obtain ⟨p, hp, hmem⟩ := mem_children_of_reached? hsafe hne hreached
  exact ⟨p, hp, mem_keysAmong_iff.2 ⟨⟨_, hmem, by rwa [readName_stem hreached]⟩, hfile⟩⟩

lemma catalogue_read_of_load (h : s.load k = .ok d) : s.catalogue.read k = .ok d.content := by
  show (s.load k).map Diagram.content = .ok d.content
  rw [h]
  rfl

/-- A location without a directory has an empty listing.  Otherwise the keys that are read off the
entries are loaded and sorted. -/
lemma list_cases {ds : List Diagram} (h : s.list l = .ok ds) :
    (s.disk.isDirectory (Layout.locationDirectory s.root l) = false ∧ ds = []) ∨
    ∃ p loaded, s.disk.find (Layout.locationDirectory s.root l) = .ok (p, .directory) ∧
      (s.keysAmong l (s.disk.children p)).mapM s.load = .ok loaded ∧
      ds = sortByKey Diagram.key loaded := by
  cases hdir : s.disk.isDirectory (Layout.locationDirectory s.root l) with
  | false =>
    refine .inl ⟨rfl, ?_⟩
    simpa [list, hdir] using h.symm
  | true =>
    obtain ⟨p, hp⟩ := Disk.isDirectory_iff.1 hdir
    rw [list_eq hp] at h
    cases hload : (s.keysAmong l (s.disk.children p)).mapM s.load with
    | error failure => exact absurd (hload ▸ h) (by simp)
    | ok loaded =>
      rw [hload] at h
      exact .inr ⟨p, loaded, hp, hload, (Except.ok.inj h).symm⟩

/-- A directory of a location has the given name, which is read as the stem of a diagram with the
given key. -/
def IsReadAs (s : OnDisk) (l : Location) (name : String) (k : Key) : Prop :=
  (name, .directory) ∈ s.disk.children (s.disk.placeOf s.root ++ [l.directory]) ∧
    keyForStem? l (Disk.readName name) = some k

/-- A listing shows what is there.  Of the disk it is only assumed that no place below the root is
taken twice.  Then the keys of a listing do not decrease, and they increase strictly, so that none
comes up twice, exactly when no two directories are read as the directory of one diagram that is
listed, as where the names of all directories are texts.  Each key belongs to the location, exists,
comes with the content that is read under it, and is read off a directory, whose name is read as the
stem of the key or as this stem with a hyphen behind it.  And each key of the location that exists
and is what its stem stands for is among them, if the stem is not empty. -/
theorem listing_is_exact {ds : List Diagram} (honce : s.disk.OnceBelow (s.disk.placeOf s.root))
    (hlist : s.list l = .ok ds) :
    (ds.map Diagram.key).Pairwise (fun j k => Key.le j k = true) ∧
    ((ds.map Diagram.key).Pairwise (fun j k => Key.order j k = .lt) ↔
      ∀ d ∈ ds, ∀ name name', s.IsReadAs l name d.key → s.IsReadAs l name' d.key →
        name = name') ∧
    ((∀ name, (name, .directory) ∈ s.disk.children (s.disk.placeOf s.root ++ [l.directory]) →
        Disk.IsText name) →
      (ds.map Diagram.key).Pairwise (fun j k => Key.order j k = .lt)) ∧
    (∀ d ∈ ds, d.key.location = l ∧ s.contains d.key = .ok true ∧
      s.catalogue.read d.key = .ok d.content ∧ ∃ name, s.IsReadAs l name d.key ∧
        (Disk.readName name = d.key.stem ∨
          l ≠ .nested ∧ d.key.version = "" ∧ Disk.readName name = d.key.stem ++ "-")) ∧
    ∀ k : Key, k.location = l → k.stem ≠ "" → s.contains k = .ok true →
      keyForStem? l k.stem = some k → k ∈ ds.map Diagram.key := by
  rcases list_cases hlist with ⟨hnone, rfl⟩ | ⟨p, loaded, hp, hload, rfl⟩
  · refine ⟨List.Pairwise.nil, by simp, fun _ => List.Pairwise.nil, by simp, ?_⟩
    rintro k rfl hne hk hkey
    -- a diagram that exists lies in the directory of its location
    obtain ⟨p, hp, -⟩ := mem_keysAmong_of_contains hk hne hkey
    rw [Disk.isDirectory_iff.2 ⟨p, hp⟩] at hnone
    exact absurd hnone (by simp)
  · have hplace : p = s.disk.placeOf s.root ++ [l.directory] := by
      rw [← Disk.placeOf_of_find hp, Layout.placeOf_locationDirectory]
    subst hplace
    have hkeys := keys_of_mapM_load hload
    have hdistinct := honce.children [l.directory]
    have hperm := sortByKey_perm Diagram.key loaded
    have hlisted (k : Key) : k ∈ (sortByKey Diagram.key loaded).map Diagram.key ↔
        k ∈ s.keysAmong l (s.disk.children (s.disk.placeOf s.root ++ [l.directory])) := by
      rw [(hperm.map Diagram.key).mem_iff, hkeys]
    refine ⟨List.pairwise_map.2 (inOrder_sortByKey _ _), ?_, fun htext => ?_, fun d hd => ?_, ?_⟩
    · rw [pairwise_lt_sortByKey_iff, hkeys, nodup_keysAmong_iff hdistinct]
      constructor
      · intro hone d hd name name' ⟨hmem, hread⟩ ⟨hmem', hread'⟩
        exact hone _ ((hlisted _).1 (List.mem_map_of_mem hd)) _ _ hmem hread hmem' hread'
      · intro hone k hk name name' hmem hread hmem' hread'
        obtain ⟨d, hd, rfl⟩ := List.mem_map.1 ((hlisted k).2 hk)
        exact hone d hd _ _ ⟨hmem, hread⟩ ⟨hmem', hread'⟩
    · exact pairwise_lt_sortByKey_iff.2 (hkeys ▸ nodup_keysAmong hdistinct htext)
    · obtain ⟨k, hk, hd⟩ := (mem_of_mapM hload).1 (hperm.mem_iff.1 hd)
      obtain rfl := key_of_load hd
      obtain ⟨⟨name, hmem, hread⟩, hfile⟩ := mem_keysAmong_iff.1 hk
      exact ⟨location_of_keyForStem? hread,
        contains_eq_ok_true_iff.2 ⟨(load_eq_ok_iff.1 hd).1, hfile⟩, catalogue_read_of_load hd,
        name, ⟨hmem, hread⟩, stem_of_keyForStem? hread⟩
    · rintro k rfl hne hk hkey
      obtain ⟨p, hp', hmem⟩ := mem_keysAmong_of_contains hk hne hkey
      obtain rfl := congrArg Prod.fst (Except.ok.inj (hp.symm.trans hp'))
      exact (hlisted k).2 hmem

/-- A repository with promoted diagrams among directories and files that are no diagrams.  One
diagram does not lie in the directory that its key is read off, and the name of one directory is no
text, but is read as the stem of another diagram. -/
def amongStrays : OnDisk where
  root := "d"
  disk :=
    { entries := [(["d"], .directory), (["d", "products"], .directory),
        (["d", "products", "notes.txt"], .file ⟨.text "", ⟨0, 0⟩, ⟨0, 0⟩⟩),
        (["d", "products", "lock-"], .directory),
        (["d", "products", "lock"], .directory),
        (["d", "products", "lock", "lock.puml"], .file ⟨.text "lock", ⟨0, 0⟩, ⟨0, 0⟩⟩),
        (["d", "products", "lamp-1.0.0"], .directory),
        (["d", "products", "a\uFFFD-1.0.0"], .directory),
        (["d", "products", "a\uFFFD-1.0.0", "a\uFFFD-1.0.0.puml"],
          .file ⟨.text "a", ⟨0, 0⟩, ⟨0, 0⟩⟩),
        (["d", "products", Disk.nameOfBytes [0x61, 0xFF, 0x2D, 0x31, 0x2E, 0x30, 0x2E, 0x30]],
          .directory)]
      workingDirectory := [] }

/-- The two diagrams are listed, one of them twice: two directories are read as its directory. -/
theorem amongStrays_is_listed :
    amongStrays.disk.OnceBelow (amongStrays.disk.placeOf amongStrays.root) ∧
    ∃ ds, amongStrays.list .production = .ok ds ∧
      ds.map Diagram.key = [.production "a\uFFFD" "1.0.0", .production "a\uFFFD" "1.0.0",
        .production "lock" ""] ∧
      (∃ d ∈ ds, ∃ name name', amongStrays.IsReadAs .production name d.key ∧
        amongStrays.IsReadAs .production name' d.key ∧ name ≠ name') ∧
      ∀ d ∈ ds, amongStrays.catalogue.read d.key = .ok d.content := by
  have hdistinct : amongStrays.disk.entries.Pairwise fun e e' => e.1 ≠ e'.1 := by decide +kernel
  have honce : amongStrays.disk.OnceBelow (amongStrays.disk.placeOf amongStrays.root) :=
    hdistinct.imp fun hne heq => absurd heq hne
  have hlist : amongStrays.list .production = .ok
      [⟨.production "a\uFFFD" "1.0.0", "a", [], ⟨0, 0⟩, ⟨0, 0⟩⟩,
        ⟨.production "a\uFFFD" "1.0.0", "a", [], ⟨0, 0⟩, ⟨0, 0⟩⟩,
        ⟨.production "lock" "", "lock", [], ⟨0, 0⟩, ⟨0, 0⟩⟩] := by decide +kernel
  obtain ⟨-, hincreasing, -, hshown, -⟩ := listing_is_exact honce hlist
  refine ⟨honce, _, hlist, rfl, ?_, fun d hd => (hshown d hd).2.2.1⟩
  by_contra hone
  refine absurd (hincreasing.2 fun d hd name name' hread hread' => ?_) (by decide +kernel)
  by_contra hne
  exact hone ⟨d, hd, name, name', hread, hread', hne⟩

/-! ## A diagram that was just written -/

/-- The key that the stem of a diagram splits into leads to the file of the diagram. -/
lemma exists_key_of_stem (hname : isIdentifier k.name = true)
    (hversion : isVersion k.version = true) (hl : k.location ≠ .nested) (hk : k.IsSafe) :
    ∃ j : Key, keyForStem? k.location k.stem = some j ∧ j.IsSafe ∧ j.location = k.location ∧
      j.stem = k.stem := by
  obtain ⟨name, version, hsplit, hjoin, hinitial, hne, digit, rest, hdigits, hdigit⟩ :=
    Stem.exists_split?_join hname hversion
  have hversion' : version ≠ "" := by
    rintro rfl
    exact absurd hdigits (by simp)
  -- both parts have no other characters than the stem, and neither is dots
  have hstem : ∀ c, c ∈ version.toList → c ∈ k.name.toList ∨ c = '-' ∨ c ∈ k.version.toList := by
    intro c hc
    have hmem : c ∈ (Stem.join name version).toList := by
      rw [Stem.toList_join hversion']
      exact List.mem_append_right _ (List.mem_cons_of_mem _ hc)
    rw [hjoin, Stem.toList_join (ne_empty_of_isVersion hversion)] at hmem
    simpa using hmem
  have hno {c : Char} (hn : c ∉ k.name.toList) (hv : c ∉ k.version.toList) (hc : c ≠ '-') :
      c ∉ version.toList := fun hmem => by
    rcases hstem c hmem with h | h | h
    · exact hn h
    · exact hc h
    · exact hv h
  have hdot : '.' ∉ name.toList := fun hmem =>
    absurd (isNameChar_of_isIdentifier hname _ (hinitial.subset hmem)) (by decide)
  have hdots : version ≠ "." ∧ version ≠ ".." := by
    constructor <;> rintro rfl
    · rw [← (List.cons.inj hdigits).1] at hdigit
      exact absurd hdigit (by decide)
    · rw [← (List.cons.inj hdigits).1] at hdigit
      exact absurd hdigit (by decide)
  refine ⟨⟨name, version, k.location⟩, (keyForStem?_eq_some_iff hl).2 ⟨hsplit, rfl⟩,
    ⟨⟨fun h => hk.name.1 (hinitial.subset h), fun h => hk.name.2.1 (hinitial.subset h), ?_, ?_⟩,
      hno hk.name.1 hk.version.1 (by decide), hno hk.name.2.1 hk.version.2.1 (by decide), hdots⟩,
    rfl, hjoin⟩
  · rintro rfl
    exact hdot (by decide)
  · rintro rfl
    exact hdot (by decide)

/-- A key with the stem of a versioned diagram that is read off a directory is given by what the
stem splits into. -/
lemma eq_iff_split? (hversion : isVersion k.version = true) (hl : k.location ≠ .nested)
    (h : keyForStem? k.location stem = some j) (hstem : j.stem = k.stem) {i : Key}
    (hlocation : i.location = k.location) :
    j = i ↔ Stem.split? k.stem = some (i.name, i.version) := by
  have hj := location_of_keyForStem? h
  rw [split?_of_keyForStem? hversion hl h hstem, Option.some.injEq, Prod.mk.injEq]
  constructor
  · rintro rfl
    exact ⟨rfl, rfl⟩
  · rintro ⟨hn, hv⟩
    obtain ⟨jname, jversion, jlocation⟩ := j
    obtain ⟨iname, iversion, ilocation⟩ := i
    simp only at hn hv hj hlocation
    rw [hn, hv, hj, hlocation]

/-- A diagram that was just written is in the listing of its location, unless another diagram
there cannot be loaded.  It is listed under the key with which it was written exactly when the
name has no hyphen before a digit. -/
theorem list_after_write (hwrite : (write now d).perform s = (.ok (), s'))
    (hname : isIdentifier d.key.name = true) (hversion : isVersion d.key.version = true)
    (hl : d.key.location ≠ .nested) :
    (∃ failure j, j.stem ≠ d.key.stem ∧ s'.load j = .error failure ∧
      s'.list d.key.location = .error failure) ∨
    ∃ ds, s'.list d.key.location = .ok ds ∧
      (∃ e ∈ ds, e.key.stem = d.key.stem ∧ e.content = d.content) ∧
      ∀ e ∈ ds, e.key.stem = d.key.stem →
        (e.key = d.key ↔ ¬ Stem.HyphenBeforeDigit d.key.name.toList) := by
  obtain ⟨hk, hreached⟩ : d.key.IsSafe ∧ s'.reached? d.key = some (.text d.content) := by
    rcases write_cases now d s with ⟨s₁, h, hk, -, hreached, -⟩ | ⟨failure, s₁, h, -⟩
    · obtain rfl : s' = s₁ := (Prod.mk.inj (hwrite.symm.trans h)).2
      exact ⟨hk, hreached⟩
    · exact absurd (hwrite.symm.trans h) (by simp)
  have hne : d.key.stem ≠ "" := by
    intro h
    have := congrArg String.toList h
    rw [Key.stem, Stem.toList_join (ne_empty_of_isVersion hversion)] at this
    exact absurd this (by simp)
  obtain ⟨p, hdir, hmem⟩ := mem_children_of_reached? hk hne hreached
  obtain ⟨k, hkey, hsafe, hlocation, hstem⟩ := exists_key_of_stem hname hversion hl hk
  have hpath := diagramPath_congr s'.root hlocation hstem
  have hreached' : s'.reached? k = some (.text d.content) := (reached?_congr hpath).trans hreached
  obtain ⟨e, hload, hekey, hecontent⟩ := exists_load_of_reached? hsafe hreached'
  have hamong : k ∈ s'.keysAmong d.key.location (s'.disk.children p) := by
    obtain ⟨q, f, hfind, -⟩ := reached?_eq_some_iff.1 hreached'
    exact mem_keysAmong_iff.2
      ⟨⟨_, hmem, by rwa [readName_stem hreached]⟩, Disk.isFile_iff.2 ⟨q, f, hfind⟩⟩
  -- every key of the listing with the stem of the diagram is this one
  have hunique {j : Key} (hj : j ∈ s'.keysAmong d.key.location (s'.disk.children p))
      (hjstem : j.stem = d.key.stem) : j = k := by
    obtain ⟨⟨stem, -, hjkey⟩, -⟩ := mem_keysAmong_iff.1 hj
    exact (eq_iff_split? hversion hl hjkey hjstem hlocation).2
      (split?_of_keyForStem? hversion hl hkey hstem)
  rw [list_eq hdir]
  cases hload' : (s'.keysAmong d.key.location (s'.disk.children p)).mapM s'.load with
  | error failure =>
    obtain ⟨j, hj, hjload⟩ := exists_of_mapM_error hload'
    refine .inl ⟨failure, j, fun hjstem => ?_, hjload, rfl⟩
    rw [hunique hj hjstem, hload] at hjload
    exact absurd hjload (by simp)
  | ok ds =>
    have hlisted (e : Diagram) : e ∈ sortByKey Diagram.key ds ↔
        ∃ j ∈ s'.keysAmong d.key.location (s'.disk.children p), s'.load j = .ok e := by
      rw [(sortByKey_perm _ _).mem_iff, mem_of_mapM hload']
    refine .inr ⟨_, rfl, ⟨e, (hlisted e).2 ⟨k, hamong, hload⟩, by rw [hekey, hstem], hecontent⟩,
      fun e' he' hestem => ?_⟩
    obtain ⟨j, hj, hjload⟩ := (hlisted e').1 he'
    rw [key_of_load hjload] at hestem ⊢
    rw [hunique hj hestem]
    rw [eq_iff_split? hversion hl hkey hstem rfl]
    exact Stem.split?_join_iff hname hversion

end OnDisk

end DiagramRegistry
