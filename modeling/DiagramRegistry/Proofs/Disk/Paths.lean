import DiagramRegistry.Disk.Path
import Mathlib.Data.List.Infix
import Mathlib.Data.List.DropRight
import Mathlib.Tactic.Common

/-
# Joined paths and the directories of paths

Names that are joined to a path become its last segments.  The directory of a path, on the
other hand, is computed through components, so its text may differ from the beginning of the
path: it has the same segments but for dots, it is absolute if the path is, and its characters
are among those of the path in the same order, so it is not longer.

* `Path.exists_parent`: the directory of a path with an entry as its last segment;
* `Path.isBeginning_of_prefix`: the paths of the directories that this directory lies in.
-/
namespace DiagramRegistry.Path

open Text

variable {base name path : String}

/-! ## Joining -/

lemma isAbsolute_of_not_mem (h : '/' ∉ name.toList) : isAbsolute name = false := by
  cases hn : name.toList with
  | nil => simp [isAbsolute, hn]
  | cons c cs =>
    rw [hn, List.mem_cons, not_or] at h
    simp [isAbsolute, hn, Ne.symm h.1]

lemma join_of_not_mem (h : '/' ∉ name.toList) :
    join base name =
      if base = "" ∨ endsWithSlash base = true then base ++ name else base ++ "/" ++ name := by
  simp only [join, isAbsolute_of_not_mem h, Bool.false_eq_true, if_false]

/-- Joined to an entry a path is absolute if it was before. -/
lemma isAbsolute_join (h : '/' ∉ name.toList) :
    isAbsolute (join base name) = isAbsolute base := by
  rw [join_of_not_mem h]
  by_cases hb : base = ""
  · subst hb
    rw [if_pos (.inl rfl), String.empty_append, isAbsolute_of_not_mem h]
    rfl
  · obtain ⟨c, cs, hc⟩ : ∃ c cs, base.toList = c :: cs := by
      cases hc : base.toList with
      | nil => exact absurd (String.toList_inj.1 (by simp [hc])) hb
      | cons c cs => exact ⟨c, cs, rfl⟩
    split <;> simp [isAbsolute, hc]

/-- Joining nothing adds at most a slash. -/
lemma segments_join_empty : segments (join base "") = segments base := by
  rw [join_of_not_mem (by simp)]
  split
  · rw [String.append_empty]
  · have e : base ++ "/" ++ "" = String.ofList (base.toList ++ '/' :: []) :=
      String.toList_inj.1 (by simp)
    rw [e, segments_slash]
    simp [segments]

lemma toList_join_eq (base : String) (h : '/' ∉ name.toList) :
    (join base name).toList = base.toList ++ name.toList ∨
      (join base name).toList = base.toList ++ '/' :: name.toList := by
  rw [join_of_not_mem h]
  split
  · exact .inl (by simp)
  · exact .inr (by simp)

/-- A path that ends in an entry does not end in a slash. -/
lemma endsWithSlash_join (h : '/' ∉ name.toList) (hne : name ≠ "") :
    endsWithSlash (join base name) = false := by
  have hlast : ∀ cs : List Char, (cs ++ name.toList).getLast? ≠ some '/' := by
    intro cs hcs
    rw [List.getLast?_append_of_ne_nil _ fun hn => hne (String.toList_inj.1 (by simp [hn]))] at hcs
    exact h (List.mem_of_getLast? hcs)
  rw [endsWithSlash, decide_eq_false_iff_not]
  rcases toList_join_eq base h with e | e
  · rw [e]
    exact hlast _
  · rw [e, List.append_cons]
    exact hlast _

lemma join_ne_empty (base : String) (h : '/' ∉ name.toList) (hne : name ≠ "") :
    join base name ≠ "" := by
  intro hempty
  have hseg : segments (join base name) = segments base ++ [name] := segments_join h hne
  rw [hempty] at hseg
  exact absurd hseg (by simp [segments])

/-- Entries joined one after the other make up one path. -/
lemma join_join {middle : String} (hmiddle : '/' ∉ middle.toList) (hne : middle ≠ "")
    (h : '/' ∉ name.toList) : join base (join middle name) = join (join base middle) name := by
  have hinner : join middle name = middle ++ "/" ++ name := by
    have hlast : endsWithSlash middle = false := by
      rw [endsWithSlash, decide_eq_false_iff_not]
      exact fun hlast => hmiddle (List.mem_of_getLast? hlast)
    rw [join_of_not_mem h, if_neg (by simp [hne, hlast])]
  have hrelative : isAbsolute (middle ++ "/" ++ name) = false := by
    rw [← hinner, isAbsolute_join h, isAbsolute_of_not_mem hmiddle]
  have hend : ¬ (join base middle = "" ∨ endsWithSlash (join base middle) = true) := by
    simp [join_ne_empty base hmiddle hne, endsWithSlash_join hmiddle hne]
  calc join base (join middle name)
      = if base = "" ∨ endsWithSlash base = true then base ++ (middle ++ "/" ++ name)
          else base ++ "/" ++ (middle ++ "/" ++ name) := by
        rw [hinner, join, hrelative, if_neg (by simp)]
    _ = join base middle ++ "/" ++ name := by
        rw [join_of_not_mem hmiddle]
        split <;> simp only [String.append_assoc]
    _ = join (join base middle) name := by rw [join_of_not_mem h, if_neg hend]

lemma utf8ByteSize_join_le (h : '/' ∉ name.toList) :
    (join base name).utf8ByteSize ≤ base.utf8ByteSize + 1 + name.utf8ByteSize := by
  have hslash : "/".utf8ByteSize = 1 := by decide
  rw [join_of_not_mem h]
  split <;> simp only [String.utf8ByteSize_append, hslash] <;> omega

lemma le_utf8ByteSize_join (base : String) (h : '/' ∉ name.toList) :
    base.utf8ByteSize + name.utf8ByteSize ≤ (join base name).utf8ByteSize := by
  rw [join_of_not_mem h]
  split <;> simp only [String.utf8ByteSize_append] <;> omega

lemma mem_toList_join {c : Char} (h : '/' ∉ name.toList) (hc : c ∈ (join base name).toList) :
    c ∈ base.toList ∨ c = '/' ∨ c ∈ name.toList := by
  rcases toList_join_eq base h with e | e
  · rw [e, List.mem_append] at hc
    exact hc.imp_right .inr
  · rw [e, List.mem_append, List.mem_cons] at hc
    exact hc

lemma mem_toList_join_of_mem (base : String) {c : Char} (hc : c ∈ name.toList) :
    c ∈ (join base name).toList := by
  unfold join
  split
  · exact hc
  · split <;> simp [hc]

/-! ## The file beside a file -/

lemma cutAtLast?_of_not_mem {x : Char} {cs : List Char} (h : x ∉ cs) : cutAtLast? x cs = none := by
  induction cs with
  | nil => rfl
  | cons c cs ih =>
    rw [List.mem_cons, not_or] at h
    rw [cutAtLast?, ih h.2, if_neg (Ne.symm h.1)]

lemma cutAtLast?_append_cons {x : Char} {a b : List Char} (h : x ∉ b) :
    cutAtLast? x (a ++ x :: b) = some (a, b) := by
  induction a with
  | nil => rw [List.nil_append, cutAtLast?, cutAtLast?_of_not_mem h, if_pos rfl]
  | cons c a ih => rw [List.cons_append, cutAtLast?, ih]

lemma cutAtLast?_eq_none_iff {x : Char} {cs : List Char} : cutAtLast? x cs = none ↔ x ∉ cs := by
  refine ⟨fun h => ?_, cutAtLast?_of_not_mem⟩
  induction cs with
  | nil => exact List.not_mem_nil
  | cons c cs ih =>
    rw [cutAtLast?] at h
    split at h
    · exact absurd h (by simp)
    · rename_i hcs
      split at h
      · exact absurd h (by simp)
      · rename_i hc
        rw [List.mem_cons, not_or]
        exact ⟨Ne.symm hc, ih hcs⟩

/-- The cut comes at the last occurrence. -/
lemma cutAtLast?_eq_some_iff {x : Char} {cs a b : List Char} :
    cutAtLast? x cs = some (a, b) ↔ cs = a ++ x :: b ∧ x ∉ b := by
  refine ⟨fun h => ⟨cutAtLast?_append h, fun hmem => ?_⟩,
    fun ⟨hcs, hb⟩ => hcs ▸ cutAtLast?_append_cons hb⟩
  induction cs generalizing a with
  | nil => exact absurd h (by simp [cutAtLast?])
  | cons c cs ih =>
    rw [cutAtLast?] at h
    split at h
    · rename_i p hp
      obtain ⟨-, rfl⟩ := Prod.mk.inj (Option.some.inj h)
      exact ih hp
    · rename_i hcs
      split at h
      · obtain ⟨-, rfl⟩ := Prod.mk.inj (Option.some.inj h)
        exact cutAtLast?_eq_none_iff.1 hcs hmem
      · exact absurd h (by simp)

/-- Exchanging the extension of an entry joined to a path leaves the path as it is. -/
lemma withExtension_join {extension : String} (h : '/' ∉ name.toList)
    (hnew : '/' ∉ (stemOf name ++ "." ++ extension).toList) :
    withExtension (join base name) extension = join base (stemOf name ++ "." ++ extension) := by
  -- what stands in front of the last slash is what the name is joined to
  have hcut (directory : List Char)
      (he : (join base name).toList = directory ++ '/' :: name.toList) :
      withExtension (join base name) extension =
        String.ofList (directory ++ ['/']) ++ (stemOf name ++ "." ++ extension) := by
    simp only [withExtension, fileName, he, cutAtLast?_append_cons h, String.ofList_toList]
  rw [join_of_not_mem hnew]
  by_cases hb : base = ""
  · have hn : join base name = name := by
      rw [join_of_not_mem h, if_pos (.inl hb), hb, String.empty_append]
    rw [if_pos (.inl hb), hb, String.empty_append, ← hb, hn]
    simp only [withExtension, fileName, cutAtLast?_of_not_mem h]
  · by_cases hs : endsWithSlash base = true
    · obtain ⟨a, ha⟩ : ∃ a, base.toList = a ++ ['/'] := by
        simpa [endsWithSlash, List.getLast?_eq_some_iff] using hs
      rw [if_pos (.inr hs), hcut a]
      · rw [← ha, String.ofList_toList]
      · rw [join_of_not_mem h, if_pos (.inr hs), String.toList_append, ha]
        simp
    · have hno : ¬ (base = "" ∨ endsWithSlash base = true) := not_or.2 ⟨hb, hs⟩
      rw [if_neg hno, hcut base.toList]
      · congr 1
        exact String.toList_inj.1 (by simp)
      · rw [join_of_not_mem h, if_neg hno]
        simp

/-! ## The directory of a path -/

/-- Dropping elements from a sequence drops characters from what joins it. -/
lemma intercalate_sublist {xs ys : List (List Char)} (sep : List Char) (h : xs.Sublist ys) :
    (sep.intercalate xs).Sublist (sep.intercalate ys) := by
  induction h with
  | slnil => exact List.Sublist.refl _
  | @cons xs ys y h ih =>
    cases ys with
    | nil => simp [List.sublist_nil.1 h]
    | cons z zs =>
      rw [List.intercalate_cons_cons]
      exact ih.trans (List.sublist_append_right _ _)
  | @cons_cons xs ys x h ih =>
    cases xs with
    | nil =>
      cases ys with
      | nil => exact List.Sublist.refl _
      | cons z zs =>
        rw [List.intercalate_singleton, List.intercalate_cons_cons, List.append_assoc]
        exact List.sublist_append_left _ _
    | cons w ws =>
      cases ys with
      | nil => exact absurd h (by simp)
      | cons z zs =>
        rw [List.intercalate_cons_cons, List.intercalate_cons_cons]
        exact List.Sublist.append_left ih _

/-- The segments of a path are texts between its slashes. -/
lemma segments_eq (path : String) :
    (segments path).map String.toList = (path.toList.splitOn '/').filter (· ≠ []) := by
  simp [segments, Function.comp_def]

lemma ne_empty_of_mem_segments (h : name ∈ segments path) : name ≠ "" := by
  rintro rfl
  have hmem : [] ∈ (segments path).map String.toList := List.mem_map.2 ⟨_, h, rfl⟩
  rw [segments_eq] at hmem
  simpa using (List.mem_filter.1 hmem).2

lemma not_mem_of_mem_splitOn {x : Char} {cs part : List Char} (h : part ∈ cs.splitOn x) :
    x ∉ part := by
  induction cs generalizing part with
  | nil => simp_all
  | cons c cs ih =>
    rw [List.splitOn_cons_eq_if_modifyHead] at h
    split at h
    · rcases List.mem_cons.1 h with rfl | h
      · simp
      · exact ih h
    · rename_i hc
      obtain ⟨first, rest, hsplit⟩ :=
        List.exists_cons_of_ne_nil (List.splitOn_ne_nil x cs)
      rw [hsplit, List.modifyHead_cons] at h
      rcases List.mem_cons.1 h with rfl | h
      · rw [List.mem_cons, not_or]
        exact ⟨fun hx => hc (by simp [hx]), ih (by simp [hsplit])⟩
      · exact ih (by simp [hsplit, h])

lemma not_mem_of_mem_segments (h : name ∈ segments path) : '/' ∉ name.toList := by
  have hmem : name.toList ∈ (segments path).map String.toList := List.mem_map_of_mem h
  rw [segments_eq] at hmem
  exact not_mem_of_mem_splitOn (List.mem_filter.1 hmem).1

/-- The path that entries make has them as segments. -/
lemma segments_intercalate {names : List String} (h : ∀ s ∈ names, '/' ∉ s.toList ∧ s ≠ "") :
    segments ("/".intercalate names) = names := by
  have hslash : "/".toList = ['/'] := by decide
  cases names with
  | nil => simp [segments]
  | cons first rest =>
    have hsplit : (("/".intercalate (first :: rest)).toList).splitOn '/' =
        (first :: rest).map String.toList := by
      rw [String.toList_intercalate, hslash]
      refine List.splitOn_intercalate '/' (fun part hpart => ?_) (by simp)
      obtain ⟨s, hs, rfl⟩ := List.mem_map.1 hpart
      exact (h s hs).1
    have hall : ((first :: rest).map String.toList).filter (· ≠ []) =
        (first :: rest).map String.toList := by
      refine List.filter_eq_self.2 fun part hpart => ?_
      obtain ⟨s, hs, rfl⟩ := List.mem_map.1 hpart
      simpa using (h s hs).2
    rw [segments, hsplit, hall, List.map_map]
    simp [Function.comp_def]

/-- What the components of a path begin with: the top, the working directory if it is named,
or nothing. -/
def lead (path : String) : List Component :=
  if isAbsolute path then [.top] else if (segments path).head? = some "." then [.here] else []

lemma components_eq (path : String) :
    components path = lead path ++ ((segments path).filter (· ≠ ".")).map Component.ofSegment := by
  simp only [components, lead]
  split
  · rfl
  · split <;> rfl

lemma text_ofSegment (s : String) : (Component.ofSegment s).text = s := by
  unfold Component.ofSegment
  split
  · rename_i h
    rw [h]
    rfl
  · rfl

lemma map_text_ofSegment (ss : List String) :
    (ss.map Component.ofSegment).map Component.text = ss := by
  simp [Function.comp_def, text_ofSegment]

/-- A path is the beginning of another one, up to dots and slashes. -/
structure IsBeginning (path q : String) (init : List String) : Prop where
  /-- It is not the empty path. -/
  ne_empty : q ≠ ""
  /-- It is absolute if the path is. -/
  absolute : isAbsolute q = isAbsolute path
  /-- Its characters are among those of the path, in the same order. -/
  sublist : q.toList.Sublist path.toList
  /-- It has the same segments as the beginning of the path, except for dots; a dot at the
  beginning stays. -/
  segments : segments q = init.filter (· ≠ ".") ∨
    init.head? = some "." ∧ segments q = "." :: init.filter (· ≠ ".")

/-- The directory of a path has the segments of the path but the last, up to dots. -/
structure IsParent (path q : String) (init : List String) : Prop
    extends IsBeginning path q init where
  /-- It is the directory of the path. -/
  parent : parent? path = some q

/-- A path that consists of entries is relative and not empty. -/
lemma intercalate_relative {names : List String} (hne : names ≠ [])
    (h : ∀ s ∈ names, '/' ∉ s.toList ∧ s ≠ "") :
    isAbsolute ("/".intercalate names) = false ∧ "/".intercalate names ≠ "" := by
  obtain ⟨first, rest, rfl⟩ := List.exists_cons_of_ne_nil hne
  obtain ⟨hslash, hfirst⟩ := h first (by simp)
  obtain ⟨c, cs, hc⟩ : ∃ c cs, first.toList = c :: cs :=
    List.exists_cons_of_ne_nil fun hn => hfirst (String.toList_inj.1 (by simp [hn]))
  have htext : ∃ ds, ("/".intercalate (first :: rest)).toList = c :: ds := by
    rw [String.toList_intercalate, List.map_cons, hc]
    cases rest with
    | nil => exact ⟨cs, by simp⟩
    | cons second rest => exact ⟨_, by rw [List.map_cons, List.intercalate_cons_cons]; rfl⟩
  obtain ⟨ds, hds⟩ := htext
  rw [hc, List.mem_cons, not_or] at hslash
  constructor
  · simp [isAbsolute, hds, Ne.symm hslash.1]
  · intro hempty
    rw [hempty] at hds
    exact absurd hds (by simp)

/-- Segments of a path in their order make a text of characters of the path in their order. -/
lemma intercalate_segments_sublist {names : List String} (h : names.Sublist (segments path)) :
    ("/".intercalate names).toList.Sublist path.toList := by
  have hslash : "/".toList = ['/'] := by decide
  rw [String.toList_intercalate, hslash]
  have hpath : ['/'].intercalate (path.toList.splitOn '/') = path.toList :=
    List.intercalate_splitOn '/'
  rw [← hpath]
  refine intercalate_sublist _ ((h.map _).trans ?_)
  rw [segments_eq]
  exact List.filter_sublist

/-- The same for an absolute path, with the slash in front. -/
lemma slash_intercalate_segments_sublist {names : List String} (habs : isAbsolute path = true)
    (h : names.Sublist (segments path)) :
    ("/" ++ "/".intercalate names).toList.Sublist path.toList := by
  have hslash : "/".toList = ['/'] := by decide
  obtain ⟨rest, hrest⟩ : ∃ rest, path.toList = '/' :: rest := by
    simpa [isAbsolute, List.head?_eq_some_iff] using habs
  have hpath : path = String.ofList ([] ++ '/' :: rest) := String.toList_inj.1 (by simp [hrest])
  have hseg : segments path = segments (String.ofList rest) := by
    rw [hpath, segments_slash]
    simp [segments]
  rw [hseg] at h
  rw [String.toList_append, hslash, hrest]
  have := intercalate_segments_sublist h
  rw [String.toList_ofList] at this
  exact List.Sublist.cons_cons '/' this

/-- The segments that a path begins with, without dots, are names. -/
lemma isEntry_of_mem_filter {init : List String} (h : init <+: segments path) :
    ∀ s ∈ init.filter (· ≠ "."), '/' ∉ s.toList ∧ s ≠ "" := by
  intro s hs
  have hmem : s ∈ segments path := h.subset (List.mem_filter.1 hs).1
  exact ⟨not_mem_of_mem_segments hmem, ne_empty_of_mem_segments hmem⟩

/-- The first components of an absolute path make a beginning of it. -/
lemma isBeginning_of_absolute {init : List String} (habs : isAbsolute path = true)
    (h : init <+: segments path) :
    IsBeginning path (ofComponents (.top :: (init.filter (· ≠ ".")).map Component.ofSegment))
      init := by
  have hsublist : (init.filter (· ≠ ".")).Sublist (segments path) :=
    List.filter_sublist.trans h.sublist
  have hslash : "/" ++ "/".intercalate (init.filter (· ≠ ".")) = String.ofList
      ([] ++ '/' :: ("/".intercalate (init.filter (· ≠ "."))).toList) :=
    String.toList_inj.1 (by simp)
  rw [ofComponents, map_text_ofSegment]
  refine ⟨?_, ?_, slash_intercalate_segments_sublist habs hsublist, .inl ?_⟩
  · rw [hslash]
    intro h
    exact absurd (congrArg String.toList h) (by simp)
  · rw [hslash, habs]
    simp [isAbsolute]
  · rw [hslash, segments_slash, String.ofList_toList,
      segments_intercalate (isEntry_of_mem_filter h)]
    simp [segments]

/-- A dot at the beginning of a path is kept. -/
lemma isBeginning_of_here {init : List String} (hrelative : isAbsolute path = false)
    (h : "." :: init <+: segments path) :
    IsBeginning path (ofComponents (.here :: (init.filter (· ≠ ".")).map Component.ofSegment))
      ("." :: init) := by
  have hof : ofComponents (.here :: (init.filter (· ≠ ".")).map Component.ofSegment) =
      "/".intercalate ("." :: init.filter (· ≠ ".")) := by
    rw [ofComponents, List.map_cons, map_text_ofSegment]
    · rfl
    · simp
  have hentries : ∀ s ∈ "." :: init.filter (· ≠ "."), '/' ∉ s.toList ∧ s ≠ "" := by
    intro s hs
    rcases List.mem_cons.1 hs with rfl | hs
    · decide
    · exact isEntry_of_mem_filter h s (by rwa [List.filter_cons_of_neg (by simp)])
  obtain ⟨hrel, hne⟩ := intercalate_relative (by simp) hentries
  have hsublist : ("." :: init.filter (· ≠ ".")).Sublist (segments path) :=
    (List.filter_sublist.cons_cons _).trans h.sublist
  rw [hof]
  refine ⟨hne, hrel.trans hrelative.symm, intercalate_segments_sublist hsublist, .inr ⟨rfl, ?_⟩⟩
  rw [segments_intercalate hentries, List.filter_cons_of_neg (by simp)]

/-- The first components of any other path, where there are some. -/
lemma isBeginning_of_entries {init : List String} (hrelative : isAbsolute path = false)
    (h : init <+: segments path) (hne : init.filter (· ≠ ".") ≠ []) :
    IsBeginning path (ofComponents ((init.filter (· ≠ ".")).map Component.ofSegment)) init := by
  have hof : ofComponents ((init.filter (· ≠ ".")).map Component.ofSegment) =
      "/".intercalate (init.filter (· ≠ ".")) := by
    rw [ofComponents, map_text_ofSegment]
    intro cs hcs
    obtain ⟨s, -, hs⟩ := List.mem_map.1 (hcs ▸ List.mem_cons_self)
    unfold Component.ofSegment at hs
    split at hs <;> exact absurd hs (by simp)
  have hentries := isEntry_of_mem_filter h
  obtain ⟨hrel, hq⟩ := intercalate_relative hne hentries
  have hsublist : (init.filter (· ≠ ".")).Sublist (segments path) :=
    List.filter_sublist.trans h.sublist
  rw [hof]
  exact ⟨hq, hrel.trans hrelative.symm, intercalate_segments_sublist hsublist,
    .inl (segments_intercalate hentries)⟩

/-- The first components of a path make a beginning of it. -/
lemma isBeginning_ofComponents {init : List String} (h : init <+: segments path)
    (hinit : init ≠ [] ∨ isAbsolute path = true) :
    IsBeginning path (ofComponents (lead path ++ (init.filter (· ≠ ".")).map Component.ofSegment))
      init := by
  by_cases habs : isAbsolute path = true
  · rw [lead, if_pos habs]
    exact isBeginning_of_absolute habs h
  · obtain ⟨s, rest, rfl⟩ := List.exists_cons_of_ne_nil (hinit.resolve_right habs)
    have hhead : (segments path).head? = some s := by
      obtain ⟨below, hbelow⟩ := h
      rw [← hbelow]
      rfl
    have hrelative : isAbsolute path = false := Bool.eq_false_iff.2 habs
    by_cases hdot : s = "."
    · subst hdot
      rw [lead, if_neg habs, if_pos hhead, List.filter_cons_of_neg (by simp)]
      exact isBeginning_of_here hrelative h
    · have hhere : (segments path).head? ≠ some "." := by
        rw [hhead]
        exact fun heq => hdot (Option.some.inj heq)
      rw [lead, if_neg habs, if_neg hhere, List.nil_append]
      exact isBeginning_of_entries hrelative h (by simp [hdot])

/-- The components of a path that ends in an entry. -/
lemma components_of_segments {init : List String} (hseg : segments path = init ++ [name])
    (hdot : name ≠ ".") :
    components path = (lead path ++ (init.filter (· ≠ ".")).map Component.ofSegment) ++
      [Component.ofSegment name] := by
  simp [components_eq, hseg, hdot]

/-- An entry joined to a path is one more component. -/
lemma components_join (base : String) (h : '/' ∉ name.toList) (hne : name ≠ "") (hdot : name ≠ ".")
    (hup : name ≠ "..") : components (join base name) = components base ++ [.entry name] := by
  have hlead : lead (join base name) = lead base := by
    unfold lead
    rw [isAbsolute_join h, segments_join h hne]
    cases segments base <;> simp [hdot]
  rw [components_of_segments (segments_join h hne) hdot, hlead, components_eq base,
    Component.ofSegment, if_neg hup]

/-- Joining nothing adds no component. -/
lemma components_join_empty (base : String) : components (join base "") = components base := by
  rw [components_eq, components_eq base, lead, lead, segments_join_empty,
    isAbsolute_join (by simp)]

/-- A path whose last segment is an entry in some directory has a directory. -/
lemma exists_parent {init : List String} (hseg : segments path = init ++ [name])
    (hdot : name ≠ ".") (hinit : init ≠ []) : ∃ q, IsParent path q init := by
  have hcomponents := components_of_segments hseg hdot
  have hparent : parent? path = some (ofComponents
      (lead path ++ (init.filter (· ≠ ".")).map Component.ofSegment)) := by
    have htop : Component.ofSegment name ≠ .top := by
      unfold Component.ofSegment
      split <;> simp
    unfold parent?
    split
    · rename_i h
      simp [hcomponents] at h
    · rename_i h
      rw [hcomponents] at h
      exact absurd (List.append_eq_singleton_iff.1 h) (by simp [htop])
    · rw [hcomponents, List.dropLast_concat]
  have hbegins : init <+: segments path := hseg ▸ List.prefix_append _ _
  exact ⟨_, isBeginning_ofComponents hbegins (.inl hinit), hparent⟩

/-- Some of the first components of a path, but not its last one, make a beginning of it. -/
lemma isBeginning_of_prefix {init : List String} {cs : List Component}
    (hseg : segments path = init ++ [name]) (hdot : name ≠ ".") (hne : cs ≠ [])
    (h : cs <+: (components path).dropLast) :
    ∃ first, first <+: init ∧ IsBeginning path (ofComponents cs) first := by
  have hbegins : init <+: segments path := hseg ▸ List.prefix_append _ _
  rw [components_of_segments hseg hdot, List.dropLast_concat] at h
  have hfirst {t : List Component} (ht : t <+: (init.filter (· ≠ ".")).map Component.ofSegment) :
      ∃ first, first <+: init ∧ t = (first.filter (· ≠ ".")).map Component.ofSegment := by
    obtain ⟨entries, hentries, rfl⟩ := List.prefix_map_iff.1 ht
    obtain ⟨first, hfirst, rfl⟩ := List.prefix_filter_iff.1 hentries
    exact ⟨first, hfirst, rfl⟩
  suffices ∃ first, first <+: init ∧ (first ≠ [] ∨ isAbsolute path = true) ∧
      cs = lead path ++ (first.filter (· ≠ ".")).map Component.ofSegment by
    obtain ⟨first, hle, hfirst, rfl⟩ := this
    exact ⟨first, hle, isBeginning_ofComponents (hle.trans hbegins) hfirst⟩
  by_cases habs : isAbsolute path = true
  · have hlead : lead path = [.top] := by rw [lead, if_pos habs]
    rw [hlead] at h ⊢
    obtain ⟨t, rfl, ht⟩ := (List.prefix_cons_iff.1 h).resolve_left hne
    obtain ⟨first, hle, rfl⟩ := hfirst ht
    exact ⟨first, hle, .inr habs, rfl⟩
  · by_cases hhere : (segments path).head? = some "."
    · -- the dot at the beginning is a component of its own
      obtain ⟨rest, rfl⟩ : ∃ rest, init = "." :: rest := by
        cases init with
        | nil => exact absurd (by simpa [hseg] using hhere) hdot
        | cons s rest => exact ⟨rest, by simpa [hseg] using hhere⟩
      have hlead : lead path = [.here] := by rw [lead, if_neg habs, if_pos hhere]
      rw [hlead] at h ⊢
      obtain ⟨t, rfl, ht⟩ := (List.prefix_cons_iff.1 h).resolve_left hne
      obtain ⟨first, hle, rfl⟩ := hfirst ht
      cases first with
      | nil => exact ⟨["."], (List.prefix_cons_inj _).2 List.nil_prefix, .inl (by simp), by simp⟩
      | cons s first => exact ⟨s :: first, hle, .inl (by simp), rfl⟩
    · have hlead : lead path = [] := by rw [lead, if_neg habs, if_neg hhere]
      rw [hlead] at h ⊢
      obtain ⟨first, hle, rfl⟩ := hfirst h
      refine ⟨first, hle, .inl ?_, rfl⟩
      rintro rfl
      exact hne rfl

end DiagramRegistry.Path
