import DiagramRegistry.Proofs.Disk.Files

/-
# Changes within some places

A change of the disk puts something at the place that a path names, or takes something away from
there.  Where a directory is made with those it lies in, these are at the places that the
beginnings of its path name (`Disk.OnWay`).  So several changes in a row leave alone what lies
elsewhere (`Disk.ChangesWithin`).

* `Disk.ChangesWithin.trans`: changes in a row;
* `Disk.ChangesWithin.ensureDirectory`: a directory is made with those it lies in;
* `Disk.ChangesWithin.of_writeFile` to `Disk.ChangesWithin.of_removeDirectory`: single changes.
-/
namespace DiagramRegistry.Disk

variable {d d' d'' : Disk} {p : Place} {n : Node} {path q name source target : String}
  {now : Instant} {contents : Contents} {init : List String} {inside onWay : Place → Prop}

/-! ## On the way of a path -/

/-- The place is named by a beginning of the path. -/
def OnWay (d : Disk) (path : String) (p : Place) : Prop :=
  ∃ first, first <+: Path.segments path ∧ first.foldl along (d.origin path) = p

lemma onWay_congr (h : d'.workingDirectory = d.workingDirectory) (path : String) (p : Place) :
    d'.OnWay path p ↔ d.OnWay path p := by
  rw [OnWay, OnWay, origin_congr h]

/-- What is on the way of a beginning of a path is named by segments of the path. -/
lemma OnWay.exists_of_isBeginning (h : d.OnWay q p) (hbegins : Path.IsBeginning path q init) :
    ∃ first, first <+: init ∧ first.foldl along (d.origin path) = p := by
  obtain ⟨first, hfirst, rfl⟩ := h
  have horigin : d.origin q = d.origin path := by simp only [origin, hbegins.absolute]
  have hdots {first : List String} (h : first <+: init.filter (· ≠ ".")) :
      ∃ first', first' <+: init ∧
        first'.foldl along (d.origin path) = first.foldl along (d.origin path) := by
    obtain ⟨first', hfirst', rfl⟩ := List.prefix_filter_iff.1 h
    exact ⟨first', hfirst', foldl_along_filter.symm⟩
  rw [horigin]
  rcases hbegins.segments with hseg | ⟨-, hseg⟩
  · exact hdots (hseg ▸ hfirst)
  · -- a dot at the beginning leads nowhere
    rw [hseg] at hfirst
    rcases List.prefix_cons_iff.1 hfirst with rfl | ⟨rest, rfl, hrest⟩
    · exact ⟨[], List.nil_prefix, rfl⟩
    · rw [List.foldl_cons, along, if_pos rfl]
      exact hdots hrest

/-! ## Changes -/

/-- One disk comes from another by changes at some places.  Elsewhere it is the same, but for
directories that were made in free places on the way. -/
structure ChangesWithin (inside onWay : Place → Prop) (d d' : Disk) : Prop where
  /-- The working directory is the same. -/
  workingDirectory : d'.workingDirectory = d.workingDirectory
  /-- Elsewhere everything is as it was, or a directory was made. -/
  elsewhere : ∀ p, ¬ inside p →
    d'.at? p = d.at? p ∨ d.at? p = none ∧ d'.at? p = some .directory ∧ onWay p

namespace ChangesWithin

lemma refl (d : Disk) : ChangesWithin inside onWay d d := ⟨rfl, fun _ _ => .inl rfl⟩

lemma trans (h : ChangesWithin inside onWay d d') (h' : ChangesWithin inside onWay d' d'') :
    ChangesWithin inside onWay d d'' := by
  refine ⟨h'.workingDirectory.trans h.workingDirectory, fun p hp => ?_⟩
  rcases h.elsewhere p hp with hsame | ⟨hfree, hmade, hway⟩
  · rcases h'.elsewhere p hp with hsame' | ⟨hfree', hmade', hway'⟩
    · exact .inl (hsame'.trans hsame)
    · exact .inr ⟨hsame ▸ hfree', hmade', hway'⟩
  · rcases h'.elsewhere p hp with hsame' | ⟨hfree', -, -⟩
    · exact .inr ⟨hfree, hsame'.trans hmade, hway⟩
    · exact absurd (hmade.symm.trans hfree') (by simp)

lemma put (d : Disk) (n : Node) (hne : p ≠ []) (hp : inside p) :
    ChangesWithin inside onWay d (d.put p n) := by
  refine ⟨rfl, fun r hr => .inl ?_⟩
  rw [at?_put _ hne, if_neg]
  rintro rfl
  exact hr hp

lemma erase (d : Disk) (hne : p ≠ []) (hp : inside p) :
    ChangesWithin inside onWay d (d.erase p) := by
  refine ⟨rfl, fun r hr => .inl ?_⟩
  rw [at?_erase _ hne, if_neg]
  rintro rfl
  exact hr hp

/-- A directory is made on the way. -/
lemma put_directory (hne : p ≠ []) (hfree : d.at? p = none) (hp : onWay p) :
    ChangesWithin inside onWay d (d.put p .directory) := by
  refine ⟨rfl, fun r _ => ?_⟩
  rw [at?_put _ hne]
  split
  · rename_i hr
    exact .inr ⟨hr ▸ hfree, rfl, hr ▸ hp⟩
  · exact .inl rfl

/-- To have a directory only directories on its way are made. -/
lemma ensureDirectory (hseg : Path.segments path = init ++ [name]) (hdot : name ≠ ".")
    (hway : ∀ p, d.OnWay path p → onWay p) :
    ChangesWithin inside onWay d (d.ensureDirectory path).2 := by
  refine ensureDirectory_induction hseg hdot (.refl d) fun e p first he hfirst hp hfree hne => ?_
  refine he.trans (put_directory hne hfree (hway p ⟨first, hseg ▸ hfirst, ?_⟩))
  rw [hp, origin_congr he.workingDirectory]

lemma of_writeFile (h : d.writeFile now path contents = .ok d') (hpath : inside (d.placeOf path)) :
    ChangesWithin inside onWay d d' := by
  obtain ⟨p, f, hlocate, -, -, -, rfl⟩ := writeFile_eq_ok_iff.1 h
  exact put d _ (ne_nil_of_locate hlocate) (placeOf_of_locate hlocate ▸ hpath)

lemma of_renameFile (h : d.renameFile source target = .ok d') (hsource : inside (d.placeOf source))
    (htarget : inside (d.placeOf target)) : ChangesWithin inside onWay d d' := by
  obtain ⟨p, f, t, hfind, hlocate, -, -, rfl⟩ := renameFile_eq_ok_iff.1 h
  rw [placeOf_of_find hfind] at hsource
  rw [placeOf_of_locate hlocate] at htarget
  exact (erase d (ne_nil_of_file (find_eq_ok_iff.1 hfind).2.2.1) hsource).trans
    (put _ _ (ne_nil_of_locate hlocate) htarget)

lemma of_removeFile (h : d.removeFile path = .ok d') (hpath : inside (d.placeOf path)) :
    ChangesWithin inside onWay d d' := by
  obtain ⟨p, f, hlocate, -, -, rfl⟩ := removeFile_eq_ok_iff.1 h
  exact erase d (ne_nil_of_locate hlocate) (placeOf_of_locate hlocate ▸ hpath)

lemma of_removeDirectory (h : d.removeDirectory path = .ok d') (hpath : inside (d.placeOf path)) :
    ChangesWithin inside onWay d d' := by
  obtain ⟨p, hfind, hne, -, rfl⟩ := removeDirectory_eq_ok_iff.1 h
  exact erase d hne (placeOf_of_find hfind ▸ hpath)

end ChangesWithin

end DiagramRegistry.Disk
