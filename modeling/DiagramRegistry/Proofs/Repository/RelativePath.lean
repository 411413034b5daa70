import DiagramRegistry.Proofs.Repository.Places

/-
# Paths below the root

The file of a diagram has two paths: one on disk, joined from the root, the directory of the
location, the stem and the name of the file, and one below the root, which is one text.  To get
from the first to the second the components of the root are taken off and the others are joined by
slashes.  This works for every way to write the root, since the joined names are components of
their own: none of them is empty or made of dots.  Only for a diagram without a stem the two paths
differ, since the path on disk has no directory for it.

* `Path.below?_of_components`: what goes on from a base is below it;
* `Layout.relative?_diagramPath`: the path on disk, seen from the root;
* `Layout.paths_agree_iff`: when it is the path of the diagram below the root.
-/
namespace DiagramRegistry

/-! ## Components behind a base -/

namespace Path

variable {base path : String}

/-- A path that goes on from a base is below it. -/
lemma below?_of_components {cs : List Component} (h : components path = components base ++ cs) :
    below? base path = some cs := by
  have hprefix : (components base).isPrefixOf (components path) = true := by
    rw [List.isPrefixOf_iff_prefix, h]
    exact List.prefix_append _ _
  rw [below?, if_pos hprefix, h, List.drop_left]

end Path

/-! ## The two paths of a diagram -/

namespace Layout

variable {k : Key}

/-- Seen from the root, the file of a diagram is at its place. -/
theorem relative?_diagramPath (root : String) (hk : k.IsSafe) :
    relative? root (diagramPath root k) = some ("/".intercalate (place k.location k.stem)) := by
  have htext : ((place k.location k.stem).map Path.Component.entry).map Path.Component.text =
      place k.location k.stem := by
    rw [List.map_map]
    exact List.map_id _
  rw [relative?, Path.below?_of_components (components_diagramPath_eq root hk), Option.map_some,
    htext]

/-- The names of the place of a diagram make up its path below the root, if none is missing. -/
lemma intercalate_place_iff :
    "/".intercalate (place k.location k.stem) = k.relativePath ↔ k.stem ≠ "" := by
  rw [place, ← String.toList_inj, String.toList_intercalate, Key.relativePath, Key.fileName_eq]
  constructor
  · intro h hstem
    -- without a stem there are two slashes behind the directory
    rw [hstem] at h
    have hlength := congrArg List.length h
    simp [toString, List.intercalate] at hlength
  · intro hstem
    rw [if_neg hstem]
    simp [toString, List.intercalate]

/-- Taking the root off the path of a file on disk gives the path of the diagram below the root,
however the root is written, exactly when the diagram has a stem. -/
theorem paths_agree_iff (root : String) (hname : ensureSafe k.name "name" = .ok ())
    (hversion : ensureSafe k.version "version" = .ok ()) :
    relative? root (diagramPath root k) = some k.relativePath ↔ k.stem ≠ "" := by
  have hsafe : k.IsSafe := ⟨ensureSafe_eq_ok_iff.1 hname, ensureSafe_eq_ok_iff.1 hversion⟩
  rw [relative?_diagramPath root hsafe, Option.some.injEq, intercalate_place_iff]

/-- A root with dots and slashes, and a diagram with a blank and dots in its name. -/
theorem paths_agree_below_dots :
    let k : Key := ⟨"door ..", "-", .production⟩
    ensureSafe k.name "name" = .ok () ∧ ensureSafe k.version "version" = .ok () ∧
      diagramPath "./srv//./a/..//" k = "./srv//./a/..//products/door ..--/door ..--.puml" ∧
      relative? "./srv//./a/..//" (diagramPath "./srv//./a/..//" k) =
        some "products/door ..--/door ..--.puml" :=
  ⟨rfl, rfl, by decide, (paths_agree_iff _ rfl rfl).2 (by decide)⟩

end Layout

end DiagramRegistry
