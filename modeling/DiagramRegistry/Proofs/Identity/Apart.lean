import DiagramRegistry.Proofs.Reference.Addressing
import DiagramRegistry.Proofs.Repository.RelativePath

/-
# Texts that stand for keys

A diagram is stored under a path, and messages show its key as a text.  Both are put together from
the location and the stem of the key, and both can be taken apart again, whatever characters the
stem has: a path begins with the directory of the location and has the stem twice, a shown key
ends with the name of the location.  Since location and stem fix a well-named key, no two such keys
share a file or are shown alike.

* `Key.relativePath_eq_iff`, `Key.display_eq_iff`: which keys have one path or are shown alike;
* `wellNamed_keys_are_apart`: no two well-named keys.
-/
namespace DiagramRegistry

namespace Location

lemma at_not_mem_name (l : Location) : '@' ∉ l.name.toList := by
  cases l <;> decide

lemma name_injective {l l' : Location} (h : l.name = l'.name) : l = l' := by
  cases l <;> cases l' <;> first | rfl | exact absurd h (by decide)

end Location

namespace Key

variable {j k : Key}

/-- A path below the root tells the location and the stem. -/
theorem relativePath_eq_iff :
    j.relativePath = k.relativePath ↔ j.location = k.location ∧ j.stem = k.stem := by
  refine ⟨fun h => ?_, fun ⟨hl, hs⟩ => relativePath_congr hl hs⟩
  have hpaths := congrArg String.toList h
  rw [toList_relativePath, toList_relativePath, Include.layout, Include.layout] at hpaths
  have hsplit (l : Location) (rest : List Char) :
      (l.directory.toList ++ '/' :: rest).splitOn '/' =
        l.directory.toList :: rest.splitOn '/' := by
    rw [List.splitOn_append_cons_self, List.splitOn_eq_singleton (Layout.not_mem_directory l)]
    rfl
  have hdirectory : j.location.directory = k.location.directory := by
    have hsegments := congrArg (List.splitOn '/') hpaths
    rw [hsplit, hsplit] at hsegments
    exact String.toList_inj.1 (List.cons.inj hsegments).1
  rw [hdirectory] at hpaths
  have hstems := (List.cons.inj (List.append_cancel_left hpaths)).2
  -- the stem stands there twice, so the length of what is left tells where it ends
  have hlength : j.stem.toList.length = k.stem.toList.length := by
    have := congrArg List.length hstems
    simp only [List.length_append, List.length_cons] at this
    omega
  exact ⟨Layout.directory_injective hdirectory,
    String.toList_inj.1 (List.append_inj hstems hlength).1⟩

lemma toList_display (k : Key) :
    k.display.toList =
      (k.type.name.toList ++ ':' :: k.stem.toList) ++ '@' :: k.location.name.toList := by
  simp [display, toString]

/-- The text of a key in messages tells the location and the stem. -/
theorem display_eq_iff : j.display = k.display ↔ j.location = k.location ∧ j.stem = k.stem := by
  constructor
  · intro h
    have hcut := congrArg (Text.cutAtLast? '@' ∘ String.toList) h
    rw [Function.comp_apply, Function.comp_apply, toList_display, toList_display,
      Path.cutAtLast?_append_cons (Location.at_not_mem_name _),
      Path.cutAtLast?_append_cons (Location.at_not_mem_name _), Option.some.injEq,
      Prod.mk.injEq] at hcut
    obtain ⟨hfront, hname⟩ := hcut
    have hstem : ':' :: j.stem.toList = ':' :: k.stem.toList := List.append_cancel_left hfront
    exact ⟨Location.name_injective (String.toList_inj.1 hname),
      String.toList_inj.1 (List.cons.inj hstem).2⟩
  · rintro ⟨hl, hs⟩
    rw [display, display, hl, hs]

end Key

/-- The paths of two diagrams on disk are the same only if location and stem are. -/
lemma Layout.eq_of_same_diagramPath {root : String} {j k : Key} (hj : j.IsSafe) (hk : k.IsSafe)
    (h : Path.same (diagramPath root j) (diagramPath root k) = true) :
    j.location = k.location ∧ j.stem = k.stem := by
  have hcomponents := of_decide_eq_true h
  rw [components_diagramPath_eq root hj, components_diagramPath_eq root hk] at hcomponents
  have hplace := List.append_cancel_left hcomponents
  have hentry : Function.Injective Path.Component.entry := fun _ _ => Path.Component.entry.inj
  exact place_injective (List.map_injective_iff.2 hentry hplace)

/-- Different keys that obey the rules of their locations have different paths below the root and
are shown differently, and below no root are the paths of their files on disk the same. -/
theorem wellNamed_keys_are_apart {j k : Key} (hj : j.isWellNamed = true)
    (hk : k.isWellNamed = true) :
    (j.relativePath = k.relativePath → j = k) ∧ (j.display = k.display → j = k) ∧
    ∀ root, Path.same (Layout.diagramPath root j) (Layout.diagramPath root k) = true → j = k := by
  have hfixed (h : j.location = k.location ∧ j.stem = k.stem) : j = k :=
    Key.eq_of_stem hj hk h.1 h.2
  refine ⟨fun h => hfixed (Key.relativePath_eq_iff.1 h), fun h => hfixed (Key.display_eq_iff.1 h),
    fun root h => hfixed ?_⟩
  exact Layout.eq_of_same_diagramPath (Key.isSafe_of_isWellNamed hj)
    (Key.isSafe_of_isWellNamed hk) h

/-- The stems of both diagrams split into the name `door` and a version. -/
theorem doors_are_apart :
    let j := Key.staging "door-1" "0.0.0"
    let k := Key.staging "door" "1.0.0-0"
    j.isWellNamed = true ∧ k.isWellNamed = true ∧ j.relativePath ≠ k.relativePath ∧
      j.display ≠ k.display ∧
      Path.same (Layout.diagramPath "d" j) (Layout.diagramPath "d" k) = false := by
  have hj : (Key.staging "door-1" "0.0.0").isWellNamed = true := by decide
  have hk : (Key.staging "door" "1.0.0-0").isWellNamed = true := by decide
  have hne : Key.staging "door-1" "0.0.0" ≠ Key.staging "door" "1.0.0-0" := by decide
  obtain ⟨hpath, hdisplay, hsame⟩ := wellNamed_keys_are_apart hj hk
  exact ⟨hj, hk, mt hpath hne, mt hdisplay hne, Bool.eq_false_iff.2 (mt (hsame "d") hne)⟩

end DiagramRegistry
