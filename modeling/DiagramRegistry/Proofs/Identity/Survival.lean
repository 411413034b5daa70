import DiagramRegistry.Proofs.Reference.OwnPath
import DiagramRegistry.Proofs.Repository.Listing

/-
# Identities on disk and in directives

On disk and in include directives a versioned diagram goes by its stem.  Its name and version
are read back from there by the listing of its location and by the directives that refer to it,
and both read the stem in the same way.  They find the name and the version again unless the
name has a hyphen directly before a digit: then all of them find the same other name and
version, and a diagram that includes its own path is not seen to refer to itself.

* `identity_survives_iff`: where name and version come back.
-/
namespace DiagramRegistry

variable {name version : String}

/-- Whether the identity of a versioned diagram is read back from its stem, from the listing
after it was written, and from the directive with its path, is decided by its name, and so is
whether the reference that the directive makes is reported as one to the diagram itself.  If the
name has no hyphen before a digit, every diagram that includes its own path refers to itself. -/
theorem identity_survives_iff (hname : isIdentifier name = true)
    (hversion : isVersion version = true) :
    (Stem.split? (Stem.join name version) = some (name, version) ↔
      ¬ Stem.HyphenBeforeDigit name.toList) ∧
    (∀ (now : Instant) (d : Diagram) (s s' : OnDisk), d.key.name = name →
      d.key.version = version → d.key.location ≠ .nested →
      (OnDisk.write now d).perform s = (.ok (), s') →
      (∃ failure j, j.stem ≠ d.key.stem ∧ s'.load j = .error failure ∧
        s'.list d.key.location = .error failure) ∨
      ∃ ds, s'.list d.key.location = .ok ds ∧
        (∃ e ∈ ds, e.key.stem = d.key.stem ∧ e.content = d.content) ∧
        ∀ e ∈ ds, e.key.stem = d.key.stem →
          (e.key = d.key ↔ ¬ Stem.HyphenBeforeDigit name.toList)) ∧
    (∃ r, includes ("!include " ++ (Reference.toProduct name version).path) = .ok [r] ∧
      r.kind = .product ∧ r.path = (Reference.toProduct name version).path ∧
      (r.name = name ∧ r.version = version ↔ ¬ Stem.HyphenBeforeDigit name.toList) ∧
      ((r.check name version .none).hasError .selfReference = true ↔
        ¬ Stem.HyphenBeforeDigit name.toList)) ∧
    (¬ Stem.HyphenBeforeDigit name.toList →
      ∀ (catalogue : Option Catalogue) (strictness : Strictness) (d : Diagram)
        (rs : List Reference) (line : List Char), d.key.name = name → d.key.version = version →
      includes d.content = .ok rs → line ∈ Text.lines d.content.toList →
      Text.trim line = ("!include " ++ (Reference.toProduct name version).path).toList →
      (Validation.run catalogue strictness d).2.hasError .selfReference = true) := by
  have hback := Stem.split?_join_iff hname hversion
  refine ⟨hback, ?_, ?_, ?_⟩
  · rintro now d s s' rfl rfl hl hwrite
    exact OnDisk.list_after_write hwrite hname hversion hl
  · obtain ⟨name', version', hsplit, -⟩ := Stem.exists_split?_join hname hversion
    have hidentity : name' = name ∧ version' = version ↔
        ¬ Stem.HyphenBeforeDigit name.toList := by
      rw [← hback, hsplit, Option.some.injEq, Prod.mk.injEq]
    refine ⟨_, Include.includes_directive hname hversion hsplit, rfl, rfl, hidentity, ?_⟩
    rw [Reference.hasError_selfReference_iff, ← hidentity]
    exact ⟨fun h => h.2.2, fun h => ⟨h.1 ▸ hname, rfl, h⟩⟩
  · intro hno catalogue strictness d rs line hdname hdversion hread hmem hline
    exact Validation.hasError_selfReference_of_directive hname hversion (hback.2 hno) hdname
      hdversion hread hmem hline catalogue strictness

/-- One name with hyphens whose identity survives, and one whose identity does not. -/
theorem identities_with_hyphens :
    Stem.split? (Stem.join "door-lock" "1.0.0-rc.1") = some ("door-lock", "1.0.0-rc.1") ∧
      Stem.split? (Stem.join "a-1" "1.0.0") ≠ some ("a-1", "1.0.0") := by
  constructor
  · have hno : ¬ Stem.HyphenBeforeDigit "door-lock".toList :=
      Stem.cutBeforeDigit?_eq_none_iff.1 (by decide)
    exact (identity_survives_iff (by decide) (by decide)).1.2 hno
  · intro h
    refine (identity_survives_iff (by decide) (by decide)).1.1 h ⟨['a'], '1', [], by decide, ?_⟩
    decide

end DiagramRegistry
