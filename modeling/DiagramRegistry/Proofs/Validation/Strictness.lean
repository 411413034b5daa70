import DiagramRegistry.Validation
import Mathlib.Data.List.Basic
import Mathlib.Tactic.Common

/-
# No finding is lost or doubled by strictness

While findings are collected, errors and warnings are recorded and levels of strictness are
applied, in any order and any number of times.  Production strictness takes errors away and puts
warnings at the end, and the next application meets what the last one has left.  Still each recorded
error has one fate: it stays an error when it is critical or when production strictness was not
applied behind it, and otherwise it becomes a warning, with one mark in front of its message.

* `Findings.errors_afterAll`: the errors that stay;
* `Findings.exists_warnings_afterAll`: the warnings that come behind those which were there.
-/
namespace DiagramRegistry

/-- What happens to findings while they are collected. -/
inductive Event where
  /-- An error is recorded. -/
  | error (f : Finding)
  /-- A warning is recorded. -/
  | warning (f : Finding)
  /-- A level of strictness is applied. -/
  | apply (level : Strictness)
deriving DecidableEq, Repr

/-- Two sequences in one, each in its own order. -/
structure IsMixOf {α : Type*} (xs ys zs : List α) : Prop where
  /-- The elements are those of both, with their multiplicities. -/
  perm : zs.Perm (xs ++ ys)
  /-- The first sequence is in its order. -/
  left : xs.Sublist zs
  /-- So is the second. -/
  right : ys.Sublist zs

namespace IsMixOf

variable {α : Type*} {xs ys zs : List α}

lemma nil : IsMixOf ([] : List α) [] [] := ⟨List.Perm.nil, List.Sublist.slnil, List.Sublist.slnil⟩

lemma cons_left (h : IsMixOf xs ys zs) (x : α) : IsMixOf (x :: xs) ys (x :: zs) where
  perm := h.perm.cons x
  left := h.left.cons_cons x
  right := h.right.cons x

lemma append_right (h : IsMixOf xs ys zs) (us : List α) : IsMixOf xs (us ++ ys) (us ++ zs) where
  perm := (h.perm.append_left us).trans (List.perm_append_comm_assoc us xs ys)
  left := h.left.trans (List.sublist_append_right us zs)
  right := h.right.append_left us

end IsMixOf

namespace Findings

/-! ## Sequences of events -/

/-- The findings after an event. -/
def after (found : Findings) : Event → Findings
  | .error f => found.error f
  | .warning f => found.warning f
  | .apply level => found.apply level

/-- The findings after a sequence of events. -/
def afterAll (found : Findings) (es : List Event) : Findings := es.foldl after found

/-- The errors that are recorded, in order, each with the events behind it. -/
def recordedErrors : List Event → List (Finding × List Event)
  | [] => []
  | .error f :: es => (f, es) :: recordedErrors es
  | .warning _ :: es => recordedErrors es
  | .apply _ :: es => recordedErrors es

/-- The warnings that are recorded, in order. -/
def recordedWarnings : List Event → List Finding
  | [] => []
  | .error _ :: es => recordedWarnings es
  | .warning f :: es => f :: recordedWarnings es
  | .apply _ :: es => recordedWarnings es

/-- An error stays an error through the events behind it: it is critical, or production strictness
is not among them. -/
def Stays (f : Finding) (behind : List Event) : Prop :=
  f.code.isCritical = true ∨ Event.apply .production ∉ behind

instance (f : Finding) (behind : List Event) : Decidable (Stays f behind) :=
  inferInstanceAs (Decidable (_ ∨ _))

/-- The recorded errors that stay errors. -/
def stayed (es : List Event) : List Finding :=
  ((recordedErrors es).filter fun p => Stays p.1 p.2).map Prod.fst

/-- The warnings that the other recorded errors become. -/
def downgraded (es : List Event) : List Finding :=
  ((recordedErrors es).filter fun p => ¬ Stays p.1 p.2).map fun p => p.1.downgrade

variable {f : Finding} {e : Event} {es : List Event} {found : Findings}

lemma stays_nil (f : Finding) : Stays f [] := .inr List.not_mem_nil

lemma stays_cons_of_ne (he : e ≠ .apply .production) : Stays f (e :: es) ↔ Stays f es := by
  unfold Stays
  rw [List.mem_cons, not_or, and_iff_right (Ne.symm he)]

lemma stays_production : Stays f (.apply .production :: es) ↔ f.code.isCritical = true := by
  simp [Stays]

/-! ## What the errors come to -/

/-- Of the errors that were there, and of those that are recorded, those stay that are critical or
have no application of production strictness behind them. -/
lemma errors_afterAll (found : Findings) (es : List Event) :
    (found.afterAll es).errors = (found.errors.filter fun f => Stays f es) ++ stayed es := by
  induction es generalizing found with
  | nil => simp [afterAll, stayed, recordedErrors, stays_nil]
  | cons e es ih =>
    have hstep : (found.afterAll (e :: es)).errors =
        ((found.after e).errors.filter fun f => Stays f es) ++ stayed es := ih _
    rw [hstep]
    cases e with
    | error f =>
      simp only [after, error, stayed, recordedErrors, stays_cons_of_ne (e := .error f) (by simp)]
      by_cases hf : Stays f es <;> simp [hf]
    | warning f =>
      simp only [after, warning, stayed, recordedErrors,
        stays_cons_of_ne (e := .warning f) (by simp)]
    | apply level =>
      cases level with
      | staging =>
        simp only [after, apply, stayed, recordedErrors,
          stays_cons_of_ne (e := .apply .staging) (by simp)]
      | production =>
        -- a critical error stays whatever is behind it
        have hcritical : (found.criticalErrors.filter fun f => Stays f es) =
            found.criticalErrors :=
          List.filter_eq_self.2 fun f hf =>
            decide_eq_true (.inl (List.mem_filter.1 hf).2)
        simp only [after, apply, stayed, recordedErrors, stays_production, hcritical]
        simp [criticalErrors]

/-! ## What the warnings come to -/

/-- The warnings that errors become which are there before some events. -/
def lost (errors : List Finding) (es : List Event) : List Finding :=
  (errors.filter fun f => ¬ Stays f es).map Finding.downgrade

lemma lost_cons_of_ne (errors : List Finding) (he : e ≠ .apply .production) :
    lost errors (e :: es) = lost errors es := by
  simp only [lost, stays_cons_of_ne he]

lemma lost_concat (errors : List Finding) (f : Finding) (es : List Event) :
    lost (errors ++ [f]) es ++ downgraded es = lost errors es ++ downgraded (.error f :: es) := by
  by_cases hf : Stays f es <;> simp [lost, downgraded, recordedErrors, hf]

lemma lost_production (errors : List Finding) :
    lost errors (.apply .production :: es) =
      (errors.filter fun f => !f.code.isCritical).map Finding.downgrade := by
  simp only [lost, stays_production, decide_not, Bool.decide_eq_true]

lemma lost_criticalErrors (found : Findings) (es : List Event) :
    lost found.criticalErrors es = [] := by
  rw [lost, List.map_eq_nil_iff, List.filter_eq_nil_iff]
  intro f hf
  have hstays : Stays f es := .inl (List.mem_filter.1 hf).2
  simp [hstays]

/-- Behind the warnings that were there come the recorded warnings and the errors that do not stay,
each in their order. -/
lemma exists_warnings_afterAll (found : Findings) (es : List Event) :
    ∃ added, (found.afterAll es).warnings = found.warnings ++ added ∧
      IsMixOf (recordedWarnings es) (lost found.errors es ++ downgraded es) added := by
  induction es generalizing found with
  | nil =>
    refine ⟨[], (List.append_nil _).symm, ?_⟩
    simpa [lost, downgraded, recordedErrors, recordedWarnings, stays_nil] using IsMixOf.nil
  | cons e es ih =>
    obtain ⟨added, hadded, hmix⟩ := ih (found.after e)
    have hstep : (found.afterAll (e :: es)).warnings = (found.after e).warnings ++ added := hadded
    rw [hstep]
    cases e with
    | error f =>
      refine ⟨added, rfl, ?_⟩
      rw [lost_cons_of_ne _ (by simp), ← lost_concat]
      exact hmix
    | warning f =>
      refine ⟨f :: added, List.append_assoc _ _ _, ?_⟩
      rw [lost_cons_of_ne _ (by simp)]
      exact hmix.cons_left f
    | apply level =>
      cases level with
      | staging =>
        refine ⟨added, rfl, ?_⟩
        rw [lost_cons_of_ne _ (by simp)]
        exact hmix
      | production =>
        refine ⟨_ ++ added, List.append_assoc _ _ _, ?_⟩
        have hnone : lost (found.after (.apply .production)).errors es = [] :=
          lost_criticalErrors found es
        rw [hnone, List.nil_append] at hmix
        rw [lost_production]
        exact hmix.append_right _

end Findings

open Findings in
/-- Strictness loses no finding and doubles none.  However errors and warnings are recorded and
levels of strictness applied in between, in the end the errors are the recorded ones, in order, that
are critical or have no application of production strictness behind them.  The warnings are the
recorded ones, unchanged and in order, mixed with the other errors in theirs, which differ in the
mark in front of the message only.  So what is found under production strictness comes from what is
found under staging strictness. -/
theorem strictness_conserves_findings :
    (∀ es : List Event,
      (Findings.none.afterAll es).errors = stayed es ∧
      IsMixOf (recordedWarnings es) (downgraded es) (Findings.none.afterAll es).warnings) ∧
    (∀ f : Finding,
      f.downgrade = ⟨f.code, "downgraded: " ++ f.message, f.line, f.column, f.context⟩) ∧
    ∀ (catalogue : Option Catalogue) (d : Diagram),
      let staged := (Validation.run catalogue .staging d).2
      (Validation.run catalogue .production d).2 =
        ⟨staged.errors.filter fun f => f.code.isCritical,
          staged.warnings ++
            (staged.errors.filter fun f => !f.code.isCritical).map Finding.downgrade⟩ := by
  refine ⟨fun es => ⟨?_, ?_⟩, fun f => rfl, fun catalogue d => rfl⟩
  · rw [errors_afterAll]
    rfl
  · obtain ⟨added, hadded, hmix⟩ := exists_warnings_afterAll .none es
    rw [hadded]
    exact hmix

example :
    let f := Finding.onLine .productReferenceNotFound 2 "not there" "products/x-1/x-1.puml"
    Findings.none.afterAll [.error f, .apply .production, .apply .production, .error f] =
      ⟨[f], [f.downgrade]⟩ := by decide

end DiagramRegistry
