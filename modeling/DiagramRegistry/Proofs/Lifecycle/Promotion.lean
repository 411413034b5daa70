import DiagramRegistry.Proofs.Lifecycle.InMemory

/-
# Promotion of a draft

Promoting a draft in memory either moves it to production or leaves the store alone.  It is
gated by the critical errors of the draft: strictness only relabels the other errors, so the
gate can be stated with the validation under staging strictness, which is the one that the
author of a draft gets to see.

* `Lifecycle.perform_promote_of_promotable`, `Lifecycle.perform_promote_of_not`: what becomes
  of a promotion, by whether the draft is promotable;
* `Lifecycle.promote_gated`: the gate, the change of the store, and the refusals, in terms of
  what is stored.
-/
namespace DiagramRegistry

namespace Findings

variable {found : Findings}

lemma criticalErrors_eq_nil_iff :
    found.criticalErrors = [] ↔ ∀ f ∈ found.errors, f.code.isCritical = false := by
  simp [criticalErrors, List.filter_eq_nil_iff]

lemma isValid_iff : found.isValid = true ↔ found.errors = [] := List.isEmpty_iff

end Findings

/-- Under production strictness the errors are those that are critical under staging strictness. -/
lemma Validation.errors_run_production (catalogue : Option Catalogue) (d : Diagram) :
    (run catalogue .production d).2.errors = (run catalogue .staging d).2.criticalErrors := rfl

namespace Lifecycle

/-- A draft can be promoted: it is stored and can be read, nothing stands at production, and
its validation finds nothing critical. -/
structure Promotable (m : Memory) (name version : String) (d : Diagram) : Prop where
  /-- The draft is stored. -/
  stored : m.get? (.staging name version) = some d
  /-- The draft can be read. -/
  readable : Key.staging name version ∉ m.failingReads
  /-- Nothing is stored at production. -/
  free : m.get? (.production name version) = none
  /-- The store answers for the key at production. -/
  answered : Key.production name version ∉ m.failingChecks
  /-- Validating the draft under staging strictness finds nothing critical. -/
  clean : (Validation.run (some m.catalogue) .staging d).2.criticalErrors = []

/-- The draft as it stands at production. -/
def asPromoted (now : Instant) (name version : String) (d : Diagram) : Diagram :=
  { d with key := .production name version, updated := now }

/-- The store after the promotion of a draft. -/
def afterPromotion (now : Instant) (name version : String) (d : Diagram) (m : Memory) : Memory :=
  (m.erase (.staging name version)).put (.production name version)
    (asPromoted now name version d)

variable {m : Memory} {now : Instant} {name version : String} {d : Diagram}

lemma move_eq (hd : m.get? (.staging name version) = some d)
    (hfree : m.get? (.production name version) = none) :
    Memory.move now name version .staging .production m =
      (.ok (), afterPromotion now name version d m) := by
  have hsource : (⟨name, version, .staging⟩ : Key) = .staging name version := rfl
  have htarget : (Key.staging name version).relocate .production = .production name version := rfl
  simp only [Memory.move, hsource, htarget, hd, hfree, Option.isSome_none, Bool.false_eq_true,
    if_false]
  rfl

/-- A promotable draft is promoted. -/
lemma perform_promote_of_promotable (now : Instant) (h : Promotable m name version d) :
    (promote now name version).perform m =
      (.ok (.production name version, (Validation.run (some m.catalogue) .production d).2),
        afterPromotion now name version d m) := by
  have hload := Memory.load_eq_ok_iff.2 ⟨h.readable, h.stored⟩
  have hcontains : m.contains (.production name version) = .ok false :=
    Memory.contains_eq_ok_iff.2 ⟨h.answered, by rw [h.free]; rfl⟩
  have hvalid : (Validation.run (some m.catalogue) .production d).2.isValid = true := by
    rw [Findings.isValid_iff, Validation.errors_run_production]
    exact h.clean
  rw [perform_promote, hload, hcontains]
  simp only [hvalid, if_true, move_eq h.stored h.free]

/-- What is not promotable is refused, and nothing is changed.  When findings are given as the
reason they are the critical errors of the draft. -/
lemma perform_promote_of_not (now : Instant) (h : ∀ d, ¬ Promotable m name version d) :
    ∃ failure, (promote now name version).perform m = (.error failure, m) ∧
      ∀ k blocking, failure = .promotionBlocked k blocking →
        ∃ d, m.get? (.staging name version) = some d ∧
          blocking = (Validation.run (some m.catalogue) .staging d).2.criticalErrors ∧
            blocking ≠ [] := by
  rw [perform_promote]
  cases hload : m.load (.staging name version) with
  | error failure =>
    refine ⟨failure, rfl, fun k blocking hf => ?_⟩
    rcases Memory.eq_of_load_eq_error hload with ⟨reason, rfl⟩ | rfl
    · exact absurd hf (by simp)
    · exact absurd hf (by simp)
  | ok d =>
    obtain ⟨hreadable, hstored⟩ := Memory.load_eq_ok_iff.1 hload
    cases hcontains : m.contains (.production name version) with
    | error failure =>
      refine ⟨failure, rfl, fun k blocking hf => ?_⟩
      obtain ⟨reason, rfl⟩ := Memory.eq_of_contains_eq_error hcontains
      exact absurd hf (by simp)
    | ok present =>
      obtain ⟨hanswered, hpresent⟩ := Memory.contains_eq_ok_iff.1 hcontains
      cases present with
      | true => exact ⟨_, rfl, fun k blocking hf => by simp at hf⟩
      | false =>
        have hfree : m.get? (.production name version) = none := by
          simpa using hpresent
        -- all but the last condition hold, so it is the one that fails
        have hblocked : (Validation.run (some m.catalogue) .staging d).2.criticalErrors ≠ [] :=
          fun hclean => h d ⟨hstored, hreadable, hfree, hanswered, hclean⟩
        have hinvalid : ¬ (Validation.run (some m.catalogue) .production d).2.isValid = true := by
          rw [Findings.isValid_iff, Validation.errors_run_production]
          exact hblocked
        refine ⟨_, if_neg hinvalid, fun k blocking hf => ?_⟩
        obtain ⟨-, rfl⟩ := Failure.promotionBlocked.inj hf
        exact ⟨d, hstored, rfl, hblocked⟩

/-! ## The store after a promotion -/

lemma get?_afterPromotion (k : Key) :
    (afterPromotion now name version d m).get? k =
      if k = .production name version then some (asPromoted now name version d)
      else if k = .staging name version then none
      else m.get? k := by
  rw [afterPromotion, Memory.get?_put, Memory.get?_erase]

/-- Of the table, the draft is gone and one entry is new. -/
lemma entries_afterPromotion (hfree : m.get? (.production name version) = none) :
    (afterPromotion now name version d m).entries.Perm
      ((.production name version, asPromoted now name version d) ::
        m.entries.filter fun e => e.1 ≠ .staging name version) := by
  refine Memory.entries_put_perm.trans (List.Perm.cons _ (List.Perm.of_eq ?_))
  refine List.filter_eq_self.2 fun e he => ?_
  have hne := Memory.get?_eq_none_iff.1 hfree e (List.mem_filter.1 he).1
  simpa using hne

/-- Promotion is gated by the critical errors of the draft, and is all or nothing.  It succeeds
exactly when the draft is stored and can be read, nothing is stored at production, the store
answers for the key at production, and validating the draft under staging strictness gives no
critical error.  Then the draft is gone, one entry at production is new, with the content and
the time of creation of the draft, and everything else is as it was.  A refusal leaves the
store as it was, and findings that are given as its reason are the critical errors of the
draft. -/
theorem promote_gated (m : Memory) (now : Instant) (name version : String) :
    let draft := Key.staging name version
    let promoted := Key.production name version
    let outcome := (promote now name version).perform m
    ((∃ answer, outcome.1 = .ok answer) ↔
      draft ∉ m.failingReads ∧ m.get? promoted = none ∧ promoted ∉ m.failingChecks ∧
        ∃ d, m.get? draft = some d ∧
          ∀ f ∈ (Validation.run (some m.catalogue) .staging d).2.errors,
            f.code.isCritical = false) ∧
    (∀ answer, outcome.1 = .ok answer →
      ∃ d d', m.get? draft = some d ∧
        d'.key = promoted ∧ d'.content = d.content ∧ d'.created = d.created ∧
        outcome.2.entries.Perm ((promoted, d') :: m.entries.filter fun e => e.1 ≠ draft) ∧
        (∀ k, outcome.2.get? k =
          if k = promoted then some d' else if k = draft then none else m.get? k) ∧
        outcome.2.directories = m.directories ∧
        outcome.2.failingChecks = m.failingChecks ∧
        outcome.2.failingReads = m.failingReads) ∧
    (∀ failure, outcome.1 = .error failure →
      outcome.2 = m ∧
        ∀ k blocking, failure = .promotionBlocked k blocking →
          blocking ≠ [] ∧ ∃ d, m.get? draft = some d ∧
            blocking = (Validation.run (some m.catalogue) .staging d).2.criticalErrors) := by
  intro draft promoted outcome
  by_cases hpromotable : ∃ d, Promotable m name version d
  · obtain ⟨d, h⟩ := hpromotable
    have houtcome : outcome = (.ok _, afterPromotion now name version d m) :=
      perform_promote_of_promotable now h
    rw [houtcome]
    refine ⟨iff_of_true ⟨_, rfl⟩ ?_, fun answer _ => ?_, fun failure hf => by simp at hf⟩
    · exact ⟨h.readable, h.free, h.answered, d, h.stored,
        Findings.criticalErrors_eq_nil_iff.1 h.clean⟩
    · exact ⟨d, asPromoted now name version d, h.stored, rfl, rfl, rfl,
        entries_afterPromotion h.free, get?_afterPromotion, rfl, rfl, rfl⟩
  · obtain ⟨failure, hperform, hblocked⟩ :=
      perform_promote_of_not now (not_exists.1 hpromotable)
    have houtcome : outcome = (.error failure, m) := hperform
    rw [houtcome]
    refine ⟨iff_of_false (by simp) ?_, fun answer ha => by simp at ha, fun failure' hf => ?_⟩
    · rintro ⟨hreadable, hfree, hanswered, d, hstored, hclean⟩
      exact hpromotable ⟨d, hstored, hreadable, hfree, hanswered,
        Findings.criticalErrors_eq_nil_iff.2 hclean⟩
    · refine ⟨rfl, fun k blocking hk => ?_⟩
      obtain ⟨d, hstored, hcritical, hne⟩ :=
        hblocked k blocking ((Except.error.inj hf).trans hk)
      exact ⟨hne, d, hstored, hcritical⟩

end Lifecycle

end DiagramRegistry
