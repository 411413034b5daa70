import DiagramRegistry.Proofs.Lifecycle.Session
import DiagramRegistry.Proofs.Reference.Grammar
import DiagramRegistry.Proofs.Reference.OffRoot

/-
# Findings about what was stored

A diagram that is created or updated is validated before it is written, against a store in which
something else is stored under its key, or nothing at all.  Validating it again afterwards asks a
store that has changed at this key only.  References never lead to staging, and an updated diagram
was there before, so in these cases the findings that were handed back are those of the stored
diagram.  A new nested diagram is missing at first.  If it refers to itself, it is reported as
missing when it is created and as a cycle afterwards.

* `Lifecycle.Stored.found_eq`, `Lifecycle.Stored.exists_found_eq`: validating what was just stored;
* `Lifecycle.stored_findings_hold`: updates, and drafts that are created;
* `Lifecycle.validate_after_nested_create`: nested diagrams that are created.
-/
namespace DiagramRegistry.Lifecycle

open Catalogue (AgreeOff)

variable {m m' : Memory} {now : Instant} {k : Key} {d : Diagram} {r : Findings} {content : String}

/-- The findings of a validation in which every error stays an error. -/
lemma run_snd (catalogue : Catalogue) (d : Diagram) :
    (Validation.run (some catalogue) .staging d).2 =
      Validation.own d.key.name d.key.version d.content ++
        if (referencesOf d.content).isEmpty then .none
        else resolve (some catalogue) d.key (referencesOf d.content) .none := by
  simp only [Validation.run, Validation.passes_eq]
  rfl

/-- A validated diagram has the key and the content that it had before, so validating it once more
finds the same. -/
lemma eq_run_of_run {catalogue : Catalogue} {before : Diagram}
    (h : Validation.run (some catalogue) .staging before = (d, r)) :
    d.key = before.key ∧ d.content = before.content ∧
      r = (Validation.run (some catalogue) .staging d).2 := by
  rw [Validation.run_eq] at h
  obtain ⟨rfl, rfl⟩ := Prod.mk.inj h
  refine ⟨rfl, rfl, ?_⟩
  rw [Validation.run_eq]

/-- A document that refers to its own key is resolved differently by a store without the key and a
store with it: the one reference is missing first and a cycle then. -/
lemma exists_resolve_referencesOf_eq {c c' : Catalogue} (h : AgreeOff k c c')
    (habsent : c.contains k = .ok false) (hexp : c'.Expandable k) {reference : Reference}
    (hmem : reference ∈ referencesOf content) (ht : reference.target = some k) :
    ∃ front back warnings,
      resolve (some c) k (referencesOf content) .none =
        ⟨front ++ Resolution.notFound reference k :: back, warnings⟩ ∧
      resolve (some c') k (referencesOf content) .none =
        ⟨front ++ Resolution.cycleFinding k reference.line [k, k] :: back, warnings⟩ := by
  obtain ⟨before, behind, hsplit⟩ := List.append_of_mem hmem
  -- no other reference of the document leads to the key
  have hnodup := Include.nodup_targetsOf content
  rw [targetsOf_eq, hsplit, List.filterMap_append, List.filterMap_cons_some ht,
    List.nodup_append, List.nodup_cons] at hnodup
  rw [hsplit]
  exact h.exists_resolve_eq habsent hexp ht
    (fun h => hnodup.2.2 _ h _ List.mem_cons_self rfl) hnodup.2.1.1

/-- A diagram was validated against a store and then stored under its key. -/
structure Stored (m : Memory) (d : Diagram) (r : Findings) (m' : Memory) : Prop where
  /-- The findings are those of the validation before. -/
  found : r = (Validation.run (some m.catalogue) .staging d).2
  /-- The table differs at the key of the diagram. -/
  get? : ∀ k, m'.get? k = if k = d.key then some d else m.get? k
  /-- The store answers about the same keys. -/
  failingChecks : m'.failingChecks = m.failingChecks
  /-- The same keys can be read. -/
  failingReads : m'.failingReads = m.failingReads

namespace Stored

lemma agreeOff (h : Stored m d r m') : AgreeOff d.key m.catalogue m'.catalogue where
  contains k hk := by
    rw [Memory.catalogue_contains, Memory.catalogue_contains, Memory.contains, Memory.contains,
      h.get?, if_neg hk, h.failingChecks]
  read k hk _ := by
    rw [Memory.catalogue_read, Memory.catalogue_read, Memory.load, Memory.load, h.get?, if_neg hk,
      h.failingReads]

lemma load_eq (h : Stored m d r m') (hreads : d.key ∉ m.failingReads) : m'.load d.key = .ok d :=
  Memory.load_eq_ok_iff.2 ⟨h.failingReads ▸ hreads, by rw [h.get?, if_pos rfl]⟩

lemma expandable (h : Stored m d r m') (hchecks : d.key ∉ m.failingChecks)
    (hreads : d.key ∉ m.failingReads) : m'.catalogue.Expandable d.key := by
  refine ⟨Memory.contains_eq_ok_iff.2 ⟨h.failingChecks ▸ hchecks, ?_⟩, d.content, ?_⟩
  · rw [h.get?, if_pos rfl]
    rfl
  · rw [Memory.catalogue_read, h.load_eq hreads]
    rfl

/-- Validating the diagram afterwards finds what its validation against the new store finds. -/
lemma perform_validate (h : Stored m d r m') (hreads : d.key ∉ m.failingReads) :
    (validate d.key .staging).perform m' =
      (.ok (Validation.run (some m'.catalogue) .staging d).2, m') := by
  rw [Lifecycle.perform_validate, h.load_eq hreads]

/-- This is the same when both stores let the same be found about its references. -/
lemma found_eq (h : Stored m d r m')
    (hsame : resolve (some m.catalogue) d.key (referencesOf d.content) .none =
      resolve (some m'.catalogue) d.key (referencesOf d.content) .none) :
    (Validation.run (some m'.catalogue) .staging d).2 = r := by
  rw [h.found, run_snd, run_snd, hsame]

/-- When the diagram was not there before and has a reference to itself, this reference makes the
one difference. -/
lemma exists_found_eq (h : Stored m d r m') (habsent : m.contains d.key = .ok false)
    (hexp : m'.catalogue.Expandable d.key) {reference : Reference}
    (hmem : reference ∈ referencesOf d.content) (ht : reference.target = some d.key) :
    ∃ front back warnings,
      r = ⟨front ++ Resolution.notFound reference d.key :: back, warnings⟩ ∧
      (Validation.run (some m'.catalogue) .staging d).2 =
        ⟨front ++ Resolution.cycleFinding d.key reference.line [d.key, d.key] :: back,
          warnings⟩ := by
  have hsome : ¬ (referencesOf d.content).isEmpty = true := fun hempty =>
    List.ne_nil_of_mem hmem (List.isEmpty_iff.1 hempty)
  obtain ⟨front, back, warnings, hbefore, hafter⟩ :=
    exists_resolve_referencesOf_eq h.agreeOff habsent hexp hmem ht
  rw [h.found, run_snd, run_snd, if_neg hsome, if_neg hsome, hbefore, hafter]
  generalize Validation.own d.key.name d.key.version d.content = own
  refine ⟨own.errors ++ front, back, own.warnings ++ warnings, ?_, ?_⟩
  · rw [List.append_assoc]
    rfl
  · rw [List.append_assoc]
    rfl

end Stored

/-- An update that succeeds has stored a diagram in place of another. -/
lemma stored_of_update (h : (update now k content).perform m = (.ok (d, r), m')) :
    d.key = k ∧ d.content = content ∧ (m.get? k).isSome = true ∧ Stored m d r m' := by
  have hk : k.location ≠ .production := by
    intro hk
    obtain ⟨failure, hfails⟩ := perform_update_of_production m now hk content
    rw [hfails] at h
    exact absurd (congrArg Prod.fst h) (by simp)
  rw [perform_update m now hk] at h
  cases hload : m.load k with
  | error failure =>
    rw [hload] at h
    exact absurd (congrArg Prod.fst h) (by simp)
  | ok before =>
    rw [hload] at h
    obtain ⟨hrun, rfl⟩ := Prod.mk.inj h
    obtain ⟨hkey, hcontent, hfound⟩ := eq_run_of_run (Except.ok.inj hrun)
    have hd : _ = d := congrArg Prod.fst (Except.ok.inj hrun)
    refine ⟨hkey, hcontent, by rw [(Memory.load_eq_ok_iff.1 hload).2]; rfl, hfound, fun j => ?_,
      rfl, rfl⟩
    rw [hd, hkey, Memory.get?_put]

/-- A diagram that is created was not there, and is stored. -/
lemma stored_of_create {q : Request} (h : (create now q).perform m = (.ok (d, r), m')) :
    ensureIdentity q.key = .ok () ∧ m.contains q.key = .ok false ∧ d.key = q.key ∧
      d.content = q.content ∧ Stored m d r m' := by
  rw [perform_create] at h
  cases hid : ensureIdentity q.key with
  | error failure =>
    rw [hid] at h
    exact absurd (congrArg Prod.fst h) (by simp)
  | ok _ =>
    cases hcontains : m.contains q.key with
    | error failure =>
      simp only [hid, hcontains] at h
      exact absurd (congrArg Prod.fst h) (by simp)
    | ok present =>
      cases present with
      | true =>
        simp only [hid, hcontains] at h
        exact absurd (congrArg Prod.fst h) (by simp)
      | false =>
        simp only [hid, hcontains] at h
        obtain ⟨hrun, rfl⟩ := Prod.mk.inj h
        obtain ⟨hkey, hcontent, hfound⟩ := eq_run_of_run (Except.ok.inj hrun)
        have hd : _ = d := congrArg Prod.fst (Except.ok.inj hrun)
        rw [Memory.put_createDirectory]
        refine ⟨rfl, rfl, hkey, hcontent, hfound, fun j => ?_, rfl, rfl⟩
        rw [hd, hkey]
        exact Memory.get?_put m q.key j d

/-! ## Updates and new drafts -/

/-- When a diagram is updated, or a draft created, the given content is stored under its key, and
the findings that are handed back are those of the diagram that was stored: validating it
afterwards finds the same, in the same order.  Whatever is stored under the key of a diagram plays
no part in resolving its references. -/
theorem stored_findings_hold (m : Memory) (now : Instant) (k : Key) (content : String) :
    (k ∉ m.failingChecks → k ∉ m.failingReads → ∀ d r m',
      (update now k content).perform m = (.ok (d, r), m') ∨
        k.location = .staging ∧
          (create now ⟨k.name, k.version, k.location, content⟩).perform m = (.ok (d, r), m') →
      d.key = k ∧ d.content = content ∧ (∀ j, m'.get? j = if j = k then some d else m.get? j) ∧
        (validate k .staging).perform m' = (.ok r, m')) ∧
    ∀ c c' : Catalogue, AgreeOff k c c' → c.Expandable k → c'.Expandable k →
      ∀ references found,
        resolve (some c) k references found = resolve (some c') k references found := by
  refine ⟨fun hchecks hreads d r m' hdone => ?_,
    fun c c' h hexp hexp' references found => h.resolve_eq hexp hexp' references found⟩
  rcases hdone with hupdate | ⟨hstaging, hcreate⟩
  · obtain ⟨rfl, hcontent, hpresent, hstored⟩ := stored_of_update hupdate
    refine ⟨rfl, hcontent, hstored.get?, ?_⟩
    obtain ⟨before, hbefore⟩ := Option.isSome_iff_exists.1 hpresent
    have hexp : m.catalogue.Expandable d.key := by
      refine ⟨Memory.contains_eq_ok_iff.2 ⟨hchecks, hpresent⟩, before.content, ?_⟩
      rw [Memory.catalogue_read, Memory.load_eq_ok_iff.2 ⟨hreads, hbefore⟩]
      rfl
    rw [hstored.perform_validate hreads, hstored.found_eq]
    exact hstored.agreeOff.resolve_eq hexp (hstored.expandable hchecks hreads) _ _
  · obtain ⟨-, -, hkey, hcontent, hstored⟩ := stored_of_create hcreate
    obtain rfl : d.key = k := hkey
    refine ⟨rfl, hcontent, hstored.get?, ?_⟩
    -- no reference leads to staging
    have htarget : d.key ∉ targetsOf d.content := fun htarget =>
      Catalogue.location_ne_of_mem_targetsOf htarget hstaging
    rw [hstored.perform_validate hreads, hstored.found_eq]
    exact hstored.agreeOff.resolve_eq_of_not_mem (targetsOf_eq _ ▸ htarget) _

/-- A nested diagram that refers to itself. -/
def includingItself : String :=
  "@startuml\n!include nested/latch/latch.puml\n[*] --> Idle\n@enduml\n"

/-- An update that lets a diagram refer to itself, in a store that does not read another one: the
new content is stored, and validated with the same findings. -/
theorem update_includingItself_holds :
    let m := { Memory.empty.insert ⟨0, 0⟩ (.nested "latch") "" with
      failingReads := [.nested "bolt"] }
    ∃ d r m', (update ⟨1, 0⟩ (.nested "latch") includingItself).perform m = (.ok (d, r), m') ∧
      (m'.get? (.nested "latch")).map Diagram.content = some includingItself ∧
      (validate (.nested "latch") .staging).perform m' = (.ok r, m') := by
  intro m
  have hload : m.load (.nested "latch") = .ok (.new ⟨0, 0⟩ (.nested "latch") "") := by
    decide +kernel
  have hupdate := perform_update m ⟨1, 0⟩ (k := .nested "latch") (by decide) includingItself
  rw [hload] at hupdate
  obtain ⟨-, hcontent, hget, hvalidate⟩ :=
    (stored_findings_hold m ⟨1, 0⟩ (.nested "latch") includingItself).1 (by decide) (by decide)
      _ _ _ (.inl hupdate)
  exact ⟨_, _, _, hupdate, by rw [hget, if_pos rfl, Option.map_some, hcontent], hvalidate⟩

/-! ## New nested diagrams -/

/-- A missing reference is not reported as a cycle. -/
lemma notFound_ne_cycleFinding (reference : Reference) (target root : Key) (line : Nat)
    (chain : List Key) :
    Resolution.notFound reference target ≠ Resolution.cycleFinding root line chain := by
  intro h
  have hcode := (Resolution.notFound_not_critical reference target).1
  rw [h] at hcode
  exact absurd ((Resolution.isCycle_cycleCode _ _).symm.trans hcode) (by simp)

/-- The findings that are handed back when a nested diagram is created are those of the diagram that
was stored exactly when it does not refer to itself.  Otherwise they differ in one error only: at
the place where the diagram is reported as missing, validating it afterwards reports a cycle. -/
theorem validate_after_nested_create {name version : String} (hchecks : m.failingChecks = [])
    (hreads : m.failingReads = [])
    (hcreate : (create now ⟨name, version, .nested, content⟩).perform m = (.ok (d, r), m')) :
    ∃ found, (validate (.nested name) .staging).perform m' = (.ok found, m') ∧
      (found = r ↔ Key.nested name ∉ targetsOf content) ∧ found.warnings = r.warnings ∧
      ∀ reference ∈ referencesOf content, reference.target = some (.nested name) →
        ∃ front back,
          r.errors = front ++ Resolution.notFound reference (.nested name) :: back ∧
          found.errors = front ++ Resolution.cycleFinding (.nested name) reference.line
            [.nested name, .nested name] :: back := by
  obtain ⟨hid, habsent, hkey, hcontent, hstored⟩ := stored_of_create hcreate
  obtain rfl : version = "" := by
    have hnamed := (of_ensureIdentity hid).1
    simp only [Key.isWellNamed, Request.key, Bool.and_eq_true, beq_iff_eq] at hnamed
    exact hnamed.2
  obtain rfl : d.content = content := hcontent
  have hkey : d.key = .nested name := hkey
  rw [← hkey]
  have hcanBeRead : d.key ∉ m.failingReads := hreads ▸ List.not_mem_nil
  have hexp := hstored.expandable (hchecks ▸ List.not_mem_nil) hcanBeRead
  have habsent : m.contains d.key = .ok false := hkey ▸ habsent
  refine ⟨_, hstored.perform_validate hcanBeRead, ?_⟩
  by_cases htarget : d.key ∈ targetsOf d.content
  · obtain ⟨reference, hmem, ht⟩ : ∃ reference ∈ referencesOf d.content,
        reference.target = some d.key := List.mem_filterMap.1 (targetsOf_eq _ ▸ htarget)
    obtain ⟨front, back, warnings, hr, hfound⟩ := hstored.exists_found_eq habsent hexp hmem ht
    refine ⟨iff_of_false (fun heq => ?_) (not_not_intro htarget), by rw [hr, hfound],
      fun reference hmem ht => ?_⟩
    · rw [heq, hr] at hfound
      have herrors := List.append_cancel_left (Findings.mk.inj hfound).1
      exact notFound_ne_cycleFinding _ _ _ _ _ (List.cons.inj herrors).1
    · obtain ⟨front, back, warnings, hr, hfound⟩ := hstored.exists_found_eq habsent hexp hmem ht
      exact ⟨front, back, by rw [hr], by rw [hfound]⟩
  · have hsame := hstored.found_eq
      (hstored.agreeOff.resolve_eq_of_not_mem (targetsOf_eq _ ▸ htarget) _)
    refine ⟨iff_of_true hsame htarget, by rw [hsame], fun reference hmem ht => ?_⟩
    exact absurd (List.mem_filterMap.2 ⟨reference, hmem, ht⟩) (targetsOf_eq _ ▸ htarget)

/-- The diagram that refers to itself is missing to itself when it is created. -/
theorem create_includingItself_misses :
    ∃ d r m' found,
      (create ⟨0, 0⟩ ⟨"latch", "", .nested, includingItself⟩).perform Memory.empty =
        (.ok (d, r), m') ∧
      (validate (.nested "latch") .staging).perform m' = (.ok found, m') ∧ found ≠ r := by
  let q : Request := ⟨"latch", "", .nested, includingItself⟩
  have hid : ensureIdentity q.key = .ok () := by decide +kernel
  have habsent : Memory.empty.contains q.key = .ok false := by decide
  have hcreate := perform_create Memory.empty ⟨0, 0⟩ q
  simp only [hid, habsent] at hcreate
  obtain ⟨found, hvalidate, hsame, -⟩ := validate_after_nested_create rfl rfl hcreate
  have htarget : Key.nested "latch" ∈ targetsOf includingItself := by decide +kernel
  exact ⟨_, _, _, found, hcreate, hvalidate, fun heq => hsame.1 heq htarget⟩

end DiagramRegistry.Lifecycle
