import DiagramRegistry.Proofs.Lifecycle.Session
import DiagramRegistry.Proofs.Validation.Critical
import Mathlib.Data.List.Induction

/-
# What a store holds after a session

Every entry that a session leaves in a store in memory is under its own key, the key obeys the
rule of its location, and the references are those of the content (`WellKept`).  An entry at
production has come there by a promotion and has not changed since, so it has the content
that a draft of its name and version had then (`PromotedEarlier`).  As the gate looked at that
content, the document is sound, and stays so whatever is stored later.
-/
namespace DiagramRegistry.Lifecycle

/-- Each entry of the table stands alone under its key, which is the key of its diagram and
obeys the rule of its location, and has the references of its content. -/
structure WellKept (m : Memory) : Prop where
  /-- No two entries have the same key. -/
  oneEach : m.OneEach
  /-- An entry stands under the key of its diagram. -/
  ownKey : ∀ e ∈ m.entries, e.2.key = e.1
  /-- The key obeys the rule of its location. -/
  wellNamed : ∀ e ∈ m.entries, e.1.isWellNamed = true
  /-- The references are those of the content. -/
  references : ∀ e ∈ m.entries, e.2.references = referencesOf e.2.content

/-- The diagram under a key came there by a successful promotion in the session: it has the
content of the draft that was promoted, and has stood there unchanged since. -/
def PromotedEarlier (calls : List Call) (k : Key) (d : Diagram) : Prop :=
  ∃ before now later draft, calls = before ++ .promote now k.name k.version :: later ∧
    (run Memory.empty before).get? (.staging k.name k.version) = some draft ∧
    (∃ answer,
      ((promote now k.name k.version).perform (run Memory.empty before)).1 = .ok answer) ∧
    d.content = draft.content ∧
    ∀ early, early <+: later →
      (run Memory.empty (before ++ .promote now k.name k.version :: early)).get? k = some d

variable {m : Memory} {k : Key} {d : Diagram} {name version : String} {now : Instant}
  {call : Call} {calls : List Call}

/-! ## One entry -/

namespace WellKept

lemma empty : WellKept .empty :=
  ⟨List.nodup_nil, by simp [Memory.empty], by simp [Memory.empty], by simp [Memory.empty]⟩

lemma erase (h : WellKept m) (k : Key) : WellKept (m.erase k) :=
  ⟨h.oneEach.erase k, fun e he => h.ownKey e (Memory.mem_entries_erase.1 he).1,
    fun e he => h.wellNamed e (Memory.mem_entries_erase.1 he).1,
    fun e he => h.references e (Memory.mem_entries_erase.1 he).1⟩

lemma put (h : WellKept m) (hkey : d.key = k) (hnamed : k.isWellNamed = true)
    (hreferences : d.references = referencesOf d.content) : WellKept (m.put k d) := by
  refine ⟨h.oneEach.put k d, fun e he => ?_, fun e he => ?_, fun e he => ?_⟩
  · rcases Memory.mem_entries_put.1 he with rfl | ⟨he, -⟩
    · exact hkey
    · exact h.ownKey e he
  · rcases Memory.mem_entries_put.1 he with rfl | ⟨he, -⟩
    · exact hnamed
    · exact h.wellNamed e he
  · rcases Memory.mem_entries_put.1 he with rfl | ⟨he, -⟩
    · exact hreferences
    · exact h.references e he

lemma key_of_get? (h : WellKept m) (hd : m.get? k = some d) : d.key = k :=
  h.ownKey _ (Memory.mem_entries_of_get? hd)

lemma isWellNamed_of_get? (h : WellKept m) (hd : m.get? k = some d) : k.isWellNamed = true :=
  h.wellNamed _ (Memory.mem_entries_of_get? hd)

/-- The rule for keys is the same at staging and at production. -/
lemma afterPromotion (h : WellKept m) (hd : Promotable m name version d) :
    WellKept (afterPromotion now name version d m) := by
  have hdraft : (Key.staging name version).isWellNamed = true := h.isWellNamed_of_get? hd.stored
  have hnamed : (Key.production name version).isWellNamed = true := hdraft
  exact (h.erase _).put rfl hnamed (h.references _ (Memory.mem_entries_of_get? hd.stored))

/-- Every call keeps the table well. -/
lemma after (h : WellKept m) (call : Call) : WellKept (call.after m) := by
  cases effect_after call m with
  | same hm' => rwa [hm']
  | write d directories hlocation hkey hreferences hm' =>
    -- an update keeps the key of an entry, which obeys the rule already
    have hnamed : d.key.isWellNamed = true := by
      rcases hkey with hkey | ⟨before, hbefore⟩
      · exact hkey
      · exact h.isWellNamed_of_get? hbefore
    obtain ⟨h1, h2, h3, h4⟩ := h.put rfl hnamed hreferences
    rw [hm']
    exact ⟨h1, h2, h3, h4⟩
  | remove k hm' =>
    rw [hm']
    exact h.erase k
  | promote now name version d hcall hd hm' =>
    rw [hm']
    exact h.afterPromotion hd

end WellKept

/-- Every session keeps the table well. -/
lemma wellKept_run (calls : List Call) : WellKept (run Memory.empty calls) := by
  induction calls using List.reverseRecOn with
  | nil => exact WellKept.empty
  | append_singleton calls call ih =>
    rw [run_snoc]
    exact ih.after call

/-! ## The entries at production -/

/-- A promotion that has succeeded had a promotable draft. -/
lemma exists_promotable_of_ok {answer : Key × Findings}
    (h : ((promote now name version).perform m).1 = .ok answer) :
    ∃ d, Promotable m name version d := by
  by_contra hnot
  obtain ⟨failure, hperform, -⟩ := perform_promote_of_not now (not_exists.1 hnot)
  rw [hperform] at h
  exact absurd h (by simp)

/-- What stands at production after a call stood there before, or the call promoted it. -/
lemma get?_production_after (hk : k.location = .production)
    (h : (call.after m).get? k = some d) :
    m.get? k = some d ∨ ∃ now draft, call = .promote now k.name k.version ∧
      Promotable m k.name k.version draft ∧ d = asPromoted now k.name k.version draft := by
  cases effect_after call m with
  | same hm' =>
    rw [hm'] at h
    exact .inl h
  | write d' directories hlocation hkey hreferences hm' =>
    rw [hm'] at h
    have hget : (m.put d'.key d').get? k = some d := h
    have hne : k ≠ d'.key := fun heq => hlocation (heq ▸ hk)
    rw [Memory.get?_put, if_neg hne] at hget
    exact .inl hget
  | remove k' hm' =>
    rw [hm', Memory.get?_erase] at h
    split at h
    · exact absurd h (by simp)
    · exact .inl h
  | promote now name version draft hcall hdraft hm' =>
    rw [hm', get?_afterPromotion] at h
    split at h
    · rename_i heq
      subst heq
      exact .inr ⟨now, draft, hcall, hdraft, (Option.some.inj h).symm⟩
    · split at h
      · exact absurd h (by simp)
      · exact .inl h

/-- What stands at production after a session was promoted in it. -/
lemma promotedEarlier_of_get? (hk : k.location = .production)
    (h : (run Memory.empty calls).get? k = some d) : PromotedEarlier calls k d := by
  induction calls using List.reverseRecOn with
  | nil => exact absurd h (by simp [run, Memory.get?, Memory.empty])
  | append_singleton calls call ih =>
    have hafter := h
    rw [run_snoc] at h
    rcases get?_production_after hk h with hbefore | ⟨now, draft, rfl, hdraft, rfl⟩
    -- it stood there before the last call, which has left it as it was
    · obtain ⟨before, now, later, draft, hcalls, hstored, hok, hcontent, hsince⟩ := ih hbefore
      refine ⟨before, now, later ++ [call], draft, by rw [hcalls]; simp, hstored, hok, hcontent,
        fun early hearly => ?_⟩
      rcases List.prefix_concat_iff.1 hearly with rfl | hearly
      · rw [hcalls] at hafter
        simpa using hafter
      · exact hsince early hearly
    -- it is the draft that the last call has promoted
    · have hok := congrArg Prod.fst (perform_promote_of_promotable now hdraft)
      refine ⟨calls, now, [], draft, rfl, hdraft.stored, ⟨_, hok⟩, rfl, fun early hearly => ?_⟩
      rw [List.prefix_nil.1 hearly]
      exact hafter

/-- The gate has found nothing critical in the document itself, and nothing critical behind its
references. -/
lemma Promotable.parts_clean (hm : WellKept m) (h : Promotable m name version d) :
    (Validation.own name version d.content).criticalErrors = [] ∧
      (resolve (some m.catalogue) (.staging name version)
        (referencesOf d.content) .none).criticalErrors = [] := by
  have hclean := h.clean
  rw [Validation.criticalErrors_run, hm.key_of_get? h.stored, List.append_eq_nil_iff] at hclean
  exact hclean

/-- A draft that can be promoted is a sound document. -/
lemma Promotable.soundDocument (hm : WellKept m) (h : Promotable m name version d) :
    SoundDocument name version d.content := by
  have hnamed := hm.isWellNamed_of_get? h.stored
  have hname : isIdentifier name = true := by
    rw [Key.isWellNamed, Bool.and_eq_true] at hnamed
    exact hnamed.1
  exact Validation.soundDocument_of_clean hname (h.parts_clean hm).1

/-- The store invariant of the life cycle.  After any session on an empty store each entry
stands alone under the key of its diagram, which obeys the rule of its location, and has the
references of its content.  An entry at production was promoted in the session and has not
changed since, and it is a sound document under its name and version. -/
theorem run_keeps_store_invariant (calls : List Call) :
    let m := run Memory.empty calls
    m.OneEach ∧ ∀ e ∈ m.entries,
      (e.2.key = e.1 ∧ e.1.isWellNamed = true) ∧
      e.2.references = referencesOf e.2.content ∧
      (e.1.location = .production →
        PromotedEarlier calls e.1 e.2 ∧ SoundDocument e.1.name e.1.version e.2.content) := by
  have hkept := wellKept_run calls
  refine ⟨hkept.oneEach, fun e he => ⟨⟨hkept.ownKey e he, hkept.wellNamed e he⟩,
    hkept.references e he, fun hk => ?_⟩⟩
  have hpromoted := promotedEarlier_of_get? hk (hkept.oneEach.get?_of_mem he)
  refine ⟨hpromoted, ?_⟩
  obtain ⟨before, now, later, draft, -, hstored, ⟨answer, hok⟩, hcontent, -⟩ := hpromoted
  obtain ⟨draft', hdraft'⟩ := exists_promotable_of_ok hok
  have heq : draft' = draft := Option.some.inj (hdraft'.stored.symm.trans hstored)
  rw [hcontent, ← heq]
  exact hdraft'.soundDocument (wellKept_run before)

/-- A draft is made and promoted. -/
def oneProduct : List Call :=
  [.create ⟨0, 0⟩ ⟨"a", "1.0.0", .staging, "@startuml\n[*] --> Idle\n@enduml\n"⟩,
    .promote ⟨0, 0⟩ "a" "1.0.0"]

/-- There it stands, with all that is known of an entry at production. -/
theorem oneProduct_keeps_store_invariant :
    ∃ e ∈ (run Memory.empty oneProduct).entries, e.1 = .production "a" "1.0.0" ∧
      PromotedEarlier oneProduct e.1 e.2 ∧ SoundDocument "a" "1.0.0" e.2.content := by
  have hstored : ((run Memory.empty oneProduct).get? (.production "a" "1.0.0")).isSome = true := by
    decide +kernel
  obtain ⟨d, hd⟩ := Option.isSome_iff_exists.1 hstored
  have hmem := Memory.mem_entries_of_get? hd
  obtain ⟨-, hentries⟩ := run_keeps_store_invariant oneProduct
  exact ⟨_, hmem, rfl, (hentries _ hmem).2.2 rfl⟩

end DiagramRegistry.Lifecycle
