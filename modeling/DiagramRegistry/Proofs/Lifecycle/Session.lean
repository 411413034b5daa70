import DiagramRegistry.Proofs.Lifecycle.Promotion

/-
# Sessions

A session is a sequence of calls of the life cycle, each made at its own time and each
succeeding or failing.  What a call can do to a store in memory is said once, by `Effect`:
change no entry, write one away from production, remove one, or promote a draft.  The
properties of sessions follow by induction on their last call, with one case for each effect.

* `Lifecycle.effect_after`: every call has one of these effects.
-/
namespace DiagramRegistry.Lifecycle

/-- A call of the life cycle, with the time at which it is made where this matters. -/
inductive Call where
  /-- Store a new draft or nested diagram. -/
  | create (now : Instant) (request : Request)
  /-- Look at a stored diagram. -/
  | get (key : Key)
  /-- Replace the document of a draft or a nested diagram. -/
  | update (now : Instant) (key : Key) (content : String)
  /-- Remove a diagram. -/
  | delete (key : Key)
  /-- Look at the diagrams of a location. -/
  | list (location : Location)
  /-- Validate a stored diagram. -/
  | validate (key : Key) (strictness : Strictness)
  /-- Move a draft to production. -/
  | promote (now : Instant) (name version : String)
deriving DecidableEq, Repr

/-- What a successful call hands back. -/
inductive Answer where
  /-- The diagram that was stored, with the findings about it. -/
  | stored (d : Diagram) (found : Findings)
  /-- A diagram with its references. -/
  | diagram (d : Diagram)
  /-- The diagram was removed. -/
  | removed
  /-- The diagrams of a location. -/
  | diagrams (ds : List Diagram)
  /-- The findings about a stored diagram. -/
  | findings (found : Findings)
  /-- The key of a promoted diagram, with the findings about its draft. -/
  | promoted (key : Key) (found : Findings)
deriving DecidableEq, Repr

section
variable {σ : Type} [Store σ]

/-- The action that a call stands for. -/
def Call.action : Call → Action σ Answer
  | .create now request => do
    let (d, found) ← Lifecycle.create now request
    return .stored d found
  | .get key => do return .diagram (← Lifecycle.get key)
  | .update now key content => do
    let (d, found) ← Lifecycle.update now key content
    return .stored d found
  | .delete key => do
    Lifecycle.delete key
    return .removed
  | .list location => do return .diagrams (← Lifecycle.list location)
  | .validate key strictness => do return .findings (← Lifecycle.validate key strictness)
  | .promote now name version => do
    let (key, found) ← Lifecycle.promote now name version
    return .promoted key found

/-- The store after a call, whether the call has succeeded or failed. -/
def Call.after (call : Call) (s : σ) : σ := (Action.perform call.action s).2

/-- The store after a session. -/
def run (s : σ) (calls : List Call) : σ := calls.foldl (fun s call => call.after s) s

lemma run_append (s : σ) (calls calls' : List Call) :
    run s (calls ++ calls') = run (run s calls) calls' := List.foldl_append

lemma run_snoc (s : σ) (calls : List Call) (call : Call) :
    run s (calls ++ [call]) = call.after (run s calls) := run_append s calls [call]

end

/-! ## What a call can do -/

/-- What a call can do to a store in memory. -/
inductive Effect (call : Call) (m m' : Memory) : Prop where
  /-- The store stays as it is. -/
  | same (h : m' = m)
  /-- A diagram is written away from production, under a key that obeys the rule of its
  location or has an entry already; a directory may be made for it. -/
  | write (d : Diagram) (directories : List (List Path.Component))
      (hlocation : d.key.location ≠ .production)
      (hkey : d.key.isWellNamed = true ∨ ∃ before, m.get? d.key = some before)
      (hreferences : d.references = referencesOf d.content)
      (h : m' = { m.put d.key d with directories })
  /-- The entry under a key is removed. -/
  | remove (k : Key) (h : m' = m.erase k)
  /-- A draft is promoted. -/
  | promote (now : Instant) (name version : String) (d : Diagram)
      (hcall : call = .promote now name version) (hd : Promotable m name version d)
      (h : m' = afterPromotion now name version d m)

variable {call : Call} {m : Memory} {k : Key} {d : Diagram}

/-- A key that passes the identity check obeys the rule of its location, which is not
production. -/
lemma of_ensureIdentity (h : ensureIdentity k = .ok ()) :
    k.isWellNamed = true ∧ k.location ≠ .production := by
  obtain ⟨name, version, location⟩ := k
  simp only [ensureIdentity] at h
  split at h
  · exact absurd h (by simp)
  · rename_i hname
    cases location with
    | production => exact absurd h (by simp)
    | staging | nested =>
      simp only at h
      split at h
      · rename_i hversion
        exact ⟨by simpa [Key.isWellNamed, hversion] using hname, by simp⟩
      · exact absurd h (by simp)

lemma effect_create (now : Instant) (r : Request) :
    Effect call m ((create now r).perform m).2 := by
  rw [perform_create]
  cases hid : ensureIdentity r.key with
  | error failure => exact .same rfl
  | ok _ =>
    obtain ⟨hnamed, hlocation⟩ := of_ensureIdentity hid
    cases m.contains r.key with
    | error failure => exact .same rfl
    | ok present =>
      cases present with
      | true => exact .same rfl
      | false =>
        refine .write ⟨r.key, r.content, referencesOf r.content, now, now⟩
          (m.createDirectory (directoryOf r.key)).directories hlocation (.inl hnamed) rfl ?_
        simp only [run_fst, Memory.put_createDirectory]
        rfl

lemma effect_update (now : Instant) (k : Key) (content : String) :
    Effect call m ((update now k content).perform m).2 := by
  by_cases hk : k.location = .production
  · obtain ⟨failure, hperform⟩ := perform_update_of_production m now hk content
    rw [hperform]
    exact .same rfl
  · rw [perform_update m now hk]
    cases hload : m.load k with
    | error failure => exact .same rfl
    | ok before =>
      have hbefore := (Memory.load_eq_ok_iff.1 hload).2
      refine .write ⟨k, content, referencesOf content, before.created, now⟩ m.directories hk
        (.inr ⟨before, hbefore⟩) rfl ?_
      simp only [run_fst]
      rfl

lemma effect_delete (k : Key) : Effect call m ((delete k).perform m).2 := by
  rw [perform_delete, Memory.delete]
  split
  · exact .remove k rfl
  · exact .same rfl

lemma effect_promote (now : Instant) (name version : String) :
    Effect (.promote now name version) m ((promote now name version).perform m).2 := by
  by_cases hpromotable : ∃ d, Promotable m name version d
  · obtain ⟨d, hd⟩ := hpromotable
    rw [perform_promote_of_promotable now hd]
    exact .promote now name version d rfl hd rfl
  · obtain ⟨failure, hperform, -⟩ :=
      perform_promote_of_not now (not_exists.1 hpromotable)
    rw [hperform]
    exact .same rfl

/-- Every call has one of the effects. -/
theorem effect_after (call : Call) (m : Memory) : Effect call m (call.after m) := by
  -- wrapping up the answer of an operation leaves the store as the operation has left it
  cases call with rw [Call.after, Call.action, Action.perform_bind_snd _ _ _ fun _ _ => rfl]
  | create now r => exact effect_create now r
  | get k =>
    rw [perform_get]
    cases m.load k <;> exact .same rfl
  | update now k content => exact effect_update now k content
  | delete k => exact effect_delete k
  | list location =>
    rw [perform_list]
    exact .same rfl
  | validate k strictness =>
    rw [perform_validate]
    cases m.load k <;> exact .same rfl
  | promote now name version => exact effect_promote now name version

/-- No call changes for which keys the store is made to fail. -/
lemma failing_after (call : Call) (m : Memory) :
    (call.after m).failingChecks = m.failingChecks ∧
      (call.after m).failingReads = m.failingReads := by
  cases effect_after call m with
  | same hm' | write d directories hlocation hkey hreferences hm' | remove k hm'
  | promote now name version d hcall hd hm' =>
    rw [hm']
    exact ⟨rfl, rfl⟩

lemma failing_run (m : Memory) (calls : List Call) :
    (run m calls).failingChecks = m.failingChecks ∧
      (run m calls).failingReads = m.failingReads := by
  induction calls generalizing m with
  | nil => exact ⟨rfl, rfl⟩
  | cons call calls ih =>
    obtain ⟨hchecks, hreads⟩ := failing_after call m
    obtain ⟨ihchecks, ihreads⟩ := ih (call.after m)
    exact ⟨ihchecks.trans hchecks, ihreads.trans hreads⟩

end DiagramRegistry.Lifecycle
