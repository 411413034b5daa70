import DiagramRegistry.Lifecycle
import DiagramRegistry.Proofs.Repository.Table
import DiagramRegistry.Proofs.Validation.Appending

/-
# The life cycle over a store in memory

The operations of the life cycle are written against the interface of stores.  For a store in
memory each of them is a plain function: it asks the table, and in the end changes at most
one or two of its entries.  These equations are all that the other files use of the
operations.
-/
namespace DiagramRegistry

namespace Action

variable {σ α β : Type}

/-- A choice between actions is made before either is carried out. -/
lemma perform_ite {p : Prop} [Decidable p] (x y : Action σ α) (s : σ) :
    perform (if p then x else y) s = if p then perform x s else perform y s := by
  split <;> rfl

/-- What comes after an action leaves the state that the action has left, if it changes none. -/
lemma perform_bind_snd (x : Action σ α) (f : α → Action σ β) (s : σ)
    (hf : ∀ a s', (perform (f a) s').2 = s') : (perform (x >>= f) s).2 = (perform x s).2 := by
  rw [perform_bind]
  obtain ⟨_ | a, s'⟩ := perform x s
  · rfl
  · exact hf a s'

end Action

namespace Memory

variable (m : Memory)

lemma store_load (k : Key) : Store.load k m = m.load k := rfl

lemma store_catalogue : Store.catalogue m = m.catalogue := rfl

lemma catalogue_contains (k : Key) : m.catalogue.contains k = m.contains k := rfl

lemma catalogue_read (k : Key) : m.catalogue.read k = (m.load k).map Diagram.content := rfl

/-- What the store answers about a key depends on the entry under this key. -/
lemma fetch?_congr {m m' : Memory} {k : Key} (hget : m.get? k = m'.get? k)
    (hchecks : m.failingChecks = m'.failingChecks) (hreads : m.failingReads = m'.failingReads) :
    m.catalogue.fetch? k = m'.catalogue.fetch? k := by
  have hcontains : m.catalogue.contains k = m'.catalogue.contains k := by
    rw [catalogue_contains, catalogue_contains, contains, contains, hget, hchecks]
  have hread : m.catalogue.read k = m'.catalogue.read k := by
    rw [catalogue_read, catalogue_read, load, load, hget, hreads]
  rw [Catalogue.fetch?, Catalogue.fetch?, hcontains, hread]

lemma store_directoryExists (path : String) :
    Store.directoryExists path m = m.directoryExists path := rfl

lemma perform_write (now : Instant) (d : Diagram) :
    Action.perform (Store.write now d) m = (.ok (), m.put d.key d) := rfl

lemma perform_move (now : Instant) (name version : String) (origin destination : Location) :
    Action.perform (Store.move now name version origin destination) m =
      move now name version origin destination m := rfl

lemma perform_createDirectory (path : String) :
    Action.perform (Store.createDirectory path) m = (.ok (), m.createDirectory path) := rfl

/-- A directory that is there is not made again. -/
lemma createDirectory_of_exists {path : String} (h : m.directoryExists path = true) :
    m.createDirectory path = m := if_pos h

lemma put_createDirectory (path : String) (k : Key) (d : Diagram) :
    (m.createDirectory path).put k d =
      { m.put k d with directories := (m.createDirectory path).directories } := by
  unfold createDirectory
  split <;> rfl

/-- Directories play no part in what the store answers. -/
lemma catalogue_createDirectory (path : String) :
    (m.createDirectory path).catalogue = m.catalogue := by
  unfold createDirectory
  split <;> rfl

end Memory

namespace Lifecycle

variable (m : Memory) (now : Instant)

/-- A validated diagram keeps its key and content; its references are those of the content. -/
lemma run_fst (catalogue : Option Catalogue) (strictness : Strictness) (d : Diagram) :
    (Validation.run catalogue strictness d).1 =
      { d with references := referencesOf d.content } := by
  rw [Validation.run_eq]

lemma run_key (catalogue : Option Catalogue) (strictness : Strictness) (d : Diagram) :
    (Validation.run catalogue strictness d).1.key = d.key := by rw [run_fst]

lemma perform_ensureDirectory (k : Key) :
    (ensureDirectory k).perform m = (.ok (), m.createDirectory (directoryOf k)) := by
  simp only [ensureDirectory, Action.perform_bind, Action.perform_ask, Action.perform_ite,
    Action.perform_pure, Memory.store_directoryExists, Memory.perform_createDirectory]
  split
  · rename_i h
    rw [m.createDirectory_of_exists h]
  · rfl

/-- Creating asks about the identity, then whether the diagram exists, and is refused at the
first answer that is not as it should be. -/
lemma perform_create (r : Request) :
    (create now r).perform m =
      match ensureIdentity r.key with
      | .error failure => (.error failure, m)
      | .ok () =>
        match m.contains r.key with
        | .error failure => (.error failure, m)
        | .ok true => (.error (.alreadyExists r.key), m)
        | .ok false =>
          let v := Validation.run (some m.catalogue) .staging (.new now r.key r.content)
          (.ok v, (m.createDirectory (directoryOf r.key)).put r.key v.1) := by
  cases hid : ensureIdentity r.key with
  | error failure => simp only [create, Action.perform_bind, Action.perform_ask, hid]
  | ok _ =>
    cases hc : m.contains r.key with
    | error failure =>
      simp only [create, contains, Action.perform_bind, Action.perform_ask,
        Memory.store_catalogue, Memory.catalogue_contains, hid, hc]
    | ok present =>
      cases present with
      | true =>
        simp only [create, contains, Action.perform_bind, Action.perform_ask, Action.perform_fail,
          Memory.store_catalogue, Memory.catalogue_contains, hid, hc, if_true]
      | false =>
        simp only [create, contains, validated, Action.perform_bind, Action.perform_ask,
          Action.perform_pure, perform_ensureDirectory, Memory.perform_write,
          Memory.store_catalogue, Memory.catalogue_contains, Memory.catalogue_createDirectory,
          hid, hc, Bool.false_eq_true, if_false, run_key]
        rfl

lemma perform_get (k : Key) :
    (get k).perform m =
      match m.load k with
      | .error failure => (.error failure, m)
      | .ok d => (.ok { d with references := referencesOf d.content }, m) := by
  cases hd : m.load k <;>
    simp only [get, Action.perform_bind, Action.perform_ask, Action.perform_pure,
      Memory.store_load, hd]
  rfl

/-- Nothing at production is updated. -/
lemma perform_update_of_production {k : Key} (hk : k.location = .production)
    (content : String) : ∃ failure, (update now k content).perform m = (.error failure, m) :=
  ⟨_, congrArg (Action.perform · m) (if_pos hk)⟩

lemma perform_update {k : Key} (hk : k.location ≠ .production) (content : String) :
    (update now k content).perform m =
      match m.load k with
      | .error failure => (.error failure, m)
      | .ok before =>
        let v := Validation.run (some m.catalogue) .staging ⟨k, content, [], before.created, now⟩
        (.ok v, m.put k v.1) := by
  cases hd : m.load k <;>
    simp only [update, validated, Action.perform_bind, Action.perform_ask, Action.perform_pure,
      Memory.store_load, Memory.store_catalogue, Memory.perform_write, hd, hk, if_false, run_key]

lemma perform_delete (k : Key) : (delete k).perform m = Memory.delete k m := rfl

lemma perform_list (location : Location) :
    (list location).perform m = (.ok (sortByKey Diagram.key (m.list location)), m) := rfl

lemma perform_validate (k : Key) (strictness : Strictness) :
    (validate k strictness).perform m =
      match m.load k with
      | .error failure => (.error failure, m)
      | .ok d => (.ok (Validation.run (some m.catalogue) strictness d).2, m) := by
  cases hd : m.load k <;>
    simp only [validate, validated, Action.perform_bind, Action.perform_ask, Action.perform_pure,
      Memory.store_load, Memory.store_catalogue, hd]

/-- Promoting loads the draft, then asks whether something stands at production, then
validates, and is refused at the first answer that is not as it should be. -/
lemma perform_promote (name version : String) :
    (promote now name version).perform m =
      match m.load (.staging name version) with
      | .error failure => (.error failure, m)
      | .ok d =>
        match m.contains (.production name version) with
        | .error failure => (.error failure, m)
        | .ok true => (.error (.alreadyExists (.production name version)), m)
        | .ok false =>
          let found := (Validation.run (some m.catalogue) .production d).2
          if found.isValid then
            match Memory.move now name version .staging .production m with
            | (.ok _, m') => (.ok (.production name version, found), m')
            | (.error failure, m') => (.error failure, m')
          else (.error (.promotionBlocked (.staging name version) found.errors), m) := by
  have hrelocate : (Key.staging name version).relocate .production = .production name version := rfl
  cases hd : m.load (.staging name version) with
  | error failure =>
    simp only [promote, Action.perform_bind, Action.perform_ask, Memory.store_load, hd]
  | ok d =>
    cases hc : m.contains (.production name version) with
    | error failure =>
      simp only [promote, contains, Action.perform_bind, Action.perform_ask, Memory.store_load,
        Memory.store_catalogue, Memory.catalogue_contains, hrelocate, hd, hc]
    | ok present =>
      cases present with
      | true =>
        simp only [promote, contains, Action.perform_bind, Action.perform_ask,
          Action.perform_fail, Memory.store_load, Memory.store_catalogue,
          Memory.catalogue_contains, hrelocate, hd, hc, if_true]
      | false =>
        simp only [promote, contains, validated, Action.perform_bind, Action.perform_ask,
          Action.perform_fail, Action.perform_pure, Action.perform_ite, Memory.store_load,
          Memory.store_catalogue, Memory.catalogue_contains, Memory.perform_move, hrelocate,
          hd, hc, Bool.false_eq_true, if_false]
        obtain ⟨_ | _, _⟩ := Memory.move now name version .staging .production m <;> rfl

end Lifecycle

end DiagramRegistry
