import DiagramRegistry.Disk.Path
import DiagramRegistry.Repository.Store

/-
# Diagrams in memory

A store that keeps diagrams in a table ordered by key.  Its answers can be made to fail for
single keys, both when asked whether a diagram exists and when a diagram is read.
-/
namespace DiagramRegistry

/-- Diagrams in memory. -/
structure Memory where
  /-- The table of diagrams, each under its key. -/
  entries : List (Key × Diagram)
  /-- The directories that were made, by their components. -/
  directories : List (List Path.Component)
  /-- The keys about whose existence the store does not answer. -/
  failingChecks : List Key
  /-- The keys that cannot be read. -/
  failingReads : List Key
deriving DecidableEq, Repr

namespace Memory

/-- The store without diagrams. -/
def empty : Memory := ⟨[], [], [], []⟩

/-- The diagram under a key. -/
def get? (m : Memory) (k : Key) : Option Diagram :=
  (m.entries.find? fun e => e.1 = k).map Prod.snd

/-- The table with a diagram under a key, in place of what was there. -/
def put (m : Memory) (k : Key) (d : Diagram) : Memory :=
  { m with entries := insertByKey Prod.fst (k, d) (m.entries.filter fun e => e.1 ≠ k) }

/-- The table without the diagram under a key. -/
def erase (m : Memory) (k : Key) : Memory :=
  { m with entries := m.entries.filter fun e => e.1 ≠ k }

/-- The number of diagrams. -/
def size (m : Memory) : Nat := m.entries.length

/-- Let the question whether a diagram exists fail from now on. -/
def failCheck (m : Memory) (k : Key) : Memory :=
  if k ∈ m.failingChecks then m else { m with failingChecks := m.failingChecks ++ [k] }

/-- Let reading a diagram fail from now on. -/
def failRead (m : Memory) (k : Key) : Memory :=
  if k ∈ m.failingReads then m else { m with failingReads := m.failingReads ++ [k] }

/-- Store a document under a key, as a diagram made now. -/
def insert (m : Memory) (now : Instant) (k : Key) (content : String) : Memory :=
  m.put k (Diagram.new now k content)

/-- Whether a diagram exists, unless the store does not answer for it. -/
def contains (m : Memory) (k : Key) : Except Failure Bool :=
  if k ∈ m.failingChecks then
    .error (.repository s!"existence check failed for {k.display}")
  else .ok (m.get? k).isSome

/-- The diagram under a key, unless it cannot be read. -/
def load (m : Memory) (k : Key) : Except Failure Diagram :=
  if k ∈ m.failingReads then .error (.repository s!"read failed for {k.display}")
  else
    match m.get? k with
    | some d => .ok d
    | none => .error (.notFound k)

/-- Move a diagram to another location.  That nothing is stored there is checked first. -/
def move (now : Instant) (name version : String) (origin destination : Location)
    (m : Memory) : Except Failure Unit × Memory :=
  let source : Key := ⟨name, version, origin⟩
  let target := source.relocate destination
  if (m.get? target).isSome then (.error (.alreadyExists target), m)
  else
    match m.get? source with
    | none => (.error (.notFound source), m)
    | some d =>
      (.ok (), (m.erase source).put target { d with key := target, updated := now })

/-- Remove the diagram under a key. -/
def delete (k : Key) (m : Memory) : Except Failure Unit × Memory :=
  if (m.get? k).isSome then (.ok (), m.erase k) else (.error (.notFound k), m)

/-- The diagrams of a location, in the order of the table. -/
def list (location : Location) (m : Memory) : List Diagram :=
  (m.entries.map Prod.snd).filter fun d => d.key.location = location

/-- There is a directory at the path. -/
def directoryExists (path : String) (m : Memory) : Bool :=
  m.directories.contains (Path.components path)

/-- Make a directory at the path. -/
def createDirectory (path : String) (m : Memory) : Memory :=
  if m.directoryExists path then m
  else { m with directories := m.directories ++ [Path.components path] }

/-! ## The table after a change -/

/-- Only the diagram under the key is gone. -/
theorem get?_erase (m : Memory) (k j : Key) :
    (m.erase k).get? j = if j = k then none else m.get? j := by
  simp only [get?, erase, List.find?_filter]
  split
  · rename_i h
    simp [h]
  · rename_i h
    congr 2
    funext e
    by_cases he : e.1 = j <;> simp [he, h]

/-- Only the diagram under the key is another. -/
theorem get?_put (m : Memory) (k j : Key) (d : Diagram) :
    (m.put k d).get? j = if j = k then some d else m.get? j := by
  by_cases h : j = k
  · subst h
    simp only [get?, put, if_true]
    have hnone : ∀ e ∈ m.entries.filter (fun e => e.1 ≠ j), decide (e.1 = j) = false :=
      fun e he => by simpa using (List.mem_filter.1 he).2
    rw [find?_insertByKey_of_pos Prod.fst (by simp) hnone]
    rfl
  · have hpass (es : List (Key × Diagram)) :=
      find?_insertByKey_of_neg Prod.fst (p := fun e => decide (e.1 = j)) (x := (k, d))
        (decide_eq_false (Ne.symm h)) es
    calc (m.put k d).get? j
        = (m.erase k).get? j := congrArg (Option.map Prod.snd) (hpass _)
      _ = m.get? j := by rw [get?_erase, if_neg h]
      _ = if j = k then some d else m.get? j := (if_neg h).symm

theorem mem_keys_of_contains {m : Memory} {k : Key} (h : m.contains k = .ok true) :
    k ∈ m.entries.map Prod.fst := by
  unfold contains at h
  split at h
  · simp at h
  · simp only [get?, Option.isSome_map, Except.ok.injEq, List.find?_isSome,
      decide_eq_true_eq] at h
    obtain ⟨e, he, rfl⟩ := h
    exact List.mem_map_of_mem he

/-- What the store answers when references are resolved. -/
def catalogue (m : Memory) : Catalogue where
  contains := m.contains
  read k := (m.load k).map Diagram.content
  keys := m.entries.map Prod.fst
  mem_keys _ := mem_keys_of_contains

instance : Store Memory where
  catalogue := catalogue
  load k m := m.load k
  write _ d := .of fun m => (.ok (), m.put d.key d)
  move now name version origin destination := .of (move now name version origin destination)
  delete k := .of (delete k)
  list location m := .ok (m.list location)
  directoryExists := directoryExists
  createDirectory path := .of fun m => (.ok (), m.createDirectory path)

end Memory

end DiagramRegistry
