import DiagramRegistry.Repository.Failure

/-
# Catalogues

To resolve references it is enough to know what a repository answers when asked whether a
diagram exists and what its document is.  Both answers may fail, and they need not agree.  A
catalogue is such a pair of answers, together with finitely many keys among which every
existing one is found; this is what makes walks through the references of stored diagrams
end.
-/
namespace DiagramRegistry

/-- What a repository answers about the diagrams it holds. -/
structure Catalogue where
  /-- Whether a diagram exists. -/
  contains : Key → Except Failure Bool
  /-- The document of a diagram. -/
  read : Key → Except Failure String
  /-- The keys among which the existing ones are found. -/
  keys : List Key
  /-- Every existing key is among them. -/
  mem_keys : ∀ k, contains k = .ok true → k ∈ keys

namespace Catalogue

/-- The document of a diagram that exists and can be read. -/
def fetch? (c : Catalogue) (k : Key) : Option String :=
  match c.contains k with
  | .ok true => (c.read k).toOption
  | _ => none

theorem mem_keys_of_fetch? {c : Catalogue} {k : Key} {content : String}
    (h : c.fetch? k = some content) : k ∈ c.keys := by
  unfold fetch? at h
  split at h
  · exact c.mem_keys k (by assumption)
  · simp at h

/-- The catalogue in which nothing exists. -/
def empty : Catalogue where
  contains _ := .ok false
  read k := .error (.notFound k)
  keys := []
  mem_keys _ h := by simp at h

end Catalogue

end DiagramRegistry
