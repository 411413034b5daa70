import DiagramRegistry.Reference.Include
import DiagramRegistry.Repository.Catalogue

/-
# Cycles of references

Starting from the references of a diagram, the search walks through the stored documents,
branch by branch.  A branch is the chain of keys from the root to the diagram being looked
at; a reference to a key on the branch closes a cycle, and the branch with that key behind it
is a closed chain.  Diagrams that do not exist, cannot be read, or have unreadable references
end their branch silently.

A key is never entered twice on one branch, and only existing keys are entered, so the
branches are at most one longer than the list of existing keys; every step either lengthens
the branch or goes on to the next reference.
-/
namespace DiagramRegistry

/-- The keys that the references of a document lead to, in order; none when the document
cannot be read. -/
def targetsOf (content : String) : List Key :=
  match includes content with
  | .ok references => references.filterMap Reference.target
  | .error _ => []

namespace Catalogue

/-- The keys that may still be entered from a branch. -/
def fresh (c : Catalogue) (branch : List Key) : List Key :=
  c.keys.filter fun k => !branch.contains k

theorem length_fresh_snoc_lt {c : Catalogue} {branch : List Key} {k : Key} (hk : k ∈ c.keys)
    (hb : k ∉ branch) : (c.fresh (branch ++ [k])).length < (c.fresh branch).length := by
  have hsub : c.fresh (branch ++ [k]) = (c.fresh branch).filter (· ≠ k) := by
    simp only [fresh, List.filter_filter]
    refine List.filter_congr fun x _ => ?_
    by_cases hx : x = k <;> simp [List.contains_eq_mem, hx, hb]
  have hmem : k ∈ c.fresh branch := by
    simp [fresh, hk, List.contains_eq_mem, hb]
  rw [hsub]
  refine Nat.lt_of_le_of_ne (List.length_filter_le _ _) fun h => ?_
  have := List.filter_eq_self.1 (List.filter_sublist.eq_of_length h) k hmem
  simp at this

/-- The closed chains found by following the given references from the end of a branch, in
the order in which a walk through them comes upon them. -/
def closedChains (c : Catalogue) (branch : List Key) : List Key → List (List Key)
  | [] => []
  | k :: ks =>
    (if hb : k ∈ branch then [branch ++ [k]]
      else match hf : c.fetch? k with
        | none => []
        | some content =>
          have := length_fresh_snoc_lt (mem_keys_of_fetch? hf) hb
          c.closedChains (branch ++ [k]) (targetsOf content)) ++
      c.closedChains branch ks
termination_by ks => ((c.fresh branch).length, ks.length)

end Catalogue

end DiagramRegistry
