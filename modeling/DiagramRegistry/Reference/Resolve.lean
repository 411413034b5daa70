import DiagramRegistry.Reference.Cycle

/-
# Resolving references

Each reference of a known kind is looked up in the repository.  One that leads nowhere is an
error; one that the repository cannot answer for is a warning; through the others the
search for cycles goes on into the stored documents.  A cycle that leads back to the diagram
itself is told from one that it merely reaches, and the same chain is reported once.
-/
namespace DiagramRegistry

/-- A chain of keys in words. -/
def chainText (chain : List Key) : String := String.intercalate " -> " (chain.map Key.display)

/-- What resolution knows after some references. -/
structure Resolution where
  /-- The cycles that were reported, each by its code and its chain. -/
  reported : List (Code × String)
  /-- The findings so far. -/
  found : Findings
deriving DecidableEq, Repr

namespace Resolution

/-- The code for a cycle that closes at a key. -/
def cycleCode (root closing : Key) : Code :=
  if closing = root then .directCircularReference else .circularReference

/-- What is said about a cycle that closes at a key. -/
def cycleMessage (root closing : Key) : String :=
  if closing = root then s!"reference chain leads back to {root.display}"
  else s!"circular reference through {closing.display}"

/-- Report a closed chain, unless it has been reported. -/
def report (root : Key) (line : Nat) (r : Resolution) (chain : List Key) : Resolution :=
  let closing := chain.getLastD root
  let code := cycleCode root closing
  let text := chainText chain
  if (code, text) ∈ r.reported then r
  else
    ⟨r.reported ++ [(code, text)],
      r.found.error (.onLine code line (cycleMessage root closing) text)⟩

/-- The error for a reference that leads nowhere. -/
def notFound (reference : Reference) (target : Key) : Finding :=
  let code :=
    if reference.kind = .nested then Code.nestedReferenceNotFound
    else .productReferenceNotFound
  .onLine code reference.line s!"referenced diagram {target.display} does not exist"
    reference.path

/-- Take one reference of the diagram with the given key in. -/
def step (c : Catalogue) (root : Key) (r : Resolution) (reference : Reference) : Resolution :=
  match reference.target with
  | none => r
  | some target =>
    match c.contains target with
    | .error failure =>
      { r with found := r.found.warning (.onLine .referenceCheckError reference.line
        s!"could not check reference {target.display}: {failure.message}" reference.path) }
    | .ok false => { r with found := r.found.error (notFound reference target) }
    | .ok true =>
      match c.read target with
      | .error failure =>
        { r with found := r.found.warning (.onLine .referenceReadError reference.line
          s!"could not read reference {target.display}: {failure.message}" reference.path) }
      | .ok _ => (c.closedChains [root] [target]).foldl (report root reference.line) r

end Resolution

/-- Resolve the references of a diagram, after what was found before.  Without a repository
there is only a warning. -/
def resolve (catalogue : Option Catalogue) (root : Key) (references : List Reference)
    (found : Findings) : Findings :=
  match catalogue with
  | none =>
    found.warning (.atPosition .noRepository 1 1
      "no repository configured; references were not resolved")
  | some c => (references.foldl (Resolution.step c root) ⟨[], found⟩).found

end DiagramRegistry
