import DiagramRegistry.Identity.Key

/-
# References

A diagram depends on others through include directives.  A product reference leads to a
promoted diagram and names its version; a nested reference leads to an unversioned part.
References of other kinds are kept, but lead nowhere.
-/
namespace DiagramRegistry

/-- The kinds of dependency. -/
inductive ReferenceKind where
  /-- A versioned reference to a promoted diagram. -/
  | product
  /-- An unversioned reference to a nested diagram. -/
  | nested
  /-- Anything else, with its label. -/
  | unknown (label : String)
deriving DecidableEq, Repr

namespace ReferenceKind

/-- How a kind is shown. -/
def display : ReferenceKind → String
  | product => "product"
  | nested => "nested"
  | unknown label => s!"unknown({label})"

end ReferenceKind

/-- A dependency that a diagram declares. -/
structure Reference where
  /-- The name of the diagram referred to. -/
  name : String
  /-- The version of the diagram referred to, empty for nested references. -/
  version : String
  /-- The kind of the dependency. -/
  kind : ReferenceKind
  /-- The declared path, with slashes between its segments. -/
  path : String
  /-- The line of the directive. -/
  line : Nat
deriving DecidableEq, Repr

namespace Reference

/-- The path that a reference of a known kind is expected to declare. -/
def canonicalPathOf (kind : ReferenceKind) (name version : String) : Option String :=
  match kind with
  | .product =>
    let stem := s!"{name}-{version}"
    some s!"{Location.production.directory}/{stem}/{stem}.{DiagramType.stateMachine.fileExtension}"
  | .nested =>
    some s!"{Location.nested.directory}/{name}/{name}.{DiagramType.stateMachine.fileExtension}"
  | .unknown _ => none

/-- The path that the reference is expected to declare. -/
def canonicalPath (r : Reference) : Option String :=
  canonicalPathOf r.kind r.name r.version

/-- The key that the reference leads to, if its kind is known. -/
def target (r : Reference) : Option Key :=
  match r.kind with
  | .product => some (.production r.name r.version)
  | .nested => some (.nested r.name)
  | .unknown _ => none

/-- What makes two references of one document the same. -/
def identity (r : Reference) : ReferenceKind × String × String := (r.kind, r.name, r.version)

/-- The reference to a promoted diagram by its canonical path. -/
def toProduct (name version : String) : Reference :=
  ⟨name, version, .product, (canonicalPathOf .product name version).getD "", 1⟩

/-- The reference to a nested diagram by its canonical path. -/
def toNested (name : String) : Reference :=
  ⟨name, "", .nested, (canonicalPathOf .nested name "").getD "", 1⟩

end Reference

end DiagramRegistry
