import DiagramRegistry.Finding.Basic
import DiagramRegistry.Reference.Basic

/-
# Checking references against the diagram that declares them

Each reference is judged on its own: its name, its version, whether it refers to the
declaring diagram itself, and whether its path is the canonical one.  A reference whose name
is no identifier is not judged further.
-/
namespace DiagramRegistry.Reference

/-- Warn when the declared path is not the canonical one. -/
def checkPath (code : Code) (r : Reference) (found : Findings) : Findings :=
  match r.canonicalPath with
  | none => found
  | some expected =>
    if r.path = expected then found
    else found.warning (.onLine code r.line
      s!"reference path '{r.path}' differs from canonical path '{expected}'" expected)

/-- The version of a product reference must be there and be well formed. -/
def checkVersion (r : Reference) (found : Findings) : Findings :=
  if r.version = "" then
    found.error (.onLine .missingReferenceVersion r.line
      s!"product reference '{r.name}' has no version" r.path)
  else if isVersion r.version then found
  else
    found.error (.onLine .invalidReferenceVersion r.line
      (s!"product reference '{r.name}' has invalid version '{r.version}' " ++
        "(expected major.minor.patch[-prerelease])") r.path)

/-- Check a product reference. -/
def checkProduct (ownerName ownerVersion : String) (r : Reference) (found : Findings) :
    Findings :=
  let found := r.checkVersion found
  let found :=
    if r.name = ownerName ∧ r.version = ownerVersion then
      found.error (.onLine .selfReference r.line
        s!"diagram {r.name}-{r.version} references itself" r.path)
    else found
  r.checkPath .incorrectReferencePath found

/-- Check a nested reference. -/
def checkNested (ownerName : String) (r : Reference) (found : Findings) : Findings :=
  let found :=
    if r.version = "" then found
    else found.warning (.onLine .unexpectedNestedVersion r.line
      s!"nested reference '{r.name}' should not carry a version ('{r.version}')" r.path)
  let found :=
    if r.name = ownerName then
      found.error (.onLine .nestedSelfReference r.line s!"diagram '{r.name}' nests itself" r.path)
    else found
  r.checkPath .incorrectNestedPath found

/-- Check one reference of the diagram with the given name and version. -/
def check (ownerName ownerVersion : String) (r : Reference) (found : Findings) : Findings :=
  if !isIdentifier r.name then
    found.error (.onLine .invalidReferenceName r.line
      s!"reference name '{r.name}' is not a valid identifier" r.path)
  else
    match r.kind with
    | .product => r.checkProduct ownerName ownerVersion found
    | .nested => r.checkNested ownerName found
    | .unknown label =>
      found.error (.onLine .unknownReferenceType r.line
        s!"reference '{r.name}' has unknown type '{label}'" r.path)

/-- Check every reference of a diagram, in order. -/
def checkAll (owner : Key) (rs : List Reference) (found : Findings) : Findings :=
  rs.foldl (fun found r => r.check owner.name owner.version found) found

end DiagramRegistry.Reference
