import DiagramRegistry.Disk.Path
import DiagramRegistry.Repository.Store
import DiagramRegistry.Validation

/-
# The life cycle of diagrams

Drafts are created and updated at staging, nested diagrams at their own location; production
diagrams come only from promoting a draft that has no critical findings.  Findings are handed
back and never keep a draft from being stored.
-/
namespace DiagramRegistry.Lifecycle

/-- What is needed to create a diagram. -/
structure Request where
  /-- The name of the diagram. -/
  name : String
  /-- The version of the diagram, empty for nested diagrams. -/
  version : String
  /-- Where the diagram is to be stored. -/
  location : Location
  /-- The document. -/
  content : String
deriving DecidableEq, Repr

/-- The key that a request asks for. -/
def Request.key (r : Request) : Key := ⟨r.name, r.version, r.location⟩

/-- A diagram can be created under a key with an identifier as name and, at staging, a
version; nested diagrams have no version, and nothing is created at production. -/
def ensureIdentity (k : Key) : Except Failure Unit :=
  if !isIdentifier k.name then
    .error (.invalidIdentity s!"name '{k.name}' must match [A-Za-z_][A-Za-z0-9_-]*")
  else
    match k.location with
    | .staging =>
      if isVersion k.version then .ok ()
      else .error (.invalidIdentity
        s!"version '{k.version}' must be major.minor.patch[-prerelease]")
    | .nested =>
      if k.version = "" then .ok ()
      else .error (.invalidIdentity
        s!"nested diagram '{k.name}' is unversioned; got '{k.version}'")
    | .production => .error (.invalidLocation
        s!"{k.display} cannot be created directly; promote a staging diagram instead")

/-- The directory that a diagram is given below the root. -/
def directoryOf (k : Key) : String := Path.join k.location.directory k.stem

section
variable {σ : Type} [Store σ]

/-- Whether a diagram exists. -/
def contains (k : Key) : Action σ Bool := .ask fun s => (Store.catalogue s).contains k

/-- Validate a diagram against the store. -/
def validated (strictness : Strictness) (d : Diagram) : Action σ (Diagram × Findings) :=
  .ask fun s => .ok (Validation.run (some (Store.catalogue s)) strictness d)

/-- Make the directory of a diagram, unless it is there. -/
def ensureDirectory (k : Key) : Action σ Unit := do
  if ← Action.ask fun s => .ok (Store.directoryExists (directoryOf k) s) then
    pure ()
  else
    Store.createDirectory (directoryOf k)

/-- Store a new draft or nested diagram. -/
def create (now : Instant) (r : Request) : Action σ (Diagram × Findings) := do
  .ask fun _ => ensureIdentity r.key
  if ← contains r.key then
    .fail (.alreadyExists r.key)
  else
    ensureDirectory r.key
    let (d, found) ← validated .staging (.new now r.key r.content)
    Store.write now d
    return (d, found)

/-- A stored diagram with its references read; a document that cannot be read has none. -/
def get (k : Key) : Action σ Diagram := do
  let d ← .ask (Store.load k)
  return { d with references := ((includes d.content).toOption).getD [] }

/-- Replace the document of a draft or a nested diagram. -/
def update (now : Instant) (k : Key) (content : String) : Action σ (Diagram × Findings) := do
  if k.location = .production then
    .fail (.invalidLocation
      (s!"{k.display} is not editable; " ++
        "production diagrams only change through promotion"))
  else
    let before ← .ask (Store.load k)
    let (d, found) ← validated .staging ⟨k, content, [], before.created, now⟩
    Store.write now d
    return (d, found)

/-- Remove a diagram. -/
def delete (k : Key) : Action σ Unit := Store.delete k

/-- The diagrams of a location, in the order of their keys. -/
def list (location : Location) : Action σ (List Diagram) := do
  let ds ← .ask (Store.list location)
  return sortByKey Diagram.key ds

/-- Validate a stored diagram. -/
def validate (k : Key) (strictness : Strictness) : Action σ Findings := do
  let d ← .ask (Store.load k)
  let (_, found) ← validated strictness d
  return found

/-- Move a draft to production, if validating it finds nothing critical. -/
def promote (now : Instant) (name version : String) : Action σ (Key × Findings) := do
  let draft := Key.staging name version
  let promoted := draft.relocate .production
  let d ← .ask (Store.load draft)
  if ← contains promoted then
    .fail (.alreadyExists promoted)
  else
    let (_, found) ← validated .production d
    if found.isValid then
      Store.move now name version .staging .production
      return (promoted, found)
    else
      .fail (.promotionBlocked draft found.errors)

end

end DiagramRegistry.Lifecycle
