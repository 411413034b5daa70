import DiagramRegistry.Disk.Path
import DiagramRegistry.Repository.Failure

/-
# The layout of a repository on disk

Below its root a repository has one directory for each location, and in it one directory for
each diagram, which holds the diagram's file.
-/
namespace DiagramRegistry.Layout

/-- The directory of a location. -/
def locationDirectory (root : String) (location : Location) : String :=
  Path.join root location.directory

/-- The directory of a diagram. -/
def diagramDirectory (root : String) (k : Key) : String :=
  Path.join (locationDirectory root k.location) k.stem

/-- The file of a diagram. -/
def diagramPath (root : String) (k : Key) : String :=
  Path.join (diagramDirectory root k) k.fileName

/-- The path below the root with slashes between its components, when it lies there. -/
def relative? (root path : String) : Option String :=
  (Path.below? root path).map fun cs => String.intercalate "/" (cs.map Path.Component.text)

/-- A name or a version must not lead out of its directory. -/
def ensureSafe (value field : String) : Except Failure Unit :=
  match Path.unsafeSegment? value field with
  | some reason => .error (.repository reason)
  | none => .ok ()

/-- The file of a diagram whose name and version do not lead out of their directory. -/
def checkedPath (root : String) (k : Key) : Except Failure String := do
  ensureSafe k.name "name"
  ensureSafe k.version "version"
  return diagramPath root k

end DiagramRegistry.Layout
