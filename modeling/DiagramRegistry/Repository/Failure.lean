import DiagramRegistry.Finding.Basic
import DiagramRegistry.Identity.Key
import DiagramRegistry.Repository.OsError

/-
# Failures

What keeps an operation on a registry from being carried out.  A malformed document is no
failure: it is reported through findings.
-/
namespace DiagramRegistry

/-- Why an operation was not carried out. -/
inductive Failure where
  /-- The diagram is not stored. -/
  | notFound (key : Key)
  /-- A diagram is stored under the key already. -/
  | alreadyExists (key : Key)
  /-- The name or the version of a diagram is malformed. -/
  | invalidIdentity (reason : String)
  /-- A location is unknown, or does not admit the operation. -/
  | invalidLocation (reason : String)
  /-- Critical findings keep a draft from being promoted. -/
  | promotionBlocked (key : Key) (blocking : List Finding)
  /-- The repository refuses a key, or cannot answer. -/
  | repository (reason : String)
  /-- The settings are malformed. -/
  | config (reason : String)
  /-- A value could not be written or read. -/
  | serialization (reason : String)
  /-- The file system refuses an operation. -/
  | io (cause : OsError)
deriving DecidableEq, Repr

namespace Failure

/-- A blocking finding, in short. -/
def describe (f : Finding) : String := s!"{f.code.name} (line {f.line})"

/-- The failure in words. -/
def message : Failure → String
  | notFound key => s!"diagram not found: {key.display}"
  | alreadyExists key => s!"diagram already exists: {key.display}"
  | invalidIdentity reason => s!"invalid diagram identity: {reason}"
  | invalidLocation reason => s!"invalid location: {reason}"
  | promotionBlocked key blocking =>
    s!"promotion of {key.display} blocked by {blocking.length} critical finding(s): " ++
      String.intercalate ", " (blocking.map describe)
  | repository reason => s!"repository error: {reason}"
  | config reason => s!"configuration error: {reason}"
  | serialization reason => s!"serialization error: {reason}"
  | io cause => s!"io error: {cause.message}"

/-- Say in front of the reason what was being done.  Failures about a diagram and of the file
system speak for themselves. -/
def within (context : String) : Failure → Failure
  | invalidIdentity reason => invalidIdentity s!"{context}: {reason}"
  | invalidLocation reason => invalidLocation s!"{context}: {reason}"
  | repository reason => repository s!"{context}: {reason}"
  | config reason => config s!"{context}: {reason}"
  | serialization reason => serialization s!"{context}: {reason}"
  | failure => failure

end Failure

/-- Read a location. -/
def Location.parse (text : String) : Except Failure Location :=
  match Location.ofFolded? (Text.folded text) with
  | some location => .ok location
  | none => .error (.invalidLocation
      (s!"unknown location '{Text.folded text}' " ++
        "(expected staging, production, or nested)"))

end DiagramRegistry
