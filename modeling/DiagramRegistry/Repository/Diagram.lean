import DiagramRegistry.Reference.Basic
import DiagramRegistry.Time.Instant

/-
# Diagrams

A diagram is a document under a key, with the times of its first and last change.  Its
references are always computed anew from the document.
-/
namespace DiagramRegistry

/-- A diagram with its references. -/
structure Diagram where
  /-- The identity of the diagram. -/
  key : Key
  /-- The document. -/
  content : String
  /-- The references last read from the document. -/
  references : List Reference
  /-- When the diagram was created. -/
  created : Instant
  /-- When the diagram was last changed. -/
  updated : Instant
deriving DecidableEq, Repr

namespace Diagram

/-- A diagram that comes into being. -/
def new (now : Instant) (key : Key) (content : String) : Diagram :=
  ⟨key, content, [], now, now⟩

end Diagram

end DiagramRegistry
