import DiagramRegistry.Document.Body
import DiagramRegistry.Finding.Strictness
import DiagramRegistry.Reference.Check
import DiagramRegistry.Reference.Resolve
import DiagramRegistry.Repository.Diagram

/-
# Validation

A diagram is validated by five passes, each of which appends to what was found before: the
envelope, the body, the reading of the references, the checks of each reference, and, when
there are references, their resolution.  In the end the findings are treated according to the
level of strictness.
-/
namespace DiagramRegistry.Validation

/-- Read the references of a document.  A document that cannot be read has none, and the
line at fault is reported. -/
def readReferences (content : String) (found : Findings) : List Reference × Findings :=
  match includes content with
  | .ok references => (references, found)
  | .error fault =>
    ([], found.error (.atPosition .referenceParseError fault.line 1 fault.message))

/-- The findings of all passes, before strictness is applied. -/
def passes (catalogue : Option Catalogue) (key : Key) (content : String) :
    List Reference × Findings :=
  let found := Body.check content (Envelope.check content .none)
  let (references, found) := readReferences content found
  let found := Reference.checkAll key references found
  (references,
    if references.isEmpty then found else resolve catalogue key references found)

/-- Validate a diagram, and replace its references by those just read. -/
def run (catalogue : Option Catalogue) (strictness : Strictness) (d : Diagram) :
    Diagram × Findings :=
  let (references, found) := passes catalogue d.key d.content
  ({ d with references }, found.apply strictness)

/-- Validate a document as if it were the draft of the given name and version. -/
def ofContent (catalogue : Option Catalogue) (strictness : Strictness)
    (content name version : String) : Findings :=
  ((passes catalogue (.staging name version) content).2).apply strictness

end DiagramRegistry.Validation
