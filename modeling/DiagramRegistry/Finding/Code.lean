/-
# Finding codes

Everything that a validation can find has a code from a closed list.  The texts of the codes
are read by other tools and never change.  A code is critical when its findings stay errors
under every level of strictness.
-/
namespace DiagramRegistry

/-- What a finding is about. -/
inductive Code where
  /-- No start marker. -/
  | missingStart
  /-- No end marker. -/
  | missingEnd
  /-- A second start marker. -/
  | duplicateStart
  /-- A second end marker. -/
  | duplicateEnd
  /-- The first end marker precedes the first start marker. -/
  | invalidOrder
  /-- A state with a name that is no identifier. -/
  | invalidStateName
  /-- A line that is none of the known statements. -/
  | unknownSyntax
  /-- No transition from the pseudo-state. -/
  | noInitialState
  /-- No state at all. -/
  | noStates
  /-- The references of the document cannot be read. -/
  | referenceParseError
  /-- A reference with a name that is no identifier. -/
  | invalidReferenceName
  /-- A product reference without a version. -/
  | missingReferenceVersion
  /-- A product reference with a malformed version. -/
  | invalidReferenceVersion
  /-- A product reference to the diagram itself. -/
  | selfReference
  /-- A product reference with something in front of its path. -/
  | incorrectReferencePath
  /-- A nested reference with a version. -/
  | unexpectedNestedVersion
  /-- A nested reference to the diagram's own name. -/
  | nestedSelfReference
  /-- A nested reference with something in front of its path. -/
  | incorrectNestedPath
  /-- A reference of a kind that is not known. -/
  | unknownReferenceType
  /-- There is no repository to resolve references in. -/
  | noRepository
  /-- The repository could not say whether a referenced diagram exists. -/
  | referenceCheckError
  /-- A referenced diagram exists but could not be read. -/
  | referenceReadError
  /-- A product reference leads nowhere. -/
  | productReferenceNotFound
  /-- A nested reference leads nowhere. -/
  | nestedReferenceNotFound
  /-- References lead around a cycle away from the diagram. -/
  | circularReference
  /-- References lead back to the diagram. -/
  | directCircularReference
deriving DecidableEq, Repr

namespace Code

/-- Every code, in the order of the catalogue. -/
def all : List Code :=
  [missingStart, missingEnd, duplicateStart, duplicateEnd, invalidOrder, invalidStateName,
    unknownSyntax, noInitialState, noStates, referenceParseError, invalidReferenceName,
    missingReferenceVersion, invalidReferenceVersion, selfReference, incorrectReferencePath,
    unexpectedNestedVersion, nestedSelfReference, incorrectNestedPath, unknownReferenceType,
    noRepository, referenceCheckError, referenceReadError, productReferenceNotFound,
    nestedReferenceNotFound, circularReference, directCircularReference]

/-- The text of a code. -/
def name : Code → String
  | missingStart => "MISSING_START"
  | missingEnd => "MISSING_END"
  | duplicateStart => "DUPLICATE_START"
  | duplicateEnd => "DUPLICATE_END"
  | invalidOrder => "INVALID_ORDER"
  | invalidStateName => "INVALID_STATE_NAME"
  | unknownSyntax => "UNKNOWN_SYNTAX"
  | noInitialState => "NO_INITIAL_STATE"
  | noStates => "NO_STATES"
  | referenceParseError => "REFERENCE_PARSE_ERROR"
  | invalidReferenceName => "INVALID_REFERENCE_NAME"
  | missingReferenceVersion => "MISSING_REFERENCE_VERSION"
  | invalidReferenceVersion => "INVALID_REFERENCE_VERSION"
  | selfReference => "SELF_REFERENCE"
  | incorrectReferencePath => "INCORRECT_REFERENCE_PATH"
  | unexpectedNestedVersion => "UNEXPECTED_NESTED_VERSION"
  | nestedSelfReference => "NESTED_SELF_REFERENCE"
  | incorrectNestedPath => "INCORRECT_NESTED_PATH"
  | unknownReferenceType => "UNKNOWN_REFERENCE_TYPE"
  | noRepository => "NO_REPOSITORY"
  | referenceCheckError => "REFERENCE_CHECK_ERROR"
  | referenceReadError => "REFERENCE_READ_ERROR"
  | productReferenceNotFound => "PRODUCT_REFERENCE_NOT_FOUND"
  | nestedReferenceNotFound => "NESTED_REFERENCE_NOT_FOUND"
  | circularReference => "CIRCULAR_REFERENCE"
  | directCircularReference => "DIRECT_CIRCULAR_REFERENCE"

/-- The code with a given text. -/
def ofName? (text : String) : Option Code := all.find? fun c => c.name = text

/-- The codes whose findings stay errors under every level of strictness: a broken envelope,
a diagram without states, and references that can never be resolved. -/
def isCritical : Code → Bool
  | missingStart | missingEnd | duplicateStart | duplicateEnd | invalidOrder | noStates
  | selfReference | nestedSelfReference | directCircularReference | circularReference
  | referenceParseError | unknownReferenceType => true
  | _ => false

end Code

end DiagramRegistry
