/-
# Names of diagrams and states

Diagrams, references and states are named by ASCII identifiers.  A state may also be the
pseudo-state that marks the beginning and the end of a machine.
-/
namespace DiagramRegistry

/-- A letter or an underscore begins an identifier. -/
def isNameStart (c : Char) : Bool := c.isAlpha || c == '_'

/-- Letters, digits, underscores and hyphens continue an identifier. -/
def isNameChar (c : Char) : Bool := c.isAlphanum || c == '_' || c == '-'

/-- The identifier rule, on the characters of a name. -/
def identifierChars : List Char → Bool
  | [] => false
  | c :: cs => isNameStart c && cs.all isNameChar

/-- The rule that the names of diagrams, references and states share. -/
def isIdentifier (name : String) : Bool := identifierChars name.toList

/-- The pseudo-state at the beginning and the end of a machine. -/
def pseudoState : String := "[*]"

/-- A state is named by an identifier or is the pseudo-state. -/
def isStateName (name : String) : Bool := name == pseudoState || isIdentifier name

end DiagramRegistry
