import DiagramRegistry.Finding.Code

/-
# Findings

A validation collects findings: errors, which make a diagram invalid, and warnings, which do
not.  Findings are only ever appended, so they stand in the order in which the checks came
upon them.  Positions count from one.
-/
namespace DiagramRegistry

/-- One thing that a validation has found. -/
structure Finding where
  /-- What the finding is about. -/
  code : Code
  /-- The finding in words. -/
  message : String
  /-- The line it is tied to, and one when it is tied to none. -/
  line : Nat
  /-- The column it is tied to, and one when it is tied to none. -/
  column : Nat
  /-- The path or the chain of keys it is about. -/
  context : Option String
deriving DecidableEq, Repr

namespace Finding

/-- A finding without a context.  A position before the first is moved to the first. -/
def atPosition (code : Code) (line column : Nat) (message : String) : Finding :=
  ⟨code, message, max line 1, max column 1, none⟩

/-- A finding about a line, with a context. -/
def onLine (code : Code) (line : Nat) (message context : String) : Finding :=
  ⟨code, message, max line 1, 1, some context⟩

end Finding

/-- What a validation has found so far. -/
structure Findings where
  /-- The findings that make a diagram invalid. -/
  errors : List Finding
  /-- The findings that only inform. -/
  warnings : List Finding
deriving DecidableEq, Repr

namespace Findings

/-- Nothing found. -/
def none : Findings := ⟨[], []⟩

instance : Append Findings where
  append a b := ⟨a.errors ++ b.errors, a.warnings ++ b.warnings⟩

/-- A diagram is valid when no error was found. -/
def isValid (fs : Findings) : Bool := fs.errors.isEmpty

/-- Record an error. -/
def error (fs : Findings) (f : Finding) : Findings := { fs with errors := fs.errors ++ [f] }

/-- Record a warning. -/
def warning (fs : Findings) (f : Finding) : Findings :=
  { fs with warnings := fs.warnings ++ [f] }

/-- Some error has the code. -/
def hasError (fs : Findings) (code : Code) : Bool := fs.errors.any fun f => f.code = code

/-- Some warning has the code. -/
def hasWarning (fs : Findings) (code : Code) : Bool := fs.warnings.any fun f => f.code = code

/-- The codes of the errors, in order. -/
def errorCodes (fs : Findings) : List Code := fs.errors.map Finding.code

/-- The codes of the warnings, in order. -/
def warningCodes (fs : Findings) : List Code := fs.warnings.map Finding.code

/-- The errors with critical codes, in order. -/
def criticalErrors (fs : Findings) : List Finding := fs.errors.filter fun f => f.code.isCritical

end Findings

end DiagramRegistry
