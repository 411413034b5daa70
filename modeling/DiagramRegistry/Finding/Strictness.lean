import DiagramRegistry.Finding.Basic
import DiagramRegistry.Text.Blank

/-
# Strictness

At staging strictness every error stays an error.  At production strictness only critical
errors do: every other error becomes a warning that says so.  Warnings never become errors.
-/
namespace DiagramRegistry

/-- How errors with codes that are not critical are treated. -/
inductive Strictness where
  /-- Every error stays an error. -/
  | staging
  /-- Only critical errors stay errors. -/
  | production
deriving DecidableEq, Repr

namespace Strictness

/-- The name of a level. -/
def name : Strictness → String
  | staging => "staging"
  | production => "production"

/-- The level that a folded text names; staging is also called strict, and production
lenient. -/
def ofFolded? (text : String) : Option Strictness :=
  if text = "staging" ∨ text = "strict" then some staging
  else if text = "production" ∨ text = "lenient" then some production
  else none

/-- Read a level; the error names the text as it was compared. -/
def parse (text : String) : Except String Strictness :=
  match ofFolded? (Text.folded text) with
  | some s => .ok s
  | none => .error s!"unknown strictness '{Text.folded text}'"

/-- Read a level, and take staging for a text that names none. -/
def parseOrDefault (text : String) : Strictness :=
  (ofFolded? (Text.folded text)).getD staging

end Strictness

namespace Finding

/-- What stands in front of the message of an error that has become a warning. -/
def downgradeMark : String := "downgraded: "

/-- The warning that an error turns into. -/
def downgrade (f : Finding) : Finding := { f with message := downgradeMark ++ f.message }

end Finding

namespace Findings

/-- Treat the findings according to a level of strictness. -/
def apply (fs : Findings) : Strictness → Findings
  | .staging => fs
  | .production =>
    ⟨fs.criticalErrors,
      fs.warnings ++ (fs.errors.filter fun f => !f.code.isCritical).map Finding.downgrade⟩

end Findings

end DiagramRegistry
