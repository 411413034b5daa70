import DiagramRegistry.Disk.Path
import DiagramRegistry.Finding.Strictness
import DiagramRegistry.Repository.Failure

/-
# Settings

Where the repository lies and how strictly documents are judged when nobody says otherwise
is taken from two variables of the environment.
-/
namespace DiagramRegistry

/-- What the environment decides. -/
structure Settings where
  /-- The root of the repository. -/
  root : String
  /-- The strictness that is used when none is asked for. -/
  strictness : Strictness
deriving DecidableEq, Repr

namespace Settings

/-- The variable that names the root. -/
def rootVariable : String := "STATEMAN_ROOT"

/-- The variable that names the strictness. -/
def strictnessVariable : String := "STATEMAN_STRICTNESS"

/-- The settings of an empty environment. -/
def default : Settings := ⟨"./diagrams", .staging⟩

/-- The root that a variable names, which must not be blank. -/
def rootOf (value : String) : Except Failure String :=
  let root := String.ofList (Text.trim value.toList)
  if root = "" then .error (.config s!"{rootVariable} must not be empty") else .ok root

/-- The settings that an environment makes. -/
def ofLookup (lookup : String → Option String) : Except Failure Settings := do
  let root ←
    match lookup rootVariable with
    | none => .ok default.root
    | some value => rootOf value
  let strictness :=
    match lookup strictnessVariable with
    | none => default.strictness
    | some value => Strictness.parseOrDefault value
  return ⟨root, strictness⟩

/-- The same settings with another root, if one is given. -/
def withRoot (s : Settings) : Option String → Settings
  | none => s
  | some root => { s with root }

/-- The settings of an empty environment, with the same root in whatever spelling. -/
def isDefault (s : Settings) : Bool :=
  Path.same s.root default.root && s.strictness = default.strictness

end Settings

end DiagramRegistry
