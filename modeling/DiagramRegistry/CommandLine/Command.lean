import DiagramRegistry.CommandLine.Arguments
import DiagramRegistry.Identity.Key

/-
# Commands

The commands of the registry with their options, and what a command line asks for.
-/
namespace DiagramRegistry.CommandLine

/-- What a command line asks for. -/
inductive Command where
  /-- Validate a file, by the given strictness and as the diagram of the given name and
  version. -/
  | validate (file : String) (strictness : Option String) (identity : Option (String × String))
  /-- Store a new diagram. -/
  | create (name : String) (version : Option String) (file : String) (location : Option String)
  /-- Replace the document of a diagram. -/
  | update (name : String) (version : Option String) (file : String) (location : Option String)
  /-- Show a diagram. -/
  | view (name : String) (version : Option String) (location : Option String)
  /-- List the diagrams of a location. -/
  | list (location : Option String)
  /-- Remove a diagram. -/
  | delete (name : String) (version : Option String) (location : Option String)
  /-- Promote a draft. -/
  | promote (name version : String)
deriving DecidableEq, Repr

/-- A command with the options that every command has. -/
structure Invocation where
  /-- The root of the repository, if it is given. -/
  root : Option String
  /-- The outcome is to be written as JSON. -/
  json : Bool
  /-- The command. -/
  command : Command
deriving DecidableEq, Repr

/-- The options that every command has. -/
def globalFlags : List Flag :=
  [⟨"root", none, true⟩, ⟨"json", none, false⟩, ⟨"verbose", none, false⟩]

/-- The option that names a location. -/
def locationFlag : Flag := ⟨"location", none, true⟩

/-- The option that names the file with a document. -/
def fileFlag : Flag := ⟨"file", some 'f', true⟩

/-- The grammar of a command that addresses a diagram by its name and version. -/
def addressing (name : String) (flags : List Flag) (required : List String) : Grammar :=
  ⟨name, flags ++ locationFlag :: globalFlags, 1, 2, required, []⟩

/-- The commands of the registry. -/
def program : Program where
  grammar := ⟨"", globalFlags, 0, 0, [], []⟩
  commands :=
    [⟨"validate", [⟨"strictness", none, true⟩, ⟨"name", none, true⟩, ⟨"version", none, true⟩] ++
        globalFlags, 1, 1, [], [("name", "version")]⟩,
      addressing "create" [fileFlag] ["file"],
      addressing "update" [fileFlag] ["file"],
      addressing "show" [] [],
      ⟨"list", locationFlag :: globalFlags, 0, 0, [], []⟩,
      addressing "delete" [] [],
      ⟨"promote", globalFlags, 2, 2, [], []⟩]

/-- The command that a name and what was given after it make. -/
def commandOf? (name : String) (g : Given) : Option Command :=
  let location := g.value? "location"
  match name, g.positionals with
  | "validate", [file] =>
    let identity := do return (← g.value? "name", ← g.value? "version")
    some (.validate file (g.value? "strictness") identity)
  | "create", name :: rest =>
    (g.value? "file").map fun file => .create name rest.head? file location
  | "update", name :: rest =>
    (g.value? "file").map fun file => .update name rest.head? file location
  | "show", name :: rest => some (.view name rest.head? location)
  | "list", [] => some (.list location)
  | "delete", name :: rest => some (.delete name rest.head? location)
  | "promote", [name, version] => some (.promote name version)
  | _, _ => none

/-- Read a command line.  An option that every command has counts on either side of the
name of the command, and the later value wins. -/
def Invocation.parse (args : List String) : Except Refusal Invocation := do
  let (before, command, after) ← program.read .nothing args
  match commandOf? command.name after with
  | none => .error .usage
  | some c => return {
      root := (after.value? "root").or (before.value? "root")
      json := before.has "json" || after.has "json"
      command := c }

example : (Invocation.parse ["--json", "create", "door", "1.0.0", "-fv.puml"]).toOption =
    some ⟨none, true, .create "door" (some "1.0.0") "v.puml" none⟩ := by decide

end DiagramRegistry.CommandLine
