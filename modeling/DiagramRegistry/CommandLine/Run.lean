import DiagramRegistry.CommandLine.Command
import DiagramRegistry.CommandLine.Report
import DiagramRegistry.Repository.OnDisk
import DiagramRegistry.Settings

/-
# Carrying commands out

A command line is carried out on a disk: the settings are read, the directories of the
repository are made where they are missing, and the command does its work through the life
cycle of diagrams.  What it has to say goes to standard output; a failure goes to standard
error.  The exit status tells the reason of a failure by the usual codes.
-/
namespace DiagramRegistry.CommandLine

/-- How a command ended. -/
inductive Status where
  /-- The command was carried out. -/
  | ok
  /-- The command was not well formed. -/
  | usage
  /-- The command does not fit the stored diagrams, or a document is invalid. -/
  | data
  /-- A value could not be written. -/
  | software
  /-- The repository or the file system refused. -/
  | io
  /-- The settings are malformed. -/
  | config
deriving DecidableEq, Repr

/-- The exit code of a status. -/
def Status.code : Status → Nat
  | ok => 0
  | usage => 64
  | data => 65
  | software => 70
  | io => 71
  | config => 78

/-- Why a command was not carried out, in words and as a status. -/
structure Problem where
  /-- The status. -/
  status : Status
  /-- The reason. -/
  message : String
deriving DecidableEq, Repr

/-- The status that a failure leads to. -/
def Problem.ofFailure (failure : Failure) : Problem :=
  let status :=
    match failure with
    | .notFound _ | .alreadyExists _ | .promotionBlocked _ _ => Status.data
    | .invalidIdentity _ | .invalidLocation _ => .usage
    | .config _ => .config
    | .serialization _ => .software
    | .repository _ | .io _ => .io
  ⟨status, failure.message⟩

/-- What surrounds a command: the clock, the way instants are shown, and the variables of
the environment. -/
structure Surroundings where
  /-- The time. -/
  now : Instant
  /-- How an instant is shown. -/
  showInstant : Instant → String
  /-- The value of a variable. -/
  valueOf : String → Option String

/-- A piece of work on a repository on disk that may meet a problem. -/
abbrev Task := ExceptT Problem (StateM OnDisk)

namespace Task

/-- Do what the life cycle offers. -/
def act {α : Type} (x : Action OnDisk α) : Task α := ExceptT.mk fun s =>
  match x.perform s with
  | (.ok a, s) => (.ok a, s)
  | (.error failure, s) => (.error (.ofFailure failure), s)

/-- Ask the repository a question that may meet a problem. -/
def ask {α : Type} (question : OnDisk → Except Problem α) : Task α :=
  ExceptT.mk fun s => (question s, s)

/-- Ask the repository a question that has an answer. -/
def look {α : Type} (question : OnDisk → α) : Task α := ask fun s => .ok (question s)

/-- A question whose answer does not depend on the repository. -/
def lift {α : Type} (answer : Except Problem α) : Task α := ask fun _ => answer

end Task

/-- The strictness that an option names. -/
def strictnessOf (text : String) : Except Problem Strictness :=
  match Strictness.parse text with
  | .ok s => .ok s
  | .error reason => .error ⟨.usage, s!"{reason} (expected staging or production)"⟩

/-- The location that an option names, and staging without the option. -/
def locationOf : Option String → Except Problem Location
  | none => .ok .staging
  | some text => (Location.parse text).mapError .ofFailure

/-- The key that a name and a version address at a location: nested diagrams have no version,
and all others have one. -/
def keyOf (name : String) (version : Option String) (location : Location) :
    Except Problem Key :=
  match location, version with
  | .nested, none => .ok (.nested name)
  | .nested, some v => .error ⟨.usage, s!"nested diagrams are unversioned; drop '{v}'"⟩
  | l, some v => .ok ⟨name, v, l⟩
  | l, none => .error ⟨.usage, s!"{l.name} diagrams require a version"⟩

/-- The key that the arguments of a command address. -/
def addressed (name : String) (version location : Option String) : Except Problem Key := do
  keyOf name version (← locationOf location)

/-- The text of a file. -/
def fileText (path : String) (s : OnDisk) : Except Problem String :=
  match s.disk.readText path with
  | .ok (content, _) => .ok content
  | .error e => .error ⟨.io, s!"unable to read {path}: {e.message}"⟩

/-- The name and version that a file goes by: those of its stem, or the stem and a version
before all others. -/
def identityOfFile (path : String) : String × String :=
  let stem := Path.stemOf (Path.fileName path)
  match Stem.split? stem with
  | some identity => identity
  | none => (if stem = "" then "diagram" else stem, "0.0.0")

/-- A stored diagram in short. -/
def summarize (around : Surroundings) (root : String) (d : Diagram) : Summary :=
  let path := Layout.diagramPath root d.key
  ⟨d.key, (Layout.relative? root path).getD path, around.showInstant d.updated⟩

/-- A stored diagram in short. -/
def summary (around : Surroundings) (d : Diagram) : Task Summary :=
  .look fun s => summarize around s.root d

/-- Validate a file. -/
def validateFile (settings : Settings) (file : String) (strictness : Option String)
    (identity : Option (String × String)) : Task Report := do
  if ← .look fun s => s.disk.isFile file then
    let content ← .ask (fileText file)
    let strictness ←
      match strictness with
      | some text => .lift (strictnessOf text)
      | none => pure settings.strictness
    let (name, version) := identity.getD (identityOfFile file)
    .look fun s => .validated file name version strictness
      (Validation.ofContent (some s.catalogue) strictness content name version)
  else
    .lift (.error ⟨.usage, s!"{file} is not a file"⟩)

/-- Carry a command out. -/
def Command.run (around : Surroundings) (settings : Settings) : Command → Task Report
  | .validate file strictness identity => validateFile settings file strictness identity
  | .create name version file location => do
    let content ← .ask (fileText file)
    let k ← .lift (addressed name version location)
    let (d, found) ← .act (Lifecycle.create around.now ⟨k.name, k.version, k.location, content⟩)
    return .created (← summary around d) found
  | .update name version file location => do
    let content ← .ask (fileText file)
    let k ← .lift (addressed name version location)
    let (d, found) ← .act (Lifecycle.update around.now k content)
    return .updated (← summary around d) found
  | .view name version location => do
    let k ← .lift (addressed name version location)
    let d ← .act (Lifecycle.get k)
    return .shown (← summary around d) d.references d.content
  | .list location => do
    let location ← .lift (locationOf location)
    let ds ← .act (Lifecycle.list location)
    return .listed location (← ds.mapM (summary around))
  | .delete name version location => do
    let k ← .lift (addressed name version location)
    let d ← .act (Lifecycle.get k)
    let s ← summary around d
    .act (Lifecycle.delete k)
    return .deleted s
  | .promote name version => do
    let (k, found) ← .act (Lifecycle.promote around.now name version)
    let d ← .act (Lifecycle.get k)
    return .promoted (← summary around d) found

/-- What a command leaves to be seen. -/
structure Outcome where
  /-- How the command ended. -/
  status : Status
  /-- What goes to standard output. -/
  output : String
  /-- What goes to standard error. -/
  errors : String
deriving DecidableEq, Repr

/-- What is seen of a problem. -/
def Outcome.ofProblem (p : Problem) : Outcome := ⟨p.status, "", p.message ++ "\n"⟩

/-- What is seen of a report. -/
def Outcome.ofReport (json : Bool) (r : Report) : Outcome :=
  ⟨if r.isGood then .ok else .data, if json then r.json else r.text, ""⟩

/-- Carry an invocation out on a disk. -/
def Invocation.run (around : Surroundings) (i : Invocation) (disk : Disk) : Outcome × Disk :=
  match Settings.ofLookup around.valueOf with
  | .error failure => (.ofProblem (.ofFailure failure), disk)
  | .ok settings =>
    let settings := settings.withRoot i.root
    let task : Task Report := do
      .act OnDisk.setUp
      i.command.run around settings
    match task.run.run ⟨settings.root, disk⟩ with
    | (.ok r, s) => (.ofReport i.json r, s.disk)
    | (.error p, s) => (.ofProblem p, s.disk)

/-- Carry a command line out on a disk. -/
def run (around : Surroundings) (args : List String) (disk : Disk) :
    Except Refusal Outcome × Disk :=
  match Invocation.parse args with
  | .error refusal => (.error refusal, disk)
  | .ok i =>
    let (outcome, disk) := i.run around disk
    (.ok outcome, disk)

end DiagramRegistry.CommandLine
