import DiagramRegistry.CommandLine.Run
import DiagramRegistry.Disk.Change
import Std.Time.DateTime.Timestamp

/-
# The program

The program takes a picture of the part of the file system that a command can touch, carries
the command out on the picture, and brings the file system into the state that the picture
has then.
-/
namespace DiagramRegistry.Program

/-- The path of a place. -/
def pathOf (p : Place) : String := "/" ++ String.intercalate "/" p

/-- The instant that a time of the operating system is. -/
def instantOf (t : IO.FS.SystemTime) : Instant := ⟨t.sec, t.nsec.toNat⟩

/-- What bytes hold. -/
def contentsOf (bytes : ByteArray) : Contents :=
  match String.fromUTF8? bytes with
  | some content => .text content
  | none => .binary bytes.data.toList

/-- The bytes of what a file holds. -/
def bytesOf : Contents → ByteArray
  | .text content => content.toUTF8
  | .binary bytes => ⟨bytes.toArray⟩

/-! ## Taking the picture -/

/-- What is at a place, and the names in it if it is a directory.  The names are given as texts, so
an entry whose name is none does not come into the picture under its own name. -/
def look (p : Place) : IO (Option (Node × List String)) := do
  try
    let path ← IO.FS.realPath (pathOf p)
    let data ← path.metadata
    match data.type with
    | .dir => return some (.directory, (← path.readDir).toList.map fun e => e.fileName)
    | .file =>
      let t := instantOf data.modified
      return some (.file ⟨contentsOf (← IO.FS.readBinFile path), t, t⟩, [])
    | _ => return none
  catch _ => return none

/-- Add what is at a place to a picture, and what is below it down to a depth. -/
def add : (depth : Nat) → Place → Disk → IO Disk
  | 0, p, d => do
    match ← look p with
    | some (n, _) => return d.put p n
    | none => return d
  | depth + 1, p, d => do
    match ← look p with
    | some (n, names) => names.foldlM (fun d name => add depth (p ++ [name]) d) (d.put p n)
    | none => return d

/-- Add what lies on the way along the segments of a path, and what is below its end. -/
def addWay (depth : Nat) : Place → List String → Disk → IO Disk
  | p, [], d => add depth p d
  | p, s :: ss, d => do
    let d ← add 0 p d
    addWay depth (if s = "." then p else if s = ".." then p.dropLast else p ++ [s]) ss d

/-- Add what a path leads to, and what is below it down to a depth. -/
def addPath (depth : Nat) (path : String) (d : Disk) : IO Disk :=
  addWay depth (d.origin path) (Path.segments path) d

/-- The file that a command reads. -/
def fileOf? : CommandLine.Command → Option String
  | .validate file _ _ => some file
  | .create _ _ file _ => some file
  | .update _ _ file _ => some file
  | _ => none

/-- The picture of what an invocation can touch: the file that it reads, and the repository
with its locations, diagrams and files. -/
def picture (root : String) (i : CommandLine.Invocation) : IO Disk := do
  let here := Path.segments (← IO.currentDir).toString
  let d ← addWay 0 [] here ⟨[], here⟩
  let d ← match fileOf? i.command with
    | some file => addPath 0 file d
    | none => pure d
  addPath 3 root d

/-! ## Carrying the changes out -/

/-- Carry a change out.  A file is written beside its place and then renamed. -/
def carryOut : Change → IO Unit
  | .makeDirectory p => IO.FS.createDir (pathOf p)
  | .writeFile p contents => do
    let beside := Path.withExtension (pathOf p) "tmp"
    IO.FS.writeBinFile beside (bytesOf contents)
    IO.FS.rename beside (pathOf p)
  | .removeFile p => IO.FS.removeFile (pathOf p)
  | .removeDirectory p => IO.FS.removeDir (pathOf p)

/-! ## The whole -/

/-- What is shown when help is asked for. -/
def helpText : String :=
  "Validate, store, and promote state-machine diagrams\n\n" ++
  "Usage: diagram-registry [OPTIONS] <COMMAND>\n\n" ++
  "Commands:\n" ++
  "  validate FILE [--strictness LEVEL] [--name NAME --version VERSION]\n" ++
  "  create NAME [VERSION] --file PATH [--location LOCATION]\n" ++
  "  update NAME [VERSION] --file PATH [--location LOCATION]\n" ++
  "  show NAME [VERSION] [--location LOCATION]\n" ++
  "  list [--location LOCATION]\n" ++
  "  delete NAME [VERSION] [--location LOCATION]\n" ++
  "  promote NAME VERSION\n\n" ++
  "Options:\n" ++
  "  --root PATH  Repository root\n" ++
  "  --json       Emit JSON instead of human-readable text\n" ++
  "  --verbose    Log the resolved repository layout\n"

/-- Carry an invocation out on the file system. -/
def runOnDisk (i : CommandLine.Invocation) : IO CommandLine.Outcome := do
  let rootValue ← IO.getEnv Settings.rootVariable
  let strictnessValue ← IO.getEnv Settings.strictnessVariable
  let time := (← Std.Time.Timestamp.now).toNanosecondsSinceUnixEpoch.toInt
  let valueOf (name : String) : Option String :=
    if name = Settings.rootVariable then rootValue
    else if name = Settings.strictnessVariable then strictnessValue
    else none
  let now : Instant := ⟨time / 1000000000, (time % 1000000000).toNat⟩
  let root := (Settings.ofLookup valueOf).toOption.map fun s => (s.withRoot i.root).root
  let before ← picture (root.getD "") i
  let (outcome, after) := i.run ⟨now, Instant.display, valueOf⟩ before
  (Change.between before after).forM carryOut
  return outcome

end DiagramRegistry.Program

open DiagramRegistry in
/-- Carry the command line out, and end with its exit code. -/
def main (args : List String) : IO UInt32 := do
  match CommandLine.Invocation.parse args with
  | .error .help =>
    IO.print Program.helpText
    return 0
  | .error .usage =>
    IO.eprint Program.helpText
    return UInt32.ofNat CommandLine.Status.usage.code
  | .ok i =>
    let outcome ← Program.runOnDisk i
    IO.print outcome.output
    IO.eprint outcome.errors
    return UInt32.ofNat outcome.status.code
