import DiagramRegistry.Json.Records

/-
# Reports

What a command that was carried out has to say, as text for people or as one JSON document.
-/
namespace DiagramRegistry.CommandLine

/-- A stored diagram in short. -/
structure Summary where
  /-- The key of the diagram. -/
  key : Key
  /-- The path of its file below the root. -/
  path : String
  /-- When it was last changed, as it is shown. -/
  updated : String
deriving DecidableEq, Repr

/-- What a command has to say. -/
inductive Report where
  /-- A file was validated. -/
  | validated (file name version : String) (strictness : Strictness) (found : Findings)
  /-- A diagram was created. -/
  | created (summary : Summary) (found : Findings)
  /-- A diagram was updated. -/
  | updated (summary : Summary) (found : Findings)
  /-- A diagram is shown. -/
  | shown (summary : Summary) (references : List Reference) (content : String)
  /-- The diagrams of a location are listed. -/
  | listed (location : Location) (diagrams : List Summary)
  /-- A diagram was removed. -/
  | deleted (summary : Summary)
  /-- A draft was promoted. -/
  | promoted (summary : Summary) (found : Findings)
deriving DecidableEq, Repr

namespace Report

/-! ## Text -/

/-- A finding on a line of its own. -/
def findingLine (label : String) (f : Finding) : String :=
  let context := (f.context.map fun c => s!" [{c}]").getD ""
  s!"  [{label}] {f.code.name} {f.line}:{f.column} {f.message}{context}\n"

/-- The errors and then the warnings, one a line. -/
def findingLines (found : Findings) : String :=
  String.join (found.errors.map (findingLine "ERR") ++
    found.warnings.map (findingLine "WARN"))

/-- The references of a diagram, one a line. -/
def referenceLines (references : List Reference) : String :=
  if references.isEmpty then "  References: (none)\n"
  else
    s!"  References ({references.length}):\n" ++
      String.join (references.map fun r =>
        s!"    - {r.kind.display} {r.path} (line {r.line})\n")

/-- A document on lines of its own. -/
def contentLines (content : String) : String :=
  if content.toList.getLast? = some '\n' then content else content ++ "\n"

/-- What is said about a diagram and what was found in it. -/
def aboutDiagram (what place : String) (s : Summary) (found : Findings) : String :=
  s!"{what} diagram '{s.key.stem}' {place} {s.path}\n" ++ findingLines found

/-- The report as text. -/
def text : Report → String
  | validated file name version strictness found =>
    let verdict := if found.isValid then "OK" else "FAIL"
    s!"Validation {verdict}: {file} as {name}-{version} ({strictness.name}, " ++
      s!"{found.errors.length} error(s), {found.warnings.length} warning(s))\n" ++
      findingLines found
  | created s found => aboutDiagram "Created" "at" s found
  | updated s found => aboutDiagram "Updated" "at" s found
  | shown s references content =>
    s!"Diagram '{s.key.stem}' ({s.key.location.name}) at {s.path}\n" ++
      s!"  Updated: {s.updated}\n" ++ referenceLines references ++ "\n" ++
      contentLines content
  | listed location diagrams =>
    s!"Diagrams in {location.name} ({diagrams.length}):\n" ++
      String.join (diagrams.map fun s => s!"  - {s.key.stem} ({s.path})\n")
  | deleted s => s!"Deleted diagram '{s.key.stem}' (removed: {s.path})\n"
  | promoted s found => aboutDiagram "Promoted" "to" s found

/-! ## JSON -/

/-- A summary as a JSON value; a diagram without a version has no such field. -/
def summaryValue (s : Summary) : Json.Value :=
  .record ([("name", .text s.key.name)] ++
    (if s.key.version = "" then [] else [("version", .text s.key.version)]) ++
    [("location", Json.Form.toValue s.key.location), ("path", .text s.path),
      ("updated_at", .text s.updated)])

/-- The fields of a report about a diagram and what was found in it. -/
def summaryFields (s : Summary) (found : Findings) : List (String × Json.Value) :=
  [("summary", summaryValue s), ("result", Json.Form.toValue found)]

/-- The name of a kind of report, and its fields. -/
def fields : Report → String × List (String × Json.Value)
  | validated file name version strictness found =>
    ("validation", [("file", .text file), ("name", .text name), ("version", .text version),
      ("strictness", Json.Form.toValue strictness), ("valid", .bool found.isValid),
      ("result", Json.Form.toValue found)])
  | created s found => ("created", summaryFields s found)
  | updated s found => ("updated", summaryFields s found)
  | shown s references content =>
    ("shown", [("summary", summaryValue s), ("references", Json.Form.toValue references),
      ("content", .text content)])
  | listed location diagrams =>
    ("listed", [("location", Json.Form.toValue location),
      ("diagrams", .array (diagrams.map summaryValue))])
  | deleted s => ("deleted", [("summary", summaryValue s)])
  | promoted s found => ("promoted", summaryFields s found)

/-- The report as one line of JSON, with the fields in the order of their names. -/
def json (r : Report) : String :=
  let (name, fields) := r.fields
  (Json.Value.record (("type", .text name) :: fields)).sorted.write ++ "\n"

/-- The command found nothing to object to: only validating a file can object. -/
def isGood : Report → Bool
  | validated _ _ _ _ found => found.isValid
  | _ => true

end Report

end DiagramRegistry.CommandLine
