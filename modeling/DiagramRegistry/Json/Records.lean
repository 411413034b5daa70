import DiagramRegistry.Finding.Strictness
import DiagramRegistry.Json.Form
import DiagramRegistry.Lifecycle
import DiagramRegistry.Time.Written

/-
# The JSON forms of diagrams and findings

The records that other tools exchange with the registry, field by field in their order.
-/
namespace DiagramRegistry.Json

open Value

instance : Form DiagramType where
  toValue t := .text t.name
  ofValue? v := v.plainVariant?.bind fun name =>
    if name = DiagramType.stateMachine.name then some .stateMachine else none

instance : Form Location where
  toValue l := .text l.name
  ofValue? v := v.plainVariant?.bind fun name => Location.all.find? fun l => l.name = name

instance : Form Strictness where
  toValue s := .text s.name
  ofValue? v := v.plainVariant?.bind fun name =>
    [Strictness.staging, .production].find? fun s => s.name = name

instance : Form Code where
  toValue c := .text c.name
  ofValue? v := v.plainVariant?.bind Code.ofName?

instance : Form ReferenceKind where
  toValue
    | .product => .text "product"
    | .nested => .text "nested"
    | .unknown label => .record [("unknown", .text label)]
  ofValue? v :=
    match v.variant? with
    | some ("product", none) => some .product
    | some ("product", some .null) => some .product
    | some ("nested", none) => some .nested
    | some ("nested", some .null) => some .nested
    | some ("unknown", some label) => label.text?.map .unknown
    | _ => none

instance : Form Instant where
  toValue t := .text t.write
  ofValue? v := v.text?.bind Instant.parse?

/-- Natural numbers of 64 bits have a JSON form; greater ones are not read back. -/
instance : Form Nat := ⟨Value.nat, Value.natural?⟩

/-! ## Keys and references -/

/-- The fields of a key. -/
def keyFields : List String := ["diagram_type", "name", "version", "location"]

/-- The key that fields make. -/
def keyOf? : List (Option Value) → Option Key
  | [type, name, version, location] => do
    let _ : DiagramType ← required? type
    return ⟨← required? name, ← required? version, ← required? location⟩
  | _ => none

instance : Form Key where
  toValue k := .record [("diagram_type", Form.toValue k.type), ("name", .text k.name),
    ("version", .text k.version), ("location", Form.toValue k.location)]
  ofValue? v := (v.fields? keyFields).bind keyOf?

/-- The fields of a reference. -/
def referenceFields : List String := ["name", "version", "kind", "path", "line"]

/-- The reference that fields make. -/
def referenceOf? : List (Option Value) → Option Reference
  | [name, version, kind, path, line] => do
    return ⟨← required? name, ← required? version, ← required? kind, ← required? path,
      ← required? line⟩
  | _ => none

instance : Form Reference where
  toValue r := .record [("name", .text r.name), ("version", .text r.version),
    ("kind", Form.toValue r.kind), ("path", .text r.path), ("line", .nat r.line)]
  ofValue? v := (v.fields? referenceFields).bind referenceOf?

/-! ## Findings -/

/-- The fields of a finding. -/
def findingFields : List String := ["code", "message", "line", "column", "context"]

/-- The context of a finding: a field left out and null both mean none. -/
def contextOf? : Option Value → Option (Option String)
  | none => some none
  | some v => v.optional?

/-- The finding that fields make. -/
def findingOf? : List (Option Value) → Option Finding
  | [code, message, line, column, context] => do
    return ⟨← required? code, ← required? message, ← required? line, ← required? column,
      ← contextOf? context⟩
  | _ => none

instance : Form Finding where
  toValue f := .record ([("code", Form.toValue f.code), ("message", .text f.message),
    ("line", .nat f.line), ("column", .nat f.column)] ++
    (f.context.map fun c => ("context", .text c)).toList)
  ofValue? v := (v.fields? findingFields).bind findingOf?

/-- The findings that fields make. -/
def findingsOf? : List (Option Value) → Option Findings
  | [errors, warnings] => do return ⟨← required? errors, ← required? warnings⟩
  | _ => none

instance : Form Findings where
  toValue fs := .record [("errors", Form.toValue fs.errors),
    ("warnings", Form.toValue fs.warnings)]
  ofValue? v := (v.fields? ["errors", "warnings"]).bind findingsOf?

/-! ## Diagrams and requests -/

/-- The fields of a diagram. -/
def diagramFields : List String := ["key", "content", "references", "created_at", "updated_at"]

/-- The diagram that fields make. -/
def diagramOf? : List (Option Value) → Option Diagram
  | [key, content, references, created, updated] => do
    return ⟨← required? key, ← required? content, ← orDefault? [] references,
      ← required? created, ← required? updated⟩
  | _ => none

instance : Form Diagram where
  toValue d := .record [("key", Form.toValue d.key), ("content", .text d.content),
    ("references", Form.toValue d.references), ("created_at", Form.toValue d.created),
    ("updated_at", Form.toValue d.updated)]
  ofValue? v := (v.fields? diagramFields).bind diagramOf?

/-- The fields of a request to create a diagram. -/
def requestFields : List String := ["diagram_type", "name", "version", "location", "content"]

/-- The request that fields make.  A draft without a version is asked for when nothing is
said about version and location. -/
def requestOf? : List (Option Value) → Option Lifecycle.Request
  | [type, name, version, location, content] => do
    let _ ← orDefault? DiagramType.stateMachine type
    return ⟨← required? name, ← orDefault? "" version, ← orDefault? .staging location,
      ← required? content⟩
  | _ => none

instance : Form Lifecycle.Request where
  toValue r := .record [("diagram_type", Form.toValue r.key.type), ("name", .text r.name),
    ("version", .text r.version), ("location", Form.toValue r.location),
    ("content", .text r.content)]
  ofValue? v := (v.fields? requestFields).bind requestOf?

end DiagramRegistry.Json
