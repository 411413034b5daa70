import DiagramRegistry.Json.Reader
import DiagramRegistry.Json.Writer

/-
# JSON forms

A type has a JSON form when its values are written as JSON values and read back from them.
A record is written as an object; it is read from an object, whose unknown fields do not
matter and whose known ones occur at most once, or from an array of its fields in order.  A
variant of a choice is written as its name, with its content, if any, as the only field of
an object.
-/
namespace DiagramRegistry.Json

/-- Types whose values are written and read as JSON. -/
class Form (α : Type) where
  /-- The JSON value that stands for a value. -/
  toValue : α → Value
  /-- The value that a JSON value stands for. -/
  ofValue? : Value → Option α

/-- The JSON text of a value. -/
def write {α : Type} [Form α] (a : α) : String := (Form.toValue a).write

/-- Read the JSON text of a value. -/
def parse? {α : Type} [Form α] (document : String) : Option α :=
  (Value.parse? document).bind Form.ofValue?

/-! ## Texts, numbers and sequences -/

/-- A text. -/
def Value.text? : Value → Option String
  | .string s => s
  | _ => none

/-- A natural number of 64 bits. -/
def Value.natural? : Value → Option Nat
  | .number (some n) => if n < UInt64.size then some n else none
  | _ => none

/-- A sequence. -/
def Value.items? : Value → Option (List Value)
  | .array items => some items
  | _ => none

instance : Form String := ⟨Value.text, Value.text?⟩

instance {α : Type} [Form α] : Form (List α) where
  toValue as := .array (as.map Form.toValue)
  ofValue? v := v.items?.bind fun items => items.mapM Form.ofValue?

/-- A value that may be missing is written as null; null stands for none. -/
def Value.optional? {α : Type} [Form α] : Value → Option (Option α)
  | .null => some none
  | v => (Form.ofValue? v).map some

/-! ## Choices -/

/-- The name of a variant, and its content when it is given as an object. -/
def Value.variant? : Value → Option (String × Option Value)
  | .string (some name) => some (name, none)
  | .object [(some name, content)] => some (name, some content)
  | _ => none

/-- The name of a variant without content, where null counts as none. -/
def Value.plainVariant? (v : Value) : Option String :=
  match v.variant? with
  | some (name, none) => some name
  | some (name, some .null) => some name
  | _ => none

/-! ## Records -/

/-- The value of a known field of an object, which must not occur twice. -/
def fieldValue? (fields : List (Content × Value)) (name : String) : Option (Option Value) :=
  match fields.filter fun f => f.1 = some name with
  | [] => some none
  | [(_, v)] => some (some v)
  | _ => none

/-- The values of the fields of a record, as far as they are given. -/
def Value.fields? (names : List String) : Value → Option (List (Option Value))
  | .object fields =>
    if fields.all fun f => f.1.isSome then names.mapM (fieldValue? fields) else none
  | .array items =>
    if items.length ≤ names.length then
      some (items.map some ++ List.replicate (names.length - items.length) none)
    else none
  | _ => none

/-- The value of a field that has to be given. -/
def required? {α : Type} [Form α] (v : Option Value) : Option α := v.bind Form.ofValue?

/-- The value of a field that may be left out. -/
def orDefault? {α : Type} [Form α] (default : α) : Option Value → Option α
  | none => some default
  | some v => Form.ofValue? v

end DiagramRegistry.Json
