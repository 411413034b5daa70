import DiagramRegistry.Json.Records
import DiagramRegistry.Proofs.Json.Reading

/-
# JSON forms lose nothing

Every value that is exchanged as JSON is read back from the text it is written as.  The only
values that are not are those with a position that does not fit into 64 bits, and no such value
is ever read.  Hence reading a text, however it spells the value, writing the value and reading
again gives the value first read.

* `parse?_write` : a value is read back from its text.
* `parse?_write_of_parse?` : what was read from some text is read back from its own text.
* `forms_lose_nothing` : both for references, keys, requests and findings.
-/
namespace DiagramRegistry.Json

/-- A type with a JSON form that loses nothing: its values are written in full, those that fit
into JSON are read back, and only such values are read. -/
class LawfulForm (α : Type) [Form α] where
  /-- The value fits into JSON as it is read. -/
  Fits : α → Prop
  /-- Values are written in full. -/
  whole (a : α) : (Form.toValue a).IsWhole
  /-- A value that fits is read back. -/
  ofValue?_toValue {a : α} (h : Fits a) : Form.ofValue? (Form.toValue a) = some a
  /-- What is read fits. -/
  fits {v : Value} {a : α} (h : Form.ofValue? v = some a) : Fits a

section General

variable {α : Type} [Form α] [LawfulForm α] {a : α}

/-- A value is read back from the text that it is written as. -/
theorem parse?_write (h : LawfulForm.Fits a) : parse? (write a) = some a := by
  rw [parse?, write, Value.parse?_write (LawfulForm.whole a)]
  exact LawfulForm.ofValue?_toValue h

/-- A value that was read from some text is read back from the text it is written as. -/
theorem parse?_write_of_parse? {document : String} (h : parse? document = some a) :
    parse? (write a) = some a := by
  obtain ⟨v, -, hv⟩ := Option.bind_eq_some_iff.1 h
  exact parse?_write (LawfulForm.fits hv)

end General

/-! ## Texts, numbers and sequences -/

instance : LawfulForm String where
  Fits _ := True
  whole s := .text s
  ofValue?_toValue _ := rfl
  fits _ := trivial

instance : LawfulForm Nat where
  Fits n := n < UInt64.size
  whole n := .nat n
  ofValue?_toValue h := if_pos h
  fits {v n} h := by
    change v.natural? = some n at h
    unfold Value.natural? at h
    split at h
    · split at h
      · simp_all
      · exact nomatch h
    · exact nomatch h

section Sequences

variable {α : Type} [Form α] [LawfulForm α]

lemma mapM_ofValue?_map {as : List α} (h : ∀ a ∈ as, LawfulForm.Fits a) :
    (as.map Form.toValue).mapM Form.ofValue? = some as := by
  induction as with
  | nil => rfl
  | cons a as ih =>
    rw [List.forall_mem_cons] at h
    simp [List.mapM_cons, LawfulForm.ofValue?_toValue h.1, ih h.2]

lemma fits_of_mapM {vs : List Value} {as : List α} (h : vs.mapM Form.ofValue? = some as) :
    ∀ a ∈ as, LawfulForm.Fits a := by
  induction vs generalizing as with
  | nil =>
    obtain rfl : as = [] := by simpa using h.symm
    simp
  | cons v vs ih =>
    simp only [List.mapM_cons, Option.bind_eq_bind, Option.bind_eq_some_iff, pure,
      Option.some.injEq] at h
    obtain ⟨a, ha, as, has, rfl⟩ := h
    exact List.forall_mem_cons.2 ⟨LawfulForm.fits ha, ih has⟩

instance : LawfulForm (List α) where
  Fits as := ∀ a ∈ as, LawfulForm.Fits a
  whole as := .array (List.forall_mem_map.2 fun a _ => LawfulForm.whole a)
  ofValue?_toValue h := mapM_ofValue?_map h
  fits h := by
    obtain ⟨items, -, hitems⟩ := Option.bind_eq_some_iff.1 h
    exact fits_of_mapM hitems

end Sequences

/-! ## Choices -/

instance : LawfulForm DiagramType where
  Fits _ := True
  whole t := .text t.name
  ofValue?_toValue {t} _ := by cases t; rfl
  fits _ := trivial

instance : LawfulForm Location where
  Fits _ := True
  whole l := .text l.name
  ofValue?_toValue {l} _ := by cases l <;> decide
  fits _ := trivial

instance : LawfulForm Code where
  Fits _ := True
  whole c := .text c.name
  ofValue?_toValue {c} _ := by cases c <;> decide
  fits _ := trivial

instance : LawfulForm ReferenceKind where
  Fits _ := True
  whole
    | .product => .text _
    | .nested => .text _
    | .unknown label => .record (by simpa using .text label)
  ofValue?_toValue {kind} _ := by cases kind <;> rfl
  fits _ := trivial

/-! ## Records -/

section Fields

variable {fields : List (String × Value)}

/-- The fields of a record have different names, so a name is that of one field at most. -/
lemma fieldValue?_record (hnames : (fields.map Prod.fst).Nodup) (name : String) :
    fieldValue? (fields.map fun f => (some f.1, f.2)) name = some (fields.lookup name) := by
  induction fields with
  | nil => rfl
  | cons f fs ih =>
    obtain ⟨x, v⟩ := f
    obtain ⟨hx, hfs⟩ := List.nodup_cons.1 hnames
    by_cases hname : name = x
    · subst hname
      have hnone : (fs.map fun f => (some f.1, f.2)).filter (fun f => f.1 = some name) = [] := by
        simp only [List.filter_eq_nil_iff, List.forall_mem_map, decide_eq_true_eq,
          Option.some.injEq]
        exact fun f hf hfx => hx (List.mem_map.2 ⟨f, hf, hfx⟩)
      simp [fieldValue?, hnone]
    · have hother : (name == x) = false := by simpa using hname
      simpa [fieldValue?, List.lookup_cons, Ne.symm hname, hother] using ih hfs

/-- The known fields of a record, each as it is given. -/
lemma fields?_record (hnames : (fields.map Prod.fst).Nodup) (names : List String) :
    (Value.record fields).fields? names = some (names.map fun name => fields.lookup name) := by
  have htexts : ((fields.map fun f => ((some f.1 : Content), f.2)).all fun f => f.1.isSome) := by
    simp
  have hvalues : names.mapM (fieldValue? (fields.map fun f => (some f.1, f.2))) =
      some (names.map fun name => fields.lookup name) := by
    induction names with
    | nil => rfl
    | cons name names ih => simp [List.mapM_cons, fieldValue?_record hnames, ih]
  simp only [Value.record, Value.fields?, htexts, if_true, hvalues]

/-- A record is read through its known fields. -/
lemma fields?_record_bind {α : Type} (hnames : (fields.map Prod.fst).Nodup) (names : List String)
    (ofFields? : List (Option Value) → Option α) :
    ((Value.record fields).fields? names).bind ofFields? =
      ofFields? (names.map fun name => fields.lookup name) := by
  rw [fields?_record hnames, Option.bind_some]

end Fields

section Required

variable {α : Type} [Form α] [LawfulForm α] {a : α}

lemma required?_toValue (h : LawfulForm.Fits a) : required? (some (Form.toValue a)) = some a :=
  LawfulForm.ofValue?_toValue h

@[simp] lemma required?_text (s : String) : required? (some (.text s)) = some s := rfl

lemma required?_nat {n : Nat} (h : n < UInt64.size) : required? (some (.nat n)) = some n :=
  required?_toValue h

lemma orDefault?_toValue (default : α) (h : LawfulForm.Fits a) :
    orDefault? default (some (Form.toValue a)) = some a :=
  LawfulForm.ofValue?_toValue h

@[simp] lemma orDefault?_text (default s : String) :
    orDefault? default (some (.text s)) = some s := rfl

/-- A field that has to be given is read as a value that fits. -/
lemma fits_of_required? {v : Option Value} (h : required? v = some a) : LawfulForm.Fits a := by
  obtain ⟨v, -, hv⟩ := Option.bind_eq_some_iff.1 h
  exact LawfulForm.fits hv

end Required

instance : LawfulForm Key where
  Fits _ := True
  whole k := by
    refine .record ?_
    simp only [List.forall_mem_cons, List.not_mem_nil, false_implies, implies_true, and_true]
    exact ⟨LawfulForm.whole k.type, .text k.name, .text k.version, LawfulForm.whole k.location⟩
  ofValue?_toValue {k} _ := by
    refine (fields?_record_bind (by simp) keyFields keyOf?).trans ?_
    simp [keyFields, List.lookup_cons, keyOf?, required?_toValue (a := k.type) trivial,
      required?_toValue (a := k.location) trivial]
  fits _ := trivial

instance : LawfulForm Lifecycle.Request where
  Fits _ := True
  whole r := by
    refine .record ?_
    simp only [List.forall_mem_cons, List.not_mem_nil, false_implies, implies_true, and_true]
    exact ⟨LawfulForm.whole r.key.type, .text r.name, .text r.version,
      LawfulForm.whole r.location, .text r.content⟩
  ofValue?_toValue {r} _ := by
    refine (fields?_record_bind (by simp) requestFields requestOf?).trans ?_
    simp [requestFields, List.lookup_cons, requestOf?, orDefault?_toValue (a := r.key.type) _ trivial,
      orDefault?_toValue (a := r.location) _ trivial]
  fits _ := trivial

instance : LawfulForm Reference where
  Fits r := r.line < UInt64.size
  whole r := by
    refine .record ?_
    simp only [List.forall_mem_cons, List.not_mem_nil, false_implies, implies_true, and_true]
    exact ⟨.text r.name, .text r.version, LawfulForm.whole r.kind, .text r.path, .nat r.line⟩
  ofValue?_toValue {r} h := by
    refine (fields?_record_bind (by simp) referenceFields referenceOf?).trans ?_
    simp [referenceFields, List.lookup_cons, referenceOf?, required?_toValue (a := r.kind) trivial,
      required?_nat h]
  fits {v r} h := by
    obtain ⟨fields, -, hfields⟩ := Option.bind_eq_some_iff.1 h
    unfold referenceOf? at hfields
    split at hfields
    · simp only [Option.bind_eq_bind, Option.bind_eq_some_iff, pure, Option.some.injEq] at hfields
      obtain ⟨name, -, version, -, kind, -, path, -, line, hline, rfl⟩ := hfields
      exact fits_of_required? hline
    · exact nomatch hfields

/-- The context of a finding is read back, and none when there is no field for it. -/
lemma contextOf?_lookup (context : Option String) :
    contextOf? ((context.map fun c => ("context", Value.text c)).toList.lookup "context") =
      some context := by
  cases context <;> rfl

instance : LawfulForm Finding where
  Fits f := f.line < UInt64.size ∧ f.column < UInt64.size
  whole f := by
    refine .record ?_
    rw [List.forall_mem_append]
    constructor
    · simp only [List.forall_mem_cons, List.not_mem_nil, false_implies, implies_true, and_true]
      exact ⟨LawfulForm.whole f.code, .text f.message, .nat f.line, .nat f.column⟩
    · cases f.context with
      | none => simp
      | some context => simpa using .text context
  ofValue?_toValue {f} h := by
    have hnames : (([("code", Form.toValue f.code), ("message", .text f.message),
        ("line", .nat f.line), ("column", .nat f.column)] ++
        (f.context.map fun c => ("context", Value.text c)).toList).map Prod.fst).Nodup := by
      cases f.context <;> simp
    refine (fields?_record_bind hnames findingFields findingOf?).trans ?_
    simp [findingFields, List.lookup_cons, findingOf?, required?_toValue (a := f.code) trivial,
      required?_nat h.1, required?_nat h.2, contextOf?_lookup]
  fits {v f} h := by
    obtain ⟨fields, -, hfields⟩ := Option.bind_eq_some_iff.1 h
    unfold findingOf? at hfields
    split at hfields
    · simp only [Option.bind_eq_bind, Option.bind_eq_some_iff, pure, Option.some.injEq] at hfields
      obtain ⟨code, -, message, -, line, hline, column, hcolumn, context, -, rfl⟩ := hfields
      exact ⟨fits_of_required? hline, fits_of_required? hcolumn⟩
    · exact nomatch hfields

instance : LawfulForm Findings where
  Fits fs := LawfulForm.Fits fs.errors ∧ LawfulForm.Fits fs.warnings
  whole fs := by
    refine .record ?_
    simp only [List.forall_mem_cons, List.not_mem_nil, false_implies, implies_true, and_true]
    exact ⟨LawfulForm.whole fs.errors, LawfulForm.whole fs.warnings⟩
  ofValue?_toValue {fs} h := by
    refine (fields?_record_bind (by simp) ["errors", "warnings"] findingsOf?).trans ?_
    simp [List.lookup_cons, findingsOf?, required?_toValue h.1, required?_toValue h.2]
  fits {v fs} h := by
    obtain ⟨fields, -, hfields⟩ := Option.bind_eq_some_iff.1 h
    unfold findingsOf? at hfields
    split at hfields
    · simp only [Option.bind_eq_bind, Option.bind_eq_some_iff, pure, Option.some.injEq] at hfields
      obtain ⟨errors, herrors, warnings, hwarnings, rfl⟩ := hfields
      exact ⟨fits_of_required? herrors, fits_of_required? hwarnings⟩
    · exact nomatch hfields

/-- A finding is written with a field for its context just when it has one. -/
lemma parse?_write_finding (f : Finding) :
    ∃ fields, Value.parse? (write f) = some (.object fields) ∧
      (some "context" ∈ fields.map Prod.fst ↔ f.context ≠ none) := by
  refine ⟨_, Value.parse?_write (LawfulForm.whole f), ?_⟩
  cases f.context <;> simp

/-- JSON forms lose nothing.  A reference, a key, a request and the findings of a validation
are each read back from the text they are written as, as long as their positions are numbers of
64 bits; a finding without a context is written without a field for it; and whatever is read
from some text is read back from the text it is then written as. -/
theorem forms_lose_nothing :
    (∀ r : Reference, r.line < UInt64.size → parse? (write r) = some r) ∧
    (∀ k : Key, parse? (write k) = some k) ∧
    (∀ r : Lifecycle.Request, parse? (write r) = some r) ∧
    (∀ fs : Findings,
      (∀ f ∈ fs.errors ++ fs.warnings, f.line < UInt64.size ∧ f.column < UInt64.size) →
        parse? (write fs) = some fs) ∧
    (∀ f : Finding,
      (f.line < UInt64.size → f.column < UInt64.size → parse? (write f) = some f) ∧
      ∃ fields, Value.parse? (write f) = some (.object fields) ∧
        (some "context" ∈ fields.map Prod.fst ↔ f.context ≠ none)) ∧
    ∀ document : String,
      (∀ r : Reference, parse? document = some r → parse? (write r) = some r) ∧
      (∀ k : Key, parse? document = some k → parse? (write k) = some k) ∧
      (∀ r : Lifecycle.Request, parse? document = some r → parse? (write r) = some r) ∧
      (∀ fs : Findings, parse? document = some fs → parse? (write fs) = some fs) := by
  refine ⟨?_, ?_, ?_, ?_, ?_, ?_⟩
  · exact fun r h => parse?_write h
  · exact fun k => parse?_write trivial
  · exact fun r => parse?_write trivial
  · intro fs h
    rw [List.forall_mem_append] at h
    exact parse?_write h
  · intro f
    refine ⟨fun hline hcolumn => ?_, parse?_write_finding f⟩
    have hfits : LawfulForm.Fits f := ⟨hline, hcolumn⟩
    exact parse?_write hfits
  · intro document
    refine ⟨?_, ?_, ?_, ?_⟩
    all_goals exact fun _ h => parse?_write_of_parse? h

/-- A message full of characters that have to be escaped, an empty context, and the greatest
position there is. -/
theorem findings_read_back_with_empty_context :
    let fs : Findings := ⟨[⟨.noStates, "\"\\\n\x01é", UInt64.size - 1, 1, some ""⟩],
      [⟨.selfReference, "", 1, 0, none⟩]⟩
    (∀ f ∈ fs.errors ++ fs.warnings, f.line < UInt64.size ∧ f.column < UInt64.size) ∧
      parse? (write fs) = some fs := by
  intro fs
  have hfits : ∀ f ∈ fs.errors ++ fs.warnings, f.line < UInt64.size ∧ f.column < UInt64.size := by
    decide
  exact ⟨hfits, forms_lose_nothing.2.2.2.1 fs hfits⟩

end DiagramRegistry.Json
