import DiagramRegistry.Json.Form
import DiagramRegistry.Proofs.Json.Tokens

/-
# Reading a written value

The reader takes the tokens of a value in and has then completed that value, whatever arrays
and objects are open around it.  A JSON document that a value was written as is therefore read
as that value.

* `Value.IsWhole.completes` : the tokens of a value complete it.
* `Value.parse?_write` : a document is read as the value it was written from.
-/
namespace DiagramRegistry.Json

section Run

variable {r r' : Reading} {t : Token} {ts : List Token}

lemma run_cons (h : r.step t = some r') : r.run (t :: ts) = r'.run ts := by
  simp [Reading.run, List.foldlM_cons, h]

/-- The tokens of the value complete it, whatever is open around it. -/
def Value.Completes (v : Value) : Prop :=
  ∀ (frames : List Frame) (ts : List Token),
    Reading.run (frames, .value) (v.tokens ++ ts) = (complete v frames).run ts

/-- Behind the bracket that opens an array, a value is its first item. -/
lemma run_firstItem (v : Value) (vs : List Value) (frames : List Frame) (ts : List Token) :
    Reading.run (frames, .firstItem) (itemsTokens (v :: vs) ++ ts) =
      Reading.run (.array [] :: frames, .value) (itemsTokens (v :: vs) ++ ts) := by
  cases vs <;> cases v <;> rfl

/-- The items of an array and the bracket behind them complete the array. -/
lemma run_items {v : Value} {vs : List Value} (hv : ∀ x ∈ v :: vs, x.Completes)
    (done : List Value) (frames : List Frame) (ts : List Token) :
    Reading.run (.array done :: frames, .value) (itemsTokens (v :: vs) ++ .closeArray :: ts) =
      (complete (.array (done.reverse ++ v :: vs)) frames).run ts := by
  induction vs generalizing v done with
  | nil =>
    rw [itemsTokens, hv v (by simp), complete, run_cons rfl]
    simp
  | cons w ws ih =>
    simp only [itemsTokens, List.cons_append, List.append_assoc]
    rw [hv v (by simp), complete, run_cons rfl, ih fun x hx => hv x (List.mem_cons_of_mem v hx)]
    simp

/-- Behind the name of a field, its value completes the field. -/
lemma run_field {v : Value} (hv : v.Completes) (name : Content) (done : List (Content × Value))
    (frames : List Frame) (ts : List Token) :
    Reading.run (frames, .name done) (.string name :: .colon :: (v.tokens ++ ts)) =
      Reading.run (frames, .afterField ((name, v) :: done)) ts := by
  rw [run_cons rfl, run_cons rfl, hv, complete]

/-- The fields of an object and the brace behind them complete the object. -/
lemma run_fields {f : Content × Value} {fs : List (Content × Value)}
    (hf : ∀ g ∈ f :: fs, g.2.Completes) (done : List (Content × Value)) (frames : List Frame)
    (ts : List Token) :
    Reading.run (frames, .name done) (fieldsTokens (f :: fs) ++ .closeObject :: ts) =
      (complete (.object (done.reverse ++ f :: fs)) frames).run ts := by
  induction fs generalizing f done with
  | nil =>
    rw [fieldsTokens, List.cons_append, List.cons_append, run_field (hf f (by simp)),
      run_cons rfl]
    simp
  | cons g gs ih =>
    simp only [fieldsTokens, List.cons_append, List.append_assoc]
    rw [run_field (hf f (by simp)), run_cons rfl, ih fun x hx => hf x (List.mem_cons_of_mem f hx)]
    simp

/-- Behind the brace that opens an object, the name of a field is that of its first one. -/
lemma run_firstName (f : Content × Value) (fs : List (Content × Value)) (frames : List Frame)
    (ts : List Token) :
    Reading.run (frames, .firstName) (fieldsTokens (f :: fs) ++ ts) =
      Reading.run (frames, .name []) (fieldsTokens (f :: fs) ++ ts) := by
  cases fs <;> rfl

end Run

/-- The tokens of a whole value complete it. -/
lemma Value.IsWhole.completes {v : Value} (h : v.IsWhole) : v.Completes := by
  induction h with
  | null => exact fun frames ts => rfl
  | bool b => exact fun frames ts => rfl
  | nat n => exact fun frames ts => rfl
  | text s => exact fun frames ts => rfl
  | @array items _ ih =>
    intro frames ts
    cases items with
    | nil => rfl
    | cons v vs =>
      have htokens : (Value.array (v :: vs)).tokens ++ ts =
          .openArray :: (itemsTokens (v :: vs) ++ .closeArray :: ts) := by simp [Value.tokens]
      rw [htokens, run_cons rfl, run_firstItem, run_items ih]
      rfl
  | @record fields _ ih =>
    intro frames ts
    cases fields with
    | nil => rfl
    | cons f fs =>
      have htokens : (Value.record (f :: fs)).tokens ++ ts = .openObject ::
          (fieldsTokens ((some f.1, f.2) :: fs.map fun g => (some g.1, g.2)) ++
            .closeObject :: ts) := by
        simp [Value.record, Value.tokens]
      have hfields : ∀ g ∈ (some f.1, f.2) :: fs.map fun g => (some g.1, g.2),
          g.2.Completes := by
        rw [List.forall_mem_cons, List.forall_mem_map]
        exact List.forall_mem_cons.1 ih
      rw [htokens, run_cons rfl, run_firstName, run_fields hfields]
      rfl

/-- A document is read as the value it was written from. -/
theorem Value.parse?_write {v : Value} (h : v.IsWhole) : Value.parse? v.write = some v := by
  have hrun := h.completes [] []
  rw [List.append_nil] at hrun
  have hcomplete : (tokens? v.chars).bind (Reading.run ([], .value)) = some ([], .nothing v) := by
    rw [tokens?_chars h, Option.bind_some, hrun]
    rfl
  simp only [Value.parse?, Value.write, String.toList_ofList, Value.ofChars?, hcomplete]

end DiagramRegistry.Json
