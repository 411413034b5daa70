import DiagramRegistry.Validation
import Mathlib.Tactic.Common

/-
# Passes append to what was found before

No pass of a validation looks at earlier findings or changes them: run after something was
found, it gives that, followed by what it gives after nothing.  Each pass keeps its findings
in a state of its own, so the law is shown for one step of the pass first; the fold over the
lines or references and the closing step follow.

* `Envelope.check_append`, `Body.check_append`, `Reference.checkAll_append`,
  `resolve_append`: the law, pass by pass;
* `Body.step_withFound`, `Body.close_withFound`: the scan of a body does not look at its findings;
* `Validation.passes_eq`: a validation is the concatenation of its passes, of which only the
  resolution asks the repository;
* `validation_concatenates_passes`: what this means for a diagram that was validated before.
-/
namespace DiagramRegistry

namespace Findings

variable (a b : Findings) (f : Finding)

@[simp] lemma errors_append : (a ++ b).errors = a.errors ++ b.errors := rfl

@[simp] lemma warnings_append : (a ++ b).warnings = a.warnings ++ b.warnings := rfl

@[simp] lemma append_none : a ++ none = a := by
  change Findings.mk (a.errors ++ []) (a.warnings ++ []) = a
  rw [List.append_nil, List.append_nil]

@[simp] lemma none_append : none ++ a = a := rfl

lemma append_assoc (a b c : Findings) : a ++ b ++ c = a ++ (b ++ c) :=
  congrArg₂ Findings.mk (List.append_assoc _ _ _) (List.append_assoc _ _ _)

@[simp] lemma error_append : (a ++ b).error f = a ++ b.error f := by
  change Findings.mk (a.errors ++ b.errors ++ [f]) _ = Findings.mk (a.errors ++ (b.errors ++ [f])) _
  rw [List.append_assoc]
  rfl

@[simp] lemma warning_append : (a ++ b).warning f = a ++ b.warning f := by
  change Findings.mk _ (a.warnings ++ b.warnings ++ [f]) =
    Findings.mk _ (a.warnings ++ (b.warnings ++ [f]))
  rw [List.append_assoc]
  rfl

/-- Findings one behind the other. -/
def concat (parts : List Findings) : Findings := parts.foldr (· ++ ·) none

lemma concat_append (parts parts' : List Findings) :
    concat (parts ++ parts') = concat parts ++ concat parts' := by
  induction parts with
  | nil => rfl
  | cons part parts ih =>
    show part ++ concat (parts ++ parts') = part ++ concat parts ++ concat parts'
    rw [ih, append_assoc]

lemma concat_singleton : concat [a] = a := append_none a

end Findings

variable (before found : Findings)

/-! ## The envelope -/

namespace Envelope

/-- The same knowledge, with something found before. -/
def behind (e : Envelope) : Envelope := { e with found := before ++ e.found }

lemma step_behind (e : Envelope) (l : List Char × Nat) :
    (e.behind before).step l = (e.step l).behind before := by
  unfold step
  split
  · rfl
  · cases h : e.start? <;> simp [behind, h]
  · cases h : e.stop? <;> simp [behind, h]

lemma close_behind (e : Envelope) (lineCount : Nat) :
    (e.behind before).close lineCount = before ++ e.close lineCount := by
  obtain ⟨start?, stop?, found⟩ := e
  cases start? with
  | none => cases stop? <;> simp [close, behind]
  | some start =>
    cases stop? with
    | none => simp [close, behind]
    | some stop => by_cases h : stop ≤ start <;> simp [close, behind, h]

theorem check_append (content : String) :
    check content (before ++ found) = before ++ check content found := by
  have hfold : (Text.numberedLines content).foldl step (behind before ⟨none, none, found⟩) =
      ((Text.numberedLines content).foldl step ⟨none, none, found⟩).behind before :=
    List.foldl_hom (behind before) (step_behind before)
  change (List.foldl step (behind before ⟨none, none, found⟩) _).close _ = _
  rw [hfold, close_behind]
  rfl

end Envelope

/-! ## The body -/

namespace Body

/-- The same knowledge, with other findings. -/
def withFound (change : Findings → Findings) (b : Body) : Body := { b with found := change b.found }

/-- A change of the findings takes the warnings about a line to a line. -/
def Carries (change : Findings → Findings) (line line' : Nat) : Prop :=
  ∀ code ∈ [Code.invalidStateName, Code.unknownSyntax], ∀ found column message,
    (change found).warning (.atPosition code line' column message) =
      change (found.warning (.atPosition code line column message))

/-- A change of the findings leaves alone what is said about the body as a whole. -/
structure KeepsSummary (change : Findings → Findings) : Prop where
  /-- The warning about the initial transition. -/
  warning : ∀ found message, (change found).warning (.atPosition .noInitialState 1 1 message) =
    change (found.warning (.atPosition .noInitialState 1 1 message))
  /-- The error about the states. -/
  error : ∀ found message, (change found).error (.atPosition .noStates 1 1 message) =
    change (found.error (.atPosition .noStates 1 1 message))

section Change

variable {change : Findings → Findings} {line line' : Nat} {l : List Char × Nat}

lemma addState_withFound (change : Findings → Findings) (b : Body) (name : List Char) :
    (b.withFound change).addState name = (b.addState name).withFound change := by
  by_cases h : name ∈ b.states <;> simp [addState, withFound, h]

lemma declare_withFound (h : Carries change line line') (b : Body) (side : List Char)
    (column : Nat) : (b.withFound change).declare side line' column =
      (b.declare side line column).withFound change := by
  by_cases hpseudo : Statement.withoutLabel side = pseudoState.toList
  · simp only [declare, hpseudo, if_true]
  · simp only [declare, hpseudo, if_false]
    rw [← addState_withFound]
    congr 1
    split
    · rfl
    · simp only [withFound, h .invalidStateName (by simp)]

lemma take_withFound (h : Carries change line line') (b : Body) (trimmed : List Char)
    (column : Nat) : (b.withFound change).take trimmed line' column =
      (b.take trimmed line column).withFound change := by
  unfold take
  -- one case for each form of a statement
  split
  · rw [← declare_withFound h]
    rfl
  · rw [declare_withFound h]
  · rw [declare_withFound h, declare_withFound h]
  · rw [addState_withFound]
  · rfl
  · rfl
  · rfl
  · simp only [withFound, h .unknownSyntax (by simp)]

/-- A step does not look at the findings: it takes in a line with another number the same way. -/
lemma step_withFound (h : Carries change l.2 line') (b : Body) :
    (b.withFound change).step (l.1, line') = (b.step l).withFound change := by
  cases hmarker : Marker.ofTrimmed? (Text.trim l.1) with
  | some marker => cases marker <;> simp only [step, hmarker] <;> rfl
  | none =>
    simp only [step, hmarker]
    by_cases hpass : (!b.inside || isInert (Text.trim l.1)) = true
    · simp only [withFound, hpass, if_true]
    · by_cases hnote : b.inNote = true
      · by_cases hclose : Statement.closesNote (Text.trim l.1) = true <;>
          simp [withFound, hpass, hnote, hclose]
      · rw [if_neg hpass, if_neg hnote, ← take_withFound h]
        exact (if_neg hpass).trans (if_neg hnote)

lemma close_withFound (h : KeepsSummary change) (b : Body) :
    (b.withFound change).close = change b.close := by
  obtain ⟨sawStart, inside, inNote, sawInitial, states, found⟩ := b
  cases sawStart with
  | false => rfl
  | true =>
    cases sawInitial <;> cases hempty : states.isEmpty <;>
      simp [close, withFound, hempty, h.warning, h.error]

end Change

/-- The same knowledge, with something found before. -/
def behind (b : Body) : Body := { b with found := before ++ b.found }

lemma step_behind (b : Body) (l : List Char × Nat) :
    (b.behind before).step l = (b.step l).behind before :=
  step_withFound (fun _ _ _ _ _ => Findings.warning_append ..) b

lemma close_behind (b : Body) : (b.behind before).close = before ++ b.close :=
  close_withFound ⟨fun _ _ => Findings.warning_append .., fun _ _ => Findings.error_append ..⟩ b

theorem check_append (content : String) :
    check content (before ++ found) = before ++ check content found := by
  have hfold : (Text.numberedLines content).foldl step (behind before (begin found)) =
      ((Text.numberedLines content).foldl step (begin found)).behind before :=
    List.foldl_hom (behind before) (step_behind before)
  change (List.foldl step (behind before (begin found)) _).close = _
  rw [hfold, close_behind]
  rfl

end Body

/-! ## The references, one by one -/

namespace Reference

variable (r : Reference)

lemma checkPath_append (code : Code) :
    r.checkPath code (before ++ found) = before ++ r.checkPath code found := by
  unfold checkPath
  cases r.canonicalPath with
  | none => rfl
  | some expected => by_cases h : r.path = expected <;> simp [h]

lemma checkVersion_append :
    r.checkVersion (before ++ found) = before ++ r.checkVersion found := by
  unfold checkVersion
  split
  · rw [Findings.error_append]
  · split
    · rfl
    · rw [Findings.error_append]

lemma checkProduct_append (ownerName ownerVersion : String) :
    r.checkProduct ownerName ownerVersion (before ++ found) =
      before ++ r.checkProduct ownerName ownerVersion found := by
  simp only [checkProduct, checkVersion_append]
  rw [← checkPath_append]
  congr 1
  split
  · rw [Findings.error_append]
  · rfl

lemma checkNested_append (ownerName : String) :
    r.checkNested ownerName (before ++ found) = before ++ r.checkNested ownerName found := by
  simp only [checkNested]
  rw [← checkPath_append]
  congr 1
  split <;> split <;> simp only [Findings.error_append, Findings.warning_append]

lemma check_append (ownerName ownerVersion : String) :
    r.check ownerName ownerVersion (before ++ found) =
      before ++ r.check ownerName ownerVersion found := by
  unfold check
  split
  · rw [Findings.error_append]
  · split
    · rw [checkProduct_append]
    · rw [checkNested_append]
    · rw [Findings.error_append]

theorem checkAll_append (owner : Key) (rs : List Reference) :
    checkAll owner rs (before ++ found) = before ++ checkAll owner rs found :=
  List.foldl_hom (before ++ ·) fun found r => r.check_append before found owner.name owner.version

lemma checkAll_cons (owner : Key) (r : Reference) (rs : List Reference) :
    checkAll owner (r :: rs) .none =
      r.check owner.name owner.version .none ++ checkAll owner rs .none := by
  rw [← checkAll_append, Findings.append_none]
  rfl

lemma checkAll_eq_concat (owner : Key) (rs : List Reference) :
    checkAll owner rs .none =
      .concat (rs.map fun r => r.check owner.name owner.version .none) := by
  induction rs with
  | nil => rfl
  | cons r rs ih =>
    rw [checkAll_cons, ih]
    rfl

end Reference

/-! ## The resolution -/

namespace Resolution

/-- The same knowledge, with something found before. -/
def behind (r : Resolution) : Resolution := { r with found := before ++ r.found }

lemma report_behind (root : Key) (line : Nat) (r : Resolution) (chain : List Key) :
    report root line (r.behind before) chain = (report root line r chain).behind before := by
  simp only [report]
  split
  · rename_i h
    rw [if_pos (by exact h)]
  · rename_i h
    rw [if_neg (by exact h)]
    simp [behind]

lemma step_behind (c : Catalogue) (root : Key) (r : Resolution) (reference : Reference) :
    step c root (r.behind before) reference = (step c root r reference).behind before := by
  cases ht : reference.target with
  | none => simp only [step, ht]
  | some target =>
    cases hc : c.contains target with
    | error failure => simp [step, ht, hc, behind]
    | ok present =>
      cases present with
      | false => simp [step, ht, hc, behind]
      | true =>
        cases hr : c.read target with
        | error failure => simp [step, ht, hc, hr, behind]
        | ok content =>
          simp only [step, ht, hc, hr]
          exact List.foldl_hom (behind before) (report_behind before root _)

end Resolution

theorem resolve_append (catalogue : Option Catalogue) (root : Key) (rs : List Reference) :
    resolve catalogue root rs (before ++ found) = before ++ resolve catalogue root rs found := by
  cases catalogue with
  | none => exact Findings.warning_append before found _
  | some c =>
    have hfold : rs.foldl (Resolution.step c root) (Resolution.behind before ⟨[], found⟩) =
        (rs.foldl (Resolution.step c root) ⟨[], found⟩).behind before :=
      List.foldl_hom (Resolution.behind before) (Resolution.step_behind before c root)
    exact congrArg Resolution.found hfold

/-! ## A whole validation -/

/-- The references of a document, of which there are none when it cannot be read. -/
def referencesOf (content : String) : List Reference := ((includes content).toOption).getD []

lemma targetsOf_eq (content : String) :
    targetsOf content = (referencesOf content).filterMap Reference.target := by
  unfold targetsOf referencesOf
  cases includes content <;> rfl

namespace Validation

/-- What is said about a document whose references cannot be read. -/
def unreadable (content : String) : Findings := (readReferences content .none).2

lemma readReferences_eq (content : String) :
    readReferences content found = (referencesOf content, found ++ unreadable content) := by
  unfold readReferences unreadable readReferences referencesOf
  cases includes content with
  | ok references => simp [Except.toOption]
  | error fault =>
    simp only [Except.toOption, Option.getD_none, Prod.mk.injEq, true_and]
    rw [← Findings.error_append, Findings.append_none]

/-- What a document says about itself: the findings that its name, its version and its content
decide, whatever is stored. -/
def own (name version content : String) : Findings :=
  Envelope.check content .none ++ Body.check content .none ++ unreadable content ++
    Reference.checkAll (.staging name version) (referencesOf content) .none

/-- The passes are concatenated: the findings of the document itself, then what the
repository has to say about its references. -/
theorem passes_eq (catalogue : Option Catalogue) (key : Key) (content : String) :
    passes catalogue key content =
      (referencesOf content,
        own key.name key.version content ++
          if (referencesOf content).isEmpty then .none
          else resolve catalogue key (referencesOf content) .none) := by
  have hbody : Body.check content (Envelope.check content .none) =
      Envelope.check content .none ++ Body.check content .none := by
    rw [← Body.check_append, Findings.append_none]
  simp only [passes, readReferences_eq, hbody]
  congr 1
  have hown : Reference.checkAll key (referencesOf content)
      (Envelope.check content .none ++ Body.check content .none ++ unreadable content) =
        own key.name key.version content := by
    rw [← Findings.append_none (_ ++ unreadable content), Reference.checkAll_append]
    rfl
  rw [hown]
  split
  · rw [Findings.append_none]
  · rw [← resolve_append, Findings.append_none]

/-- What is found when a document is validated, pass by pass, and reference by reference where the
references are checked.  A document without references is not resolved. -/
def parts (catalogue : Option Catalogue) (key : Key) (content : String) : List Findings :=
  [Envelope.check content .none, Body.check content .none, unreadable content] ++
    (referencesOf content).map (fun r => r.check key.name key.version .none) ++
    [if (referencesOf content).isEmpty then .none
      else resolve catalogue key (referencesOf content) .none]

lemma passes_eq_concat (catalogue : Option Catalogue) (key : Key) (content : String) :
    passes catalogue key content =
      (referencesOf content, .concat (parts catalogue key content)) := by
  have hchecks : Reference.checkAll (.staging key.name key.version) (referencesOf content) .none =
      .concat ((referencesOf content).map fun r => r.check key.name key.version .none) :=
    Reference.checkAll_eq_concat _ _
  have hdocument : Findings.concat
      [Envelope.check content .none, Body.check content .none, unreadable content] =
        Envelope.check content .none ++ Body.check content .none ++ unreadable content := by
    show _ ++ (_ ++ (unreadable content ++ Findings.none)) = _
    rw [Findings.append_none, Findings.append_assoc]
  rw [passes_eq, own, hchecks, parts, Findings.concat_append, Findings.concat_append,
    Findings.concat_singleton, hdocument]

/-- A validation looks at the key and the content of a diagram and replaces its references. -/
lemma run_eq (catalogue : Option Catalogue) (strictness : Strictness) (d : Diagram) :
    run catalogue strictness d =
      ({ d with references := referencesOf d.content },
        (Findings.concat (parts catalogue d.key d.content)).apply strictness) := by
  rw [run, passes_eq_concat]

/-- Either the references of a document are those that can be read and nothing is said about the
reading, or there are none and the line at fault is reported. -/
lemma reading_cases (content : String) :
    (∃ rs, includes content = .ok rs ∧ referencesOf content = rs ∧ unreadable content = .none) ∨
    ∃ fault, includes content = .error fault ∧ referencesOf content = [] ∧
      unreadable content =
        Findings.none.error (.atPosition .referenceParseError fault.line 1 fault.message) := by
  unfold unreadable readReferences referencesOf
  cases includes content with
  | ok rs => exact .inl ⟨rs, rfl, rfl, rfl⟩
  | error fault => exact .inr ⟨fault, rfl, rfl, rfl⟩

end Validation

open Validation in
/-- Each pass of a validation appends what it gives by itself to what was found before, whatever
that is, and so the findings of a diagram are those of all passes, one behind the other.  They
depend on the key, the content and the repository.  Neither the references nor the times that the
diagram carried before play a part in them or in its new references, of which there are none when
the document cannot be read.  So a diagram that was validated before, at either level, is found to
be the same. -/
theorem validation_concatenates_passes :
    (∀ content before, Envelope.check content before = before ++ Envelope.check content .none) ∧
    (∀ content before, Body.check content before = before ++ Body.check content .none) ∧
    (∀ owner rs before, Reference.checkAll owner rs before =
      before ++ Reference.checkAll owner rs .none) ∧
    (∀ catalogue root rs before, resolve catalogue root rs before =
      before ++ resolve catalogue root rs .none) ∧
    (∀ content,
      (∃ rs, includes content = .ok rs ∧ referencesOf content = rs ∧ unreadable content = .none) ∨
      ∃ fault, includes content = .error fault ∧ referencesOf content = [] ∧
        unreadable content =
          Findings.none.error (.atPosition .referenceParseError fault.line 1 fault.message)) ∧
    ∀ catalogue key content,
      (∀ references created updated,
        run catalogue .staging ⟨key, content, references, created, updated⟩ =
          (⟨key, content, referencesOf content, created, updated⟩,
            .concat (parts catalogue key content))) ∧
      ∀ strictness, ∃ found, ∀ references created updated,
        let d : Diagram := ⟨key, content, references, created, updated⟩
        run catalogue strictness d =
          (⟨key, content, referencesOf content, created, updated⟩, found) ∧
        ∀ earlier, run catalogue strictness (run catalogue earlier d).1 =
          run catalogue strictness d := by
  refine ⟨fun content before => ?_, fun content before => ?_, fun owner rs before => ?_,
    fun catalogue root rs before => ?_, reading_cases, fun catalogue key content => ⟨?_, ?_⟩⟩
  · rw [← Envelope.check_append, Findings.append_none]
  · rw [← Body.check_append, Findings.append_none]
  · rw [← Reference.checkAll_append, Findings.append_none]
  · rw [← resolve_append, Findings.append_none]
  · intro references created updated
    rw [run_eq]
    rfl
  · intro strictness
    refine ⟨(Findings.concat (parts catalogue key content)).apply strictness, ?_⟩
    intro references created updated
    refine ⟨run_eq _ _ _, fun earlier => ?_⟩
    rw [run_eq catalogue earlier, run_eq, run_eq]

end DiagramRegistry
