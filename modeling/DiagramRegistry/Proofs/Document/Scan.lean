import DiagramRegistry.Document.Body
import DiagramRegistry.Proofs.Document.Statement

/-
# One line of the scan

The scan of a body takes one line in after the other.  A line is a marker, or it is passed over, or
it belongs to a note, or the scan hears it as a statement; only what is heard can declare a state or
be found fault with.  This file says once what a line can do to the scan, and from it how each part
of what the scan knows comes about.

* `Body.stepsTo_step`: the five things that a line can do;
* `Body.StepsTo.inside_iff`, `Body.StepsTo.inNote_iff`, `Body.StepsTo.sawInitial_iff`,
  `Body.StepsTo.warningLines_eq`: the flags and the warnings after a line.
-/
namespace DiagramRegistry

open Text

namespace Marker

variable {text : List Char} {marker : Marker}

lemma ofTrimmed?_eq_some_iff :
    ofTrimmed? text = some marker ↔ StartsWith text marker.text.toList := by
  have hdisjoint : StartsWith text stop.text.toList → ¬ StartsWith text start.text.toList := by
    rintro (rfl | ⟨-, rfl⟩) (h | ⟨-, h⟩) <;> exact absurd h (by simp [Marker.text])
  unfold ofTrimmed?
  rw [← startsWithWord_iff] at hdisjoint ⊢
  rw [← startsWithWord_iff] at hdisjoint
  cases marker <;> split_ifs <;> simp_all

end Marker

/-- A text is a marker of the envelope. -/
def IsMarker (text : List Char) : Prop := ∃ marker : Marker, StartsWith text marker.text.toList

lemma ofTrimmed?_eq_none_iff {text : List Char} :
    Marker.ofTrimmed? text = none ↔ ¬ IsMarker text := by
  rw [Option.eq_none_iff_forall_ne_some]
  simp only [IsMarker, not_exists, ne_eq, Marker.ofTrimmed?_eq_some_iff]

/-- The markers begin with the same character. -/
lemma IsMarker.head?_eq {text : List Char} (h : IsMarker text) : text.head? = some '@' := by
  obtain ⟨marker, hstarts⟩ := h
  cases marker <;> exact hstarts.head?_eq (by simp [Marker.text])

/-- A text can count: it is no marker, not empty, and no comment. -/
structure CanCount (text : List Char) : Prop where
  /-- It is no marker. -/
  not_isMarker : ¬ IsMarker text
  /-- There is something on the line. -/
  ne_nil : text ≠ []
  /-- It is no comment, which begins with an apostrophe. -/
  not_comment : text.head? ≠ some '\u0027'

/-- The lines of the warnings with a code, in the order of the warnings. -/
def Findings.warningLines (code : Code) (found : Findings) : List Nat :=
  (found.warnings.filter fun f => f.code = code).map Finding.line

lemma Findings.warningLines_warning (code : Code) (found : Findings) (f : Finding) :
    (found.warning f).warningLines code =
      found.warningLines code ++ if f.code = code then [f.line] else [] := by
  unfold warningLines warning
  split_ifs with h <;> simp [h]

lemma Findings.hasWarning_iff_warningLines {code : Code} {found : Findings} :
    found.hasWarning code = true ↔ found.warningLines code ≠ [] := by
  simp [hasWarning, warningLines]

namespace Body

variable {b b' : Body} {l : List Char × Nat} {text : List Char} {code : Code}

lemma isInert_eq_false_iff (h : ¬ IsMarker text) : isInert text = false ↔ CanCount text := by
  cases text with
  | nil => exact iff_of_false (by simp [isInert]) fun hcounts => hcounts.ne_nil rfl
  | cons c cs =>
    simp only [isInert, beq_eq_false_iff_ne]
    constructor
    · exact fun hc => ⟨h, by simp, by simpa using hc⟩
    · exact fun hcounts hc => hcounts.not_comment (by rw [hc]; rfl)

/-- The scan hears the text as a statement. -/
structure Hears (b : Body) (text : List Char) : Prop where
  /-- The text can count. -/
  counts : CanCount text
  /-- The latest marker was a start marker. -/
  inside : b.inside = true
  /-- The text does not belong to a note. -/
  notInNote : b.inNote = false

/-- What a line can do to the scan. -/
inductive StepsTo (b : Body) (l : List Char × Nat) : Body → Prop where
  /-- A start marker opens the envelope. -/
  | start (h : StartsWith (trim l.1) Marker.start.text.toList) :
      StepsTo b l { b with sawStart := true, inside := true }
  /-- An end marker closes the envelope and any note. -/
  | stop (h : StartsWith (trim l.1) Marker.stop.text.toList) :
      StepsTo b l { b with inside := false, inNote := false }
  /-- A line outside the envelope, an empty line and a comment are passed over. -/
  | passed (hmarker : ¬ IsMarker (trim l.1)) (h : b.inside = false ∨ ¬ CanCount (trim l.1)) :
      StepsTo b l b
  /-- A line of a note may close it. -/
  | noted (hcounts : CanCount (trim l.1)) (hinside : b.inside = true) (hnote : b.inNote = true) :
      StepsTo b l { b with inNote := !Statement.closesNote (trim l.1) }
  /-- Any other line is heard. -/
  | heard (h : b.Hears (trim l.1)) : StepsTo b l (b.take (trim l.1) l.2 (indentation l.1 + 1))

/-- A line does one of these five things. -/
theorem stepsTo_step (b : Body) (l : List Char × Nat) : StepsTo b l (b.step l) := by
  cases hmarker : Marker.ofTrimmed? (trim l.1) with
  | some marker =>
    have hstarts := Marker.ofTrimmed?_eq_some_iff.1 hmarker
    cases marker with
    | start => simpa only [step, hmarker] using StepsTo.start hstarts
    | stop => simpa only [step, hmarker] using StepsTo.stop hstarts
  | none =>
    have hplain := ofTrimmed?_eq_none_iff.1 hmarker
    simp only [step, hmarker]
    by_cases hpassed : b.inside = false ∨ ¬ CanCount (trim l.1)
    · rw [if_pos]
      · exact .passed hplain hpassed
      · rcases hpassed with hinside | hcounts
        · rw [hinside]
          rfl
        · rw [← isInert_eq_false_iff hplain, Bool.not_eq_false] at hcounts
          rw [hcounts, Bool.or_true]
    · rw [not_or, Bool.not_eq_false, not_not] at hpassed
      obtain ⟨hinside, hcounts⟩ := hpassed
      rw [if_neg (by rw [hinside, (isInert_eq_false_iff hplain).2 hcounts]; decide)]
      by_cases hnote : b.inNote = true
      · have hnoted := StepsTo.noted hcounts hinside hnote
        rw [if_pos hnote]
        by_cases hcloses : Statement.closesNote (trim l.1) = true
        · rw [if_pos hcloses]
          simpa only [hcloses, Bool.not_true] using hnoted
        · rw [if_neg hcloses]
          rwa [Bool.eq_false_iff.2 hcloses, Bool.not_false, ← hnote] at hnoted
      · rw [if_neg hnote]
        exact .heard ⟨hcounts, hinside, Bool.eq_false_iff.2 hnote⟩

/-! ## What is heard -/

/-- Scans that may differ in their states and in the warnings about names of states only. -/
structure Agrees (b b' : Body) : Prop where
  /-- Both or neither have seen a start marker. -/
  sawStart : b'.sawStart = b.sawStart
  /-- Both or neither are inside the envelope. -/
  inside : b'.inside = b.inside
  /-- Both or neither are in a note. -/
  inNote : b'.inNote = b.inNote
  /-- Both or neither have seen a transition from the pseudo-state. -/
  sawInitial : b'.sawInitial = b.sawInitial
  /-- They have the same errors. -/
  errors : b'.found.errors = b.found.errors
  /-- They have warnings with any other code on the same lines. -/
  warnings : ∀ code, code ≠ .invalidStateName →
    b'.found.warningLines code = b.found.warningLines code

namespace Agrees

lemma refl (b : Body) : Agrees b b := ⟨rfl, rfl, rfl, rfl, rfl, fun _ _ => rfl⟩

lemma trans {b'' : Body} (h : Agrees b b') (h' : Agrees b' b'') : Agrees b b'' where
  sawStart := h'.sawStart.trans h.sawStart
  inside := h'.inside.trans h.inside
  inNote := h'.inNote.trans h.inNote
  sawInitial := h'.sawInitial.trans h.sawInitial
  errors := h'.errors.trans h.errors
  warnings code hcode := (h'.warnings code hcode).trans (h.warnings code hcode)

lemma addState (b : Body) (name : List Char) : Agrees b (b.addState name) := by
  unfold Body.addState
  split_ifs
  · exact refl b
  · exact ⟨rfl, rfl, rfl, rfl, rfl, fun _ _ => rfl⟩

lemma declare (b : Body) (side : List Char) (line column : Nat) :
    Agrees b (b.declare side line column) := by
  unfold Body.declare
  dsimp only
  split_ifs
  · exact refl b
  · exact addState b _
  · refine trans (?_ : Agrees b { b with found := b.found.warning _ }) (addState _ _)
    refine ⟨rfl, rfl, rfl, rfl, rfl, fun code hcode => ?_⟩
    have hother : ¬ Code.invalidStateName = code := Ne.symm hcode
    simp [Findings.warningLines_warning, Finding.atPosition, hother]

end Agrees

/-- What a heard text changes: a note is opened or not, a transition from the pseudo-state is seen
or not, and only a text that is unknown is warned about with another code than that for names. -/
structure Takes (b : Body) (text : List Char) (line : Nat) (b' : Body) : Prop where
  /-- The marker that was seen does not matter. -/
  sawStart : b'.sawStart = b.sawStart
  /-- The scan stays where it is. -/
  inside : b'.inside = b.inside
  /-- A note may be opened. -/
  inNote : b'.inNote = true ↔ b.inNote = true ∨ Statement.ofTrimmed text = .noteBlock
  /-- A transition from the pseudo-state may be seen. -/
  sawInitial : b'.sawInitial = true ↔
    b.sawInitial = true ∨ ∃ target, Statement.ofTrimmed text = .initial target
  /-- There is no new error. -/
  errors : b'.found.errors = b.found.errors
  /-- There may be a warning. -/
  warnings : ∀ code, code ≠ .invalidStateName →
    b'.found.warningLines code = b.found.warningLines code ++
      if code = .unknownSyntax ∧ Statement.ofTrimmed text = .unknown then [max line 1] else []

/-- A text that is no transition from the pseudo-state, opens no note and is known changes no more
than a declaration. -/
lemma Agrees.takes {line : Nat} (h : Agrees b b')
    (hinitial : ∀ target, Statement.ofTrimmed text ≠ .initial target)
    (hnote : Statement.ofTrimmed text ≠ .noteBlock)
    (hunknown : Statement.ofTrimmed text ≠ .unknown) : Takes b text line b' where
  sawStart := h.sawStart
  inside := h.inside
  inNote := by simp [h.inNote, hnote]
  sawInitial := by simp [h.sawInitial, hinitial]
  errors := h.errors
  warnings code hcode := by simp [h.warnings code hcode, hunknown]

lemma takes_take (b : Body) (text : List Char) (line column : Nat) :
    Takes b text line (b.take text line column) := by
  cases hform : Statement.ofTrimmed text with
  | initial target =>
    have h := Agrees.declare { b with sawInitial := true } target line column
    simp only [take, hform]
    exact ⟨h.sawStart, h.inside, by simp [h.inNote, hform], by simp [h.sawInitial, hform], h.errors,
      fun code hcode => by simp [h.warnings code hcode, hform]⟩
  | terminal source =>
    simp only [take, hform]
    exact (Agrees.declare b source line column).takes (by simp [hform]) (by simp [hform])
      (by simp [hform])
  | transition source target =>
    simp only [take, hform]
    exact ((Agrees.declare b source line column).trans (Agrees.declare _ target line column)).takes
      (by simp [hform]) (by simp [hform]) (by simp [hform])
  | state name =>
    simp only [take, hform]
    exact (Agrees.addState b name).takes (by simp [hform]) (by simp [hform]) (by simp [hform])
  | noteBlock =>
    simp only [take, hform]
    exact ⟨rfl, rfl, by simp [hform], by simp [hform], rfl, fun code _ => by simp [hform]⟩
  | directive =>
    simp only [take, hform]
    exact (Agrees.refl b).takes (by simp [hform]) (by simp [hform]) (by simp [hform])
  | description =>
    simp only [take, hform]
    exact (Agrees.refl b).takes (by simp [hform]) (by simp [hform]) (by simp [hform])
  | unknown =>
    simp only [take, hform]
    refine ⟨rfl, rfl, by simp [hform], by simp [hform], rfl, fun code _ => ?_⟩
    rw [Findings.warningLines_warning]
    simp [Finding.atPosition, hform, eq_comm]

/-! ## What the scan knows after a line -/

/-- A text ends any note: it says so, or it is an end marker. -/
def EndsNote (text : List Char) : Prop :=
  Statement.ClosesNote text ∨ StartsWith text Marker.stop.text.toList

/-- The words that close a note can count. -/
lemma canCount_of_closesNote (h : Statement.ClosesNote text) : CanCount text := by
  -- they begin with another character than a marker
  have hhead : text.head? = some 'e' := by
    rcases h with h | h <;> exact h.head?_eq (by simp)
  refine ⟨fun hmarker => ?_, fun hnil => by simp [hnil] at hhead, by simp [hhead]⟩
  exact absurd (hhead.symm.trans hmarker.head?_eq) (by decide)

lemma not_endsNote_of_start (h : StartsWith text Marker.start.text.toList) : ¬ EndsNote text := by
  rintro (hcloses | h')
  · exact (canCount_of_closesNote hcloses).not_isMarker ⟨.start, h⟩
  · have hstart : Marker.ofTrimmed? text = some .start := Marker.ofTrimmed?_eq_some_iff.2 h
    have hstop : Marker.ofTrimmed? text = some .stop := Marker.ofTrimmed?_eq_some_iff.2 h'
    exact absurd (hstart.symm.trans hstop) (by simp)

lemma not_start_of_not (h : ¬ IsMarker text) : ¬ StartsWith text Marker.start.text.toList :=
  fun hstart => h ⟨.start, hstart⟩

namespace StepsTo

lemma sawStart_iff (h : StepsTo b l b') :
    b'.sawStart = true ↔
      b.sawStart = true ∨ StartsWith (trim l.1) Marker.start.text.toList := by
  cases h with
  | start h => simp [h]
  | stop h =>
    have hstop : Marker.ofTrimmed? (trim l.1) = some .stop := Marker.ofTrimmed?_eq_some_iff.2 h
    simp [← Marker.ofTrimmed?_eq_some_iff, hstop]
  | passed hmarker _ => simp [not_start_of_not hmarker]
  | noted hcounts _ _ => simp [not_start_of_not hcounts.not_isMarker]
  | heard h => simp [not_start_of_not h.counts.not_isMarker, (takes_take b _ _ _).sawStart]

/-- The scan is inside the envelope behind a start marker, and stays there up to a marker. -/
lemma inside_iff (h : StepsTo b l b') :
    b'.inside = true ↔ StartsWith (trim l.1) Marker.start.text.toList ∨
      b.inside = true ∧ ¬ IsMarker (trim l.1) := by
  cases h with
  | start h => simp [h]
  | stop h =>
    have hstop : Marker.ofTrimmed? (trim l.1) = some .stop := Marker.ofTrimmed?_eq_some_iff.2 h
    have hmarker : IsMarker (trim l.1) := ⟨.stop, h⟩
    simp [← Marker.ofTrimmed?_eq_some_iff, hstop, hmarker]
  | passed hmarker _ => simp [not_start_of_not hmarker, hmarker]
  | noted hcounts hinside _ =>
    have hmarker : ¬ IsMarker (trim l.1) := hcounts.not_isMarker
    simp [not_start_of_not hmarker, hmarker]
  | heard h =>
    have hmarker : ¬ IsMarker (trim l.1) := h.counts.not_isMarker
    simp [not_start_of_not hmarker, hmarker, (takes_take b _ _ _).inside]

/-- The scan is in a note behind a text that opens one, and stays in it up to its end. -/
lemma inNote_iff (h : StepsTo b l b') (hinside : b.inNote = true → b.inside = true) :
    b'.inNote = true ↔ b.Hears (trim l.1) ∧ Statement.ofTrimmed (trim l.1) = .noteBlock ∨
      b.inNote = true ∧ ¬ EndsNote (trim l.1) := by
  cases h with
  | start h =>
    have hhears : ¬ b.Hears (trim l.1) := fun hhears => hhears.counts.not_isMarker ⟨.start, h⟩
    simp [hhears, not_endsNote_of_start h]
  | stop h =>
    have hhears : ¬ b.Hears (trim l.1) := fun hhears => hhears.counts.not_isMarker ⟨.stop, h⟩
    have hends : EndsNote (trim l.1) := .inr h
    simp [hhears, hends]
  | passed hmarker hpassed =>
    have hhears : ¬ b.Hears (trim l.1) := fun hhears =>
      hpassed.elim (by simp [hhears.inside]) (not_not_intro hhears.counts)
    simp only [hhears, false_and, false_or, iff_self_and]
    rintro hnote (hcloses | hstop)
    · exact hpassed.elim (by simp [hinside hnote])
        (not_not_intro (canCount_of_closesNote hcloses))
    · exact hmarker ⟨.stop, hstop⟩
  | noted hcounts _ hnote =>
    have hhears : ¬ b.Hears (trim l.1) := fun hhears => by simp [hhears.notInNote] at hnote
    have hends : EndsNote (trim l.1) ↔ Statement.closesNote (trim l.1) = true := by
      rw [Statement.closesNote_iff]
      exact or_iff_left fun hstop => hcounts.not_isMarker ⟨.stop, hstop⟩
    simp [hhears, hends, hnote]
  | heard h => simp [(takes_take b _ _ _).inNote, h, h.notInNote]

/-- A line that is not heard declares nothing and is not found fault with. -/
lemma heard_or (h : StepsTo b l b') :
    b.Hears (trim l.1) ∧ Takes b (trim l.1) l.2 b' ∨
      ¬ b.Hears (trim l.1) ∧ b'.sawInitial = b.sawInitial ∧ b'.found = b.found := by
  cases h with
  | start h => exact .inr ⟨fun hhears => hhears.counts.not_isMarker ⟨.start, h⟩, rfl, rfl⟩
  | stop h => exact .inr ⟨fun hhears => hhears.counts.not_isMarker ⟨.stop, h⟩, rfl, rfl⟩
  | passed _ hpassed =>
    refine .inr ⟨fun hhears => ?_, rfl, rfl⟩
    exact hpassed.elim (by simp [hhears.inside]) (not_not_intro hhears.counts)
  | noted _ _ hnote =>
    refine .inr ⟨fun hhears => ?_, rfl, rfl⟩
    rw [hhears.notInNote] at hnote
    exact absurd hnote (by simp)
  | heard h => exact .inl ⟨h, takes_take b _ _ _⟩

/-- A transition from the pseudo-state is seen when it is heard. -/
lemma sawInitial_iff (h : StepsTo b l b') :
    b'.sawInitial = true ↔ b.sawInitial = true ∨
      b.Hears (trim l.1) ∧ ∃ target, Statement.ofTrimmed (trim l.1) = .initial target := by
  rcases h.heard_or with ⟨hhears, htakes⟩ | ⟨hhears, hinitial, -⟩
  · simp only [htakes.sawInitial, hhears, true_and]
  · simp only [hinitial, hhears, false_and, or_false]

/-- A line makes no error. -/
lemma errors_eq (h : StepsTo b l b') : b'.found.errors = b.found.errors := by
  rcases h.heard_or with ⟨-, htakes⟩ | ⟨-, -, hfound⟩
  · exact htakes.errors
  · rw [hfound]

open Classical in
/-- A line that is heard and unknown is warned about, and apart from the names of states nothing
else is. -/
lemma warningLines_eq (h : StepsTo b l b') (hcode : code ≠ .invalidStateName) :
    b'.found.warningLines code = b.found.warningLines code ++
      if code = .unknownSyntax ∧ b.Hears (trim l.1) ∧ Statement.ofTrimmed (trim l.1) = .unknown
      then [max l.2 1] else [] := by
  rcases h.heard_or with ⟨hhears, htakes⟩ | ⟨hhears, -, hfound⟩
  · simp only [htakes.warnings code hcode, hhears, true_and]
  · simp [hfound, hhears]

end StepsTo

end Body

end DiagramRegistry
