import DiagramRegistry.Proofs.Document.Markers
import DiagramRegistry.Proofs.Document.Transition
import DiagramRegistry.Proofs.Reference.Grammar

/-
# Findings point into the document

Every finding of a validation has a line and a column, which are shown to whoever wrote the
document.  The passes come by them in different ways: they count lines, measure indentations, take
the line of a directive over into what they find behind it, or point at the first line for want of a
better one.  All of these positions lie in the document that is validated.  In particular a cycle
among other documents is reported on the line of the directive through which it is reached.

A property of findings is carried through a pass in the way the pass works: it holds of what one
step records, and so of what a run records.

* `Finding.PointsInto`: the positions of a document;
* `Envelope.check_pointsInto`, `Body.check_pointsInto`, `Validation.unreadable_pointsInto`,
  `Reference.checkAll_all`, `resolve_all`: pass by pass;
* `findings_point_into_document`: a whole validation.
-/
namespace DiagramRegistry

open Text

/-- The line with a number, counted from one.  Behind the last line there is nothing. -/
def lineAt (content : String) (number : Nat) : List Char :=
  ((lines content.toList)[number - 1]?).getD []

/-- The position of a finding lies in a document: the document has that many lines, and the line has
that many characters.  The first position is always there. -/
structure Finding.PointsInto (content : String) (f : Finding) : Prop where
  /-- Lines are counted from one. -/
  one_le_line : 1 ≤ f.line
  /-- The line is not behind the last one. -/
  line_le : f.line ≤ max 1 (lines content.toList).length
  /-- Columns are counted from one. -/
  one_le_column : 1 ≤ f.column
  /-- The column is not behind the last one of the line. -/
  column_le : f.column ≤ max 1 (lineAt content f.line).length

/-- All findings have a property, the errors as well as the warnings. -/
structure Findings.All (p : Finding → Prop) (found : Findings) : Prop where
  /-- The errors have it. -/
  errors : ∀ f ∈ found.errors, p f
  /-- The warnings have it. -/
  warnings : ∀ f ∈ found.warnings, p f

variable {p : Finding → Prop} {found other : Findings} {f : Finding} {content : String}
  {l : List Char × Nat} {code : Code} {message context : String} {n line column : Nat}

namespace Findings.All

lemma none : Findings.none.All p := ⟨by simp [Findings.none], by simp [Findings.none]⟩

lemma error (h : found.All p) (hf : p f) : (found.error f).All p where
  errors := List.forall_mem_append.2 ⟨h.errors, by simpa using hf⟩
  warnings := h.warnings

lemma warning (h : found.All p) (hf : p f) : (found.warning f).All p where
  errors := h.errors
  warnings := List.forall_mem_append.2 ⟨h.warnings, by simpa using hf⟩

lemma ite {c : Prop} [Decidable c] (h : found.All p) (h' : other.All p) :
    (if c then found else other).All p := by
  split
  · exact h
  · exact h'

lemma append (h : found.All p) (h' : other.All p) : (found ++ other).All p where
  errors := List.forall_mem_append.2 ⟨h.errors, h'.errors⟩
  warnings := List.forall_mem_append.2 ⟨h.warnings, h'.warnings⟩

/-- Strictness keeps a property that does not depend on the message. -/
lemma apply (h : found.All p) (hmark : ∀ f, p f → p f.downgrade) (level : Strictness) :
    (found.apply level).All p := by
  cases level with
  | staging => exact h
  | production =>
    refine ⟨fun f hf => h.errors f (List.mem_filter.1 hf).1, ?_⟩
    refine List.forall_mem_append.2 ⟨h.warnings, fun f hf => ?_⟩
    obtain ⟨g, hg, rfl⟩ := List.mem_map.1 hf
    exact hmark g (h.errors g (List.mem_filter.1 hg).1)

end Findings.All

/-! ## Positions -/

/-- The document has a line with the number. -/
def HasLine (content : String) (n : Nat) : Prop := 1 ≤ n ∧ n ≤ (lines content.toList).length

/-- The line with which a finding on it is recorded. -/
lemma HasLine.max_le (h : HasLine content n) : max n 1 ≤ max 1 (lines content.toList).length := by
  obtain ⟨-, hle⟩ := h
  omega

lemma hasLine_of_mem (hl : l ∈ numberedLines content) : HasLine content l.2 := by
  obtain ⟨hpos, hlt, -⟩ := List.mem_zipIdx hl
  exact ⟨hpos, by omega⟩

lemma lineAt_of_mem (hl : l ∈ numberedLines content) : lineAt content l.2 = l.1 := by
  obtain ⟨hpos, hlt, hline⟩ := List.mem_zipIdx hl
  rw [lineAt, List.getElem?_eq_getElem (by omega), Option.getD_some, hline]

namespace Finding.PointsInto

/-- The beginning of a line is there. -/
lemma of_column_eq_one (hpos : 1 ≤ f.line) (hle : f.line ≤ max 1 (lines content.toList).length)
    (hcolumn : f.column = 1) : f.PointsInto content :=
  ⟨hpos, hle, hcolumn.ge, hcolumn ▸ Nat.le_max_left _ _⟩

lemma first : (atPosition code 1 1 message).PointsInto content :=
  of_column_eq_one (Nat.le_refl 1) (Nat.le_max_left _ _) rfl

lemma atBeginning (h : HasLine content n) : (atPosition code n 1 message).PointsInto content :=
  of_column_eq_one (Nat.le_max_right n 1) h.max_le rfl

lemma onLine (h : HasLine content n) : (onLine code n message context).PointsInto content :=
  of_column_eq_one (Nat.le_max_right n 1) h.max_le rfl

/-- A line with something on it has a character behind its indentation. -/
lemma afterIndentation (hl : l ∈ numberedLines content) (htext : trim l.1 ≠ []) :
    (atPosition code l.2 (indentation l.1 + 1) message).PointsInto content := by
  have hhas := hasLine_of_mem hl
  have hindent : indentation l.1 < l.1.length := by
    by_contra hnot
    refine htext ?_
    have hall : l.1.takeWhile isBlank = l.1 :=
      (List.takeWhile_prefix isBlank).eq_of_length_le (Nat.not_lt.1 hnot)
    have hnone : trimStart l.1 = [] :=
      List.dropWhile_eq_nil_iff.2 (List.takeWhile_eq_self_iff.1 hall)
    rw [trim, hnone]
    rfl
  refine ⟨Nat.le_max_right _ _, hhas.max_le, Nat.le_max_right _ _, ?_⟩
  show max (indentation l.1 + 1) 1 ≤ max 1 (lineAt content (max l.2 1)).length
  rw [Nat.max_eq_left hhas.1, lineAt_of_mem hl]
  omega

lemma downgrade (h : f.PointsInto content) : f.downgrade.PointsInto content :=
  ⟨h.one_le_line, h.line_le, h.one_le_column, h.column_le⟩

end Finding.PointsInto

/-! ## The envelope -/

namespace Envelope

variable {e : Envelope}

/-- What the check of the envelope knows points into the document. -/
structure PointsInto (content : String) (e : Envelope) : Prop where
  /-- The first start marker is on a line of it. -/
  start : ∀ n ∈ e.start?, HasLine content n
  /-- The findings point into it. -/
  found : e.found.All (Finding.PointsInto content)

lemma trim_ne_nil_of_marker {marker : Marker} (h : Marker.ofTrimmed? (trim l.1) = some marker) :
    trim l.1 ≠ [] := by
  intro hnil
  have hhead := IsMarker.head?_eq ⟨marker, Marker.ofTrimmed?_eq_some_iff.1 h⟩
  rw [hnil] at hhead
  exact absurd hhead (by simp)

lemma PointsInto.step (h : e.PointsInto content) (hl : l ∈ numberedLines content) :
    (e.step l).PointsInto content := by
  have hstep := stepsTo_step e l
  generalize e.step l = e' at hstep ⊢
  cases hstep with
  | passed hmarker => exact h
  | @first marker hmarker hfirst =>
    cases marker with
    | start =>
      refine ⟨fun n hn => ?_, h.found⟩
      obtain rfl : l.2 = n := Option.some.inj hn
      exact hasLine_of_mem hl
    | stop => exact ⟨h.start, h.found⟩
  | again hmarker hfirst =>
    exact ⟨h.start, h.found.error (.afterIndentation hl (trim_ne_nil_of_marker hmarker))⟩

lemma PointsInto.close (h : e.PointsInto content) :
    (e.close (numberedLines content).length).All (Finding.PointsInto content) := by
  have hend : ∀ message : String, (Finding.atPosition .missingEnd (numberedLines content).length 1
      message).PointsInto content := by
    intro message
    refine .of_column_eq_one (Nat.le_max_right _ 1) ?_ rfl
    show max (numberedLines content).length 1 ≤ max 1 (lines content.toList).length
    rw [numberedLines, List.length_zipIdx, Nat.max_comm]
  obtain ⟨hstart, hfound⟩ := h
  obtain ⟨start?, stop?, found⟩ := e
  cases start? with
  | none =>
    cases stop? with
    | none => exact (hfound.error .first).error (hend _)
    | some stop => exact hfound.error .first
  | some start =>
    cases stop? with
    | none => exact hfound.error (hend _)
    | some stop =>
      simp only [Envelope.close, Option.isNone_some, Bool.false_eq_true, if_false]
      split
      · exact hfound.error (.atBeginning (hstart start rfl))
      · exact hfound

lemma check_pointsInto (content : String) :
    (check content .none).All (Finding.PointsInto content) := by
  have hbegin : PointsInto content ⟨none, none, .none⟩ := ⟨by simp, .none⟩
  exact (List.foldlRecOn (numberedLines content) step hbegin
    fun _ h _ hl => h.step hl : PointsInto content _).close

end Envelope

/-! ## The body -/

namespace Body

variable {b : Body}

/-- What a line says can only be warned about at its position. -/
lemma all_declare (h : b.found.All p)
    (hline : ∀ code message, p (.atPosition code line column message)) (side : List Char) :
    (b.declare side line column).found.All p := by
  by_cases hpseudo : Statement.withoutLabel side = pseudoState.toList
  · simpa only [declare, hpseudo, if_true] using h
  · simp only [declare, hpseudo, if_false, addState_found]
    split
    · exact h
    · exact h.warning (hline _ _)

lemma all_take (h : b.found.All p)
    (hline : ∀ code message, p (.atPosition code line column message)) (trimmed : List Char) :
    (b.take trimmed line column).found.All p := by
  unfold take
  -- one case for each form of a statement
  split
  · exact all_declare (b := { b with sawInitial := true }) h hline _
  · exact all_declare h hline _
  · exact all_declare (all_declare h hline _) hline _
  · rwa [addState_found]
  · exact h
  · exact h
  · exact h
  · exact h.warning (hline _ _)

lemma step_pointsInto (h : b.found.All (Finding.PointsInto content))
    (hl : l ∈ numberedLines content) : (b.step l).found.All (Finding.PointsInto content) := by
  have hstep := stepsTo_step b l
  generalize b.step l = b' at hstep ⊢
  cases hstep with
  | start _ => exact h
  | stop _ => exact h
  | passed _ _ => exact h
  | noted _ _ _ => exact h
  | heard hhears =>
    exact all_take h (fun _ _ => .afterIndentation hl hhears.counts.ne_nil) _

lemma close_pointsInto (h : b.found.All (Finding.PointsInto content)) :
    b.close.All (Finding.PointsInto content) := by
  unfold close
  refine .ite h ?_
  exact .ite (.error (.ite h (h.warning .first)) .first) (.ite h (h.warning .first))

lemma check_pointsInto (content : String) :
    (check content .none).All (Finding.PointsInto content) := by
  have hbegin : (begin .none).found.All (Finding.PointsInto content) := .none
  exact close_pointsInto (List.foldlRecOn
    (motive := fun b : Body => b.found.All (Finding.PointsInto content)) (numberedLines content)
    step hbegin fun _ h _ hl => step_pointsInto h hl)

end Body

/-! ## The references -/

/-- The reference of a document stands on a line of it. -/
lemma hasLine_of_mem_referencesOf {r : Reference} (hr : r ∈ referencesOf content) :
    HasLine content r.line := by
  cases hread : includes content with
  | error fault => simp [referencesOf, hread, Except.toOption] at hr
  | ok rs =>
    have hmem : r ∈ rs := by simpa [referencesOf, hread, Except.toOption] using hr
    rw [Include.eq_of_includes_eq_ok hread] at hmem
    obtain ⟨line, hline, -⟩ :=
      Include.mem_made_iff.1 ((Include.firstOccurrences_sublist _ _).subset hmem)
    exact hasLine_of_mem hline

lemma Validation.unreadable_pointsInto (content : String) :
    (unreadable content).All (Finding.PointsInto content) := by
  unfold unreadable readReferences
  cases hread : includes content with
  | ok rs => exact .none
  | error fault =>
    obtain ⟨⟨line, hline, -⟩, -⟩ := Include.first_of_includes_eq_error hread
    have hfault : HasLine content fault.line := hasLine_of_mem hline
    exact Findings.All.none.error (.atBeginning hfault)

namespace Reference

variable {r : Reference}

lemma checkPath_all (h : found.All p)
    (hline : ∀ code message context, p (.onLine code r.line message context)) (code : Code) :
    (r.checkPath code found).All p := by
  unfold checkPath
  split
  · exact h
  · exact .ite h (h.warning (hline _ _ _))

lemma checkVersion_all (h : found.All p)
    (hline : ∀ code message context, p (.onLine code r.line message context)) :
    (r.checkVersion found).All p := by
  exact .ite (h.error (hline _ _ _)) (.ite h (h.error (hline _ _ _)))

lemma checkProduct_all (h : found.All p)
    (hline : ∀ code message context, p (.onLine code r.line message context))
    (ownerName ownerVersion : String) : (r.checkProduct ownerName ownerVersion found).All p := by
  have hversion := checkVersion_all h hline
  exact checkPath_all (.ite (hversion.error (hline _ _ _)) hversion) hline _

lemma checkNested_all (h : found.All p)
    (hline : ∀ code message context, p (.onLine code r.line message context))
    (ownerName : String) : (r.checkNested ownerName found).All p := by
  refine checkPath_all (.ite (.error ?_ (hline _ _ _)) ?_) hline _
  · exact .ite h (h.warning (hline _ _ _))
  · exact .ite h (h.warning (hline _ _ _))

/-- What is found about a reference is tied to its line. -/
lemma check_all (h : found.All p)
    (hline : ∀ code message context, p (.onLine code r.line message context))
    (ownerName ownerVersion : String) : (r.check ownerName ownerVersion found).All p := by
  unfold check
  split
  · exact h.error (hline _ _ _)
  · split
    · exact checkProduct_all h hline _ _
    · exact checkNested_all h hline _
    · exact h.error (hline _ _ _)

lemma checkAll_all {rs : List Reference}
    (hlines : ∀ r ∈ rs, ∀ code message context, p (.onLine code r.line message context))
    (owner : Key) : (checkAll owner rs .none).All p :=
  List.foldlRecOn rs _ Findings.All.none fun _ h r hr => check_all h (hlines r hr) _ _

end Reference

/-! ## The resolution -/

namespace Resolution

variable {r : Resolution} {reference : Reference}

lemma report_all (h : r.found.All p)
    (hline : ∀ code message context, p (.onLine code line message context)) (root : Key)
    (chain : List Key) : (report root line r chain).found.All p := by
  simp only [report]
  split
  · exact h
  · exact h.error (hline _ _ _)

/-- Whatever lies behind a reference, it is reported on the line of the reference. -/
lemma step_all (h : r.found.All p)
    (hline : ∀ code message context, p (.onLine code reference.line message context))
    (c : Catalogue) (root : Key) : (step c root r reference).found.All p := by
  unfold step
  split
  · exact h
  · split
    · exact h.warning (hline _ _ _)
    · exact h.error (hline _ _ _)
    · split
      · exact h.warning (hline _ _ _)
      · exact List.foldlRecOn (motive := fun r : Resolution => r.found.All p) _ _ h
          fun _ h chain _ => report_all h hline root chain

end Resolution

lemma resolve_all {references : List Reference}
    (hfirst : ∀ code message, p (.atPosition code 1 1 message))
    (hlines : ∀ r ∈ references, ∀ code message context, p (.onLine code r.line message context))
    (catalogue : Option Catalogue) (root : Key) :
    (resolve catalogue root references .none).All p := by
  cases catalogue with
  | none => exact Findings.All.none.warning (hfirst _ _)
  | some c =>
    have hbegin : (⟨[], .none⟩ : Resolution).found.All p := Findings.All.none
    exact List.foldlRecOn (motive := fun r : Resolution => r.found.All p) references _ hbegin
      fun _ h r hr => Resolution.step_all h (hlines r hr) c root

/-! ## A whole validation -/

/-- All findings of a validation point into the document that is validated, under either level of
strictness, and whatever the repository holds and answers. -/
theorem findings_point_into_document (catalogue : Option Catalogue) (strictness : Strictness)
    (d : Diagram) :
    (Validation.run catalogue strictness d).2.All (Finding.PointsInto d.content) := by
  have hlines : ∀ r ∈ referencesOf d.content, ∀ code message context,
      (Finding.onLine code r.line message context).PointsInto d.content :=
    fun r hr _ _ _ => .onLine (hasLine_of_mem_referencesOf hr)
  have hown : (Validation.own d.key.name d.key.version d.content).All
      (Finding.PointsInto d.content) :=
    (((Envelope.check_pointsInto _).append (Body.check_pointsInto _)).append
      (Validation.unreadable_pointsInto _)).append (Reference.checkAll_all hlines _)
  have hpasses : (Validation.passes catalogue d.key d.content).2.All
      (Finding.PointsInto d.content) := by
    rw [Validation.passes_eq]
    refine hown.append ?_
    split
    · exact .none
    · exact resolve_all (fun _ _ => .first) hlines catalogue d.key
  exact hpasses.apply (fun _ => .downgrade) strictness

end DiagramRegistry
