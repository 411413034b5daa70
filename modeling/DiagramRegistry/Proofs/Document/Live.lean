import DiagramRegistry.Proofs.Document.Scan
import DiagramRegistry.Proofs.Validation.Appending

/-
# The live lines of a document

Which lines of a document the scan of its body hears can be said without the scan.  A line is live
when the latest marker above it is a start marker, it can count itself, and no note is open there: a
note is opened by a live line with the words for it, and is open on the lines behind, up to the one
that ends it.  What the scan knows after some lines is what these lines say by this reading
(`Body.Knows`), so that each line is warned about or not according to its own text.

* `Body.IsLive`: the live lines, counted from zero;
* `Body.Knows.step`: one line more;
* `Body.lines_are_classified`: the warnings about unknown lines and about the initial transition.
-/
namespace DiagramRegistry.Body

open Text

/-- Something was so on an earlier line, and something else has been so on every line since. -/
def Since (was stays : Nat → Prop) (i : Nat) : Prop := ∃ j < i, was j ∧ ∀ k, j < k → k < i → stays k

lemma since_succ_iff {was stays : Nat → Prop} {i : Nat} :
    Since was stays (i + 1) ↔ was i ∨ Since was stays i ∧ stays i := by
  constructor
  · rintro ⟨j, hj, hwas, hstays⟩
    rcases Nat.lt_succ_iff_lt_or_eq.1 hj with hj | rfl
    · exact .inr ⟨⟨j, hj, hwas, fun k hjk hki => hstays k hjk (by omega)⟩, hstays i hj (by omega)⟩
    · exact .inl hwas
  · rintro (hwas | ⟨⟨j, hj, hwas, hstays⟩, hi⟩)
    · exact ⟨i, by omega, hwas, fun k hik hki => by omega⟩
    · refine ⟨j, by omega, hwas, fun k hjk hki => ?_⟩
      rcases Nat.lt_succ_iff_lt_or_eq.1 hki with hki | rfl
      · exact hstays k hjk hki
      · exact hi

lemma not_since_zero {was stays : Nat → Prop} : ¬ Since was stays 0 := by
  rintro ⟨j, hj, -⟩
  exact absurd hj (by omega)

variable (texts : List (List Char))

/-- The line with a number, counted from zero, has a text of some kind. -/
def LineIs (p : List Char → Prop) (i : Nat) : Prop := ∃ t ∈ texts[i]?, p t

/-- The latest marker above the line is a start marker. -/
def IsEnveloped : Nat → Prop :=
  Since (LineIs texts fun t => StartsWith t Marker.start.text.toList) (¬ LineIs texts IsMarker ·)

/-- A text opens a note: it has the words for it, and there is no arrow in it. -/
def BeginsNote (text : List Char) : Prop :=
  Statement.OpensNote text ∧ ¬ Statement.HasInnerArrow text

/-- A line counts as a statement: its text can count, the latest marker above is a start marker, and
there is no line above of the same sort that opens a note which has not ended in between. -/
def IsLive (i : Nat) : Prop :=
  LineIs texts CanCount i ∧ IsEnveloped texts i ∧
    ¬ ∃ j, ∃ _ : j < i, (IsLive j ∧ LineIs texts BeginsNote j) ∧
      ∀ k, j < k → k < i → ¬ LineIs texts EndsNote k
termination_by i

/-- The line belongs to a note: a live line above opens one, and nothing has ended it since. -/
def IsInNote : Nat → Prop :=
  Since (fun j => IsLive texts j ∧ LineIs texts BeginsNote j) (¬ LineIs texts EndsNote ·)

variable {texts} {i n : Nat} {b : Body} {l : List Char × Nat} {text : List Char}

lemma isLive_iff : IsLive texts i ↔
    LineIs texts CanCount i ∧ IsEnveloped texts i ∧ ¬ IsInNote texts i := by
  rw [IsLive]
  simp only [IsInNote, Since, exists_prop]

lemma lineIs_iff {p : List Char → Prop} (h : texts[i]? = some text) :
    LineIs texts p i ↔ p text := by
  simp [LineIs, h]

/-- Notes are open inside the envelope only. -/
lemma IsInNote.isEnveloped (h : IsInNote texts i) : IsEnveloped texts i := by
  induction i with
  | zero => exact absurd h not_since_zero
  | succ i ih =>
    rw [IsEnveloped, since_succ_iff]
    rcases since_succ_iff.1 h with ⟨hlive, -⟩ | ⟨hnote, hends⟩
    · obtain ⟨⟨t, ht, hcounts⟩, henveloped, -⟩ := isLive_iff.1 hlive
      exact .inr ⟨henveloped, fun hmarker => hcounts.not_isMarker ((lineIs_iff ht).1 hmarker)⟩
    · by_cases hmarker : LineIs texts IsMarker i
      · obtain ⟨t, ht, marker, hstarts⟩ := hmarker
        cases marker with
        | start => exact .inl ⟨t, ht, hstarts⟩
        | stop => exact absurd ⟨t, ht, .inr hstarts⟩ hends
      · exact .inr ⟨ih hnote, hmarker⟩

/-- A text that none of the forms of a statement fits. -/
structure IsUnknown (text : List Char) : Prop where
  /-- No arrow stands between two parts of it. -/
  not_hasInnerArrow : ¬ Statement.HasInnerArrow text
  /-- It is no name. -/
  not_identifier : isIdentifier (String.ofList text) = false
  /-- It starts with no directive. -/
  not_directive : ∀ d ∈ Statement.directives, ¬ StartsWith text d
  /-- It has no colon. -/
  not_description : ':' ∉ text

lemma isUnknown_iff (h : IsTrimmed text) :
    Statement.ofTrimmed text = .unknown ↔ IsUnknown text := by
  rw [Statement.ofTrimmed_eq_unknown_iff h]
  constructor
  · rintro ⟨harrow, hname, hdirective, hcolon⟩
    exact ⟨harrow, by rwa [isIdentifier, String.toList_ofList], hdirective, hcolon⟩
  · rintro ⟨harrow, hname, hdirective, hcolon⟩
    exact ⟨harrow, by rwa [isIdentifier, String.toList_ofList] at hname, hdirective, hcolon⟩

/-- What the scan knows after the lines up to a number is what these lines say. -/
structure Knows (texts : List (List Char)) (n : Nat) (b : Body) : Prop where
  /-- Whether one of them is a start marker. -/
  sawStart : b.sawStart = true ↔
    ∃ i < n, LineIs texts (fun t => StartsWith t Marker.start.text.toList) i
  /-- Whether the next line is inside the envelope. -/
  inside : b.inside = true ↔ IsEnveloped texts n
  /-- Whether the next line belongs to a note. -/
  inNote : b.inNote = true ↔ IsInNote texts n
  /-- Whether a live one is a transition from the pseudo-state. -/
  sawInitial : b.sawInitial = true ↔ ∃ i < n, IsLive texts i ∧ LineIs texts Statement.IsInitial i
  /-- There is no error. -/
  errors : b.found.errors = []
  /-- The live ones that are unknown are warned about, in their order. -/
  unknown : ∀ line, line ∈ b.found.warningLines .unknownSyntax ↔
    ∃ i < n, line = i + 1 ∧ IsLive texts i ∧ LineIs texts IsUnknown i
  /-- The warnings about them are in the order of the lines. -/
  sorted : (b.found.warningLines .unknownSyntax).Pairwise (· < ·)
  /-- Nothing is said yet about the initial transition. -/
  initial : b.found.warningLines .noInitialState = []

lemma knows_begin : Knows texts 0 (begin .none) where
  sawStart := by simp [begin]
  inside := iff_of_false (by simp [begin]) not_since_zero
  inNote := iff_of_false (by simp [begin]) not_since_zero
  sawInitial := by simp [begin]
  errors := rfl
  unknown line := by simp [begin, Findings.none, Findings.warningLines]
  sorted := List.Pairwise.nil
  initial := rfl

/-- The scan hears the next line when it is live. -/
lemma Knows.hears_iff (h : Knows texts n b) (ht : texts[n]? = some text) :
    b.Hears text ↔ IsLive texts n := by
  rw [isLive_iff, lineIs_iff ht, ← h.inside, ← h.inNote, Bool.not_eq_true]
  exact ⟨fun hhears => ⟨hhears.counts, hhears.inside, hhears.notInNote⟩,
    fun ⟨hcounts, hinside, hnote⟩ => ⟨hcounts, hinside, hnote⟩⟩

open Classical in
/-- One line more. -/
theorem Knows.step (h : Knows texts n b) (hl : l.2 = n + 1) (ht : texts[n]? = some (trim l.1)) :
    Knows texts (n + 1) (b.step l) := by
  have hstep := stepsTo_step b l
  have htrimmed := isTrimmed_trim l.1
  have hhears := h.hears_iff ht
  have hinside : b.inNote = true → b.inside = true := fun hnote =>
    h.inside.2 (h.inNote.1 hnote).isEnveloped
  -- The line itself is warned about when it is live and unknown.
  have hheard : ∀ line, (line ∈ if Code.unknownSyntax = .unknownSyntax ∧ b.Hears (trim l.1) ∧
      Statement.ofTrimmed (trim l.1) = .unknown then [max l.2 1] else []) ↔
      line = n + 1 ∧ IsLive texts n ∧ IsUnknown (trim l.1) := by
    intro line
    rw [← isUnknown_iff htrimmed, ← hhears]
    split_ifs with hunknown
    · have hline : max l.2 1 = n + 1 := by omega
      simp [hline, hunknown]
    · simpa using fun _ hhears hform => hunknown ⟨rfl, hhears, hform⟩
  refine ⟨?_, ?_, ?_, ?_, ?_, fun line => ?_, ?_, ?_⟩
  · rw [hstep.sawStart_iff, h.sawStart, Nat.exists_lt_succ_right, lineIs_iff ht]
  · rw [hstep.inside_iff, h.inside, IsEnveloped, since_succ_iff, lineIs_iff ht, lineIs_iff ht]
  · rw [hstep.inNote_iff hinside, h.inNote, hhears, IsInNote, since_succ_iff, lineIs_iff ht,
      lineIs_iff ht, Statement.ofTrimmed_eq_noteBlock_iff htrimmed]
    rfl
  · rw [hstep.sawInitial_iff, h.sawInitial, hhears, Nat.exists_lt_succ_right, lineIs_iff ht,
      Statement.exists_initial_iff htrimmed]
  · rw [hstep.errors_eq, h.errors]
  · rw [hstep.warningLines_eq (by simp), List.mem_append, h.unknown, Nat.exists_lt_succ_right,
      hheard, lineIs_iff ht]
  · rw [hstep.warningLines_eq (by simp), List.pairwise_append]
    refine ⟨h.sorted, ?_, fun line hline next hnext => ?_⟩
    · split_ifs
      · exact List.pairwise_singleton _ _
      · exact List.Pairwise.nil
    · obtain ⟨i, hi, rfl, -⟩ := (h.unknown line).1 hline
      have := ((hheard next).1 hnext).1
      omega
  · rw [hstep.warningLines_eq (by simp), h.initial]
    simp

/-! ## The whole document -/

/-- The lines of a document without the blanks around them. -/
def trimmedLines (content : String) : List (List Char) := (lines content.toList).map trim

lemma LineIs.lt_length {content : String} {p : List Char → Prop}
    (h : LineIs (trimmedLines content) p i) : i < (numberedLines content).length := by
  obtain ⟨t, ht, -⟩ := h
  simpa [trimmedLines, numberedLines] using (List.getElem?_eq_some_iff.1 ht).1

/-- What the scan knows after some lines of a document. -/
def afterLines (content : String) (n : Nat) : Body :=
  ((numberedLines content).take n).foldl step (begin .none)

/-- One line more is one step more. -/
lemma exists_afterLines_succ {content : String} (hn : n < (numberedLines content).length) :
    ∃ l, (trimmedLines content)[n]? = some (trim l) ∧
      afterLines content (n + 1) = (afterLines content n).step (l, n + 1) := by
  obtain ⟨l, hl⟩ : ∃ l, (lines content.toList)[n]? = some l :=
    ⟨_, List.getElem?_eq_getElem (by simpa [numberedLines] using hn)⟩
  have hget : (numberedLines content)[n]? = some (l, n + 1) := by
    simp [numberedLines, List.getElem?_zipIdx, hl, Nat.add_comm]
  refine ⟨l, by simp [trimmedLines, hl], ?_⟩
  rw [afterLines, List.take_add_one, hget, List.foldl_append]
  rfl

/-- After some lines of a document the scan knows what they say. -/
lemma knows_afterLines (content : String) (n : Nat) (hn : n ≤ (numberedLines content).length) :
    Knows (trimmedLines content) n (afterLines content n) := by
  induction n with
  | zero => exact knows_begin
  | succ n ih =>
    obtain ⟨l, hl, hstep⟩ := exists_afterLines_succ (Nat.lt_of_succ_le hn)
    rw [hstep]
    exact (ih (Nat.le_of_succ_le hn)).step rfl hl

lemma check_eq_close (content : String) :
    check content .none = (afterLines content (numberedLines content).length).close := by
  rw [afterLines, List.take_length, check]

/-- In the end there may be an error that there are no states. -/
lemma code_of_mem_close {f : Finding} (h : f ∈ b.close.errors) (hfound : b.found.errors = []) :
    f.code = .noStates := by
  obtain ⟨sawStart, inside, inNote, sawInitial, states, found⟩ := b
  cases sawStart <;> cases sawInitial <;> cases states <;>
    simp_all [close, Findings.error, Findings.warning, Finding.atPosition]

/-- In the end there may be a warning that the initial transition is missing. -/
lemma warningLines_close (b : Body) (code : Code) : b.close.warningLines code =
    b.found.warningLines code ++
      if code = .noInitialState ∧ b.sawStart = true ∧ ¬ b.sawInitial = true then [1] else [] := by
  obtain ⟨sawStart, inside, inNote, sawInitial, states, found⟩ := b
  have hsame : ∀ found f, Findings.warningLines code (Findings.error found f) =
    found.warningLines code := fun _ _ => rfl
  cases sawStart <;> cases sawInitial <;> cases states <;>
    simp [close, hsame, Findings.warningLines_warning, Finding.atPosition, eq_comm]

/-- The scan of a body warns about a line exactly when it is live and unknown, once and in the order
of the lines.  It warns about the initial transition exactly when there is a start marker and no
live line is a transition from the pseudo-state.  It has no error but that there are no states. -/
theorem lines_are_classified (content : String) (found : Findings) :
    ∃ recorded, check content found = found ++ recorded ∧
      (recorded.warningLines .unknownSyntax).Pairwise (· < ·) ∧
      (∀ line, line ∈ recorded.warningLines .unknownSyntax ↔ ∃ i, line = i + 1 ∧
        IsLive (trimmedLines content) i ∧ LineIs (trimmedLines content) IsUnknown i) ∧
      (recorded.hasWarning .noInitialState = true ↔
        (∃ i, LineIs (trimmedLines content) (StartsWith · Marker.start.text.toList) i) ∧
        ¬ ∃ i, IsLive (trimmedLines content) i ∧
          LineIs (trimmedLines content) Statement.IsInitial i) ∧
      ∀ f ∈ recorded.errors, f.code = .noStates := by
  have hknows := knows_afterLines content _ le_rfl
  refine ⟨check content .none, ?_, ?_, fun line => ?_, ?_, fun f hf => ?_⟩
  · rw [← check_append, Findings.append_none]
  · rw [check_eq_close, warningLines_close]
    simpa using hknows.sorted
  · rw [check_eq_close, warningLines_close]
    simp only [reduceCtorEq, false_and, if_false, List.append_nil, hknows.unknown]
    exact ⟨fun ⟨i, _, h⟩ => ⟨i, h⟩, fun ⟨i, h⟩ => ⟨i, h.2.2.lt_length, h⟩⟩
  · have hstart : _ ↔ ∃ i, LineIs _ _ i := hknows.sawStart.trans
      ⟨fun ⟨i, _, h⟩ => ⟨i, h⟩, fun ⟨i, h⟩ => ⟨i, h.lt_length, h⟩⟩
    have hinitial : _ ↔ ∃ i, IsLive _ i ∧ LineIs _ _ i := hknows.sawInitial.trans
      ⟨fun ⟨i, _, h⟩ => ⟨i, h⟩, fun ⟨i, h⟩ => ⟨i, h.2.lt_length, h⟩⟩
    rw [Findings.hasWarning_iff_warningLines, check_eq_close, warningLines_close, hknows.initial,
      ← hstart, ← hinitial]
    simp
  · rw [check_eq_close] at hf
    exact code_of_mem_close hf hknows.errors

-- A start marker does not end a note.
example : (check "@startuml\nnote as n\n?\n@startuml\n?\nend note\n?\n@enduml\n?"
    .none).warningLines .unknownSyntax = [7] := by decide

end DiagramRegistry.Body
