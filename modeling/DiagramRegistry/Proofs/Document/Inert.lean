import DiagramRegistry.Proofs.Document.Live
import DiagramRegistry.Proofs.Document.Transition

/-
# Inert lines

Some lines can be put into a document without a trace: blank lines and comments anywhere, any lines
but markers where no envelope is open, and a whole note where a statement could stand.  The scan of
the body passes them over, or is in the end where it was before, so all that it finds later is the
same, only on lines further down.  What it says about the body as a whole stays on the first line.

* `Body.IsInert`: the lines, and where they can be put;
* `Body.foldl_step_withFound`: a run over lines that stand further down;
* `Body.IsInert.foldl_step`: inert lines leave the scan as it is;
* `Body.inert_lines_leave_no_trace`: the findings with and without the lines.
-/
namespace DiagramRegistry

open Text

/-! ## Findings that move down -/

/-- The same finding when some lines more stand behind those up to a number.  It moves down if it is
on a later line; what is said about the body as a whole stays. -/
def Finding.movedDown (n count : Nat) (f : Finding) : Finding :=
  if f.code = .noInitialState ∨ f.code = .noStates ∨ f.line ≤ n then f
  else { f with line := f.line + count }

/-- Change each finding. -/
def Findings.map (change : Finding → Finding) (found : Findings) : Findings :=
  ⟨found.errors.map change, found.warnings.map change⟩

namespace Body

variable {b : Body} {line n count : Nat} {l : List Char × Nat}
  {texts inserted inner : List (List Char)} {text opening closing : List Char}

/-! ## A run further down -/

lemma carries_map {change : Finding → Finding} {line line' : Nat}
    (h : ∀ code ∈ [Code.invalidStateName, Code.unknownSyntax], ∀ column message,
      change (.atPosition code line column message) = .atPosition code line' column message) :
    Carries (Findings.map change) line line' := by
  intro code hcode found column message
  simp [Findings.map, Findings.warning, h code hcode]

/-- The findings of the lines in front stay where they are. -/
lemma carries_movedDown_of_le (hpos : 0 < line) (h : line ≤ n) :
    Carries (Findings.map (.movedDown n count)) line line :=
  carries_map fun _ _ _ _ => if_pos (.inr (.inr (max_le h (hpos.trans_le h))))

/-- The findings of the lines behind move down. -/
lemma carries_movedDown_of_lt (h : n < line) :
    Carries (Findings.map (.movedDown n count)) line (line + count) := by
  refine carries_map fun code hcode column message => ?_
  have hline : max line 1 + count = max (line + count) 1 := by omega
  have hlater : ¬ max line 1 ≤ n := by omega
  have hsummary : code ≠ .noInitialState ∧ code ≠ .noStates := by
    constructor <;> rintro rfl <;> exact absurd hcode (by decide)
  simp [Finding.movedDown, Finding.atPosition, hlater, hsummary, hline]

lemma keepsSummary_movedDown : KeepsSummary (Findings.map (.movedDown n count)) where
  warning found message := by
    simp [Findings.map, Findings.warning, Finding.movedDown, Finding.atPosition]
  error found message := by
    simp [Findings.map, Findings.error, Finding.movedDown, Finding.atPosition]

/-- A run over lines further down finds the same, carried over. -/
lemma foldl_step_withFound {change : Findings → Findings} (moved : Nat → Nat)
    {ls : List (List Char × Nat)} (h : ∀ l ∈ ls, Carries change l.2 (moved l.2)) (b : Body) :
    (ls.map (Prod.map id moved)).foldl step (b.withFound change) =
      (ls.foldl step b).withFound change := by
  induction ls generalizing b with
  | nil => rfl
  | cons l ls ih =>
    rw [List.forall_mem_cons] at h
    rw [List.map_cons, List.foldl_cons, List.foldl_cons, ← ih h.2, ← step_withFound h.1]
    rfl

/-! ## Lines that leave the scan as it is -/

/-- A text begins a note that stands at one side of a name or has a name itself. -/
inductive HeadsNote (text : List Char) : Prop where
  /-- The note stands at one side of something. -/
  | beside {side name : List Char}
      (hside : side ∈ ["left".toList, "right".toList, "top".toList, "bottom".toList])
      (hname : identifierChars name = true)
      (hwords : Spaced ["note".toList, side, "of".toList, name] text)
  /-- The note has a name. -/
  | named {name : List Char} (hname : identifierChars name = true)
      (hwords : Spaced ["note".toList, "as".toList, name] text)

/-- Lines that can be put in front of the line with a number, counted from zero. -/
inductive IsInert (texts : List (List Char)) (n : Nat) (inserted : List (List Char)) : Prop where
  /-- Blank lines and comments can be put anywhere. -/
  | passed (h : ∀ line ∈ inserted, trim line = [] ∨ (trim line).head? = some '\u0027')
  /-- All but markers can be put where no envelope is open. -/
  | outside (houtside : ¬ IsEnveloped texts n) (h : ∀ line ∈ inserted, ¬ IsMarker (trim line))
  /-- A whole note can be put inside the envelope, if not inside another note. -/
  | note {opening closing : List Char} {inner : List (List Char)} (hinside : IsEnveloped texts n)
      (hnote : ¬ IsInNote texts n) (hopening : HeadsNote (trim opening))
      (hinner : ∀ line ∈ inner, ¬ IsMarker (trim line) ∧ ¬ Statement.ClosesNote (trim line))
      (hclosing : Statement.ClosesNote (trim closing))
      (h : inserted = opening :: inner ++ [closing])

/-- There is no arrow between the words that begin a note. -/
lemma HeadsNote.beginsNote (h : HeadsNote text) : BeginsNote text := by
  have hname : ∀ {name}, identifierChars name = true → ':' ∉ name ∧ '"' ∉ name ∧ '>' ∉ name :=
    fun hname => ⟨Statement.not_mem_of_identifierChars hname (by decide),
      Statement.not_mem_of_identifierChars hname (by decide),
      Statement.not_mem_of_identifierChars hname (by decide)⟩
  have harrow : ∀ {ws}, Spaced ws text → (∀ w ∈ ws, '>' ∉ w) → ¬ Statement.HasInnerArrow text := by
    rintro ws hwords hws ⟨before, behind, -, -, htext⟩
    rcases hwords.isBlank_or_mem '>' (by simp [htext]) with hblank | ⟨w, hw, hmem⟩
    · exact absurd hblank (by decide)
    · exact hws w hw hmem
  cases h with
  | @beside side name hside hidentifier hwords =>
    obtain ⟨hcolon, hquote, hhead⟩ := hname hidentifier
    refine ⟨.beside hside hcolon hquote hwords, harrow hwords ?_⟩
    have hside' : '>' ∉ side := (by decide : ∀ side ∈ ["left".toList, "right".toList,
      "top".toList, "bottom".toList], '>' ∉ side) side hside
    simp [hside', hhead]
  | @named name hidentifier hwords =>
    obtain ⟨hcolon, hquote, hhead⟩ := hname hidentifier
    refine ⟨.named hcolon hquote hwords, harrow hwords ?_⟩
    simp [hhead]

/-- A line that begins a note only opens it. -/
lemma step_opening (hinside : b.inside = true) (hnote : b.inNote = false)
    (h : HeadsNote (trim l.1)) : b.step l = { b with inNote := true } := by
  have hbegins := h.beginsNote
  have hcounts : CanCount (trim l.1) := by
    obtain ⟨c, rest, -, htext⟩ := hbegins.1.exists_blank
    rw [htext]
    exact canCount_of_name (by decide) _
  have hhears : b.Hears (trim l.1) := ⟨hcounts, hinside, hnote⟩
  rw [hhears.step_eq, take, (Statement.ofTrimmed_eq_noteBlock_iff (isTrimmed_trim l.1)).2 hbegins]

/-- A line that cannot count is passed over, and so is any line outside the envelope, but for
markers. -/
lemma step_passed (hmarker : ¬ IsMarker (trim l.1))
    (h : b.inside = false ∨ ¬ CanCount (trim l.1)) : b.step l = b := by
  have hstep := stepsTo_step b l
  generalize b.step l = b' at hstep ⊢
  cases hstep with
  | start hstart => exact absurd ⟨.start, hstart⟩ hmarker
  | stop hstop => exact absurd ⟨.stop, hstop⟩ hmarker
  | passed _ _ => rfl
  | noted hcounts hinside _ => exact h.elim (by simp [hinside]) (not_not_intro hcounts).elim
  | heard hhears => exact h.elim (by simp [hhears.inside]) (not_not_intro hhears.counts).elim

/-- In a note only the end of the note matters, if no marker comes before. -/
lemma step_noted (hinside : b.inside = true) (hnote : b.inNote = true)
    (hmarker : ¬ IsMarker (trim l.1)) :
    b.step l = { b with inNote := !Statement.closesNote (trim l.1) } := by
  have hstep := stepsTo_step b l
  generalize b.step l = b' at hstep ⊢
  cases hstep with
  | start hstart => exact absurd ⟨.start, hstart⟩ hmarker
  | stop hstop => exact absurd ⟨.stop, hstop⟩ hmarker
  | passed _ hpassed =>
    have hcloses : Statement.closesNote (trim l.1) = false := by
      rw [Bool.eq_false_iff, ne_eq, Statement.closesNote_iff]
      exact fun hcloses => hpassed.elim (by simp [hinside])
        (not_not_intro (canCount_of_closesNote hcloses))
    rw [hcloses, Bool.not_false, ← hnote]
  | noted _ _ _ => rfl
  | heard hhears => exact absurd hhears.notInNote (by simp [hnote])

lemma foldl_step_eq_self {ls : List (List Char × Nat)} (h : ∀ l ∈ ls, b.step l = b) :
    ls.foldl step b = b := by
  induction ls with
  | nil => rfl
  | cons l ls ih =>
    rw [List.forall_mem_cons] at h
    rw [List.foldl_cons, h.1, ih h.2]

/-- A whole note leaves the scan as it is: it is opened, stays open, and is closed. -/
lemma foldl_step_note (hinside : b.inside = true) (hnote : b.inNote = false)
    (hopening : HeadsNote (trim opening))
    (hinner : ∀ line ∈ inner, ¬ IsMarker (trim line) ∧ ¬ Statement.ClosesNote (trim line))
    (hclosing : Statement.ClosesNote (trim closing)) :
    ((opening :: inner ++ [closing]).zipIdx n).foldl step b = b := by
  have hopen : b.step (opening, n) = { b with inNote := true } :=
    step_opening hinside hnote hopening
  have hstay : (inner.zipIdx (n + 1)).foldl step { b with inNote := true } =
      { b with inNote := true } := by
    refine foldl_step_eq_self fun l hl => ?_
    obtain ⟨hmarker, hcloses⟩ := hinner l.1 (List.fst_mem_of_mem_zipIdx hl)
    rw [← Statement.closesNote_iff, Bool.not_eq_true] at hcloses
    rw [step_noted (b := { b with inNote := true }) hinside rfl hmarker, hcloses]
    rfl
  have hclose : step { b with inNote := true } (closing, n + 1 + inner.length) = b := by
    have hmarker := (canCount_of_closesNote hclosing).not_isMarker
    rw [step_noted (b := { b with inNote := true }) hinside rfl hmarker,
      Statement.closesNote_iff.2 hclosing, Bool.not_true, ← hnote]
  rw [List.cons_append, List.zipIdx_cons, List.zipIdx_append, List.foldl_cons, List.foldl_append,
    hopen, hstay]
  exact hclose

/-- Inert lines leave the scan as it is. -/
theorem IsInert.foldl_step (h : IsInert texts n inserted) (hknows : Knows texts n b) (first : Nat) :
    (inserted.zipIdx first).foldl step b = b := by
  cases h with
  | passed h =>
    refine foldl_step_eq_self fun l hl => ?_
    have hcomment := h l.1 (List.fst_mem_of_mem_zipIdx hl)
    have hmarker : ¬ IsMarker (trim l.1) := fun hmarker => by
      have hhead := hmarker.head?_eq
      rcases hcomment with hnil | hcomment
      · exact absurd (hnil ▸ hhead) (by simp)
      · exact absurd (hcomment.symm.trans hhead) (by decide)
    exact step_passed hmarker (.inr fun hcounts =>
      hcomment.elim hcounts.ne_nil hcounts.not_comment)
  | outside houtside h =>
    refine foldl_step_eq_self fun l hl => ?_
    rw [← hknows.inside, Bool.not_eq_true] at houtside
    exact step_passed (h l.1 (List.fst_mem_of_mem_zipIdx hl)) (.inl houtside)
  | note hinside hnote hopening hinner hclosing h =>
    rw [← hknows.inNote, Bool.not_eq_true] at hnote
    subst h
    exact foldl_step_note (hknows.inside.2 hinside) hnote hopening hinner hclosing

/-! ## The whole document -/

/-- The lines of a document are those of another and some more, which stand together in front of the
line with a number. -/
def IsInsertion (content : String) (n : Nat) (inserted : List (List Char)) (content' : String) :
    Prop :=
  lines content'.toList = (lines content.toList).take n ++ inserted ++ (lines content.toList).drop n

/-- Lines without line feeds can be put in front of any line. -/
lemma exists_isInsertion (content : String) (n : Nat) (h : ∀ line ∈ inserted, '\n' ∉ line) :
    ∃ content', IsInsertion content n inserted content' := by
  refine exists_lines_eq fun line hline => ?_
  rw [List.append_assoc, List.mem_append, List.mem_append] at hline
  rcases hline with hline | hline | hline
  · exact lineFeed_not_mem_of_mem_lines (List.mem_of_mem_take hline)
  · exact h line hline
  · exact lineFeed_not_mem_of_mem_lines (List.mem_of_mem_drop hline)

/-- With inert lines put into a document the scan finds the same, only further down. -/
lemma check_insertion {content content' : String} (hn : n ≤ (lines content.toList).length)
    (h : IsInert (trimmedLines content) n inserted)
    (hlines : IsInsertion content n inserted content') :
    check content' .none = (check content .none).map (Finding.movedDown n inserted.length) := by
  have hlength : ((lines content.toList).take n).length = n := List.length_take_of_le hn
  -- the lines in front of the new ones, and those behind
  let front := ((lines content.toList).take n).zipIdx 1
  let back := ((lines content.toList).drop n).zipIdx (1 + n)
  have hcut : numberedLines content = front ++ back := by
    conv_lhs => rw [numberedLines, ← List.take_append_drop n (lines content.toList),
      List.zipIdx_append, hlength]
  have hcut' : numberedLines content' =
      front ++ inserted.zipIdx (1 + n) ++ back.map (Prod.map id (· + inserted.length)) := by
    rw [numberedLines, hlines, List.zipIdx_append, List.zipIdx_append, hlength,
      List.map_snd_add_zipIdx_eq_zipIdx, List.length_append, hlength]
    congr 2
    omega
  have hfront : ∀ l ∈ front, Carries (Findings.map (.movedDown n inserted.length)) l.2
      (id l.2) := by
    intro l hl
    obtain ⟨hpos, hle, -⟩ := List.mem_zipIdx hl
    exact carries_movedDown_of_le hpos (by omega)
  have hback : ∀ l ∈ back, Carries (Findings.map (.movedDown n inserted.length)) l.2
      (l.2 + inserted.length) := by
    intro l hl
    obtain ⟨hlater, -, -⟩ := List.mem_zipIdx hl
    exact carries_movedDown_of_lt (by omega)
  -- what is found in front does not move
  have hsame : (front.foldl step (begin .none)).withFound
      (Findings.map (.movedDown n inserted.length)) = front.foldl step (begin .none) := by
    rw [← foldl_step_withFound id hfront, Prod.map_id, List.map_id]
    rfl
  have hknows := knows_afterLines content n (by rwa [numberedLines, List.length_zipIdx])
  rw [afterLines, hcut, List.take_left' (by rwa [List.length_zipIdx])] at hknows
  rw [check, check, hcut, hcut', List.foldl_append, List.foldl_append, List.foldl_append,
    h.foldl_step hknows, ← close_withFound keepsSummary_movedDown,
    ← foldl_step_withFound (· + inserted.length) hback, hsame]

/-- Inert lines leave no trace in the findings of a scan.  They can be put into any document where
they are inert, and then the findings of the lines behind move down by their number, while all other
findings stay as they are. -/
theorem inert_lines_leave_no_trace {content : String} {n : Nat} {inserted : List (List Char)}
    (hn : n ≤ (lines content.toList).length) (hfeed : ∀ line ∈ inserted, '\n' ∉ line)
    (h : IsInert (trimmedLines content) n inserted) :
    (∃ content', IsInsertion content n inserted content') ∧
    ∀ content', IsInsertion content n inserted content' → ∀ found, ∃ recorded,
      check content found = found ++ recorded ∧
      check content' found = found ++ recorded.map (Finding.movedDown n inserted.length) := by
  refine ⟨exists_isInsertion content n hfeed, fun content' hlines found => ?_⟩
  refine ⟨check content .none, ?_, ?_⟩
  · rw [← check_append, Findings.append_none]
  · rw [← check_insertion hn h hlines, ← check_append, Findings.append_none]

/-- A document with a line that is warned about. -/
def puzzled : String := "@startuml\n[*] --> idle\n?\n@enduml"

/-- The same document with a note in front of that line. -/
def annotated : String := "@startuml\n[*] --> idle\nnote left of idle\n?\nend note\n?\n@enduml"

/-- The line is warned about three lines further down, and the same line in the note is not. -/
theorem note_leaves_no_trace :
    IsInert (trimmedLines puzzled) 2
      ["note left of idle".toList, "?".toList, "end note".toList] ∧
    IsInsertion puzzled 2 ["note left of idle".toList, "?".toList, "end note".toList] annotated ∧
    check annotated .none = (check puzzled .none).map (Finding.movedDown 2 3) ∧
    (check annotated .none).warningLines .unknownSyntax = [6] := by
  have hknows := knows_afterLines puzzled 2 (by decide)
  have hnote : ¬ IsInNote (trimmedLines puzzled) 2 := fun hnote =>
    absurd (hknows.inNote.2 hnote) (by decide)
  have hopening : HeadsNote (trim "note left of idle".toList) :=
    .beside (by decide) (by decide) (((isTrimmed_trim _).words_eq_iff (by simp)).1
      (by decide : words _ = ["note".toList, "left".toList, "of".toList, "idle".toList]))
  have hinner : ∀ line ∈ ["?".toList], ¬ IsMarker (trim line) ∧
      ¬ Statement.ClosesNote (trim line) := by
    rw [List.forall_mem_singleton, ← ofTrimmed?_eq_none_iff, ← Statement.closesNote_iff]
    decide
  have hinert : IsInert (trimmedLines puzzled) 2
      ["note left of idle".toList, "?".toList, "end note".toList] :=
    .note (hknows.inside.1 (by decide)) hnote hopening hinner
      (Statement.closesNote_iff.1 (by decide) : Statement.ClosesNote (trim "end note".toList)) rfl
  have hinsertion : IsInsertion puzzled 2
      ["note left of idle".toList, "?".toList, "end note".toList] annotated := by
    unfold IsInsertion
    decide
  obtain ⟨recorded, hplain, hmoved⟩ :=
    (inert_lines_leave_no_trace (by decide) (by decide) hinert).2 _ hinsertion .none
  rw [Findings.none_append] at hplain hmoved
  exact ⟨hinert, hinsertion, by rw [hmoved, hplain]; rfl, by decide⟩

end Body

end DiagramRegistry
