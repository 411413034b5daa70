import DiagramRegistry.Proofs.Document.Scan
import DiagramRegistry.Proofs.Validation.Appending
import Mathlib.Data.List.Nodup

/-
# The markers of a document

What the envelope check finds is decided by the numbers of the lines with a start marker and of
those with an end marker.  Every line of either kind but the first is a repetition, and the
repetitions of both kinds are reported in the order of the lines.  What is missing or in the wrong
order is reported behind them, from the first line of either kind.

* `Envelope.StepsTo.knows`: what the check knows after one line more;
* `Envelope.markers_are_judged`: the findings of the whole check, and the documents without any.
-/
namespace DiagramRegistry.Envelope

open Text

/-- The numbers of the lines that start with a marker as a whole word. -/
def markerLines (marker : Marker) (ls : List (List Char × Nat)) : List Nat :=
  (ls.filter fun l => StartsWith (trim l.1) marker.text.toList).map Prod.snd

/-- What a finding is about, and the line it is tied to. -/
def place (f : Finding) : Code × Nat := (f.code, f.line)

/-- Each line of a marker but the first, under the code for its repetition. -/
def repetitions (code : Code) (lines : List Nat) : List (Code × Nat) := lines.tail.map (code, ·)

/-- The repetitions of both markers, in the order of the lines. -/
def interleaved (starts stops : List Nat) : List (Code × Nat) :=
  (repetitions .duplicateStart starts).merge (repetitions .duplicateEnd stops) fun p q => p.2 ≤ q.2

/-- The first start marker is behind the first end marker. -/
def misplaced : List Nat → List Nat → List (Code × Nat)
  | start :: _, stop :: _ => if stop < start then [(.invalidOrder, start)] else []
  | _, _ => []

/-- What is reported when all lines are read: the repetitions, a missing start marker on the first
line, a missing end marker on the last one, and a start marker behind the first end marker. -/
def judged (starts stops : List Nat) (lineCount : Nat) : List (Code × Nat) :=
  interleaved starts stops ++
    (if starts = [] then [(.missingStart, 1)] else []) ++
    (if stops = [] then [(.missingEnd, max lineCount 1)] else []) ++
    misplaced starts stops

variable {starts stops : List Nat} {ls : List (List Char × Nat)} {l : List Char × Nat}
  {e e' : Envelope} {marker : Marker}

/-! ## Two lists in one order -/

section Merge

variable {α : Type*} {le : α → α → Bool} {x : α} {xs ys : List α}

/-- A new last element of the first list is the last one of all, when it is not before any of the
second list. -/
lemma merge_concat_left (h : ∀ y ∈ ys, le x y = false) :
    (xs ++ [x]).merge ys le = xs.merge ys le ++ [x] := by
  fun_induction List.merge xs ys le with
  | case1 ys =>
    induction ys with
    | nil => simp
    | cons y ys ih =>
      rw [List.forall_mem_cons] at h
      rw [List.nil_append] at ih ⊢
      rw [List.cons_merge_cons_neg _ _ _ (by simp [h.1]), ih h.2]
      rfl
  | case2 xs => simp
  | case3 a xs b ys hle ih =>
    rw [List.cons_append, List.cons_merge_cons_pos _ _ _ hle, ih h]
    rfl
  | case4 a xs b ys hle ih =>
    rw [List.forall_mem_cons] at h
    rw [List.cons_append] at ih ⊢
    rw [List.cons_merge_cons_neg _ _ _ hle, ih h.2]
    rfl

/-- A new last element of the second list is the last one of all, when all of the first list are
before it. -/
lemma merge_concat_right (h : ∀ y ∈ xs, le y x = true) :
    xs.merge (ys ++ [x]) le = xs.merge ys le ++ [x] := by
  fun_induction List.merge xs ys le with
  | case1 ys => simp
  | case2 xs =>
    refine List.merge_of_le fun y z hy hz => ?_
    rw [List.mem_singleton.1 hz]
    exact h y hy
  | case3 a xs b ys hle ih =>
    rw [List.forall_mem_cons] at h
    rw [List.cons_append] at ih ⊢
    rw [List.cons_merge_cons_pos _ _ _ hle, ih h.2]
    rfl
  | case4 a xs b ys hle ih =>
    rw [List.cons_append, List.cons_merge_cons_neg _ _ _ hle, ih h]
    rfl

end Merge

/-! ## The lines of a marker -/

lemma markerLines_concat (h : Marker.ofTrimmed? (trim l.1) = some marker) :
    markerLines marker (ls ++ [l]) = markerLines marker ls ++ [l.2] := by
  rw [Marker.ofTrimmed?_eq_some_iff] at h
  simp [markerLines, h]

lemma markerLines_concat_of_ne (h : Marker.ofTrimmed? (trim l.1) ≠ some marker) :
    markerLines marker (ls ++ [l]) = markerLines marker ls := by
  rw [ne_eq, Marker.ofTrimmed?_eq_some_iff] at h
  simp [markerLines, h]

lemma exists_of_mem_markerLines {n : Nat} (h : n ∈ markerLines marker ls) :
    ∃ l ∈ ls, l.2 = n ∧ Marker.ofTrimmed? (trim l.1) = some marker := by
  obtain ⟨l, hl, rfl⟩ := List.mem_map.1 h
  rw [List.mem_filter, decide_eq_true_eq, ← Marker.ofTrimmed?_eq_some_iff] at hl
  exact ⟨l, hl.1, rfl, hl.2⟩

lemma repetitions_concat (code : Code) (lines : List Nat) (n : Nat) :
    repetitions code (lines ++ [n]) =
      repetitions code lines ++ if lines = [] then [] else [(code, n)] := by
  cases lines <;> simp [repetitions]

lemma mem_of_mem_repetitions {code : Code} {lines : List Nat} {p : Code × Nat}
    (h : p ∈ repetitions code lines) : p.2 ∈ lines := by
  obtain ⟨n, hn, rfl⟩ := List.mem_map.1 h
  exact List.mem_of_mem_tail hn

/-- The code for the repetitions of a marker. -/
def repeatedCode : Marker → Code
  | .start => .duplicateStart
  | .stop => .duplicateEnd

/-- A marker behind all other lines is reported behind all repetitions, if it is one. -/
lemma interleaved_concat (h : Marker.ofTrimmed? (trim l.1) = some marker)
    (hlast : ∀ l' ∈ ls, l'.2 < l.2) :
    interleaved (markerLines .start (ls ++ [l])) (markerLines .stop (ls ++ [l])) =
      interleaved (markerLines .start ls) (markerLines .stop ls) ++
        if markerLines marker ls = [] then [] else [(repeatedCode marker, l.2)] := by
  have hbefore : ∀ {code marker}, ∀ p ∈ repetitions code (markerLines marker ls), p.2 < l.2 := by
    intro code marker p hp
    obtain ⟨l', hl', hline, -⟩ := exists_of_mem_markerLines (mem_of_mem_repetitions hp)
    exact hline ▸ hlast l' hl'
  cases marker with
  | start =>
    rw [markerLines_concat h, markerLines_concat_of_ne (by simp [h]), interleaved,
      repetitions_concat]
    split_ifs
    · rw [List.append_nil, List.append_nil, interleaved]
    · exact merge_concat_left fun p hp => by simpa using hbefore p hp
  | stop =>
    rw [markerLines_concat h, markerLines_concat_of_ne (by simp [h]), interleaved,
      repetitions_concat]
    split_ifs
    · rw [List.append_nil, List.append_nil, interleaved]
    · exact merge_concat_right fun p hp => by simpa using (hbefore p hp).le

/-! ## One line more -/

/-- The line of a marker that was seen first. -/
def first? (e : Envelope) : Marker → Option Nat
  | .start => e.start?
  | .stop => e.stop?

/-- Remember the line of a marker. -/
def remember (e : Envelope) (n : Nat) : Marker → Envelope
  | .start => { e with start? := some n }
  | .stop => { e with stop? := some n }

/-- What a line can do to the check. -/
inductive StepsTo (e : Envelope) (l : List Char × Nat) : Envelope → Prop where
  /-- A line that is no marker is passed over. -/
  | passed (h : Marker.ofTrimmed? (trim l.1) = none) : StepsTo e l e
  /-- The first line of a marker is remembered. -/
  | first {marker : Marker} (h : Marker.ofTrimmed? (trim l.1) = some marker)
      (hfirst : e.first? marker = none) : StepsTo e l (e.remember l.2 marker)
  /-- Any other is a repetition. -/
  | again {marker : Marker} (h : Marker.ofTrimmed? (trim l.1) = some marker) {first : Nat}
      (hfirst : e.first? marker = some first) :
      StepsTo e l { e with
        found := e.found.error
          (repeated (repeatedCode marker) marker first l.2 (indentation l.1 + 1)) }

/-- A line does one of these three things. -/
lemma stepsTo_step (e : Envelope) (l : List Char × Nat) : StepsTo e l (e.step l) := by
  cases hmarker : Marker.ofTrimmed? (trim l.1) with
  | none => simpa only [step, hmarker] using StepsTo.passed hmarker
  | some marker =>
    cases hfirst : e.first? marker with
    | none =>
      have hstep : e.step l = e.remember l.2 marker := by
        cases marker <;> simp only [first?] at hfirst <;>
          simp only [step, remember, hmarker, hfirst]
      exact hstep ▸ .first hmarker hfirst
    | some first =>
      have hstep : e.step l = { e with
          found := e.found.error
            (repeated (repeatedCode marker) marker first l.2 (indentation l.1 + 1)) } := by
        cases marker <;> simp only [first?] at hfirst <;>
          simp only [step, repeatedCode, hmarker, hfirst]
      exact hstep ▸ .again hmarker hfirst

/-- What the check knows after some lines are the first line of either marker and the repetitions of
both. -/
structure Knows (ls : List (List Char × Nat)) (e : Envelope) : Prop where
  /-- The first line of either marker. -/
  first : ∀ marker, e.first? marker = (markerLines marker ls).head?
  /-- The repetitions. -/
  errors : e.found.errors.map place = interleaved (markerLines .start ls) (markerLines .stop ls)
  /-- There is no warning. -/
  warnings : e.found.warnings = []

lemma knows_begin : Knows [] ⟨none, none, .none⟩ where
  first marker := by cases marker <;> rfl
  errors := by simp [markerLines, interleaved, repetitions, Findings.none]
  warnings := rfl

/-- One line more. -/
theorem StepsTo.knows (hstep : StepsTo e l e') (h : Knows ls e) (hpos : 0 < l.2)
    (hlast : ∀ l' ∈ ls, l'.2 < l.2) : Knows (ls ++ [l]) e' := by
  obtain ⟨hfirst, herrors, hwarnings⟩ := h
  cases hstep with
  | passed hmarker =>
    have hsame : ∀ marker, markerLines marker (ls ++ [l]) = markerLines marker ls :=
      fun marker => markerLines_concat_of_ne (by simp [hmarker])
    exact ⟨fun marker => by rw [hsame, hfirst], by rw [hsame, hsame, herrors], hwarnings⟩
  | @first marker hmarker hnone =>
    have hnil : markerLines marker ls = [] := by rwa [hfirst, List.head?_eq_none_iff] at hnone
    have hsame : ∀ other, other ≠ marker →
        (e.remember l.2 marker).first? other = e.first? other := by
      intro other hother
      cases marker <;> cases other <;> first | rfl | exact absurd rfl hother
    have hfound : (e.remember l.2 marker).found = e.found := by cases marker <;> rfl
    refine ⟨fun other => ?_, ?_, hfound ▸ hwarnings⟩
    · by_cases hother : other = marker
      · subst hother
        rw [markerLines_concat hmarker, hnil]
        cases other <;> rfl
      · have hne : Marker.ofTrimmed? (trim l.1) ≠ some other := by
          simpa [hmarker] using Ne.symm hother
        rw [hsame other hother, hfirst, markerLines_concat_of_ne hne]
    · rw [interleaved_concat hmarker hlast, if_pos hnil, List.append_nil, hfound, herrors]
  | @again marker hmarker first hsome =>
    have hne : markerLines marker ls ≠ [] := by
      intro hnil
      rw [hfirst, hnil] at hsome
      exact absurd hsome (by simp)
    refine ⟨fun other => ?_, ?_, hwarnings⟩
    · refine (hfirst other).trans ?_
      by_cases hother : other = marker
      · rw [hother, markerLines_concat hmarker, List.head?_append_of_ne_nil _ hne]
      · rw [markerLines_concat_of_ne (by simpa [hmarker] using Ne.symm hother)]
    · have hplace : place (repeated (repeatedCode marker) marker first l.2 (indentation l.1 + 1)) =
          (repeatedCode marker, l.2) := congrArg (Prod.mk _) (max_eq_left hpos)
      rw [interleaved_concat hmarker hlast, if_neg hne, ← herrors, Findings.error, List.map_append,
        List.map_singleton, hplace]

/-! ## The whole document -/

/-- After all lines the check knows the first line of either marker and the repetitions. -/
lemma knows_foldl (ls : List (List Char × Nat)) (hpos : ∀ l ∈ ls, 0 < l.2)
    (hlast : ls.Pairwise fun l l' => l.2 < l'.2) :
    Knows ls (ls.foldl step ⟨none, none, .none⟩) := by
  induction ls using List.reverseRecOn with
  | nil => exact knows_begin
  | append_singleton ls l ih =>
    rw [List.forall_mem_append] at hpos
    obtain ⟨hlast, -, hbehind⟩ := List.pairwise_append.1 hlast
    rw [List.foldl_append]
    exact (stepsTo_step _ l).knows (ih hpos.1 hlast) (hpos.2 l (by simp))
      fun l' hl' => hbehind l' hl' l (by simp)

lemma knows_numberedLines (content : String) :
    Knows (numberedLines content) ((numberedLines content).foldl step ⟨none, none, .none⟩) := by
  refine knows_foldl _ (fun l hl => ?_) (pairwise_numberedLines content)
  exact (List.mem_zipIdx hl).1

/-- The lines of a document with a marker. -/
def linesOf (content : String) (marker : Marker) : List Nat :=
  markerLines marker (numberedLines content)

lemma pos_of_mem_linesOf {content : String} {n : Nat} (h : n ∈ linesOf content marker) : 0 < n := by
  obtain ⟨l, hl, rfl, -⟩ := exists_of_mem_markerLines h
  exact (List.mem_zipIdx hl).1

/-- No line has both markers. -/
lemma disjoint_linesOf {content : String} {n : Nat} (hstart : n ∈ linesOf content .start) :
    n ∉ linesOf content .stop := by
  intro hstop
  obtain ⟨l, hl, hn, hstart⟩ := exists_of_mem_markerLines hstart
  obtain ⟨l', hl', hn', hstop⟩ := exists_of_mem_markerLines hstop
  have hnodup : ((numberedLines content).map Prod.snd).Nodup := by
    rw [numberedLines, List.zipIdx_map_snd]
    exact List.nodup_range'
  obtain rfl := List.inj_on_of_nodup_map hnodup hl hl' (hn.trans hn'.symm)
  exact absurd (hstart.symm.trans hstop) (by simp)

/-- In the end the first lines of the markers are compared. -/
lemma Knows.close (h : Knows ls e) (hpos : ∀ n ∈ markerLines .start ls, 0 < n)
    (hdisjoint : ∀ n ∈ markerLines .start ls, n ∉ markerLines .stop ls) (lineCount : Nat) :
    (e.close lineCount).warnings = [] ∧ (e.close lineCount).errors.map place =
      judged (markerLines .start ls) (markerLines .stop ls) lineCount := by
  obtain ⟨hfirst, herrors, hwarnings⟩ := h
  obtain ⟨start?, stop?, found⟩ := e
  obtain rfl : start? = _ := hfirst .start
  obtain rfl : stop? = _ := hfirst .stop
  rw [judged, ← herrors]
  generalize markerLines .start ls = starts at *
  generalize markerLines .stop ls = stops at *
  cases starts with
  | nil =>
    cases stops <;>
      simpa [Envelope.close, Findings.error, place, Finding.atPosition, misplaced] using hwarnings
  | cons start starts =>
    cases stops with
    | nil =>
      simpa [Envelope.close, Findings.error, place, Finding.atPosition, misplaced] using hwarnings
    | cons stop stops =>
      -- the markers are not on one line, so the order is strict
      have hne : start ≠ stop := by
        rintro rfl
        exact hdisjoint start (by simp) (by simp)
      have horder : stop ≤ start ↔ stop < start := by omega
      have hline : max start 1 = start := max_eq_left (hpos start (by simp))
      by_cases hlt : stop < start
      · simpa [Envelope.close, misplaced, horder, hlt, Findings.error, Finding.atPosition, place,
          hline] using hwarnings
      · simpa [Envelope.close, misplaced, horder, hlt] using hwarnings

lemma interleaved_eq_nil_iff :
    interleaved starts stops = [] ↔ starts.length ≤ 1 ∧ stops.length ≤ 1 := by
  rw [← List.length_eq_zero_iff, interleaved, List.length_merge, repetitions, repetitions,
    List.length_map, List.length_map, List.length_tail, List.length_tail]
  omega

/-- A marker that is neither missing nor repeated stands on one line. -/
lemma exists_eq_singleton {lines : List Nat} {p : Code × Nat}
    (hmissing : (if lines = [] then [p] else []) = []) (hlength : lines.length ≤ 1) :
    ∃ n, lines = [n] := by
  refine List.length_eq_one_iff.1 (le_antisymm hlength (List.length_pos_iff.2 ?_))
  rintro rfl
  exact absurd hmissing (by simp)

/-- There is nothing to report when there is one start marker and one later end marker. -/
lemma judged_eq_nil_iff {lineCount : Nat} (hdisjoint : ∀ n ∈ starts, n ∉ stops) :
    judged starts stops lineCount = [] ↔
      ∃ start stop, starts = [start] ∧ stops = [stop] ∧ start < stop := by
  simp only [judged, List.append_eq_nil_iff, interleaved_eq_nil_iff]
  constructor
  · rintro ⟨⟨⟨⟨hstarts, hstops⟩, hstart⟩, hstop⟩, horder⟩
    obtain ⟨start, rfl⟩ := exists_eq_singleton hstart hstarts
    obtain ⟨stop, rfl⟩ := exists_eq_singleton hstop hstops
    have hne : start ≠ stop := by simpa using hdisjoint start (by simp)
    have hle : ¬ stop < start := by simpa [misplaced] using horder
    exact ⟨start, stop, rfl, rfl, by omega⟩
  · rintro ⟨start, stop, rfl, rfl, hlt⟩
    simpa [misplaced] using hlt.le

/-- The envelope check reports the repetitions of both markers in the order of the lines; then a
missing start marker on the first line, a missing end marker on the last line, and a start marker
behind the first end marker; and nothing else.  So there is nothing to report exactly when there is
one start marker and one later end marker. -/
theorem markers_are_judged (content : String) (found : Findings) :
    ∃ recorded, check content found = found ++ recorded ∧ recorded.warnings = [] ∧
      recorded.errors.map place =
        judged (linesOf content .start) (linesOf content .stop) (lines content.toList).length ∧
      (recorded.errors = [] ↔
        ∃ start stop, linesOf content .start = [start] ∧ linesOf content .stop = [stop] ∧
          start < stop) := by
  have hclose : _ ∧ _ = judged (linesOf content .start) (linesOf content .stop) _ :=
    (knows_numberedLines content).close (fun _ => pos_of_mem_linesOf) (fun _ => disjoint_linesOf)
      (numberedLines content).length
  obtain ⟨hwarnings, herrors⟩ := hclose
  refine ⟨check content .none, ?_, hwarnings, ?_, ?_⟩
  · rw [← check_append, Findings.append_none]
  · rw [check, herrors, numberedLines, List.length_zipIdx]
  · rw [← List.map_eq_nil_iff, check, herrors, judged_eq_nil_iff fun _ => disjoint_linesOf]

end DiagramRegistry.Envelope
