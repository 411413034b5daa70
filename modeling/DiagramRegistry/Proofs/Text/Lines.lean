import DiagramRegistry.Text.Blank
import DiagramRegistry.Text.Lines
import Mathlib.Data.List.Basic
import Mathlib.Data.List.Induction
import Mathlib.Data.List.TakeWhile
import Mathlib.Tactic.Common

/-
# Lines and their texts

What stands in a document stands on its lines, but for the line ends, and the lines are numbered in
their order.  The text of a line is what is left when the blanks around it are dropped: it neither
begins nor ends with a blank, and there are only blanks in front of it and behind it.

* `Text.mem_of_mem_lines`, `Text.exists_mem_lines`: the characters of a document and of its lines;
* `Text.trimsTo_iff`, `Text.isTrimmed_trim`: trimming a line leaves its text.
-/
namespace DiagramRegistry.Text

variable {cs line text front back : List Char}

/-! ## Lines -/

lemma mem_consLine {c x : Char} {ls : List (List Char)} :
    (∃ l ∈ consLine c ls, x ∈ l) ↔ x = c ∨ ∃ l ∈ ls, x ∈ l := by
  cases ls with
  | nil => simp [consLine]
  | cons l ls => simp [consLine, or_assoc]

/-- A character that is no part of a line end lies on some line. -/
lemma exists_mem_lines {x : Char} (hn : x ≠ '\n') (hr : x ≠ '\r') {cs : List Char}
    (h : x ∈ cs) : ∃ l ∈ lines cs, x ∈ l := by
  induction cs with
  | nil => simp at h
  | cons c cs ih =>
    unfold lines
    rcases List.mem_cons.1 h with rfl | h
    · rw [if_neg hn, if_neg (fun hcr => hr hcr.1)]
      exact mem_consLine.2 (.inl rfl)
    · split
      · obtain ⟨l, hl, hx⟩ := ih h
        exact ⟨l, List.mem_cons_of_mem _ hl, hx⟩
      · split
        · exact ih h
        · exact mem_consLine.2 (.inr (ih h))

/-- What stands on a line stands in the document. -/
lemma mem_of_mem_lines {x : Char} {l : List Char} (hl : l ∈ lines cs) (hx : x ∈ l) : x ∈ cs := by
  induction cs generalizing l with
  | nil => simp [lines] at hl
  | cons c cs ih =>
    unfold lines at hl
    split at hl
    · rcases List.mem_cons.1 hl with rfl | hl
      · simp at hx
      · exact List.mem_cons_of_mem _ (ih hl hx)
    · split at hl
      · exact List.mem_cons_of_mem _ (ih hl hx)
      · rcases mem_consLine.1 ⟨l, hl, hx⟩ with rfl | ⟨l', hl', hx'⟩
        · exact List.mem_cons_self
        · exact List.mem_cons_of_mem _ (ih hl' hx')

/-- A text without line feeds is one line. -/
lemma lines_of_not_mem (h : '\n' ∉ cs) (hne : cs ≠ []) : lines cs = [cs] := by
  induction cs with
  | nil => exact absurd rfl hne
  | cons c cs ih =>
    rw [List.mem_cons, not_or] at h
    have hend : ¬ (c = '\r' ∧ cs.head? = some '\n') := fun ⟨_, hhead⟩ =>
      h.2 (List.mem_of_head? hhead)
    rw [lines, if_neg (Ne.symm h.1), if_neg hend]
    cases cs with
    | nil => rfl
    | cons d ds => rw [ih h.2 (by simp)]; rfl

/-- There is no line feed on a line. -/
lemma lineFeed_not_mem_of_mem_lines (h : line ∈ lines cs) : '\n' ∉ line := by
  induction cs generalizing line with
  | nil => simp [lines] at h
  | cons c cs ih =>
    unfold lines at h
    split_ifs at h with hfeed hreturn
    · rcases List.mem_cons.1 h with rfl | h
      · exact List.not_mem_nil
      · exact ih h
    · exact ih h
    · intro hmem
      rcases mem_consLine.1 ⟨line, h, hmem⟩ with rfl | ⟨l, hl, hmem⟩
      · exact hfeed rfl
      · exact ih hl hmem

/-- A line in front of others, with its end. -/
lemma lines_append_end (h : '\n' ∉ line) (rest : List Char) :
    lines (line ++ "\r\n".toList ++ rest) = line :: lines rest := by
  induction line with
  | nil => rfl
  | cons c line ih =>
    rw [List.mem_cons, not_or] at h
    -- a carriage return on the line is not the one of its end
    have hend : ¬ (c = '\r' ∧ (line ++ "\r\n".toList ++ rest).head? = some '\n') := by
      rintro ⟨-, hhead⟩
      cases line with
      | nil => exact absurd hhead (by simp)
      | cons d line =>
        obtain rfl : d = '\n' := Option.some.inj hhead
        exact h.2 List.mem_cons_self
    rw [List.cons_append, List.cons_append, lines, if_neg (Ne.symm h.1), if_neg hend, ih h.2]
    rfl

/-- Any texts without line feeds are the lines of some document. -/
lemma exists_lines_eq {ls : List (List Char)} (h : ∀ line ∈ ls, '\n' ∉ line) :
    ∃ content : String, lines content.toList = ls := by
  suffices ∃ cs, lines cs = ls by
    obtain ⟨cs, hcs⟩ := this
    exact ⟨String.ofList cs, by rw [String.toList_ofList, hcs]⟩
  induction ls with
  | nil => exact ⟨[], rfl⟩
  | cons line ls ih =>
    rw [List.forall_mem_cons] at h
    obtain ⟨rest, hrest⟩ := ih h.2
    exact ⟨line ++ "\r\n".toList ++ rest, by rw [lines_append_end h.1, hrest]⟩

lemma pairwise_numberedLines (content : String) :
    (numberedLines content).Pairwise fun l l' => l.2 < l'.2 := by
  rw [← List.pairwise_map (f := Prod.snd) (R := (· < ·)), numberedLines, List.zipIdx_map_snd]
  exact List.pairwise_lt_range'

/-! ## The blanks around a line -/

/-- The text of a line: all but the blanks in front of it and behind it. -/
inductive TrimsTo (line text : List Char) : Prop where
  /-- The text neither begins nor ends with a blank. -/
  | intro {front back : List Char} (hline : line = front ++ text ++ back)
      (hfront : ∀ c ∈ front, isBlank c = true) (hback : ∀ c ∈ back, isBlank c = true)
      (hhead : ∀ c ∈ text.head?, isBlank c = false)
      (hlast : ∀ c ∈ text.getLast?, isBlank c = false)

lemma trimEnd_append (hback : ∀ c ∈ back, isBlank c = true) :
    trimEnd (cs ++ back) = trimEnd cs := by
  induction cs with
  | nil =>
    induction back with
    | nil => rfl
    | cons b back ih =>
      rw [List.forall_mem_cons] at hback
      have hnil : trimEnd back = [] := ih hback.2
      simp [trimEnd, hnil, hback.1]
  | cons c cs ih => rw [List.cons_append, trimEnd, trimEnd, ih]

lemma trimEnd_concat {b : Char} (h : isBlank b = false) : trimEnd (cs ++ [b]) = cs ++ [b] := by
  induction cs with
  | nil => simp [trimEnd, h]
  | cons c cs ih =>
    rw [List.cons_append, trimEnd, ih]
    cases cs <;> rfl

lemma trimEnd_eq_self (hlast : ∀ c ∈ text.getLast?, isBlank c = false) : trimEnd text = text := by
  rcases List.eq_nil_or_concat' text with rfl | ⟨cs, b, rfl⟩
  · rfl
  · exact trimEnd_concat (hlast b (by simp))

lemma exists_trimEnd (cs : List Char) :
    ∃ back, cs = trimEnd cs ++ back ∧ (∀ c ∈ back, isBlank c = true) ∧
      ∀ c ∈ (trimEnd cs).getLast?, isBlank c = false := by
  induction cs using List.reverseRecOn with
  | nil => exact ⟨[], by simp [trimEnd]⟩
  | append_singleton cs b ih =>
    cases hb : isBlank b with
    | false =>
      rw [trimEnd_concat hb]
      exact ⟨[], by simp, by simp, by simpa using hb⟩
    | true =>
      obtain ⟨back, hcs, hback, hlast⟩ := ih
      rw [trimEnd_append (by simpa using hb)]
      refine ⟨back ++ [b], by rw [← List.append_assoc, ← hcs], fun c hc => ?_, hlast⟩
      rcases List.mem_append.1 hc with hc | hc
      · exact hback c hc
      · rw [List.mem_singleton.1 hc, hb]

/-- Trimming a line leaves its text. -/
lemma trimsTo_iff : TrimsTo line text ↔ trim line = text := by
  constructor
  · rintro ⟨rfl, hfront, hback, hhead, hlast⟩
    rw [trim, trimStart, List.append_assoc, List.dropWhile_append_of_pos hfront]
    cases text with
    | nil =>
      have hnil : List.dropWhile isBlank _ = [] := List.dropWhile_eq_nil_iff.2 hback
      rw [List.nil_append, hnil]
      rfl
    | cons c cs =>
      rw [List.cons_append, List.dropWhile_cons_of_neg (by simpa using hhead c rfl),
        ← List.cons_append, trimEnd_append hback, trimEnd_eq_self hlast]
  · rintro rfl
    obtain ⟨back, hstart, hback, hlast⟩ := exists_trimEnd (trimStart line)
    have hline : line = line.takeWhile isBlank ++ trim line ++ back := by
      rw [List.append_assoc, trim, ← hstart]
      exact List.takeWhile_append_dropWhile.symm
    refine .intro hline (fun c hc => List.mem_takeWhile_imp hc) hback (fun c hc => ?_) hlast
    -- the text begins where the blanks end
    have hhead : (line.dropWhile isBlank).head? = some c := by
      change (trimStart line).head? = some c
      rw [hstart]
      exact List.mem_head?_append_of_mem_head? hc
    simpa [hhead] using List.head?_dropWhile_not isBlank line

/-- Nothing is trimmed from a text that begins and ends with other characters than blanks. -/
lemma trim_eq {a b : Char} (ha : isBlank a = false) (hb : isBlank b = false) :
    trim (a :: cs ++ [b]) = a :: cs ++ [b] := by
  have hstart : trimStart (a :: cs ++ [b]) = a :: cs ++ [b] := by simp [trimStart, ha]
  rw [trim, hstart, trimEnd_concat hb]

/-- A text that neither begins nor ends with a blank. -/
structure IsTrimmed (text : List Char) : Prop where
  /-- It does not begin with one. -/
  head : ∀ c ∈ text.head?, isBlank c = false
  /-- It does not end with one. -/
  last : ∀ c ∈ text.getLast?, isBlank c = false

lemma isTrimmed_trim (line : List Char) : IsTrimmed (trim line) := by
  obtain ⟨-, -, -, hhead, hlast⟩ := trimsTo_iff.2 (rfl : trim line = trim line)
  exact ⟨hhead, hlast⟩

/-- No end of such a text is blank. -/
lemma IsTrimmed.trimStart_ne_nil (h : IsTrimmed (front ++ back)) (hne : back ≠ []) :
    trimStart back ≠ [] := by
  obtain ⟨cs, c, rfl⟩ := (List.eq_nil_or_concat back).resolve_left hne
  intro hnil
  have hc : isBlank c = false := h.last c (by simp)
  rw [List.dropWhile_eq_nil_iff.1 hnil c (by simp)] at hc
  exact absurd hc (by simp)

end DiagramRegistry.Text
