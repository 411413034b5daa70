import DiagramRegistry.Proofs.Text.Lines

/-
# Words

A text starts with a keyword when the keyword is all of it or a blank follows.  The words of a text
are the runs of characters that are no blanks, as long as possible.  A text without blanks around
it has given words exactly when it consists of them, with some blanks between each and the next.

* `Text.startsWithWord_iff`: the texts that start with a keyword;
* `Text.IsTrimmed.words_eq_iff`: the texts with given words.
-/
namespace DiagramRegistry.Text

variable {text keyword w gap rest : List Char} {ws : List (List Char)}

/-! ## Keywords -/

/-- A text starts with a keyword as a whole word. -/
inductive StartsWith (text keyword : List Char) : Prop where
  /-- The keyword is all of the text. -/
  | alone (h : text = keyword)
  /-- The keyword is followed by a blank. -/
  | followed {b : Char} {rest : List Char} (hb : isBlank b = true) (h : text = keyword ++ b :: rest)

lemma StartsWith.head?_eq (h : StartsWith text keyword) (hne : keyword ≠ []) :
    text.head? = keyword.head? := by
  obtain ⟨c, cs, rfl⟩ := List.exists_cons_of_ne_nil hne
  rcases h with rfl | ⟨-, rfl⟩ <;> rfl

lemma startsWithWord_iff : startsWithWord text keyword = true ↔ StartsWith text keyword := by
  unfold startsWithWord
  constructor
  · intro h
    split at h
    · exact absurd h (by simp)
    · rename_i hrest
      exact .alone (by simpa using after?_eq_some_iff.1 hrest)
    · rename_i hrest
      exact .followed h (after?_eq_some_iff.1 hrest)
  · rintro (rfl | ⟨hb, rfl⟩)
    · rw [after?_eq_some_iff.2 (List.append_nil _).symm]
    · rw [after?_eq_some_iff.2 rfl]
      exact hb

instance (text keyword : List Char) : Decidable (StartsWith text keyword) :=
  decidable_of_iff _ startsWithWord_iff

/-! ## The words of a text -/

/-- A word has characters, and none of them is blank. -/
structure IsWord (w : List Char) : Prop where
  /-- There is a character. -/
  ne_nil : w ≠ []
  /-- No character is blank. -/
  solid : ∀ c ∈ w, isBlank c = false

/-- A text consists of words, with some blanks between each and the next. -/
inductive Spaced : List (List Char) → List Char → Prop where
  /-- A single word. -/
  | last {w : List Char} (hw : IsWord w) : Spaced [w] w
  /-- A word in front of others. -/
  | next {w gap rest : List Char} {ws : List (List Char)} (hw : IsWord w) (hne : gap ≠ [])
      (hgap : ∀ c ∈ gap, isBlank c = true) (hrest : Spaced ws rest) :
      Spaced (w :: ws) (w ++ gap ++ rest)

/-- What stands in a text is blank or stands in a word. -/
lemma Spaced.isBlank_or_mem (h : Spaced ws text) :
    ∀ c ∈ text, isBlank c = true ∨ ∃ w ∈ ws, c ∈ w := by
  induction h with
  | last hw => exact fun c hc => .inr ⟨_, List.mem_cons_self, hc⟩
  | next hw hne hgap hrest ih =>
    intro c hc
    rcases List.mem_append.1 hc with hc | hc
    · rcases List.mem_append.1 hc with hc | hc
      · exact .inr ⟨_, List.mem_cons_self, hc⟩
      · exact .inl (hgap c hc)
    · exact (ih c hc).imp_right fun ⟨w, hw, hc⟩ => ⟨w, List.mem_cons_of_mem _ hw, hc⟩

lemma words_append_blank {b : Char} (hb : isBlank b = true) (cs rest : List Char) :
    words (cs ++ b :: rest) = words cs ++ words rest := by
  rw [words, List.splitOnP_append_cons _ _ hb, List.filter_append]
  rfl

lemma words_blanks_append (hgap : ∀ c ∈ gap, isBlank c = true) :
    words (gap ++ rest) = words rest := by
  induction gap with
  | nil => rfl
  | cons b gap ih =>
    rw [List.forall_mem_cons] at hgap
    have hnil : words [] = [] := by simp [words]
    rw [List.cons_append, ← List.nil_append (b :: _), words_append_blank hgap.1, hnil,
      List.nil_append, ih hgap.2]

lemma IsWord.words_eq (hw : IsWord w) : words w = [w] := by
  rw [words, List.splitOnP_eq_singleton fun c hc => hw.solid c hc]
  simp [hw.ne_nil]

lemma words_nil : words [] = [] := by simp [words]

/-- A word is the first one when a blank follows it, or nothing. -/
lemma IsWord.words_append (hw : IsWord w) (hrest : ∀ c ∈ rest.head?, isBlank c = true) :
    words (w ++ rest) = w :: words rest := by
  cases rest with
  | nil => rw [List.append_nil, hw.words_eq, words_nil]
  | cons b rest =>
    have hb : isBlank b = true := hrest b rfl
    have hskip : words ([b] ++ rest) = words rest := words_blanks_append (by simpa using hb)
    rw [words_append_blank hb, hw.words_eq, ← hskip]
    rfl

/-- A text that begins with no blank begins with a word. -/
lemma exists_isWord_append (hhead : ∀ c ∈ text.head?, isBlank c = false) (hne : text ≠ []) :
    ∃ w rest, text = w ++ rest ∧ IsWord w ∧ ∀ c ∈ rest.head?, isBlank c = true := by
  refine ⟨text.takeWhile (!isBlank ·), text.dropWhile (!isBlank ·), ?_, ⟨?_, ?_⟩, ?_⟩
  · exact List.takeWhile_append_dropWhile.symm
  · obtain ⟨c, cs, rfl⟩ := List.exists_cons_of_ne_nil hne
    simp [hhead c rfl]
  · intro c hc
    simpa using List.mem_takeWhile_imp hc
  · intro c hc
    have h := List.head?_dropWhile_not (!isBlank ·) text
    rw [hc] at h
    simpa using h

/-- Any text is some blanks and then a text that begins with no blank. -/
lemma exists_blanks_append (text : List Char) :
    ∃ gap rest, text = gap ++ rest ∧ (∀ c ∈ gap, isBlank c = true) ∧
      ∀ c ∈ rest.head?, isBlank c = false := by
  refine ⟨text.takeWhile isBlank, text.dropWhile isBlank, List.takeWhile_append_dropWhile.symm,
    fun c hc => List.mem_takeWhile_imp hc, fun c hc => ?_⟩
  have h := List.head?_dropWhile_not isBlank text
  rw [hc] at h
  simpa using h

lemma Spaced.words_eq (h : Spaced ws text) : words text = ws := by
  induction h with
  | last hw => exact hw.words_eq
  | @next w gap rest ws hw hne hgap hrest ih =>
    rw [List.append_assoc, hw.words_append, words_blanks_append hgap, ih]
    obtain ⟨b, gap, rfl⟩ := List.exists_cons_of_ne_nil hne
    intro c hc
    exact hgap c (by simpa using Or.inl (Option.some.inj hc).symm)

lemma IsTrimmed.spaced_words (h : IsTrimmed text) (hne : text ≠ []) :
    Spaced (words text) text := by
  induction hn : text.length using Nat.strong_induction_on generalizing text with | _ n ih
  subst hn
  obtain ⟨w, rest, rfl, hw, hrest⟩ := exists_isWord_append h.head hne
  obtain ⟨gap, tail, rfl, hgap, htail⟩ := exists_blanks_append rest
  rw [hw.words_append hrest, words_blanks_append hgap]
  cases tail with
  | nil =>
    -- there are no blanks behind the last word
    obtain rfl : gap = [] := by
      by_contra hgapne
      rw [List.append_nil] at h
      exact h.trimStart_ne_nil hgapne (List.dropWhile_eq_nil_iff.2 hgap)
    rw [words_nil, List.append_nil, List.append_nil]
    exact .last hw
  | cons c tail =>
    have hgapne : gap ≠ [] := by
      rintro rfl
      have hc := hrest c rfl
      rw [htail c rfl] at hc
      exact absurd hc (by simp)
    have hlength : (c :: tail).length < (w ++ (gap ++ c :: tail)).length := by
      have := List.length_pos_of_ne_nil hw.ne_nil
      simp only [List.length_append]
      omega
    have htrimmed : IsTrimmed (c :: tail) := by
      refine ⟨htail, fun d hd => h.last d ?_⟩
      rw [← List.append_assoc, List.getLast?_append, hd]
      rfl
    rw [← List.append_assoc]
    exact .next hw hgapne hgap (ih _ hlength htrimmed (by simp) rfl)

/-- A text without blanks around it has the words that it consists of. -/
lemma IsTrimmed.words_eq_iff (h : IsTrimmed text) (hne : ws ≠ []) :
    words text = ws ↔ Spaced ws text := by
  constructor
  · rintro rfl
    refine h.spaced_words ?_
    rintro rfl
    exact hne words_nil
  · exact Spaced.words_eq

end DiagramRegistry.Text
