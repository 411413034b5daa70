import DiagramRegistry.Document.Statement
import DiagramRegistry.Proofs.Text.Words

/-
# What the lines of a body say

A line of the body is told to be a statement by trying one form after the other.  For a text without
blanks around it each form can be said by itself: it is a transition of some kind when an arrow
stands between two parts of it, a transition from the pseudo-state when it begins with the
pseudo-state and an arrow, and the opening of a note when it has the words for it and is no
transition.  A text is unknown when nothing of what the forms look for is in it.

* `Statement.isSome_splitArrow?_iff`: where a text can be split at an arrow;
* `Statement.exists_initial_iff`, `Statement.ofTrimmed_eq_noteBlock_iff`,
  `Statement.ofTrimmed_eq_unknown_iff`: the texts that are read as a given form.
-/
namespace DiagramRegistry.Statement

open Text

variable {text cs front rest target : List Char} {accepts : List Char → Bool}

/-! ## Arrows -/

/-- There is an arrow in the text, with at least one character on either side. -/
def HasInnerArrow (text : List Char) : Prop :=
  ∃ before behind, before ≠ [] ∧ behind ≠ [] ∧ text = before ++ "->".toList ++ behind

/-- A text begins with blanks or none, then an arrow of one or two dashes, and then goes on. -/
inductive ArrowThen (text rest : List Char) : Prop where
  /-- The blanks, the arrow, and the rest. -/
  | intro {gap arrow : List Char} (hgap : ∀ c ∈ gap, isBlank c = true)
      (harrow : arrow = "->".toList ∨ arrow = "-->".toList) (h : text = gap ++ arrow ++ rest)

/-- The blanks behind an arrow do not belong to what follows it. -/
lemma afterArrow?_eq_some_iff :
    afterArrow? cs = some target ↔ ∃ rest, ArrowThen cs rest ∧ target = trimStart rest := by
  constructor
  · intro h
    have hcs : cs = cs.takeWhile isBlank ++ trimStart cs := List.takeWhile_append_dropWhile.symm
    have hgap : ∀ c ∈ cs.takeWhile isBlank, isBlank c = true :=
      fun c hc => List.mem_takeWhile_imp hc
    unfold afterArrow? at h
    split at h
    · rename_i rest hrest
      rw [hrest] at hcs
      exact ⟨rest, .intro hgap (.inl rfl) (by simpa using hcs), (Option.some.inj h).symm⟩
    · rename_i rest hrest
      rw [hrest] at hcs
      exact ⟨rest, .intro hgap (.inr rfl) (by simpa using hcs), (Option.some.inj h).symm⟩
    · exact absurd h (by simp)
  · rintro ⟨rest, ⟨hgap, harrow | harrow, rfl⟩, rfl⟩
    · subst harrow
      rw [afterArrow?, trimStart, List.append_assoc, List.dropWhile_append_of_pos hgap]
      rfl
    · subst harrow
      rw [afterArrow?, trimStart, List.append_assoc, List.dropWhile_append_of_pos hgap]
      rfl

/-- A text can be split at an arrow when there is one behind some character, and what follows it is
accepted. -/
lemma isSome_splitArrow?_iff :
    (splitArrow? accepts text).isSome = true ↔
      ∃ before cs rest, before ≠ [] ∧ text = before ++ cs ∧ ArrowThen cs rest ∧
        accepts (trimStart rest) = true := by
  induction text with
  | nil =>
    constructor
    · intro h
      exact absurd h (by simp [splitArrow?])
    · rintro ⟨before, cs, -, hne, h, -⟩
      exact absurd (List.append_eq_nil_iff.1 h.symm).1 hne
  | cons c text ih =>
    unfold splitArrow?
    cases hfirst : (afterArrow? text).filter accepts with
    | some target =>
      obtain ⟨harrow, haccepts⟩ := Option.filter_eq_some_iff.1 hfirst
      obtain ⟨rest, hrest, rfl⟩ := afterArrow?_eq_some_iff.1 harrow
      exact iff_of_true rfl ⟨[c], text, rest, by simp, rfl, hrest, haccepts⟩
    | none =>
      rw [Option.isSome_map, ih]
      constructor
      · rintro ⟨before, cs, rest, -, rfl, hrest, haccepts⟩
        exact ⟨c :: before, cs, rest, by simp, rfl, hrest, haccepts⟩
      · rintro ⟨before, cs, rest, hne, h, hrest, haccepts⟩
        obtain ⟨d, before, rfl⟩ := List.exists_cons_of_ne_nil hne
        obtain ⟨rfl, rfl⟩ := List.cons.inj h
        refine ⟨before, cs, rest, ?_, rfl, hrest, haccepts⟩
        -- right behind the first character there is no such arrow
        rintro rfl
        have hfirst' : (afterArrow? cs).filter accepts = none := hfirst
        rw [afterArrow?_eq_some_iff.2 ⟨rest, hrest, rfl⟩,
          Option.filter_some_pos haccepts] at hfirst'
        exact absurd hfirst' (by simp)

lemma ArrowThen.hasInnerArrow {before : List Char} (h : ArrowThen cs rest) (hbefore : before ≠ [])
    (hrest : rest ≠ []) : HasInnerArrow (before ++ cs) := by
  obtain @⟨gap, arrow, hgap, harrow | harrow, rfl⟩ := h
  · subst harrow
    exact ⟨before ++ gap, rest, by simp [hbefore], hrest, by simp⟩
  · subst harrow
    exact ⟨before ++ gap ++ ['-'], rest, by simp [hbefore], hrest, by simp⟩

/-- A text is a transition of some kind when an arrow stands between two parts of it. -/
lemma isSome_transition?_iff (h : IsTrimmed text) :
    (transition? text).isSome = true ↔ HasInnerArrow text := by
  rw [transition?, isSome_splitArrow?_iff]
  constructor
  · rintro ⟨before, cs, rest, hne, rfl, hrest, haccepts⟩
    refine hrest.hasInnerArrow hne ?_
    rintro rfl
    exact absurd haccepts (by simp [trimStart])
  · rintro ⟨before, behind, hbefore, hbehind, rfl⟩
    refine ⟨before, _, behind, hbefore, List.append_assoc .., .intro (List.forall_mem_nil _)
      (.inl rfl) rfl, ?_⟩
    simpa using h.trimStart_ne_nil hbehind

/-! ## Transitions from the pseudo-state -/

/-- A text begins with the pseudo-state and an arrow, and goes on behind it. -/
inductive IsInitial (text : List Char) : Prop where
  /-- There may be blanks in front of the arrow. -/
  | intro {cs rest : List Char} (harrow : ArrowThen cs rest) (hrest : rest ≠ [])
      (h : text = "[*]".toList ++ cs)

lemma isSome_initialTarget?_iff (h : IsTrimmed text) :
    (initialTarget? text).isSome = true ↔ IsInitial text := by
  simp only [initialTarget?, Option.isSome_iff_exists, Option.filter_eq_some_iff,
    Option.bind_eq_some_iff, after?_eq_some_iff, afterArrow?_eq_some_iff]
  constructor
  · rintro ⟨target, ⟨cs, htext, rest, hrest, rfl⟩, hne⟩
    refine .intro hrest ?_ htext
    rintro rfl
    exact absurd hne (by simp [trimStart])
  · rintro ⟨hrest, hne, rfl⟩
    refine ⟨_, ⟨_, rfl, _, hrest, rfl⟩, ?_⟩
    obtain ⟨hgap, harrow, rfl⟩ := hrest
    rw [← List.append_assoc] at h
    simpa using h.trimStart_ne_nil hne

lemma IsInitial.hasInnerArrow (h : IsInitial text) : HasInnerArrow text := by
  obtain ⟨harrow, hrest, rfl⟩ := h
  exact harrow.hasInnerArrow (by simp) hrest

/-! ## Notes -/

/-- No character of a name is blank. -/
lemma isBlank_of_isNameChar {c : Char} (h : isNameChar c = true) : isBlank c = false := by
  have heq : ∀ d : Char, c = d ↔ c.toNat = d.toNat := fun d => Char.toNat_inj.symm
  have hranges : 65 ≤ c.toNat ∧ c.toNat ≤ 90 ∨ 97 ≤ c.toNat ∧ c.toNat ≤ 122 ∨
      48 ≤ c.toNat ∧ c.toNat ≤ 57 ∨ c.toNat = 95 ∨ c.toNat = 45 := by
    delta isNameChar Char.isAlphanum Char.isAlpha Char.isUpper Char.isLower Char.isDigit at h
    simpa [UInt32.le_iff_toNat_le, heq, or_assoc] using h
  simp only [isBlank, Bool.or_eq_false_iff, Bool.and_eq_false_iff, decide_eq_false_iff_not,
    beq_eq_false_iff_ne]
  omega

/-- What a note can be called or attached to in the words of a text: no colon and no quotation mark
is in it. -/
lemma isNoteName_iff {name : List Char} : isNoteName name = true ↔ ':' ∉ name ∧ '"' ∉ name := by
  simp [isNoteName, List.contains_eq_mem]

/-- A text has the words that open a note of several lines. -/
inductive OpensNote (text : List Char) : Prop where
  /-- The note stands at one side of something. -/
  | beside {side name : List Char}
      (hside : side ∈ ["left".toList, "right".toList, "top".toList, "bottom".toList])
      (hcolon : ':' ∉ name) (hquote : '"' ∉ name)
      (hwords : Spaced ["note".toList, side, "of".toList, name] text)
  /-- The note has a name. -/
  | named {name : List Char} (hcolon : ':' ∉ name) (hquote : '"' ∉ name)
      (hwords : Spaced ["note".toList, "as".toList, name] text)

/-- A text ends a note of several lines. -/
def ClosesNote (text : List Char) : Prop :=
  StartsWith text "end note".toList ∨ StartsWith text "endnote".toList

lemma closesNote_iff : closesNote text = true ↔ ClosesNote text := by
  rw [closesNote, Bool.or_eq_true, startsWithWord_iff, startsWithWord_iff]
  rfl

lemma opensNote_iff (h : IsTrimmed text) : opensNote text = true ↔ OpensNote text := by
  constructor
  · intro hopens
    unfold opensNote at hopens
    split at hopens
    · rename_i note «as» name hwords
      simp only [Bool.and_eq_true, decide_eq_true_eq, isNoteName_iff] at hopens
      obtain ⟨⟨rfl, rfl⟩, hcolon, hquote⟩ := hopens
      exact .named hcolon hquote ((h.words_eq_iff (by simp)).1 hwords)
    · rename_i note side «of» name hwords
      simp only [Bool.and_eq_true, decide_eq_true_eq, isNoteName_iff,
        List.contains_eq_mem] at hopens
      obtain ⟨⟨⟨rfl, hside⟩, rfl⟩, hcolon, hquote⟩ := hopens
      exact .beside hside hcolon hquote ((h.words_eq_iff (by simp)).1 hwords)
    · exact absurd hopens (by simp)
  · rintro (⟨hside, hcolon, hquote, hwords⟩ | ⟨hcolon, hquote, hwords⟩)
    · rw [opensNote, hwords.words_eq]
      simp only [Bool.and_eq_true, decide_eq_true_eq, isNoteName_iff, List.contains_eq_mem]
      exact ⟨⟨⟨trivial, hside⟩, trivial⟩, hcolon, hquote⟩
    · rw [opensNote, hwords.words_eq]
      simp only [Bool.and_eq_true, decide_eq_true_eq, isNoteName_iff]
      exact ⟨⟨trivial, trivial⟩, hcolon, hquote⟩

/-- The words for a note begin with the keyword of a directive and a blank. -/
lemma OpensNote.exists_blank (h : OpensNote text) :
    ∃ b rest, isBlank b = true ∧ text = "note".toList ++ b :: rest := by
  have hfirst : ∀ {ws}, ws ≠ [] → Spaced ("note".toList :: ws) text →
      ∃ b rest, isBlank b = true ∧ text = "note".toList ++ b :: rest := by
    intro ws hws hwords
    cases hwords with
    | last _ => exact absurd rfl hws
    | @next _ gap rest _ _ hne hgap _ =>
      obtain ⟨b, gap, rfl⟩ := List.exists_cons_of_ne_nil hne
      exact ⟨b, gap ++ rest, hgap b List.mem_cons_self, by simp⟩
  cases h with
  | beside _ _ _ hwords => exact hfirst (by simp) hwords
  | named _ _ hwords => exact hfirst (by simp) hwords

/-! ## The forms of a text -/

/-- A text with an inner arrow is a transition of some kind. -/
lemma ofTrimmed_of_hasInnerArrow (h : IsTrimmed text) (harrow : HasInnerArrow text) :
    (∃ target, ofTrimmed text = initial target) ∨ (∃ source, ofTrimmed text = terminal source) ∨
      ∃ source target, ofTrimmed text = transition source target := by
  unfold ofTrimmed
  split
  · exact .inl ⟨_, rfl⟩
  · split
    · exact .inr (.inl ⟨_, rfl⟩)
    · obtain ⟨⟨source, target⟩, hsplit⟩ :=
        Option.isSome_iff_exists.1 ((isSome_transition?_iff h).2 harrow)
      rw [hsplit]
      exact .inr (.inr ⟨source, target, rfl⟩)

/-- A text without an inner arrow is no transition. -/
lemma ofTrimmed_of_not_hasInnerArrow (h : IsTrimmed text) (harrow : ¬ HasInnerArrow text) :
    ofTrimmed text = ofPlain text := by
  have hinitial : initialTarget? text = none := by
    rw [← Option.not_isSome_iff_eq_none, isSome_initialTarget?_iff h]
    exact fun hinitial => harrow hinitial.hasInnerArrow
  have hterminal : terminalSource? text = none := by
    rw [terminalSource?, Option.map_eq_none_iff, ← Option.not_isSome_iff_eq_none,
      isSome_splitArrow?_iff]
    rintro ⟨before, cs, rest, hne, rfl, hrest, haccepts⟩
    refine harrow (hrest.hasInnerArrow hne ?_)
    rintro rfl
    exact absurd haccepts (by decide)
  have htransition : transition? text = none := by
    rwa [← Option.not_isSome_iff_eq_none, isSome_transition?_iff h]
  rw [ofTrimmed, hinitial, hterminal, htransition]

lemma exists_initial_iff (h : IsTrimmed text) :
    (∃ target, ofTrimmed text = initial target) ↔ IsInitial text := by
  rw [← isSome_initialTarget?_iff h, Option.isSome_iff_exists]
  unfold ofTrimmed
  split
  · rename_i target htarget
    exact iff_of_true ⟨target, rfl⟩ ⟨target, htarget⟩
  · rename_i hnone
    refine iff_of_false ?_ (by simp [hnone])
    rintro ⟨target, htarget⟩
    split at htarget
    · exact absurd htarget (by simp)
    · split at htarget
      · exact absurd htarget (by simp)
      · unfold ofPlain at htarget
        split_ifs at htarget

lemma isDirective_iff : isDirective text = true ↔ ∃ d ∈ directives, StartsWith text d := by
  simp only [isDirective, List.any_eq_true, startsWithWord_iff]

/-- A text opens a note when it has the words for it and no arrow makes it a transition. -/
lemma ofTrimmed_eq_noteBlock_iff (h : IsTrimmed text) :
    ofTrimmed text = noteBlock ↔ OpensNote text ∧ ¬ HasInnerArrow text := by
  by_cases harrow : HasInnerArrow text
  · refine iff_of_false (fun hnote => ?_) fun hnote => hnote.2 harrow
    rcases ofTrimmed_of_hasInnerArrow h harrow with ⟨_, hform⟩ | ⟨_, hform⟩ | ⟨_, _, hform⟩ <;>
      exact absurd (hform.symm.trans hnote) (by simp)
  · rw [ofTrimmed_of_not_hasInnerArrow h harrow, and_iff_left harrow, ← opensNote_iff h]
    constructor
    · intro hnote
      unfold ofPlain at hnote
      split_ifs at hnote with _ _ hopens
      exact hopens
    · intro hopens
      obtain ⟨b, rest, hb, htext⟩ := ((opensNote_iff h).1 hopens).exists_blank
      have hname : identifierChars text = false := by
        have hblank : isNameChar b = false := Bool.eq_false_iff.2 fun hb' => by
          rw [isBlank_of_isNameChar hb'] at hb
          exact absurd hb (by simp)
        simp [htext, identifierChars, hblank]
      have hdirective : isDirective text = true :=
        isDirective_iff.2 ⟨"note".toList, by decide, .followed hb htext⟩
      simp [ofPlain, hname, hdirective, hopens]

/-- A text is unknown when it has no inner arrow, is no name, starts with no directive, and has no
colon. -/
lemma ofTrimmed_eq_unknown_iff (h : IsTrimmed text) :
    ofTrimmed text = unknown ↔ ¬ HasInnerArrow text ∧ identifierChars text = false ∧
      (∀ d ∈ directives, ¬ StartsWith text d) ∧ ':' ∉ text := by
  by_cases harrow : HasInnerArrow text
  · refine iff_of_false (fun hunknown => ?_) fun hunknown => hunknown.1 harrow
    rcases ofTrimmed_of_hasInnerArrow h harrow with ⟨_, hform⟩ | ⟨_, hform⟩ | ⟨_, _, hform⟩ <;>
      exact absurd (hform.symm.trans hunknown) (by simp)
  · rw [ofTrimmed_of_not_hasInnerArrow h harrow, and_iff_right harrow]
    have hdirective : (∀ d ∈ directives, ¬ StartsWith text d) ↔ isDirective text = false := by
      rw [← Bool.not_eq_true, isDirective_iff]
      exact ⟨fun h ⟨d, hd, hstarts⟩ => h d hd hstarts, fun h d hd hstarts => h ⟨d, hd, hstarts⟩⟩
    have hcolon : ':' ∉ text ↔ text.contains ':' = false := by simp [List.contains_eq_mem]
    rw [hdirective, hcolon]
    unfold ofPlain
    split_ifs with hname hkeyword hopens hlabel <;> simp_all

end DiagramRegistry.Statement
