import DiagramRegistry.Proofs.Document.Scan
import DiagramRegistry.Proofs.Identity.Stem

/-
# Transitions and their labels

A transition between two names may have a label behind a colon.  The label is dropped when the
states are declared, but only after the line was split at an arrow, and a line is first tried as a
transition to the pseudo-state.  So the label plays no part unless an arrow in it leads to the
pseudo-state: then the line is split at that arrow, and all that stands in front of the colon is
taken for the name of a state.

* `Statement.splitArrow?_append`, `Statement.arrowThen_of_splitArrow?`: where a line is split;
* `Statement.Joins`: the text of a transition between two names;
* `Body.labels_are_dropped_iff`: the labels that change what a transition declares.
-/
namespace DiagramRegistry

open Text

namespace Statement

variable {text front cs rest target source bare gap tail label name : List Char}
  {accepts : List Char → Bool}

/-! ## Where a text is split -/

/-- A text is split in front of an arrow, with the rest accepted. -/
lemma arrowThen_of_splitArrow? (h : splitArrow? accepts text = some (front, target)) :
    front ≠ [] ∧ ∃ cs rest, text = front ++ cs ∧ ArrowThen cs rest ∧
      target = trimStart rest ∧ accepts target = true := by
  induction text generalizing front with
  | nil => simp [splitArrow?] at h
  | cons c text ih =>
    unfold splitArrow? at h
    split at h
    · rename_i found hfound
      simp only [Option.some.injEq, Prod.mk.injEq] at h
      obtain ⟨rfl, rfl⟩ := h
      obtain ⟨harrow, haccepts⟩ := Option.filter_eq_some_iff.1 hfound
      obtain ⟨rest, hrest, rfl⟩ := afterArrow?_eq_some_iff.1 harrow
      exact ⟨by simp, text, rest, rfl, hrest, rfl, haccepts⟩
    · obtain ⟨⟨front, target⟩, hsplit, heq⟩ := Option.map_eq_some_iff.1 h
      simp only [Prod.mk.injEq] at heq
      obtain ⟨rfl, rfl⟩ := heq
      obtain ⟨-, cs, rest, rfl, hrest⟩ := ih hsplit
      exact ⟨by simp, cs, rest, rfl, hrest⟩

/-- A text is split at the first arrow, if what follows it is accepted. -/
lemma splitArrow?_append (hne : front ≠ []) (harrow : ArrowThen cs rest)
    (haccepts : accepts (trimStart rest) = true)
    (hfirst : ∀ before behind rest, front = before ++ behind → behind ≠ [] →
      ¬ ArrowThen (behind ++ cs) rest) :
    splitArrow? accepts (front ++ cs) = some (front, trimStart rest) := by
  induction front with
  | nil => exact absurd rfl hne
  | cons c front ih =>
    rw [List.cons_append, splitArrow?]
    cases front with
    | nil =>
      rw [List.nil_append, afterArrow?_eq_some_iff.2 ⟨rest, harrow, rfl⟩,
        Option.filter_some_pos haccepts]
    | cons d front =>
      have hnone : afterArrow? (d :: front ++ cs) = none := by
        rw [Option.eq_none_iff_forall_ne_some]
        rintro found hfound
        obtain ⟨rest, hrest, -⟩ := afterArrow?_eq_some_iff.1 hfound
        exact hfirst [c] (d :: front) rest rfl (by simp) hrest
      have hlater : splitArrow? accepts (d :: front ++ cs) = some (d :: front, trimStart rest) :=
        ih (by simp) fun before behind rest h => hfirst (c :: before) behind rest (by rw [h]; rfl)
      rw [hnone, hlater]
      rfl

/-- An arrow ends with its head, and there is no other head and no colon in front of it. -/
lemma ArrowThen.exists_head (h : ArrowThen cs rest) :
    ∃ shaft, cs = shaft ++ '>' :: rest ∧ '>' ∉ shaft ∧ ':' ∉ shaft := by
  obtain @⟨gap, arrow, hgap, harrow, rfl⟩ := h
  have hnot : ∀ c, isBlank c = false → c ∉ gap := fun c hc hmem => by
    rw [hgap c hmem] at hc
    exact absurd hc (by simp)
  have hhead := hnot '>' (by decide)
  have hcolon := hnot ':' (by decide)
  rcases harrow with rfl | rfl
  · exact ⟨gap ++ ['-'], by simp, by simp [hhead], by simp [hcolon]⟩
  · exact ⟨gap ++ ['-', '-'], by simp, by simp [hhead], by simp [hcolon]⟩

lemma ArrowThen.append (h : ArrowThen cs rest) (tail : List Char) :
    ArrowThen (cs ++ tail) (rest ++ tail) := by
  obtain ⟨hgap, harrow, rfl⟩ := h
  exact .intro hgap harrow (by simp)

lemma trimStart_blanks_append (hgap : ∀ c ∈ gap, isBlank c = true) (rest : List Char) :
    trimStart (gap ++ rest) = trimStart rest := List.dropWhile_append_of_pos hgap

lemma trimStart_eq_self (h : ∀ c ∈ text.head?, isBlank c = false) : trimStart text = text := by
  cases text with
  | nil => rfl
  | cons c text => exact List.dropWhile_cons_of_neg (by simpa using h c rfl)

/-! ## Arrows to the pseudo-state -/

/-- A text begins with blanks or none and the pseudo-state, and then it ends or has a label, if not
for blanks. -/
inductive PseudoThen (text : List Char) : Prop where
  /-- The blanks, the pseudo-state, more blanks, and the label. -/
  | intro {front gap label : List Char} (hfront : ∀ c ∈ front, isBlank c = true)
      (hgap : ∀ c ∈ gap, isBlank c = true) (hlabel : ∀ c ∈ label.head?, c = ':')
      (h : text = front ++ "[*]".toList ++ gap ++ label)

lemma isPseudoTarget_iff : isPseudoTarget text = true ↔
    ∃ rest, text = "[*]".toList ++ rest ∧ ∀ c ∈ (trimStart rest).head?, c = ':' := by
  have hpseudo : pseudoState.toList = "[*]".toList := rfl
  simp only [← after?_eq_some_iff, isPseudoTarget, hpseudo]
  cases after? "[*]".toList text with
  | none => simp
  | some rest => cases hrest : trimStart rest <;> simp [hrest]

lemma isPseudoTarget_trimStart_iff : isPseudoTarget (trimStart text) = true ↔ PseudoThen text := by
  have hcut : ∀ cs : List Char, cs = cs.takeWhile isBlank ++ trimStart cs :=
    fun cs => List.takeWhile_append_dropWhile.symm
  have hblank : ∀ cs : List Char, ∀ c ∈ cs.takeWhile isBlank, isBlank c = true :=
    fun cs c hc => List.mem_takeWhile_imp hc
  rw [isPseudoTarget_iff]
  constructor
  · rintro ⟨rest, htext, hlabel⟩
    refine .intro (hblank text) (hblank rest) hlabel ?_
    rw [List.append_assoc _ _ (trimStart rest), ← hcut rest, List.append_assoc, ← htext,
      ← hcut text]
  · rintro @⟨front, gap, label, hfront, hgap, hlabel, rfl⟩
    refine ⟨gap ++ label, ?_, ?_⟩
    · rw [List.append_assoc, List.append_assoc, trimStart_blanks_append hfront]
      rfl
    · have hstart : ∀ c ∈ label.head?, isBlank c = false := fun c hc => by rw [hlabel c hc]; rfl
      rwa [trimStart_blanks_append hgap, trimStart_eq_self hstart]

/-- In a text stands an arrow, and behind it the pseudo-state, alone or with a label. -/
inductive LeadsToPseudo (text : List Char) : Prop where
  /-- The text in front of the arrow, the arrow, and what follows it. -/
  | intro {front cs rest : List Char} (harrow : ArrowThen cs rest) (hrest : PseudoThen rest)
      (h : text = front ++ cs)

/-! ## Transitions between two names -/

/-- A text consists of two names and an arrow between them.  A blank keeps the arrow apart from the
first name, which may end with a dash. -/
inductive Joins (source target text : List Char) : Prop where
  /-- The first name, the blank, the arrow, blanks or none, and the second name. -/
  | intro {b : Char} {cs gap : List Char} (hb : isBlank b = true)
      (harrow : ArrowThen (b :: cs) (gap ++ target)) (hgap : ∀ c ∈ gap, isBlank c = true)
      (h : text = source ++ b :: cs)

lemma exists_head_of_identifierChars (h : identifierChars name = true) :
    ∃ c cs, name = c :: cs ∧ isNameStart c = true := by
  cases name with
  | nil => exact absurd h (by simp [identifierChars])
  | cons c cs => exact ⟨c, cs, rfl, (Bool.and_eq_true_iff.1 h).1⟩

lemma isNameChar_of_identifierChars (h : identifierChars name = true) :
    ∀ c ∈ name, isNameChar c = true := by
  have hname : isIdentifier (String.ofList name) = true := by simpa [isIdentifier]
  simpa using isNameChar_of_isIdentifier hname

lemma not_mem_of_identifierChars (h : identifierChars name = true) {c : Char}
    (hc : isNameChar c = false) : c ∉ name := by
  intro hmem
  rw [isNameChar_of_identifierChars h c hmem] at hc
  exact absurd hc (by simp)

/-- There is no blank in a name. -/
lemma identifierChars_eq_false {b : Char} (hb : isBlank b = true) (hmem : b ∈ text) :
    identifierChars text = false := by
  rw [Bool.eq_false_iff]
  intro h
  rw [isBlank_of_isNameChar (isNameChar_of_identifierChars h b hmem)] at hb
  exact absurd hb (by simp)

lemma isTrimmed_of_identifierChars (h : identifierChars name = true) : IsTrimmed name where
  head c hc := isBlank_of_isNameChar (isNameChar_of_identifierChars h c (List.mem_of_mem_head? hc))
  last c hc :=
    isBlank_of_isNameChar (isNameChar_of_identifierChars h c (List.mem_of_mem_getLast? hc))

/-- What follows the arrow of a transition is no pseudo-state. -/
lemma not_pseudoThen_of_name (hname : identifierChars name = true)
    (hgap : ∀ c ∈ gap, isBlank c = true) (rest : List Char) :
    ¬ PseudoThen (gap ++ name ++ rest) := by
  obtain ⟨c, cs, rfl, hc⟩ := exists_head_of_identifierChars hname
  have hstart : trimStart (c :: cs ++ rest) = c :: cs ++ rest :=
    trimStart_eq_self ((isTrimmed_of_identifierChars hname).head)
  rw [← isPseudoTarget_trimStart_iff, List.append_assoc, trimStart_blanks_append hgap, hstart,
    isPseudoTarget_iff]
  rintro ⟨rest, htext, -⟩
  obtain rfl : c = '[' := (List.cons.inj htext).1
  exact absurd hc (by decide)

/-- There is only one arrow in front of a label. -/
lemma Joins.rest_eq (hjoins : Joins source target bare) (hsource : identifierChars source = true)
    (htarget : identifierChars target = true) (hgap : ∀ c ∈ gap, isBlank c = true)
    (htail : ∀ c ∈ tail.head?, c = ':') (h : bare ++ gap = front ++ cs)
    (harrow : ArrowThen (cs ++ tail) rest) :
    ∃ gap', (∀ c ∈ gap', isBlank c = true) ∧ rest = gap' ++ target ++ (gap ++ tail) := by
  obtain @⟨b, arrow, gap', hb, harrow', hgap', rfl⟩ := hjoins
  obtain ⟨shaft, hshaft, hhead, hcolon⟩ := harrow.exists_head
  obtain ⟨shaft', hshaft', hhead', -⟩ := harrow'.exists_head
  have hnot : ∀ {cs : List Char}, (∀ c ∈ cs, isBlank c = true) → '>' ∉ cs := fun hcs hmem =>
    absurd (hcs _ hmem) (by decide)
  have hname : ∀ {name}, identifierChars name = true → '>' ∉ name := fun hname =>
    not_mem_of_identifierChars hname (by decide)
  -- the arrow ends in front of the tail, which begins with a colon
  obtain ⟨behind, rfl, rfl⟩ : ∃ behind, cs = shaft ++ '>' :: behind ∧ rest = behind ++ tail := by
    rcases List.append_eq_append_iff.1 hshaft with ⟨between, rfl, htail'⟩ | ⟨between, rfl, hrest⟩
    · cases between with
      | nil => exact absurd (htail '>' (by simp [htail'])) (by decide)
      | cons c between =>
        obtain rfl := htail c (by simp [htail'])
        exact absurd hcolon (by simp)
    · cases between with
      | nil =>
        obtain rfl : '>' :: rest = tail := hrest
        exact absurd (htail '>' rfl) (by decide)
      | cons c between =>
        obtain ⟨rfl, rfl⟩ := List.cons.inj hrest
        exact ⟨between, rfl, rfl⟩
  -- so it is the one between the names
  rw [hshaft', List.append_assoc, List.append_assoc, List.cons_append, ← List.append_assoc source,
    ← List.append_assoc front, List.append_cons_inj_of_notMem (by simp [hname hsource, hhead'])
      (by simp [hname htarget, hnot hgap, hnot hgap'])] at h
  obtain ⟨-, -, rfl⟩ := h
  exact ⟨gap', hgap', by simp⟩

/-- No arrow begins inside the first name. -/
lemma not_arrowThen_of_name {b : Char} (hname : identifierChars (front ++ name) = true)
    (hne : name ≠ []) (hb : isBlank b = true) (cs rest : List Char) :
    ¬ ArrowThen (name ++ b :: cs) rest := by
  have hchar : ∀ c ∈ name, isNameChar c = true := fun c hc =>
    isNameChar_of_identifierChars hname c (List.mem_append_right _ hc)
  rintro @⟨gap, arrow, hgap, harrow, h⟩
  obtain rfl : gap = [] := by
    by_contra hgapne
    obtain ⟨c, gap, rfl⟩ := List.exists_cons_of_ne_nil hgapne
    obtain ⟨d, name, rfl⟩ := List.exists_cons_of_ne_nil hne
    obtain ⟨rfl, -⟩ := List.cons.inj h
    have hc := isBlank_of_isNameChar (hchar d (by simp))
    rw [hgap d (by simp)] at hc
    exact absurd hc (by simp)
  have hhead : '>' ∈ arrow := by rcases harrow with rfl | rfl <;> decide
  have hsolid : ∀ c ∈ arrow, isBlank c = false := by
    have hall : arrow.all (!isBlank ·) = true := by rcases harrow with rfl | rfl <;> decide
    simpa using hall
  have hnot : '>' ∉ name := fun hmem => absurd (hchar _ hmem) (by decide)
  rw [List.nil_append] at h
  -- the arrow would have to be part of the name or hold the blank behind it
  rcases List.append_eq_append_iff.1 h with ⟨between, rfl, hbetween⟩ | ⟨between, rfl, -⟩
  · cases between with
    | nil => exact hnot (by simpa using hhead)
    | cons c between =>
      obtain ⟨rfl, -⟩ := List.cons.inj hbetween
      rw [hsolid b (by simp)] at hb
      exact absurd hb (by simp)
  · exact hnot (List.mem_append_left _ hhead)

/-! ## The forms of a transition -/

lemma Joins.transition?_eq (hjoins : Joins source target bare)
    (hsource : identifierChars source = true) (htarget : identifierChars target = true)
    (tail : List Char) : transition? (bare ++ tail) = some (source, target ++ tail) := by
  obtain @⟨b, cs, gap, hb, harrow, hgap, rfl⟩ := hjoins
  have hne : source ≠ [] := by
    rintro rfl
    exact absurd hsource (by decide)
  obtain ⟨c, target, rfl, hc⟩ := exists_head_of_identifierChars htarget
  have hrest : trimStart (gap ++ (c :: target) ++ tail) = c :: target ++ tail := by
    rw [List.append_assoc, trimStart_blanks_append hgap]
    exact trimStart_eq_self (isTrimmed_of_identifierChars htarget).head
  rw [transition?, List.append_assoc, ← hrest]
  refine splitArrow?_append hne (harrow.append tail) (by rw [hrest]; rfl) ?_
  intro before behind rest hsplit hbehind
  exact not_arrowThen_of_name (hsplit ▸ hsource) hbehind hb _ _

lemma Joins.initialTarget?_eq (hjoins : Joins source target bare)
    (hsource : identifierChars source = true) (tail : List Char) :
    initialTarget? (bare ++ tail) = none := by
  obtain ⟨c, cs, rfl, hc⟩ := exists_head_of_identifierChars hsource
  obtain @⟨b, arrow, gap, -, -, -, rfl⟩ := hjoins
  have hafter : after? pseudoState.toList (c :: cs ++ b :: arrow ++ tail) = none := by
    rw [Option.eq_none_iff_forall_ne_some]
    intro rest hrest
    obtain ⟨rfl, -⟩ := List.cons.inj (after?_eq_some_iff.1 hrest)
    exact absurd hc (by decide)
  rw [initialTarget?, hafter]
  rfl

/-- Without a label a text that joins two names is a transition between them. -/
lemma Joins.ofTrimmed_eq (hjoins : Joins source target bare)
    (hsource : identifierChars source = true) (htarget : identifierChars target = true) :
    ofTrimmed bare = transition source target := by
  have hterminal : terminalSource? bare = none := by
    rw [terminalSource?, Option.map_eq_none_iff, Option.eq_none_iff_forall_ne_some]
    rintro ⟨front, target'⟩ hsplit
    obtain ⟨-, cs, rest, hbare, harrow, rfl, haccepts⟩ := arrowThen_of_splitArrow? hsplit
    have hbare' : bare ++ [] = front ++ cs := by rw [List.append_nil, hbare]
    have harrow' : ArrowThen (cs ++ []) rest := by rwa [List.append_nil]
    obtain ⟨gap, hgap, hrest⟩ := hjoins.rest_eq hsource htarget (by simp) (by simp) hbare' harrow'
    rw [isPseudoTarget_trimStart_iff, hrest] at haccepts
    exact not_pseudoThen_of_name htarget hgap _ haccepts
  have htransition := hjoins.transition?_eq hsource htarget []
  rw [List.append_nil, List.append_nil] at htransition
  have hinitial := hjoins.initialTarget?_eq hsource []
  rw [List.append_nil] at hinitial
  simp only [ofTrimmed, hinitial, hterminal, htransition]

/-- A text that joins two names and has a label behind it is split in the label or not at all, when
a transition to the pseudo-state is looked for. -/
lemma Joins.exists_of_splitArrow? (hjoins : Joins source target bare)
    (hsource : identifierChars source = true) (htarget : identifierChars target = true)
    (hgap : ∀ c ∈ gap, isBlank c = true)
    (h : splitArrow? isPseudoTarget (bare ++ gap ++ ':' :: label) = some (front, rest)) :
    LeadsToPseudo label ∧ ∃ before, front = bare ++ gap ++ ':' :: before := by
  obtain ⟨-, cs, rest, htext, harrow, rfl, haccepts⟩ := arrowThen_of_splitArrow? h
  rw [isPseudoTarget_trimStart_iff] at haccepts
  rcases List.append_eq_append_iff.1 htext with ⟨between, rfl, hlabel⟩ | ⟨between, hfront, rfl⟩
  · cases between with
    | nil =>
      obtain ⟨shaft, hcs, -, hcolon⟩ := harrow.exists_head
      rw [List.nil_append] at hlabel
      subst hlabel
      cases shaft <;> simp_all
    | cons c between =>
      obtain ⟨rfl, rfl⟩ := List.cons.inj hlabel
      exact ⟨.intro harrow haccepts rfl, between, rfl⟩
  · obtain ⟨gap', hgap', rfl⟩ := hjoins.rest_eq hsource htarget hgap (by simp) hfront harrow
    exact absurd haccepts (not_pseudoThen_of_name htarget hgap' _)

/-- With a label that does not lead to the pseudo-state it is still the transition between them. -/
lemma Joins.ofTrimmed_label (hjoins : Joins source target bare)
    (hsource : identifierChars source = true) (htarget : identifierChars target = true)
    (hgap : ∀ c ∈ gap, isBlank c = true) (hlabel : ¬ LeadsToPseudo label) :
    ofTrimmed (bare ++ gap ++ ':' :: label) =
      transition source (target ++ gap ++ ':' :: label) := by
  have hterminal : terminalSource? (bare ++ gap ++ ':' :: label) = none := by
    rw [terminalSource?, Option.map_eq_none_iff, Option.eq_none_iff_forall_ne_some]
    rintro ⟨front, rest⟩ hsplit
    exact hlabel (hjoins.exists_of_splitArrow? hsource htarget hgap hsplit).1
  have htransition := hjoins.transition?_eq hsource htarget (gap ++ ':' :: label)
  simp only [← List.append_assoc] at htransition
  have hinitial := hjoins.initialTarget?_eq hsource (gap ++ ':' :: label)
  rw [← List.append_assoc] at hinitial
  simp only [ofTrimmed, hinitial, hterminal, htransition]

/-- With a label that leads to the pseudo-state it is a transition to that, from all that stands in
front of an arrow in the label. -/
lemma Joins.ofTrimmed_label_of_leadsToPseudo (hjoins : Joins source target bare)
    (hsource : identifierChars source = true) (htarget : identifierChars target = true)
    (hgap : ∀ c ∈ gap, isBlank c = true) (hlabel : LeadsToPseudo label) :
    ∃ before, ofTrimmed (bare ++ gap ++ ':' :: label) =
      terminal (bare ++ gap ++ ':' :: before) := by
  have hsome : (splitArrow? isPseudoTarget (bare ++ gap ++ ':' :: label)).isSome = true := by
    obtain @⟨front, cs, rest, harrow, hrest, rfl⟩ := hlabel
    rw [isSome_splitArrow?_iff]
    exact ⟨bare ++ gap ++ ':' :: front, cs, rest, by simp, by simp, harrow,
      isPseudoTarget_trimStart_iff.2 hrest⟩
  obtain ⟨⟨front, rest⟩, hsplit⟩ := Option.isSome_iff_exists.1 hsome
  obtain ⟨-, before, rfl⟩ := hjoins.exists_of_splitArrow? hsource htarget hgap hsplit
  refine ⟨before, ?_⟩
  have hterminal : terminalSource? (bare ++ gap ++ ':' :: label) =
      some (bare ++ gap ++ ':' :: before) := by rw [terminalSource?, hsplit]; rfl
  have hinitial := hjoins.initialTarget?_eq hsource (gap ++ ':' :: label)
  rw [← List.append_assoc] at hinitial
  simp only [ofTrimmed, hinitial, hterminal]

/-! ## Names and their labels -/

/-- A text is cut behind a beginning that has not the character. -/
lemma cutAtFirst?_append_of_not_mem {x : Char} (h : x ∉ front) (rest : List Char) :
    cutAtFirst? x (front ++ rest) = (cutAtFirst? x rest).map fun p => (front ++ p.1, p.2) := by
  induction front with
  | nil => simp
  | cons c front ih =>
    rw [List.mem_cons, not_or] at h
    rw [List.cons_append, cutAtFirst?, if_neg (Ne.symm h.1), ih h.2, Option.map_map]
    rfl

lemma cutAtFirst?_of_not_mem {x : Char} (h : x ∉ text) : cutAtFirst? x text = none := by
  rw [← List.append_nil text, cutAtFirst?_append_of_not_mem h]
  rfl

lemma withoutLabel_eq_self (hcolon : ':' ∉ name) (h : IsTrimmed name) :
    withoutLabel name = name := by
  rw [withoutLabel, cutAtFirst?_of_not_mem hcolon]
  have hname : name = [] ++ name ++ [] := by simp
  exact trimsTo_iff.1 (.intro hname (by simp) (by simp) h.head h.last)

/-- The label and the blanks in front of it are dropped. -/
lemma withoutLabel_append (hcolon : ':' ∉ name) (h : IsTrimmed name)
    (hgap : ∀ c ∈ gap, isBlank c = true) (label : List Char) :
    withoutLabel (name ++ gap ++ ':' :: label) = name := by
  have hnot : ':' ∉ name ++ gap := by
    rw [List.mem_append, not_or]
    exact ⟨hcolon, fun hmem => absurd (hgap _ hmem) (by decide)⟩
  have hcut : cutAtFirst? ':' (':' :: label) = some ([], label) := by simp [cutAtFirst?]
  rw [withoutLabel, cutAtFirst?_append_of_not_mem hnot, hcut, Option.map_some, List.append_nil]
  have hline : name ++ gap = [] ++ name ++ gap := by simp
  exact trimsTo_iff.1 (.intro hline (by simp) hgap h.head h.last)

lemma Joins.isTrimmed (hjoins : Joins source target bare) (hsource : identifierChars source = true)
    (htarget : identifierChars target = true) : IsTrimmed bare := by
  obtain @⟨b, cs, gap, -, harrow, -, rfl⟩ := hjoins
  obtain ⟨shaft, hcs, -, -⟩ := harrow.exists_head
  constructor
  · obtain ⟨c, source, rfl, -⟩ := exists_head_of_identifierChars hsource
    exact (isTrimmed_of_identifierChars hsource).head
  · have hlast : (source ++ b :: cs).getLast? = target.getLast? := by
      obtain ⟨c, target, rfl, -⟩ := exists_head_of_identifierChars htarget
      rw [hcs, ← List.cons_append, ← List.append_assoc, ← List.append_assoc, List.getLast?_append,
        List.getLast?_cons]
      rfl
    rw [hlast]
    exact (isTrimmed_of_identifierChars htarget).last

lemma Joins.not_mem_colon (hjoins : Joins source target bare)
    (hsource : identifierChars source = true) (htarget : identifierChars target = true) :
    ':' ∉ bare := by
  obtain @⟨b, cs, gap, -, harrow, hgap, rfl⟩ := hjoins
  obtain ⟨shaft, hcs, -, hcolon⟩ := harrow.exists_head
  have hnot : ':' ∉ gap := fun hmem => absurd (hgap _ hmem) (by decide)
  simp [hcs, hcolon, hnot, not_mem_of_identifierChars hsource (c := ':') (by decide),
    not_mem_of_identifierChars htarget (c := ':') (by decide)]

/-- The text of a transition is no name of a state, because of the blank in it. -/
lemma Joins.not_isStateName (hjoins : Joins source target bare) :
    bare ≠ pseudoState.toList ∧ isStateName (String.ofList bare) = false := by
  obtain @⟨b, cs, gap, hb, -, -, rfl⟩ := hjoins
  have hmem : b ∈ source ++ b :: cs := by simp
  have hpseudo : source ++ b :: cs ≠ pseudoState.toList := by
    intro h
    have hall : pseudoState.toList.all (!isBlank ·) = true := by decide
    have hsolid := List.all_eq_true.1 hall b (h ▸ hmem)
    rw [hb] at hsolid
    exact absurd hsolid (by simp)
  refine ⟨hpseudo, ?_⟩
  rw [isStateName, isIdentifier, String.toList_ofList, identifierChars_eq_false hb hmem,
    Bool.or_false, beq_eq_false_iff_ne]
  intro h
  exact hpseudo (by rw [← h, String.toList_ofList])

end Statement

namespace Body

open Statement

variable {b : Body} {l : List Char × Nat} {side name : List Char}

/-! ## What is declared -/

lemma addState_found (b : Body) (name : List Char) : (b.addState name).found = b.found := by
  unfold addState
  split_ifs <;> rfl

/-- What is heard is taken in. -/
lemma Hears.step_eq (h : b.Hears (trim l.1)) :
    b.step l = b.take (trim l.1) l.2 (indentation l.1 + 1) := by
  have hstep := stepsTo_step b l
  generalize b.step l = b' at hstep ⊢
  cases hstep with
  | start hstart => exact absurd ⟨.start, hstart⟩ h.counts.not_isMarker
  | stop hstop => exact absurd ⟨.stop, hstop⟩ h.counts.not_isMarker
  | passed _ hpassed => exact hpassed.elim (by simp [h.inside]) (not_not_intro h.counts).elim
  | noted _ _ hnoted => exact absurd hnoted (by simp [h.notInNote])
  | heard _ => rfl

/-- A text that begins with a name can count. -/
lemma canCount_of_name (hname : identifierChars name = true) (rest : List Char) :
    CanCount (name ++ rest) := by
  obtain ⟨c, cs, rfl, hc⟩ := exists_head_of_identifierChars hname
  refine ⟨?_, by simp, ?_⟩
  · intro hmarker
    obtain rfl : c = '@' := Option.some.inj hmarker.head?_eq
    exact absurd hc (by decide)
  · intro hcomment
    obtain rfl : c = '\u0027' := Option.some.inj hcomment
    exact absurd hc (by decide)

/-- A side that is an identifier, but for its label, is a state without any finding. -/
lemma declare_of_identifier (hside : withoutLabel side = name) (hname : identifierChars name = true)
    (line column : Nat) : b.declare side line column = b.addState name := by
  have hpseudo : name ≠ pseudoState.toList := by
    rintro rfl
    exact absurd hname (by decide)
  have hstate : isStateName (String.ofList name) = true := by
    simp [isStateName, isIdentifier, hname]
  simp only [declare, hside, hpseudo, hstate, if_true, if_false]

/-- A side that is neither an identifier nor the pseudo-state is a state with a warning. -/
lemma declare_of_not_isStateName (hside : withoutLabel side = name)
    (hname : name ≠ pseudoState.toList ∧ isStateName (String.ofList name) = false)
    (line column : Nat) : b.declare side line column =
      { b with found := b.found.warning (.atPosition .invalidStateName line column
        s!"state name '{String.ofList name}' is not a valid identifier") }.addState name := by
  simp [declare, hside, hname.1, hname.2]

/-- A transition between two names declares both of them, and its label is dropped, exactly when the
label does not lead to the pseudo-state.  When it does, all that stands in front of the label is
declared as one state, with a warning that this is no name. -/
theorem labels_are_dropped_iff {source target : String} {bare : List Char}
    (hsource : isIdentifier source = true) (htarget : isIdentifier target = true)
    (hjoins : Joins source.toList target.toList bare) (hinside : b.inside = true)
    (hnote : b.inNote = false) :
    (∀ l, trim l.1 = bare → b.step l = (b.addState source.toList).addState target.toList) ∧
    ∀ l gap label, (∀ c ∈ gap, isBlank c = true) → trim l.1 = bare ++ gap ++ ':' :: label →
      (b.step l = (b.addState source.toList).addState target.toList ↔ ¬ LeadsToPseudo label) ∧
      (LeadsToPseudo label → b.step l =
        { b with found := b.found.warning (.atPosition .invalidStateName l.2 (indentation l.1 + 1)
          s!"state name '{String.ofList bare}' is not a valid identifier") }.addState bare) := by
  have hhears : ∀ {text rest : List Char}, text = bare ++ rest → b.Hears text := by
    rintro _ rest rfl
    refine ⟨?_, hinside, hnote⟩
    obtain @⟨_, _, _, -, -, -, rfl⟩ := hjoins
    rw [List.append_assoc]
    exact canCount_of_name hsource _
  have hself : ∀ {name : List Char}, identifierChars name = true → withoutLabel name = name :=
    fun hname => withoutLabel_eq_self (not_mem_of_identifierChars hname (by decide))
      (isTrimmed_of_identifierChars hname)
  constructor
  · intro l hl
    rw [(hhears (hl.trans (List.append_nil bare).symm)).step_eq, take, hl,
      hjoins.ofTrimmed_eq hsource htarget]
    dsimp only
    rw [declare_of_identifier (hself hsource) hsource,
      declare_of_identifier (hself htarget) htarget]
  intro l gap label hgap hl
  have hstep := (hhears (hl.trans (List.append_assoc ..))).step_eq
  rw [take, hl] at hstep
  have hleads : LeadsToPseudo label → b.step l =
      { b with found := b.found.warning (.atPosition .invalidStateName l.2 (indentation l.1 + 1)
        s!"state name '{String.ofList bare}' is not a valid identifier") }.addState bare := by
    intro hlabel
    obtain ⟨before, hform⟩ := hjoins.ofTrimmed_label_of_leadsToPseudo hsource htarget hgap hlabel
    rw [hstep, hform]
    exact declare_of_not_isStateName (withoutLabel_append (hjoins.not_mem_colon hsource htarget)
      (hjoins.isTrimmed hsource htarget) hgap before) hjoins.not_isStateName _ _
  refine ⟨⟨fun hsame hlabel => ?_, fun hlabel => ?_⟩, hleads⟩
  · -- there would be no warning
    have hfound := congrArg (fun b => b.found.warnings.length) (hsame.symm.trans (hleads hlabel))
    simp [addState_found, Findings.warning] at hfound
  · rw [hstep, hjoins.ofTrimmed_label hsource htarget hgap hlabel]
    dsimp only
    rw [declare_of_identifier (hself hsource) hsource, declare_of_identifier
      (withoutLabel_append (not_mem_of_identifierChars htarget (by decide))
        (isTrimmed_of_identifierChars htarget) hgap label) htarget]

/-- A label that leads to the pseudo-state hides the states of its transition. -/
theorem labelled_retry_is_no_transition :
    isIdentifier "a" = true ∧ isIdentifier "b" = true ∧
      step ⟨true, true, false, true, [], .none⟩ ("a -> b : x -> [*]".toList, 3) =
        ⟨true, true, false, true, ["a -> b".toList], ⟨[], [.atPosition .invalidStateName 3 1
          "state name 'a -> b' is not a valid identifier"]⟩⟩ := by
  have hspace : ∀ c ∈ [' '], isBlank c = true := List.forall_mem_singleton.2 rfl
  have hjoins : Joins "a".toList "b".toList "a -> b".toList := by
    have harrow : ArrowThen " -> b".toList ([' '] ++ "b".toList) := .intro hspace (.inl rfl) rfl
    exact .intro rfl harrow hspace rfl
  have hleads : LeadsToPseudo " x -> [*]".toList := by
    have harrow : ArrowThen " -> [*]".toList " [*]".toList := .intro hspace (.inl rfl) rfl
    have hpseudo : PseudoThen " [*]".toList := isPseudoTarget_trimStart_iff.1 (by decide)
    exact .intro harrow hpseudo (rfl : _ = " x".toList ++ _)
  refine ⟨by decide, by decide, ?_⟩
  have hlabel := (labels_are_dropped_iff (b := ⟨true, true, false, true, [], .none⟩) (by decide)
    (by decide) hjoins rfl rfl).2 ("a -> b : x -> [*]".toList, 3) [' '] " x -> [*]".toList hspace
    (by decide)
  rw [hlabel.2 hleads]
  rfl

end Body

end DiagramRegistry
