import DiagramRegistry.Proofs.Document.Live
import DiagramRegistry.Proofs.Document.Transition

/-
# Directives

A directive begins with a keyword and goes on with any text.  It declares nothing, unless there is
an arrow in the text: a line is tried as a transition before its keyword is looked at, and what
stands in front of the arrow is declared, keyword and all.  So a body made of directives has no
states exactly when none of them has such an arrow.

* `Statement.Directs`: the text of a directive;
* `Body.declareAll`: what declaring some states does to the scan;
* `Body.step_directive`, `Body.step_directive_of_hasInnerArrow`: what it does to the scan;
* `Body.directives_declare_nothing_iff`: the directives that declare nothing, and the bodies made of
  directives that have no states.
-/
namespace DiagramRegistry

open Text

namespace Statement

variable {text keyword front cs rest source : List Char}

/-- A text consists of the keyword of a directive, a blank, and something behind. -/
inductive Directs (keyword text : List Char) : Prop where
  /-- The keyword, the blank, and the rest. -/
  | intro {b : Char} {rest : List Char} (hkeyword : keyword ∈ directives) (hb : isBlank b = true)
      (h : text = keyword ++ b :: rest)

/-! ## Keywords -/

/-- What the keywords of directives have in common. -/
structure IsKeyword (keyword : List Char) : Prop where
  /-- It is a text without blanks around it. -/
  trimmed : IsTrimmed keyword
  /-- It has characters. -/
  ne_nil : keyword ≠ []
  /-- It is no part of an arrow. -/
  not_mem_dash : '-' ∉ keyword
  /-- It has no label. -/
  not_mem_colon : ':' ∉ keyword
  /-- It does not begin like the pseudo-state. -/
  head_ne : keyword.head? ≠ some '['

lemma isKeyword_of_mem (h : keyword ∈ directives) : IsKeyword keyword := by
  have hall : ∀ d ∈ directives, trim d = d ∧ d ≠ [] ∧ '-' ∉ d ∧ ':' ∉ d ∧ d.head? ≠ some '[' := by
    decide
  obtain ⟨htrim, hne, hdash, hcolon, hpseudo⟩ := hall keyword h
  exact ⟨htrim ▸ isTrimmed_trim keyword, hne, hdash, hcolon, hpseudo⟩

/-- A part at the end of a text without blanks around it is not all blank. -/
lemma exists_not_isBlank (h : IsTrimmed (front ++ rest)) (hne : rest ≠ []) :
    ∃ c ∈ rest, isBlank c = false := by
  obtain ⟨cs, c, rfl⟩ := (List.eq_nil_or_concat rest).resolve_left hne
  exact ⟨c, by simp, h.last c (by simp)⟩

/-- No arrow begins inside a keyword. -/
lemma IsKeyword.not_arrowThen (h : IsKeyword (front ++ keyword)) (hne : keyword ≠ []) :
    ¬ ArrowThen (keyword ++ cs) rest := by
  rintro @⟨gap, arrow, hgap, harrow, heq⟩
  obtain ⟨c, hc, hsolid⟩ := exists_not_isBlank h.trimmed hne
  rw [List.append_assoc] at heq
  rcases List.append_eq_append_iff.1 heq with ⟨between, rfl, -⟩ | ⟨between, rfl, hbetween⟩
  · rw [hgap c (List.mem_append_left _ hc)] at hsolid
    exact absurd hsolid (by simp)
  · cases between with
    | nil =>
      rw [hgap c (by simpa using hc)] at hsolid
      exact absurd hsolid (by simp)
    | cons d between =>
      -- the arrow begins with a dash
      obtain rfl : d = '-' := by
        rcases harrow with rfl | rfl <;> exact (List.cons.inj hbetween).1.symm
      exact h.not_mem_dash (by simp)

/-- The keyword stays in front when the blanks around the text and its label are dropped. -/
lemma IsKeyword.isPrefix_withoutLabel (h : IsKeyword keyword) (rest : List Char) :
    keyword <+: withoutLabel (keyword ++ rest) := by
  have htrim : ∀ rest : List Char, keyword <+: trim (keyword ++ rest) := by
    intro rest
    have hstart : trimStart (keyword ++ rest) = keyword ++ rest := by
      refine trimStart_eq_self fun c hc => h.trimmed.head c ?_
      rwa [List.head?_append_of_ne_nil _ h.ne_nil] at hc
    obtain ⟨back, hback, hblank, -⟩ := exists_trimEnd (keyword ++ rest)
    rw [trim, hstart]
    rcases List.append_eq_append_iff.1 hback with ⟨between, hend, -⟩ | ⟨between, hend, rfl⟩
    · exact ⟨between, hend.symm⟩
    · by_cases hne : between = []
      · rw [hne, List.append_nil] at hend
        exact hend ▸ List.prefix_rfl
      · obtain ⟨c, hc, hsolid⟩ := exists_not_isBlank (hend ▸ h.trimmed) hne
        rw [hblank c (List.mem_append_left _ hc)] at hsolid
        exact absurd hsolid (by simp)
  rw [withoutLabel, cutAtFirst?_append_of_not_mem h.not_mem_colon]
  cases cutAtFirst? ':' rest with
  | none => exact htrim rest
  | some p => exact htrim p.1

/-! ## The forms of a directive -/

lemma Directs.ofTrimmed_eq (h : Directs keyword text) (htrimmed : IsTrimmed text)
    (harrow : ¬ HasInnerArrow text) :
    ofTrimmed text = if opensNote text = true then noteBlock else directive := by
  obtain @⟨b, rest, hkeyword, hb, rfl⟩ := h
  have hname : identifierChars (keyword ++ b :: rest) = false :=
    identifierChars_eq_false hb (by simp)
  have hdirective : isDirective (keyword ++ b :: rest) = true :=
    isDirective_iff.2 ⟨keyword, hkeyword, .followed hb rfl⟩
  rw [ofTrimmed_of_not_hasInnerArrow htrimmed harrow, ofPlain, hname, hdirective]
  rfl

/-- What is declared as the source of a transition stands in front of an arrow. -/
lemma arrowThen_of_ofTrimmed
    (h : ofTrimmed text = terminal source ∨ ∃ target, ofTrimmed text = transition source target) :
    ∃ cs rest, text = source ++ cs ∧ ArrowThen cs rest := by
  have hsplit : ∃ accepts target, splitArrow? accepts text = some (source, target) := by
    unfold ofTrimmed at h
    split at h
    · simp at h
    · split at h
      · rename_i found hterminal
        obtain ⟨⟨source', target⟩, hsplit, rfl⟩ := Option.map_eq_some_iff.1 hterminal
        obtain rfl : source' = source := by simpa using h
        exact ⟨_, target, hsplit⟩
      · split at h
        · rename_i source' target htransition
          obtain ⟨rfl, -⟩ : source' = source ∧ True := by simpa using h
          exact ⟨_, target, htransition⟩
        · unfold ofPlain at h
          split_ifs at h <;> simp at h
  obtain ⟨accepts, target, hsplit⟩ := hsplit
  obtain ⟨-, cs, rest, htext, harrow, -⟩ := arrowThen_of_splitArrow? hsplit
  exact ⟨cs, rest, htext, harrow⟩

/-- A directive with an arrow is read as a transition, whose source begins with the keyword. -/
lemma Directs.exists_source (h : Directs keyword text) (htrimmed : IsTrimmed text)
    (harrow : HasInnerArrow text) :
    ∃ source, (∃ cs rest, text = source ++ cs ∧ ArrowThen cs rest) ∧
      keyword <+: withoutLabel source ∧
      (ofTrimmed text = terminal source ∨ ∃ target, ofTrimmed text = transition source target) := by
  obtain @⟨b, tail, hkeyword, -, rfl⟩ := h
  have hk := isKeyword_of_mem hkeyword
  have hsource : ∀ source, (ofTrimmed (keyword ++ b :: tail) = terminal source ∨
      ∃ target, ofTrimmed (keyword ++ b :: tail) = transition source target) →
      keyword <+: withoutLabel source := by
    intro source hform
    obtain ⟨cs, rest, htext, hcs⟩ := arrowThen_of_ofTrimmed hform
    rcases List.append_eq_append_iff.1 htext with ⟨between, rfl, -⟩ | ⟨between, hbetween, rfl⟩
    · exact hk.isPrefix_withoutLabel between
    · by_cases hne : between = []
      · obtain rfl : keyword = source := by rw [hbetween, hne, List.append_nil]
        simpa using hk.isPrefix_withoutLabel []
      · exact absurd hcs ((hbetween ▸ hk).not_arrowThen hne)
  rcases ofTrimmed_of_hasInnerArrow htrimmed harrow with hinitial | ⟨source, hform⟩ |
      ⟨source, target, hform⟩
  · -- a transition from the pseudo-state begins with it
    obtain ⟨-, -, hpseudo⟩ := (exists_initial_iff htrimmed).1 hinitial
    refine absurd ?_ hk.head_ne
    rw [← List.head?_append_of_ne_nil keyword hk.ne_nil, hpseudo]
    rfl
  · exact ⟨source, arrowThen_of_ofTrimmed (.inl hform), hsource source (.inl hform), .inl hform⟩
  · exact ⟨source, arrowThen_of_ofTrimmed (.inr ⟨target, hform⟩),
      hsource source (.inr ⟨target, hform⟩), .inr ⟨target, hform⟩⟩

end Statement

namespace Body

open Statement

variable {b : Body} {l : List Char × Nat} {keyword side : List Char} {content : String} {n : Nat}

/-! ## What a directive does to the scan -/

/-- A directive without an arrow declares nothing; it may open a note. -/
lemma step_directive (hhears : b.Hears (trim l.1)) (h : Directs keyword (trim l.1))
    (harrow : ¬ HasInnerArrow (trim l.1)) :
    b.step l = { b with inNote := opensNote (trim l.1) } := by
  have hnote := hhears.notInNote
  rw [hhears.step_eq, take, h.ofTrimmed_eq (isTrimmed_trim l.1) harrow]
  by_cases hopens : opensNote (trim l.1) = true
  · rw [if_pos hopens, hopens]
  · rw [if_neg hopens, Bool.eq_false_iff.2 hopens, ← hnote]

/-- The warning about a state whose name is no identifier. -/
def invalidName (line column : Nat) (name : List Char) : Finding :=
  .atPosition .invalidStateName line column
    s!"state name '{String.ofList name}' is not a valid identifier"

/-- The scan after states were declared at a position: those that are new are added, and there is a
warning for each name that is no name of a state. -/
def declareAll (b : Body) (names : List (List Char)) (line column : Nat) : Body :=
  { names.foldl addState b with
    found := ⟨b.found.errors, b.found.warnings ++
      (names.filter fun name => !isStateName (String.ofList name)).map (invalidName line column)⟩ }

/-- The state that one side of a transition names, if it is not the pseudo-state. -/
def named (side : List Char) : List (List Char) :=
  if withoutLabel side = pseudoState.toList then [] else [withoutLabel side]

/-- Adding states does not look at the findings. -/
lemma addState_setFound (b : Body) (found : Findings) (name : List Char) :
    { b with found := found }.addState name = { b.addState name with found := found } := by
  by_cases hmem : name ∈ b.states <;> simp [addState, hmem]

lemma foldl_addState_setFound (names : List (List Char)) (b : Body) (found : Findings) :
    names.foldl addState { b with found := found } =
      { names.foldl addState b with found := found } := by
  induction names generalizing b with
  | nil => rfl
  | cons name names ih => rw [List.foldl_cons, addState_setFound, ih, List.foldl_cons]

lemma declare_eq_declareAll (b : Body) (side : List Char) (line column : Nat) :
    b.declare side line column = b.declareAll (named side) line column := by
  by_cases hpseudo : withoutLabel side = pseudoState.toList
  · simp [declare, declareAll, named, hpseudo]
  · by_cases hmem : withoutLabel side ∈ b.states <;>
      cases hname : isStateName (String.ofList (withoutLabel side)) <;>
      simp [declare, declareAll, named, addState, invalidName, Findings.warning, hpseudo, hmem,
        hname]

lemma declareAll_append (b : Body) (names names' : List (List Char)) (line column : Nat) :
    (b.declareAll names line column).declareAll names' line column =
      b.declareAll (names ++ names') line column := by
  simp only [declareAll, foldl_addState_setFound, List.foldl_append, List.filter_append,
    List.map_append, List.append_assoc]

/-- A state that was there stays. -/
lemma states_subset_addState (b : Body) (name : List Char) :
    b.states ⊆ (b.addState name).states := by
  unfold addState
  split_ifs
  · exact List.Subset.refl _
  · exact List.subset_append_left _ _

lemma mem_states_addState (b : Body) (name : List Char) : name ∈ (b.addState name).states := by
  unfold addState
  split_ifs with hmem
  · exact hmem
  · exact List.mem_append_right _ List.mem_cons_self

lemma states_subset_foldl_addState (names : List (List Char)) (b : Body) :
    b.states ⊆ (names.foldl addState b).states := by
  induction names generalizing b with
  | nil => exact List.Subset.refl _
  | cons name names ih => exact List.Subset.trans (states_subset_addState b name) (ih _)

/-- Every state that is declared is there then. -/
lemma mem_states_declareAll {name : List Char} {names : List (List Char)} (h : name ∈ names)
    (b : Body) (line column : Nat) : name ∈ (b.declareAll names line column).states := by
  obtain ⟨before, behind, rfl⟩ := List.append_of_mem h
  simp only [declareAll, List.foldl_append, List.foldl_cons]
  exact states_subset_foldl_addState _ _ (mem_states_addState _ _)

/-- A directive with an arrow declares what stands in front of an arrow, keyword and all, and at
most one state more. -/
lemma step_directive_of_hasInnerArrow (hhears : b.Hears (trim l.1)) (h : Directs keyword (trim l.1))
    (harrow : HasInnerArrow (trim l.1)) :
    ∃ source cs rest others, trim l.1 = source ++ cs ∧ ArrowThen cs rest ∧
      keyword <+: withoutLabel source ∧ others.length ≤ 1 ∧
      b.step l = b.declareAll (withoutLabel source :: others) l.2 (indentation l.1 + 1) := by
  obtain ⟨source, ⟨cs, rest, htext, hcs⟩, hkeyword, hform⟩ :=
    h.exists_source (isTrimmed_trim l.1) harrow
  obtain ⟨hmem, -, -⟩ := h
  have hk := isKeyword_of_mem hmem
  have hsource : named source = [withoutLabel source] := by
    refine if_neg fun heq => ?_
    obtain ⟨tail, htail⟩ := hkeyword
    refine hk.head_ne ?_
    rw [← List.head?_append_of_ne_nil keyword hk.ne_nil, htail, heq]
    rfl
  rcases hform with hform | ⟨target, hform⟩
  · refine ⟨source, cs, rest, [], htext, hcs, hkeyword, Nat.zero_le _, ?_⟩
    rw [hhears.step_eq, take, hform, ← hsource]
    exact declare_eq_declareAll _ _ _ _
  · refine ⟨source, cs, rest, named target, htext, hcs, hkeyword, ?_, ?_⟩
    · unfold named
      split_ifs <;> simp
    · rw [hhears.step_eq, take, hform, ← List.singleton_append, ← hsource, ← declareAll_append,
        ← declare_eq_declareAll, ← declare_eq_declareAll]

/-- What is not heard declares no state. -/
lemma states_step_of_not_hears (h : ¬ b.Hears (trim l.1)) : (b.step l).states = b.states := by
  have hstep := stepsTo_step b l
  generalize b.step l = b' at hstep ⊢
  cases hstep with
  | start _ => rfl
  | stop _ => rfl
  | passed _ _ => rfl
  | noted _ _ _ => rfl
  | heard hhears => exact absurd hhears h

/-! ## Bodies made of directives -/

/-- All live lines of a document are directives. -/
def IsDirected (content : String) : Prop :=
  ∀ i, IsLive (trimmedLines content) i →
    LineIs (trimmedLines content) (fun text => ∃ keyword, Directs keyword text) i

/-- One line more: a state is there when it was there, or when the line is a live one with an
arrow. -/
lemma states_step_eq_nil_iff (hhears : b.Hears (trim l.1) ↔ IsLive (trimmedLines content) n)
    (hl : (trimmedLines content)[n]? = some (trim l.1)) (h : IsDirected content) :
    (b.step l).states = [] ↔ b.states = [] ∧
      (IsLive (trimmedLines content) n → ¬ LineIs (trimmedLines content) HasInnerArrow n) := by
  rw [lineIs_iff hl, ← hhears]
  by_cases hheard : b.Hears (trim l.1)
  · obtain ⟨keyword, hdirects⟩ := (lineIs_iff hl).1 (h n (hhears.1 hheard))
    by_cases harrow : HasInnerArrow (trim l.1)
    · obtain ⟨source, -, -, others, -, -, -, -, hstep⟩ :=
        step_directive_of_hasInnerArrow hheard hdirects harrow
      rw [hstep]
      exact iff_of_false (List.ne_nil_of_mem (mem_states_declareAll List.mem_cons_self _ _ _))
        fun hnone => hnone.2 hheard harrow
    · rw [step_directive hheard hdirects harrow]
      exact (and_iff_left fun _ => harrow).symm
  · rw [states_step_of_not_hears hheard]
    exact (and_iff_left fun hheard' => absurd hheard' hheard).symm

/-- After some lines of such a document there is no state when there was no arrow on a live one. -/
lemma states_afterLines_eq_nil_iff (h : IsDirected content)
    (hn : n ≤ (numberedLines content).length) : (afterLines content n).states = [] ↔
      ∀ i < n, IsLive (trimmedLines content) i →
        ¬ LineIs (trimmedLines content) HasInnerArrow i := by
  induction n with
  | zero => simp [afterLines, begin]
  | succ n ih =>
    obtain ⟨l, hl, hstep⟩ := exists_afterLines_succ (Nat.lt_of_succ_le hn)
    have hknows := knows_afterLines content n (Nat.le_of_succ_le hn)
    rw [hstep, states_step_eq_nil_iff (l := (l, n + 1)) (hknows.hears_iff hl) hl h,
      ih (Nat.le_of_succ_le hn), Nat.forall_lt_succ_right]

/-- In the end an error says that there are no states, when there is a start marker. -/
lemma hasError_noStates_close (h : b.found.errors = []) :
    b.close.hasError .noStates = true ↔ b.sawStart = true ∧ b.states = [] := by
  obtain ⟨sawStart, inside, inNote, sawInitial, states, errors, warnings⟩ := b
  obtain rfl : errors = [] := h
  cases sawStart <;> cases sawInitial <;> cases states <;>
    simp [close, Findings.hasError, Findings.error, Findings.warning, Finding.atPosition]

/-- A directive declares nothing exactly when it has no arrow.  With an arrow, what stands in front
of an arrow is declared as a state, whose name begins with the keyword, and at most one state more,
with a warning for each of them whose name is no identifier; nothing else happens.  So a body made
of directives has no states, and is reported for it, exactly when there is no arrow on its live
lines. -/
theorem directives_declare_nothing_iff (b : Body) (l : List Char × Nat) (content : String) :
    (∀ keyword, b.Hears (trim l.1) → Directs keyword (trim l.1) →
      (¬ HasInnerArrow (trim l.1) → b.step l = { b with inNote := opensNote (trim l.1) }) ∧
      (HasInnerArrow (trim l.1) → ∃ source cs rest others,
        trim l.1 = source ++ cs ∧ ArrowThen cs rest ∧ keyword <+: withoutLabel source ∧
        withoutLabel source ∈ (b.step l).states ∧ others.length ≤ 1 ∧
        b.step l = b.declareAll (withoutLabel source :: others) l.2 (indentation l.1 + 1))) ∧
    (IsDirected content → ((check content .none).hasError .noStates = true ↔
      (∃ i, LineIs (trimmedLines content) (StartsWith · Marker.start.text.toList) i) ∧
      ∀ i, IsLive (trimmedLines content) i →
        ¬ LineIs (trimmedLines content) HasInnerArrow i)) := by
  constructor
  · intro keyword hhears h
    refine ⟨step_directive hhears h, fun harrow => ?_⟩
    obtain ⟨source, cs, rest, others, htext, hcs, hkeyword, hothers, hstep⟩ :=
      step_directive_of_hasInnerArrow hhears h harrow
    refine ⟨source, cs, rest, others, htext, hcs, hkeyword, ?_, hothers, hstep⟩
    rw [hstep]
    exact mem_states_declareAll List.mem_cons_self _ _ _
  · intro h
    have hknows := knows_afterLines content _ le_rfl
    rw [check_eq_close, hasError_noStates_close hknows.errors, hknows.sawStart,
      states_afterLines_eq_nil_iff h le_rfl]
    exact and_congr ⟨fun ⟨i, _, hi⟩ => ⟨i, hi⟩, fun ⟨i, hi⟩ => ⟨i, hi.lt_length, hi⟩⟩
      ⟨fun hall i hlive harrow => hall i harrow.lt_length hlive harrow, fun hall i _ => hall i⟩

/-- A document whose only statement is a title with an arrow in it. -/
def arrowedTitle : String := "@startuml\ntitle Door --> Hall\n@enduml"

/-- The title is the only live line, and a directive. -/
lemma isDirected_arrowedTitle : IsDirected arrowedTitle ∧ IsLive (trimmedLines arrowedTitle) 1 ∧
    LineIs (trimmedLines arrowedTitle) HasInnerArrow 1 := by
  have hknows := knows_afterLines arrowedTitle 1 (by decide)
  have htexts : trimmedLines arrowedTitle =
      ["@startuml".toList, "title Door --> Hall".toList, "@enduml".toList] := by decide
  rw [IsDirected, htexts] at *
  have hmarker : ∀ {texts i text}, texts[i]? = some text → IsMarker text → ¬ IsLive texts i :=
    fun htext hmarker hlive =>
      ((lineIs_iff htext).1 (isLive_iff.1 hlive).1).not_isMarker hmarker
  have hcounts : CanCount "title Door --> Hall".toList :=
    (isInert_eq_false_iff (ofTrimmed?_eq_none_iff.1 (by decide))).1 (by decide)
  refine ⟨fun i hlive => ?_, (hknows.hears_iff rfl).1 ⟨hcounts, by decide, by decide⟩, ⟨_, rfl, ?_⟩⟩
  · match i with
    | 0 => exact absurd hlive (hmarker rfl ⟨.start, .alone rfl⟩)
    | 1 => exact ⟨_, rfl, "title".toList, .intro (by decide) (b := ' ') (by decide) rfl⟩
    | 2 => exact absurd hlive (hmarker rfl ⟨.stop, .alone rfl⟩)
    | i + 3 => exact absurd (isLive_iff.1 hlive).1 (by simp [LineIs])
  · exact ⟨"title Door -".toList, " Hall".toList, by decide, by decide, by decide⟩

/-- The title is taken for a transition from a state of this name, with a warning about the name,
and nobody is told that there are no states. -/
theorem arrowedTitle_is_no_title :
    (∃ name ∈ ((afterLines arrowedTitle 1).step ("title Door --> Hall".toList, 2)).states,
      "title".toList <+: name) ∧
    ((afterLines arrowedTitle 1).step ("title Door --> Hall".toList, 2)).found.warnings =
      [invalidName 2 1 "title Door".toList] ∧
    IsDirected arrowedTitle ∧ (check arrowedTitle .none).hasError .noStates = false := by
  obtain ⟨hdirected, hlive, harrow⟩ := isDirected_arrowedTitle
  have htext : (trimmedLines arrowedTitle)[1]? = some (trim "title Door --> Hall".toList) := by
    decide
  have hhears := ((knows_afterLines arrowedTitle 1 (by decide)).hears_iff htext).2 hlive
  have hdirects : Directs "title".toList (trim "title Door --> Hall".toList) :=
    .intro (by decide) (b := ' ') (by decide) rfl
  obtain ⟨hstep, hbody⟩ := directives_declare_nothing_iff (afterLines arrowedTitle 1)
    ("title Door --> Hall".toList, 2) arrowedTitle
  obtain ⟨source, _, _, _, -, -, hkeyword, hstate, -⟩ :=
    (hstep _ hhears hdirects).2 ((lineIs_iff htext).1 harrow)
  refine ⟨⟨_, hstate, hkeyword⟩, by decide +kernel, hdirected, ?_⟩
  exact Bool.eq_false_iff.2 fun herror => ((hbody hdirected).1 herror).2 1 hlive harrow

end Body

end DiagramRegistry
