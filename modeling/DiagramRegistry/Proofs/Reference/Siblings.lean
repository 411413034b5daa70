import DiagramRegistry.Proofs.Reference.CycleDetection

/-
# References side by side

The references of a diagram share what has been reported, and nothing else: the chains behind each
of them begin at the root anew.  A chain goes from the root to the target of its reference, so its
text begins with the texts of the two.  When the targets have different texts, and these cannot be
mistaken for the beginning of a longer chain, no chain behind one reference is held back because of
another one, and resolution finds about all references what it finds about each of them alone.

* `Resolution.step_eq_after`: a reference is taken in as if it were the only one, unless a chain
  behind it has been reported;
* `display_eq_of_chainText`: the text of a chain tells the text of the key behind the root;
* `Resolution.siblings_are_independent`: the findings of all references, and of each alone.
-/
namespace DiagramRegistry

/-! ## The text of a chain -/

/-- What stands between the keys of a chain in words. -/
def arrow : List Char := " -> ".toList

/-- A text without arrows that ends with another character than those of an arrow is not cut short
by an arrow that follows: what comes after it cannot begin within it. -/
lemma eq_nil_of_arrow {a b x y : List Char} (hb : ¬ arrow <:+: a ++ b)
    (hlast : ∀ d ∈ (a ++ b).getLast?, d ∉ arrow) (hx : x = [] ∨ arrow <+: x) (h : x = b ++ y) :
    b = [] := by
  by_contra hne
  obtain ⟨z, rfl⟩ : arrow <+: x := hx.resolve_left fun hnil => by simp [hnil, hne] at h
  rcases List.append_eq_append_iff.1 h with ⟨e, rfl, -⟩ | ⟨e, harrow, -⟩
  · exact hb ⟨a, e, by simp⟩
  · -- the text ends within the arrow
    obtain ⟨bs, d, rfl⟩ := List.eq_nil_or_concat b |>.resolve_left hne
    refine hlast d (by simp) ?_
    rw [harrow]
    simp

/-- Texts without arrows are told apart in front of an arrow or of the end. -/
lemma eq_of_append_arrow {a b x y : List Char} (ha : ¬ arrow <:+: a) (hb : ¬ arrow <:+: b)
    (halast : ∀ d ∈ a.getLast?, d ∉ arrow) (hblast : ∀ d ∈ b.getLast?, d ∉ arrow)
    (hx : x = [] ∨ arrow <+: x) (hy : y = [] ∨ arrow <+: y) (h : a ++ x = b ++ y) : a = b := by
  rcases List.append_eq_append_iff.1 h with ⟨e, rfl, he⟩ | ⟨e, rfl, he⟩
  · simp [eq_nil_of_arrow hb hblast hx he]
  · simp [eq_nil_of_arrow ha halast hy he]

/-- The text of a key ends with a letter. -/
lemma Key.not_mem_arrow_of_getLast? (k : Key) : ∀ d ∈ k.display.toList.getLast?, d ∉ arrow := by
  intro d hd
  obtain ⟨front, hfront⟩ : ∃ front, k.display.toList = front ++ k.location.name.toList :=
    ⟨(k.type.name ++ ":" ++ k.stem ++ "@").toList, by simp [display, toString]⟩
  obtain ⟨e, he, hletter⟩ : ∃ e, k.location.name.toList.getLast? = some e ∧ e ∉ arrow := by
    cases k.location <;> exact ⟨_, rfl, by decide⟩
  rw [hfront, List.getLast?_append, he, Option.some_or] at hd
  exact Option.some.inj hd ▸ hletter

/-- The text of a chain goes on behind its first key with an arrow. -/
lemma toList_chainText_cons (k next : Key) (chain : List Key) :
    (chainText (k :: next :: chain)).toList =
      k.display.toList ++ arrow ++ (chainText (next :: chain)).toList := by
  simp [chainText, arrow]

/-- The text of a chain is that of its first key, then nothing or an arrow. -/
lemma exists_toList_chainText (k : Key) (chain : List Key) :
    ∃ rest, (chainText (k :: chain)).toList = k.display.toList ++ rest ∧
      (rest = [] ∨ arrow <+: rest) := by
  cases chain with
  | nil => exact ⟨[], by simp [chainText], .inl rfl⟩
  | cons next chain =>
    refine ⟨arrow ++ (chainText (next :: chain)).toList, ?_, .inr (List.prefix_append _ _)⟩
    rw [toList_chainText_cons, List.append_assoc]

/-- Chains from the same key with the same text go on with keys of the same text. -/
lemma display_eq_of_chainText {root k k' : Key} {chain chain' : List Key}
    (hk : ¬ arrow <:+: k.display.toList) (hk' : ¬ arrow <:+: k'.display.toList)
    (h : chainText (root :: k :: chain) = chainText (root :: k' :: chain')) :
    k.display = k'.display := by
  have htext := congrArg String.toList h
  rw [toList_chainText_cons, toList_chainText_cons, List.append_cancel_left_eq] at htext
  obtain ⟨x, hx, hxarrow⟩ := exists_toList_chainText k chain
  obtain ⟨y, hy, hyarrow⟩ := exists_toList_chainText k' chain'
  rw [hx, hy] at htext
  exact String.toList_inj.1 (eq_of_append_arrow hk hk' k.not_mem_arrow_of_getLast?
    k'.not_mem_arrow_of_getLast? hxarrow hyarrow htext)

namespace Resolution

variable {c : Catalogue} {root : Key} {before r : Resolution} {reference : Reference}

/-! ## One reference after others -/

/-- What is known after something else was known. -/
def after (before r : Resolution) : Resolution :=
  ⟨before.reported ++ r.reported, before.found ++ r.found⟩

/-- What a chain is reported as. -/
def label (root : Key) (chain : List Key) : Code × String :=
  (cycleCode root (chain.getLastD root), chainText chain)

/-- What resolution knows about a reference alone. -/
def alone (c : Catalogue) (root : Key) (reference : Reference) : Resolution :=
  step c root ⟨[], .none⟩ reference

lemma report_eq {line : Nat} {chain : List Key} :
    report root line r chain =
      if label root chain ∈ r.reported then r
      else ⟨r.reported ++ [label root chain], r.found.error (cycleFinding root line chain)⟩ := rfl

lemma report_after {line : Nat} {chain : List Key} (hnew : label root chain ∉ before.reported) :
    report root line (before.after r) chain = before.after (report root line r chain) := by
  rw [report_eq, report_eq]
  by_cases hold : label root chain ∈ r.reported
  · have hafter : label root chain ∈ (before.after r).reported := List.mem_append_right _ hold
    rw [if_pos hafter, if_pos hold]
  · have hafter : label root chain ∉ (before.after r).reported := fun h =>
      (List.mem_append.1 h).elim hnew hold
    rw [if_neg hafter, if_neg hold]
    simp [after]

lemma foldl_report_after {ps : List (Nat × List Key)}
    (hnew : ∀ p ∈ ps, label root p.2 ∉ before.reported) :
    ps.foldl (fun r p => report root p.1 r p.2) (before.after r) =
      before.after (ps.foldl (fun r p => report root p.1 r p.2) r) := by
  induction ps generalizing r with
  | nil => rfl
  | cons p ps ih =>
    rw [List.forall_mem_cons] at hnew
    rw [List.foldl_cons, List.foldl_cons, report_after hnew.1, ih hnew.2]

/-- A reference is taken in as if it were the only one, when no chain behind it was reported. -/
lemma step_eq_after (hnew : ∀ p ∈ closures c root reference, label root p.2 ∉ r.reported) :
    step c root r reference = r.after (alone c root reference) := by
  obtain ⟨remark, -, hstep⟩ := exists_step_eq c root reference
  rw [alone, hstep, hstep, ← foldl_report_after hnew]
  simp [after]

/-- What counts as reported is reported of a chain that was met. -/
lemma exists_of_mem_foldl_report {ps : List (Nat × List Key)} {l : Code × String}
    (h : l ∈ (ps.foldl (fun r p => report root p.1 r p.2) r).reported) :
    l ∈ r.reported ∨ ∃ p ∈ ps, l = label root p.2 := by
  induction ps generalizing r with
  | nil => exact .inl h
  | cons p ps ih =>
    rcases ih h with h | ⟨q, hq, rfl⟩
    · simp only [report_eq] at h
      split at h
      · exact .inl h
      · rcases List.mem_append.1 h with h | h
        · exact .inl h
        · exact .inr ⟨p, List.mem_cons_self, List.mem_singleton.1 h⟩
    · exact .inr ⟨q, List.mem_cons_of_mem _ hq, rfl⟩

lemma exists_of_mem_alone {l : Code × String} (h : l ∈ (alone c root reference).reported) :
    ∃ p ∈ closures c root reference, l = label root p.2 := by
  obtain ⟨remark, -, hstep⟩ := exists_step_eq c root reference
  rw [alone, hstep] at h
  exact (exists_of_mem_foldl_report h).resolve_left (by simp)

/-- A chain behind a reference goes from the root to the target of the reference. -/
lemma exists_target_of_mem_closures {p : Nat × List Key} (h : p ∈ closures c root reference) :
    ∃ target rest, reference.target = some target ∧ c.Expandable target ∧
      p.2 = root :: target :: rest := by
  obtain ⟨target, htarget, hexp, -, vs, k, hlead, -, -, -, hchain⟩ := mem_closures_iff.1 h
  cases hlead with
  | here hk => exact ⟨target, [], htarget, hexp, by simpa [List.mem_singleton.1 hk] using hchain⟩
  | via hv _ _ =>
    rw [List.mem_singleton.1 hv] at hchain
    exact ⟨target, _, htarget, hexp, hchain⟩

/-- References with targets of different texts are taken in as if each were the only one. -/
lemma foldl_step_eq {references : List Reference}
    (hdistinct : ((references.filterMap Reference.target).map Key.display).Nodup)
    (harrow : ∀ t ∈ references.filterMap Reference.target, c.Expandable t →
      ¬ arrow <:+: t.display.toList) :
    references.foldl (step c root) ⟨[], .none⟩ =
      ⟨references.flatMap fun r => (alone c root r).reported,
        references.flatMap fun r => (alone c root r).found.errors,
        references.flatMap fun r => (alone c root r).found.warnings⟩ := by
  induction references using List.reverseRecOn with
  | nil => rfl
  | append_singleton references reference ih =>
    rw [List.filterMap_append, List.map_append, List.nodup_append] at hdistinct
    rw [List.filterMap_append, List.forall_mem_append] at harrow
    rw [List.foldl_append, List.foldl_cons, List.foldl_nil, ih hdistinct.1 harrow.1, step_eq_after]
    · simp only [after, List.flatMap_append, List.flatMap_singleton]
      rfl
    · intro p hp hold
      obtain ⟨t, rest, ht, hexp, hchain⟩ := exists_target_of_mem_closures hp
      obtain ⟨other, hother, hold⟩ := List.mem_flatMap.1 hold
      obtain ⟨q, hq, hlabel⟩ := exists_of_mem_alone hold
      obtain ⟨t', rest', ht', hexp', hchain'⟩ := exists_target_of_mem_closures hq
      have hmem : t ∈ [reference].filterMap Reference.target := by simp [ht]
      have hmem' : t' ∈ references.filterMap Reference.target :=
        List.mem_filterMap.2 ⟨other, hother, ht'⟩
      -- the same text would be that of two chains to targets of different texts
      have htext : chainText (root :: t :: rest) = chainText (root :: t' :: rest') := by
        rw [← hchain, ← hchain']
        exact congrArg Prod.snd hlabel
      exact hdistinct.2.2 _ (List.mem_map_of_mem hmem') _ (List.mem_map_of_mem hmem)
        (display_eq_of_chainText (harrow.2 t hmem hexp) (harrow.1 t' hmem' hexp') htext).symm

/-! ## What one reference contributes -/

/-- Nothing was found but errors about cycles. -/
structure OnlyCycles (r : Resolution) : Prop where
  /-- Each error is about a cycle. -/
  errors : ∀ f ∈ r.found.errors, f.code.isCycle = true
  /-- There is no warning. -/
  warnings : r.found.warnings = []

lemma OnlyCycles.report (h : OnlyCycles r) (line : Nat) (chain : List Key) :
    OnlyCycles (Resolution.report root line r chain) := by
  rw [report_eq]
  split
  · exact h
  · refine ⟨fun f hf => ?_, h.warnings⟩
    rcases List.mem_append.1 hf with hf | hf
    · exact h.errors f hf
    · rw [List.mem_singleton.1 hf]
      exact isCycle_cycleCode root _

/-- What a reference contributes to the findings, by what the repository says about its target. -/
inductive Contributes (c : Catalogue) (reference : Reference) : Findings → Prop where
  /-- A reference of an unknown kind contributes nothing. -/
  | unknown {label : String} (hkind : reference.kind = .unknown label) :
      Contributes c reference .none
  /-- There is one warning when the repository does not say whether the target exists. -/
  | unchecked {target : Key} {failure : Failure} {f : Finding}
      (htarget : reference.target = some target) (hcontains : c.contains target = .error failure)
      (hcode : f.code = .referenceCheckError) : Contributes c reference ⟨[], [f]⟩
  /-- There is one error when a product does not exist. -/
  | absentProduct {target : Key} {f : Finding} (hkind : reference.kind = .product)
      (htarget : reference.target = some target) (hcontains : c.contains target = .ok false)
      (hcode : f.code = .productReferenceNotFound) : Contributes c reference ⟨[f], []⟩
  /-- There is one error when a nested diagram does not exist. -/
  | absentNested {target : Key} {f : Finding} (hkind : reference.kind = .nested)
      (htarget : reference.target = some target) (hcontains : c.contains target = .ok false)
      (hcode : f.code = .nestedReferenceNotFound) : Contributes c reference ⟨[f], []⟩
  /-- There is one warning when the target exists and cannot be read. -/
  | unread {target : Key} {failure : Failure} {f : Finding}
      (htarget : reference.target = some target) (hcontains : c.contains target = .ok true)
      (hread : c.read target = .error failure) (hcode : f.code = .referenceReadError) :
      Contributes c reference ⟨[], [f]⟩
  /-- Otherwise there are errors about cycles only. -/
  | opened {target : Key} {errors : List Finding} (htarget : reference.target = some target)
      (hexp : c.Expandable target) (hcycles : ∀ f ∈ errors, f.code.isCycle = true) :
      Contributes c reference ⟨errors, []⟩

lemma contributes_alone (c : Catalogue) (root : Key) (reference : Reference) :
    Contributes c reference (alone c root reference).found := by
  unfold alone
  cases ht : reference.target with
  | none =>
    cases hkind : reference.kind with
    | unknown label => simpa only [step, ht] using .unknown hkind
    | product => simp [Reference.target, hkind] at ht
    | nested => simp [Reference.target, hkind] at ht
  | some target =>
    cases hc : c.contains target with
    | error failure =>
      simp only [step, ht, hc]
      exact .unchecked ht hc rfl
    | ok present =>
      cases present with
      | false =>
        simp only [step, ht, hc]
        cases hkind : reference.kind with
        | product => exact .absentProduct hkind ht hc (by simp [notFound, hkind, Finding.onLine])
        | nested => exact .absentNested hkind ht hc (by simp [notFound, hkind, Finding.onLine])
        | unknown label => simp [Reference.target, hkind] at ht
      | true =>
        cases hr : c.read target with
        | error failure =>
          simp only [step, ht, hc, hr]
          exact .unread ht hc hr rfl
        | ok content =>
          have honly : OnlyCycles ((c.closedChains [root] [target]).foldl
              (report root reference.line) ⟨[], .none⟩) :=
            List.foldlRecOn _ _ ⟨by simp [Findings.none], rfl⟩ fun _ h chain _ =>
              h.report reference.line chain
          simp only [step, ht, hc, hr]
          generalize (c.closedChains [root] [target]).foldl (report root reference.line)
            ⟨[], .none⟩ = r at honly
          obtain ⟨reported, errors, warnings⟩ := r
          obtain rfl : warnings = [] := honly.warnings
          exact .opened ht ⟨hc, content, hr⟩ honly.errors

end Resolution

namespace Catalogue

variable {c c' : Catalogue} {root : Key} {reference : Reference}

/-- The keys that the document of a key refers to.  There are none when the key does not exist,
cannot be read, or has a document whose references cannot be read. -/
def onward (c : Catalogue) (k : Key) : List Key := ((c.fetch? k).map targetsOf).getD []

lemma closedChains_cons_onward (c : Catalogue) (branch : List Key) (k : Key) (ks : List Key) :
    c.closedChains branch (k :: ks) =
      (if k ∈ branch then [branch ++ [k]] else c.closedChains (branch ++ [k]) (c.onward k)) ++
        c.closedChains branch ks := by
  rw [closedChains_cons, onward]
  cases c.fetch? k with
  | none => simp [closedChains]
  | some content => rfl

/-- The search for cycles depends on where documents lead, and on nothing else. -/
lemma closedChains_congr (h : ∀ k, c'.onward k = c.onward k) (branch ks : List Key) :
    c'.closedChains branch ks = c.closedChains branch ks := by
  -- the recursion of the search: either the branch grows or the references get fewer
  induction branch, ks using closedChains.induct c with
  | case1 branch => simp [closedChains]
  | case2 branch k ks ihdeeper ihnext =>
    rw [closedChains_cons_onward, closedChains_cons_onward, ihnext, h k]
    congr 1
    by_cases hb : k ∈ branch
    · rw [if_pos hb, if_pos hb]
    · rw [if_neg hb, if_neg hb, onward]
      cases hf : c.fetch? k with
      | none => simp [closedChains]
      | some content => exact ihdeeper hb content hf

/-- So does what is found about a reference whose target can be expanded. -/
lemma resolve_congr (h : ∀ k, c'.onward k = c.onward k) {target : Key}
    (htarget : reference.target = some target) (hexp : c.Expandable target)
    (hexp' : c'.Expandable target) (found : Findings) :
    resolve (some c') root [reference] found = resolve (some c) root [reference] found := by
  obtain ⟨hcontains, content, hread⟩ := hexp
  obtain ⟨hcontains', content', hread'⟩ := hexp'
  simp only [resolve, List.foldl_cons, List.foldl_nil, Resolution.step, htarget, hcontains, hread,
    hcontains', hread', closedChains_congr h]

end Catalogue

/-- The references of a diagram are resolved independently of each other, when their targets have
different texts and those that can be expanded have no arrow in theirs.  What resolution adds to the
findings are, in the order of the references, the findings about each of them alone.  These are
accounted for by what the repository says about the target, and further down it only matters where
documents lead: one that is missing, fails or cannot be parsed counts as one without references. -/
theorem Resolution.siblings_are_independent {c : Catalogue} {root : Key}
    {references : List Reference}
    (hdistinct : ((references.filterMap Reference.target).map Key.display).Nodup)
    (harrow : ∀ t ∈ references.filterMap Reference.target, c.Expandable t →
      ¬ " -> ".toList <:+: t.display.toList) (found : Findings) :
    (resolve (some c) root references found).errors =
        found.errors ++ references.flatMap (fun r => (resolve (some c) root [r] .none).errors) ∧
      (resolve (some c) root references found).warnings =
        found.warnings ++ references.flatMap (fun r => (resolve (some c) root [r] .none).warnings) ∧
      (∀ r, Contributes c r (resolve (some c) root [r] .none)) ∧
      ∀ r target, r.target = some target → c.Expandable target →
        ∀ c' : Catalogue, c'.Expandable target → (∀ k, c'.onward k = c.onward k) →
          resolve (some c') root [r] .none = resolve (some c) root [r] .none := by
  have hresolve : resolve (some c) root references .none =
      ⟨references.flatMap fun r => (resolve (some c) root [r] .none).errors,
        references.flatMap fun r => (resolve (some c) root [r] .none).warnings⟩ :=
    congrArg Resolution.found (foldl_step_eq hdistinct harrow)
  have happend := resolve_append found .none (some c) root references
  rw [Findings.append_none, hresolve] at happend
  refine ⟨?_, ?_, contributes_alone c root, fun r target htarget hexp c' hexp' honward => ?_⟩
  · rw [happend]
    rfl
  · rw [happend]
    rfl
  · exact Catalogue.resolve_congr honward htarget hexp hexp' .none

/-- A repository that does not answer about one diagram, cannot read another, and holds two that
include each other. -/
def Catalogue.halfBroken : Catalogue where
  contains k :=
    if k = .nested "silent" then .error (.repository "gone")
    else .ok (k = .nested "torn" ∨ k = .nested "latch" ∨ k = .nested "bolt")
  read k :=
    if k = .nested "torn" then .error (.repository "gone")
    else .ok (if k = .nested "latch" then "!include nested/bolt/bolt.puml"
      else "!include nested/latch/latch.puml")
  keys := [.nested "torn", .nested "latch", .nested "bolt"]
  mem_keys k h := by
    split at h
    · exact absurd h (by simp)
    · simpa using h

/-- References of all sorts, two of which lead into the same cycle. -/
theorem Resolution.halfBroken_siblings :
    let root := Key.staging "door" "1.0.0"
    let references : List Reference :=
      [.toNested "silent", .toProduct "lock" "1.0.0", ⟨"hinge", "", .unknown "library", "", 3⟩,
        .toNested "torn", .toNested "latch", .toNested "bolt"]
    ((references.filterMap Reference.target).map Key.display).Nodup ∧
      (∀ t ∈ references.filterMap Reference.target, Catalogue.halfBroken.Expandable t →
        ¬ " -> ".toList <:+: t.display.toList) ∧
      (resolve (some .halfBroken) root references .none).errors =
        references.flatMap fun r => (resolve (some .halfBroken) root [r] .none).errors := by
  intro root references
  have hdistinct : ((references.filterMap Reference.target).map Key.display).Nodup := by
    decide +kernel
  have harrow : ∀ t ∈ references.filterMap Reference.target,
      ¬ " -> ".toList <:+: t.display.toList := by
    decide +kernel
  exact ⟨hdistinct, fun t ht _ => harrow t ht,
    (siblings_are_independent hdistinct (fun t ht _ => harrow t ht) .none).1⟩

end DiagramRegistry
