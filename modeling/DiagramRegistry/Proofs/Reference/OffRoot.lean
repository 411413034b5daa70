import DiagramRegistry.Proofs.Reference.Siblings

/-
# What is stored under the root

Resolution follows the references of a diagram into the stored documents, but never into what is
stored under the key of the diagram itself: the search for cycles comes back to the root and stops
there.  The root is asked about only when a reference of the diagram leads to it.  So catalogues
that answer alike about all other keys let the same be found when both hold the root, whatever its
document is in either.  When only one of them does, the reference to the root is missing in one and
a cycle in the other, and this is all the difference.

* `Catalogue.AgreeOff.closedChains_eq`: the search never looks under the root;
* `Catalogue.AgreeOff.resolve_eq`, `Catalogue.AgreeOff.resolve_eq_of_not_mem`: the same is found;
* `Catalogue.AgreeOff.exists_resolve_eq`: what is found when only one catalogue holds the root.
-/
namespace DiagramRegistry

/-! ## The chain from the root to itself -/

lemma toList_chainText_singleton (k : Key) : (chainText [k]).toList = k.display.toList := by
  simp [chainText]

lemma length_chainText_cons (k next : Key) (chain : List Key) :
    (chainText (k :: next :: chain)).toList.length =
      k.display.toList.length + 4 + (chainText (next :: chain)).toList.length := by
  have harrow : arrow.length = 4 := rfl
  rw [toList_chainText_cons, List.length_append, List.length_append, harrow]

/-- The text of a chain is longer than that of the key at its end. -/
lemma length_display_lt (v k : Key) (vs : List Key) :
    k.display.toList.length < (chainText (v :: (vs ++ [k]))).toList.length := by
  induction vs generalizing v with
  | nil =>
    rw [List.nil_append, length_chainText_cons, toList_chainText_singleton]
    omega
  | cons u vs ih =>
    have := ih u
    rw [List.cons_append, length_chainText_cons]
    omega

/-- No chain that comes back to its first key over others has the text of the one that comes back at
once. -/
lemma chainText_ne (root v : Key) (vs : List Key) :
    chainText (root :: v :: (vs ++ [root])) ≠ chainText [root, root] := by
  intro h
  have hlength := congrArg (fun text => text.toList.length) h
  have := length_display_lt v root vs
  simp only [length_chainText_cons, toList_chainText_singleton] at hlength
  omega

namespace Resolution

variable {c : Catalogue} {root : Key} {r r' : Resolution} {reference : Reference}

/-- A chain behind a reference to another key is not reported as the one from the root to itself. -/
lemma label_ne_of_target_ne (ht : reference.target ≠ some root) {p : Nat × List Key}
    (hp : p ∈ closures c root reference) : label root p.2 ≠ label root [root, root] := by
  obtain ⟨target, htarget, -, -, vs, k, hlead, -, -, -, hchain⟩ := mem_closures_iff.1 hp
  rw [hchain]
  intro h
  obtain ⟨hcode, htext⟩ := Prod.mk.inj h
  -- the code says that the chain closes at the root
  have hk : k = root := by
    by_contra hk
    rw [List.getLastD_concat] at hcode
    simp [cycleCode, hk] at hcode
  subst hk
  cases vs with
  | nil =>
    rw [Catalogue.leads_nil_iff, List.mem_singleton] at hlead
    exact ht (hlead ▸ htarget)
  | cons v vs => exact chainText_ne k v vs (by simpa using htext)

lemma step_of_absent (ht : reference.target = some root) (habsent : c.contains root = .ok false) :
    step c root r reference = { r with found := r.found.error (notFound reference root) } := by
  simp only [step, ht, habsent]

lemma step_of_expandable (ht : reference.target = some root) (hexp : c.Expandable root) :
    step c root r reference = report root reference.line r [root, root] := by
  obtain ⟨hcontains, content, hread⟩ := hexp
  have hchains : c.closedChains [root] [root] = [[root, root]] := by
    rw [Catalogue.closedChains_cons, if_pos (List.mem_singleton_self root)]
    simp [Catalogue.closedChains]
  simp only [step, ht, hcontains, hread, hchains, List.foldl_cons, List.foldl_nil]

/-! ## Findings that differ in one place -/

/-- Two resolutions have the same findings but for one error, and have reported the same but for one
label. -/
structure DifferIn (front : List Finding) (x x' : Finding) (l : Code × String)
    (r r' : Resolution) : Prop where
  /-- The same labels count as reported, but for one. -/
  reported : ∀ p, p ≠ l → (p ∈ r'.reported ↔ p ∈ r.reported)
  /-- The errors are the same in front of the one that differs, and behind it. -/
  errors : ∃ back, r.found.errors = front ++ x :: back ∧ r'.found.errors = front ++ x' :: back
  /-- The warnings are the same. -/
  warnings : r'.found.warnings = r.found.warnings

namespace DifferIn

variable {front : List Finding} {x x' : Finding} {l : Code × String}

lemma append (h : DifferIn front x x' l r r') (remark : Findings) :
    DifferIn front x x' l { r with found := r.found ++ remark }
      { r' with found := r'.found ++ remark } := by
  obtain ⟨back, hr, hr'⟩ := h.errors
  refine ⟨h.reported, ⟨back ++ remark.errors, ?_, ?_⟩, ?_⟩
  · rw [Findings.errors_append, hr, List.append_assoc, List.cons_append]
  · rw [Findings.errors_append, hr', List.append_assoc, List.cons_append]
  · rw [Findings.warnings_append, Findings.warnings_append, h.warnings]

lemma report (h : DifferIn front x x' l r r') (line : Nat) {chain : List Key}
    (hl : label root chain ≠ l) :
    DifferIn front x x' l (Resolution.report root line r chain)
      (Resolution.report root line r' chain) := by
  rw [report_eq, report_eq]
  by_cases hold : label root chain ∈ r.reported
  · rw [if_pos hold, if_pos ((h.reported _ hl).2 hold)]
    exact h
  · rw [if_neg hold, if_neg (mt (h.reported _ hl).1 hold)]
    obtain ⟨back, hr, hr'⟩ := h.errors
    refine ⟨fun p hp => ?_, ⟨back ++ [cycleFinding root line chain], ?_, ?_⟩, h.warnings⟩
    · simp only [List.mem_append, h.reported p hp]
    · simp [Findings.error, hr]
    · simp [Findings.error, hr']

/-- Taking a reference in keeps the difference, when no chain behind it has the label that only one
of them has reported. -/
lemma step (h : DifferIn front x x' l r r')
    (hl : ∀ p ∈ closures c root reference, label root p.2 ≠ l) :
    DifferIn front x x' l (Resolution.step c root r reference)
      (Resolution.step c root r' reference) := by
  obtain ⟨remark, -, hstep⟩ := exists_step_eq c root reference
  rw [hstep, hstep]
  exact List.foldl_rel (h.append remark) fun p hp _ _ h => h.report p.1 (hl p hp)

end DifferIn

end Resolution

namespace Catalogue

/-- Two catalogues answer alike about all keys but one. -/
structure AgreeOff (root : Key) (c c' : Catalogue) : Prop where
  /-- The same other keys exist. -/
  contains : ∀ k, k ≠ root → c.contains k = c'.contains k
  /-- Those that exist have the same documents. -/
  read : ∀ k, k ≠ root → c.contains k = .ok true → c.read k = c'.read k

namespace AgreeOff

open Resolution

variable {root k : Key} {c c' : Catalogue} {r r' : Resolution} {reference : Reference}
  {references : List Reference}

lemma fetch?_eq (h : AgreeOff root c c') (hk : k ≠ root) : c.fetch? k = c'.fetch? k := by
  unfold fetch?
  rw [← h.contains k hk]
  split
  · rename_i hpresent
    rw [h.read k hk hpresent]
  · rfl

/-- The search for cycles comes upon the same chains, since the root is on every branch. -/
lemma closedChains_eq (h : AgreeOff root c c') (branch ks : List Key) (hroot : root ∈ branch) :
    c.closedChains branch ks = c'.closedChains branch ks := by
  refine closedChains_eq_of_closed (S := fun branch _ => root ∈ branch) ?_ ?_ ?_ hroot
  · exact fun _ _ _ hroot => hroot
  · exact fun _ _ _ hroot hb => h.fetch?_eq fun hk => hb (hk ▸ hroot)
  · exact fun _ _ _ _ hroot _ => List.mem_append_left _ hroot

/-- A reference to another key is taken in alike. -/
lemma step_eq (h : AgreeOff root c c') (ht : reference.target ≠ some root) :
    step c root r reference = step c' root r reference := by
  unfold step
  cases htarget : reference.target with
  | none => rfl
  | some t =>
    have hne : t ≠ root := fun heq => ht (heq ▸ htarget)
    dsimp only
    rw [← h.contains t hne]
    cases hcontains : c.contains t with
    | error failure => rfl
    | ok present =>
      cases present with
      | false => rfl
      | true =>
        dsimp only
        rw [← h.read t hne hcontains, h.closedChains_eq [root] [t] (List.mem_singleton_self root)]

lemma foldl_step_eq (h : AgreeOff root c c')
    (hroot : root ∉ references.filterMap Reference.target) :
    references.foldl (step c root) r = references.foldl (step c' root) r :=
  List.foldl_ext _ _ _ fun _ reference hmem =>
    h.step_eq fun ht => hroot (List.mem_filterMap.2 ⟨reference, hmem, ht⟩)

/-- The same is found when no reference leads to the root. -/
lemma resolve_eq_of_not_mem (h : AgreeOff root c c')
    (hroot : root ∉ references.filterMap Reference.target) (found : Findings) :
    resolve (some c) root references found = resolve (some c') root references found :=
  congrArg Resolution.found (h.foldl_step_eq hroot)

/-- The same is found when both catalogues hold the root, whatever its document is in either. -/
theorem resolve_eq (h : AgreeOff root c c') (hexp : c.Expandable root) (hexp' : c'.Expandable root)
    (references : List Reference) (found : Findings) :
    resolve (some c) root references found = resolve (some c') root references found := by
  refine congrArg Resolution.found (List.foldl_ext _ _ _ fun r reference _ => ?_)
  by_cases ht : reference.target = some root
  · rw [step_of_expandable ht hexp, step_of_expandable ht hexp']
  · exact h.step_eq ht

/-- When only the second catalogue holds the root, the one reference to it is missing by the first
and a cycle by the second, and everything else is found alike. -/
theorem exists_resolve_eq (h : AgreeOff root c c') (habsent : c.contains root = .ok false)
    (hexp : c'.Expandable root) (ht : reference.target = some root) {before behind : List Reference}
    (hbefore : root ∉ before.filterMap Reference.target)
    (hbehind : root ∉ behind.filterMap Reference.target) :
    ∃ front back warnings,
      resolve (some c) root (before ++ reference :: behind) .none =
        ⟨front ++ notFound reference root :: back, warnings⟩ ∧
      resolve (some c') root (before ++ reference :: behind) .none =
        ⟨front ++ cycleFinding root reference.line [root, root] :: back, warnings⟩ := by
  have haccounts := accounts_resolve c root before
  generalize hr : before.foldl (step c root) ⟨[], .none⟩ = r at haccounts
  -- the chain from the root to itself has not been reported before
  have hnew : label root [root, root] ∉ r.reported := by
    intro hold
    obtain ⟨f, hf, hcode, hcontext⟩ := haccounts.backed _ hold
    obtain ⟨p, hp, rfl⟩ := haccounts.sound f hf (hcode ▸ isCycle_cycleCode root _)
    obtain ⟨other, hother, hp⟩ := List.mem_flatMap.1 hp
    have hne : other.target ≠ some root := fun ht =>
      hbefore (List.mem_filterMap.2 ⟨other, hother, ht⟩)
    exact label_ne_of_target_ne hne hp (Prod.ext hcode (Option.some.inj hcontext))
  have hhere : DifferIn r.found.errors (notFound reference root)
      (cycleFinding root reference.line [root, root]) (label root [root, root])
      (step c root r reference) (step c' root r reference) := by
    rw [step_of_absent ht habsent, step_of_expandable ht hexp, report_eq, if_neg hnew]
    refine ⟨fun p hp => ?_, ⟨[], rfl, rfl⟩, rfl⟩
    simp [hp]
  have hend : DifferIn r.found.errors (notFound reference root)
      (cycleFinding root reference.line [root, root]) (label root [root, root])
      (behind.foldl (step c root) (step c root r reference))
      (behind.foldl (step c root) (step c' root r reference)) := by
    refine List.foldl_rel hhere fun other hother _ _ h => h.step fun p hp => ?_
    refine label_ne_of_target_ne (fun ht => hbehind ?_) hp
    exact List.mem_filterMap.2 ⟨other, hother, ht⟩
  have hfirst : resolve (some c) root (before ++ reference :: behind) .none =
      (behind.foldl (step c root) (step c root r reference)).found := by
    rw [resolve, List.foldl_append, hr, List.foldl_cons]
  have hsecond : resolve (some c') root (before ++ reference :: behind) .none =
      (behind.foldl (step c root) (step c' root r reference)).found := by
    rw [resolve, List.foldl_append, ← h.foldl_step_eq hbefore, hr, List.foldl_cons,
      ← h.foldl_step_eq hbehind]
  obtain ⟨back, herrors, herrors'⟩ := hend.errors
  refine ⟨r.found.errors, back,
    (behind.foldl (step c root) (step c root r reference)).found.warnings, ?_, ?_⟩
  · rw [hfirst, ← herrors]
  · rw [hsecond, ← herrors', ← hend.warnings]

end AgreeOff

end Catalogue

end DiagramRegistry
