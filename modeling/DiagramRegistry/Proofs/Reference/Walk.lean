import DiagramRegistry.Reference.Cycle
import Mathlib.Data.List.Chain
import Mathlib.Data.List.Nodup
import Mathlib.Logic.Relation

/-
# Walks through stored documents

The stored documents of a catalogue form a directed graph: there is an edge from a key that
can be expanded to every key that its document refers to.  The search of `closedChains` is
bounded by its branch, whereas a walk of this graph may visit a key any number of times.
This file connects the two.

* `Catalogue.mem_closedChains_iff`: the closed chains are exactly the branch, continued by a
  walk without repetitions that avoids the branch, and then by a key that lies behind;
* `Catalogue.Leads.exists_nodup`: a walk can be shortened to one without repetitions;
* `Catalogue.IsWalk.exists_lasso`: a walk with a repetition begins with a walk without
  repetitions followed by a key that lies on it;
* `Catalogue.transGen_self_iff`: a key lies on a cycle when its document leads back to it
  along a walk that has not met it before.
-/
namespace DiagramRegistry

namespace Catalogue

/-- The key exists and its document can be read. -/
def Expandable (c : Catalogue) (k : Key) : Prop :=
  c.contains k = .ok true ∧ ∃ content, c.read k = .ok content

/-- The first key can be expanded, and its document refers to the second. -/
def Edge (c : Catalogue) (a b : Key) : Prop :=
  c.contains a = .ok true ∧ ∃ content, c.read a = .ok content ∧ b ∈ targetsOf content

/-- A sequence of expandable keys of which the first is among the starting keys, and each has
an edge to the next. -/
structure IsWalk (c : Catalogue) (starts vs : List Key) : Prop where
  /-- The walk begins at a starting key. -/
  begins : ∀ v ∈ vs.head?, v ∈ starts
  /-- Every key on the walk can be expanded. -/
  expandable : ∀ v ∈ vs, c.Expandable v
  /-- The walk follows edges. -/
  linked : vs.IsChain c.Edge

/-- The references lead from the starting keys through the documents of a sequence of keys to
a last key.  The last key need not exist. -/
inductive Leads (c : Catalogue) : List Key → List Key → Key → Prop where
  /-- A starting key is led to through no document. -/
  | here {starts : List Key} {k : Key} (hk : k ∈ starts) : Leads c starts [] k
  /-- A starting key is expanded, and its references lead on. -/
  | via {starts vs : List Key} {v k : Key} {content : String} (hv : v ∈ starts)
      (hf : c.fetch? v = some content) (h : Leads c (targetsOf content) vs k) :
      Leads c starts (v :: vs) k

variable {c : Catalogue} {starts branch ks vs ws chain : List Key} {root k v : Key}

lemma fetch?_eq_some_iff {content : String} :
    c.fetch? k = some content ↔ c.contains k = .ok true ∧ c.read k = .ok content := by
  unfold fetch?
  constructor
  · intro h
    split at h
    · rename_i hk
      refine ⟨hk, ?_⟩
      cases hr : c.read k with
      | error e => simp [hr, Except.toOption] at h
      | ok a =>
        simp only [hr, Except.toOption, Option.some.injEq] at h
        rw [h]
    · exact absurd h (by simp)
  · rintro ⟨hk, hr⟩
    simp [hk, hr, Except.toOption]

lemma expandable_iff : c.Expandable k ↔ ∃ content, c.fetch? k = some content := by
  simp only [Expandable, fetch?_eq_some_iff, exists_and_left]

lemma edge_iff : c.Edge v k ↔ ∃ content, c.fetch? v = some content ∧ k ∈ targetsOf content := by
  constructor
  · rintro ⟨hv, content, hr, hk⟩
    exact ⟨content, fetch?_eq_some_iff.2 ⟨hv, hr⟩, hk⟩
  · rintro ⟨content, hf, hk⟩
    obtain ⟨hv, hr⟩ := fetch?_eq_some_iff.1 hf
    exact ⟨hv, content, hr, hk⟩

lemma Edge.expandable (h : c.Edge v k) : c.Expandable v := by
  obtain ⟨hv, content, hr, -⟩ := h
  exact ⟨hv, content, hr⟩

/-! ## Walks, from either end -/

lemma isWalk_nil : c.IsWalk starts [] := ⟨by simp, by simp, .nil⟩

lemma isWalk_cons :
    c.IsWalk starts (v :: vs) ↔
      v ∈ starts ∧ ∃ content, c.fetch? v = some content ∧ c.IsWalk (targetsOf content) vs := by
  constructor
  · rintro ⟨hb, he, hl⟩
    obtain ⟨content, hf⟩ := expandable_iff.1 (he v (by simp))
    obtain ⟨hnext, hl⟩ := List.isChain_cons.1 hl
    refine ⟨hb v (by simp), content, hf, fun u hu => ?_, fun u hu => he u (by simp [hu]), hl⟩
    obtain ⟨content', hf', hu'⟩ := edge_iff.1 (hnext u hu)
    rw [hf, Option.some.injEq] at hf'
    exact hf' ▸ hu'
  · rintro ⟨hv, content, hf, hb, he, hl⟩
    refine ⟨by simpa using hv, fun u hu => ?_, List.isChain_cons.2 ⟨fun u hu => ?_, hl⟩⟩
    · rcases List.mem_cons.1 hu with rfl | hu
      · exact expandable_iff.2 ⟨content, hf⟩
      · exact he u hu
    · exact edge_iff.2 ⟨content, hf, hb u hu⟩

lemma leads_nil_iff : c.Leads starts [] k ↔ k ∈ starts := by
  constructor
  · rintro ⟨hk⟩
    exact hk
  · exact .here

lemma leads_cons_iff :
    c.Leads starts (v :: vs) k ↔
      v ∈ starts ∧ ∃ content, c.fetch? v = some content ∧ c.Leads (targetsOf content) vs k := by
  constructor
  · intro h
    cases h with
    | via hv hf h => exact ⟨hv, _, hf, h⟩
  · rintro ⟨hv, content, hf, h⟩
    exact .via hv hf h

/-- A walk of at least one key leads to its last key, which can be expanded. -/
lemma isWalk_snoc_iff : c.IsWalk starts (vs ++ [v]) ↔ c.Leads starts vs v ∧ c.Expandable v := by
  induction vs generalizing starts with
  | nil =>
    rw [List.nil_append, isWalk_cons, leads_nil_iff, expandable_iff]
    simp only [isWalk_nil, and_true]
  | cons u vs ih =>
    rw [List.cons_append, isWalk_cons, leads_cons_iff]
    simp only [ih]
    constructor
    · rintro ⟨hu, content, hf, h, hv⟩
      exact ⟨⟨hu, content, hf, h⟩, hv⟩
    · rintro ⟨⟨hu, content, hf, h⟩, hv⟩
      exact ⟨hu, content, hf, h, hv⟩

/-- The key before the last one has an edge to the last one. -/
lemma leads_snoc_iff : c.Leads starts (vs ++ [v]) k ↔ c.Leads starts vs v ∧ c.Edge v k := by
  induction vs generalizing starts with
  | nil =>
    rw [List.nil_append, leads_cons_iff, leads_nil_iff, edge_iff]
    simp only [leads_nil_iff]
  | cons u vs ih =>
    rw [List.cons_append, leads_cons_iff, leads_cons_iff]
    simp only [ih]
    constructor
    · rintro ⟨hu, content, hf, h, hv⟩
      exact ⟨⟨hu, content, hf, h⟩, hv⟩
    · rintro ⟨⟨hu, content, hf, h⟩, hv⟩
      exact ⟨hu, content, hf, h, hv⟩

/-- What is led to from several starting keys is led to from one of them. -/
lemma leads_iff_exists_start : c.Leads starts vs k ↔ ∃ s ∈ starts, c.Leads [s] vs k := by
  cases vs with
  | nil =>
    simp only [leads_nil_iff, List.mem_singleton]
    exact ⟨fun hk => ⟨k, hk, rfl⟩, fun ⟨s, hs, hk⟩ => hk ▸ hs⟩
  | cons v vs =>
    simp only [leads_cons_iff, List.mem_singleton]
    exact ⟨fun ⟨hv, h⟩ => ⟨v, hv, rfl, h⟩, fun ⟨s, hs, hv, h⟩ => ⟨hv ▸ hs, h⟩⟩

namespace Leads

lemma mono {ks : List Key} (h : c.Leads starts vs k) (hsub : starts ⊆ ks) : c.Leads ks vs k := by
  cases h with
  | here hk => exact .here (hsub hk)
  | via hv hf h => exact .via (hsub hv) hf h

lemma expandable (h : c.Leads starts vs k) (hv : v ∈ vs) : c.Expandable v := by
  induction h with
  | here => simp at hv
  | via _ hf _ ih =>
    rcases List.mem_cons.1 hv with rfl | hv
    · exact expandable_iff.2 ⟨_, hf⟩
    · exact ih hv

/-- Every beginning of the sequence leads to the key that follows it. -/
lemma of_append (h : c.Leads starts (vs ++ v :: ws) k) : c.Leads starts vs v := by
  induction vs generalizing starts with
  | nil => exact .here (leads_cons_iff.1 h).1
  | cons u vs ih =>
    obtain ⟨hu, content, hf, h⟩ := leads_cons_iff.1 h
    exact .via hu hf (ih h)

/-- A walk that comes through a starting key may as well begin there. -/
lemma exists_suffix (h : c.Leads ks vs k) (hv : v ∈ vs) (hs : v ∈ starts) :
    ∃ ws, (v :: ws) <:+ vs ∧ c.Leads starts (v :: ws) k := by
  induction h with
  | here => simp at hv
  | @via _ us u k content _ hf h ih =>
    by_cases hvu : v = u
    · subst hvu
      exact ⟨us, List.suffix_refl _, .via hs hf h⟩
    · obtain ⟨ws, hws, hlead⟩ := ih ((List.mem_cons.1 hv).resolve_left hvu)
      exact ⟨ws, hws.trans (List.suffix_cons _ _), hlead⟩

/-- A walk can be shortened to one that visits no key twice; something is left of it. -/
lemma exists_nodup (h : c.Leads starts vs k) :
    ∃ ws, c.Leads starts ws k ∧ ws.Nodup ∧ ws ⊆ vs ∧ (ws = [] → vs = []) := by
  induction h with
  | here hk => exact ⟨[], .here hk, List.nodup_nil, List.Subset.refl _, fun _ => rfl⟩
  | @via starts us u k content hu hf h ih =>
    obtain ⟨ws, hws, hnd, hsub, -⟩ := ih
    by_cases hmem : u ∈ ws
    · -- the shortened rest comes back to `u`: what lies in between is left out
      obtain ⟨xs, hxs, hlead⟩ := hws.exists_suffix hmem hu
      refine ⟨u :: xs, hlead, hnd.sublist hxs.sublist, fun x hx => ?_, by simp⟩
      exact List.mem_cons_of_mem _ (hsub (hxs.subset hx))
    · refine ⟨u :: ws, .via hu hf hws, List.nodup_cons.2 ⟨hmem, hnd⟩, ?_, by simp⟩
      exact List.cons_subset_cons _ hsub

end Leads

/-- A sequence with a repetition has a first one. -/
lemma exists_first_repetition (h : ¬ vs.Nodup) :
    ∃ us v ws, vs = us ++ v :: ws ∧ us.Nodup ∧ v ∈ us := by
  induction vs using List.reverseRecOn with
  | nil => exact absurd List.nodup_nil h
  | append_singleton us v ih =>
    by_cases hus : us.Nodup
    · refine ⟨us, v, [], rfl, hus, ?_⟩
      by_contra hv
      exact h (by simpa using (List.nodup_concat us v).2 ⟨hv, hus⟩)
    · obtain ⟨xs, x, ws, hx, hnd, hmem⟩ := ih hus
      exact ⟨xs, x, ws ++ [v], by simp [hx], hnd, hmem⟩

/-- A walk with a repetition leads, without one before, to a key that it has visited. -/
lemma IsWalk.exists_lasso (h : c.IsWalk starts vs) (hnd : ¬ vs.Nodup) :
    ∃ us v, c.Leads starts us v ∧ us.Nodup ∧ v ∈ us ∧ us ⊆ vs := by
  obtain ⟨us, v, ws, rfl, hus, hv⟩ := exists_first_repetition hnd
  refine ⟨us, v, ?_, hus, hv, List.subset_append_left _ _⟩
  -- the walk goes on after the repetition; only what comes before it matters
  rcases List.eq_nil_or_concat' ws with rfl | ⟨ws, w, rfl⟩
  · exact (isWalk_snoc_iff.1 h).1
  · have h' : c.IsWalk starts ((us ++ v :: ws) ++ [w]) := by simpa using h
    exact (isWalk_snoc_iff.1 h').1.of_append

/-! ## Cycles through a key -/

lemma transGen_of_leads {content : String} (hf : c.fetch? v = some content)
    (h : c.Leads (targetsOf content) vs k) : Relation.TransGen c.Edge v k := by
  induction vs generalizing v content with
  | nil => exact .single (edge_iff.2 ⟨content, hf, leads_nil_iff.1 h⟩)
  | cons u vs ih =>
    obtain ⟨hu, content', hf', h⟩ := leads_cons_iff.1 h
    exact .head (edge_iff.2 ⟨content, hf, hu⟩) (ih hf' h)

lemma exists_leads_of_transGen (h : Relation.TransGen c.Edge v k) :
    ∃ content vs, c.fetch? v = some content ∧ c.Leads (targetsOf content) vs k := by
  induction h using Relation.TransGen.head_induction_on with
  | single h =>
    obtain ⟨content, hf, hk⟩ := edge_iff.1 h
    exact ⟨content, [], hf, .here hk⟩
  | head h _ ih =>
    obtain ⟨content, hf, hu⟩ := edge_iff.1 h
    obtain ⟨content', vs, hf', hlead⟩ := ih
    exact ⟨content, _ :: vs, hf, .via hu hf' hlead⟩

/-- A cycle through an expandable key is closed by its own document, or by the last document of
a walk that begins at the references of its own and does not meet it. -/
theorem transGen_self_iff {content : String} (hf : c.fetch? root = some content) :
    Relation.TransGen c.Edge root root ↔
      root ∈ targetsOf content ∨
        ∃ vs v, c.IsWalk (targetsOf content) (vs ++ [v]) ∧ root ∉ vs ++ [v] ∧ c.Edge v root := by
  constructor
  · intro h
    obtain ⟨content', vs, hf', hlead⟩ := exists_leads_of_transGen h
    rw [hf, Option.some.injEq] at hf'
    subst hf'
    -- only the first return to the root matters
    obtain ⟨us, hus, hroot⟩ : ∃ us, c.Leads (targetsOf content) us root ∧ root ∉ us := by
      by_cases hmem : root ∈ vs
      · obtain ⟨us, ws, rfl, hroot⟩ := List.eq_append_cons_of_mem hmem
        exact ⟨us, hlead.of_append, hroot⟩
      · exact ⟨vs, hlead, hmem⟩
    rcases List.eq_nil_or_concat' us with rfl | ⟨us, v, rfl⟩
    · exact .inl (leads_nil_iff.1 hus)
    · obtain ⟨hus, hedge⟩ := leads_snoc_iff.1 hus
      exact .inr ⟨us, v, isWalk_snoc_iff.2 ⟨hus, hedge.expandable⟩, hroot, hedge⟩
  · rintro (hroot | ⟨vs, v, hwalk, -, hedge⟩)
    · exact .single (edge_iff.2 ⟨content, hf, hroot⟩)
    · exact transGen_of_leads hf (leads_snoc_iff.2 ⟨(isWalk_snoc_iff.1 hwalk).1, hedge⟩)

/-! ## Catalogues that agree -/

lemma edge_congr {c' : Catalogue} (h : c.fetch? v = c'.fetch? v) :
    c.Edge v k ↔ c'.Edge v k := by
  rw [edge_iff, edge_iff, h]

/-- A walk is one of every catalogue that agrees about its keys. -/
lemma isWalk_congr {c' : Catalogue} (h : ∀ v ∈ vs, c.fetch? v = c'.fetch? v) :
    c.IsWalk starts vs ↔ c'.IsWalk starts vs := by
  induction vs generalizing starts with
  | nil => exact iff_of_true isWalk_nil isWalk_nil
  | cons v vs ih =>
    rw [isWalk_cons, isWalk_cons, h v (by simp)]
    simp only [ih fun u hu => h u (List.mem_cons_of_mem _ hu)]

/-- What holds of the starting keys and of every key that a document refers to holds of every
key on a walk. -/
lemma IsWalk.forall_mem {P : Key → Prop} (hwalk : c.IsWalk starts vs) (hstarts : ∀ v ∈ starts, P v)
    (htargets : ∀ content, ∀ v ∈ targetsOf content, P v) : ∀ v ∈ vs, P v := by
  induction vs generalizing starts with
  | nil => simp
  | cons u vs ih =>
    obtain ⟨hu, content, -, hwalk⟩ := isWalk_cons.1 hwalk
    intro v hv
    rcases List.mem_cons.1 hv with rfl | hv
    · exact hstarts v hu
    · exact ih hwalk (htargets content) v hv

/-- References never lead to staging. -/
lemma location_ne_of_mem_targetsOf {content : String} (h : k ∈ targetsOf content) :
    k.location ≠ .staging := by
  have htarget : ∀ r : Reference, r.target = some k → k.location ≠ .staging := by
    intro r hr
    unfold Reference.target at hr
    split at hr
    · rw [← Option.some.inj hr]
      exact Location.noConfusion
    · rw [← Option.some.inj hr]
      exact Location.noConfusion
    · exact absurd hr (by simp)
  unfold targetsOf at h
  split at h
  · obtain ⟨r, -, hr⟩ := List.mem_filterMap.1 h
    exact htarget r hr
  · exact absurd h (by simp)

/-- So no walk from the references of a document comes through staging. -/
lemma IsWalk.location_ne {content : String} (hwalk : c.IsWalk (targetsOf content) vs) :
    ∀ v ∈ vs, v.location ≠ .staging :=
  hwalk.forall_mem (fun _ => location_ne_of_mem_targetsOf) fun _ _ => location_ne_of_mem_targetsOf

/-! ## The closed chains of the search -/

lemma closedChains_cons (c : Catalogue) (branch : List Key) (k : Key) (ks : List Key) :
    c.closedChains branch (k :: ks) =
      (if k ∈ branch then [branch ++ [k]]
        else match c.fetch? k with
          | none => []
          | some content => c.closedChains (branch ++ [k]) (targetsOf content)) ++
        c.closedChains branch ks := by
  rw [closedChains]
  congr 1
  by_cases hb : k ∈ branch
  · simp only [hb, dif_pos, if_pos]
  · simp only [hb, dif_neg, if_neg, not_false_eq_true]
    split <;> simp_all

/-- Searches come upon the same chains when they find the same documents, for whatever situations
each step leads to another of. -/
lemma closedChains_eq_of_closed {c c' : Catalogue} {S : List Key → List Key → Prop}
    (hnext : ∀ branch k ks, S branch (k :: ks) → S branch ks)
    (hsame : ∀ branch k ks, S branch (k :: ks) → k ∉ branch → c.fetch? k = c'.fetch? k)
    (hdeeper : ∀ branch k ks content, S branch (k :: ks) → c.fetch? k = some content →
      S (branch ++ [k]) (targetsOf content)) (h : S branch ks) :
    c.closedChains branch ks = c'.closedChains branch ks := by
  -- the recursion of the search: either the branch grows or the references get fewer
  induction branch, ks using closedChains.induct c with
  | case1 branch => simp [closedChains]
  | case2 branch k ks ihdeeper ihnext =>
    rw [closedChains_cons, closedChains_cons, ihnext (hnext branch k ks h)]
    congr 1
    by_cases hb : k ∈ branch
    · rw [if_pos hb, if_pos hb]
    · rw [if_neg hb, if_neg hb, ← hsame branch k ks h hb]
      cases hf : c.fetch? k with
      | none => rfl
      | some content => exact ihdeeper hb content hf (hdeeper branch k ks content h hf)

/-- A closed chain is found at the first of its keys that the branch does not hold. -/
lemma mem_closedChains_iff_exists :
    chain ∈ c.closedChains branch ks ↔
      ∃ k ∈ ks, (k ∈ branch ∧ chain = branch ++ [k]) ∨
        k ∉ branch ∧ ∃ content, c.fetch? k = some content ∧
          chain ∈ c.closedChains (branch ++ [k]) (targetsOf content) := by
  induction ks with
  | nil => simp [closedChains]
  | cons u ks ih =>
    rw [closedChains_cons, List.mem_append, ih, List.exists_mem_cons_iff]
    refine or_congr_left ?_
    by_cases hu : u ∈ branch
    · simp [hu]
    · cases hf : c.fetch? u with
      | none => simp [hu]
      | some content => simp [hu]

lemma exists_leads_of_mem_closedChains (h : chain ∈ c.closedChains branch ks) :
    ∃ vs k, c.Leads ks vs k ∧ vs.Nodup ∧ (∀ v ∈ vs, v ∉ branch) ∧ k ∈ branch ++ vs ∧
      chain = branch ++ vs ++ [k] := by
  -- the recursion of the search: either the branch grows or the references get fewer
  induction branch, ks using closedChains.induct c with
  | case1 branch => simp [closedChains] at h
  | case2 branch u ks ihdeeper ihnext =>
    rw [closedChains_cons, List.mem_append] at h
    rcases h with h | h
    · by_cases hu : u ∈ branch
      · rw [if_pos hu, List.mem_singleton] at h
        exact ⟨[], u, .here (by simp), List.nodup_nil, by simp, by simpa using hu, by simp [h]⟩
      · rw [if_neg hu] at h
        cases hf : c.fetch? u with
        | none => simp [hf] at h
        | some content =>
          rw [hf] at h
          obtain ⟨vs, k, hlead, hnd, havoid, hk, rfl⟩ := ihdeeper hu content hf h
          refine ⟨u :: vs, k, .via (by simp) hf hlead, ?_, ?_, by simpa using hk, by simp⟩
          · exact List.nodup_cons.2 ⟨fun hmem => havoid u hmem (by simp), hnd⟩
          · intro v hv
            rcases List.mem_cons.1 hv with rfl | hv
            · exact hu
            · exact fun hmem => havoid v hv (List.mem_append_left _ hmem)
    · obtain ⟨vs, k, hlead, hrest⟩ := ihnext h
      exact ⟨vs, k, hlead.mono (List.subset_cons_self _ _), hrest⟩

lemma mem_closedChains_of_leads (hlead : c.Leads ks vs k) (hnd : vs.Nodup)
    (havoid : ∀ v ∈ vs, v ∉ branch) (hk : k ∈ branch ++ vs) :
    branch ++ vs ++ [k] ∈ c.closedChains branch ks := by
  -- the search enters the keys of the walk one by one, as none of them lies behind
  induction vs generalizing branch ks with
  | nil =>
    refine mem_closedChains_iff_exists.2 ⟨k, leads_nil_iff.1 hlead, .inl ⟨?_, by simp⟩⟩
    simpa using hk
  | cons u vs ih =>
    obtain ⟨hu, content, hf, hlead⟩ := leads_cons_iff.1 hlead
    obtain ⟨huvs, hnd⟩ := List.nodup_cons.1 hnd
    refine mem_closedChains_iff_exists.2 ⟨u, hu, .inr ⟨havoid u (by simp), content, hf, ?_⟩⟩
    have havoid' : ∀ v ∈ vs, v ∉ branch ++ [u] := by
      intro v hv hmem
      rcases List.mem_append.1 hmem with hmem | hmem
      · exact havoid v (List.mem_cons_of_mem _ hv) hmem
      · exact huvs (List.mem_singleton.1 hmem ▸ hv)
    simpa using ih hlead hnd havoid' (by simpa using hk)

/-- A closed chain is the branch, then a walk that repeats no key and avoids the branch, and
then a key that lies on the branch or on the walk. -/
theorem mem_closedChains_iff :
    chain ∈ c.closedChains branch ks ↔
      ∃ vs k, c.Leads ks vs k ∧ vs.Nodup ∧ (∀ v ∈ vs, v ∉ branch) ∧ k ∈ branch ++ vs ∧
        chain = branch ++ vs ++ [k] := by
  constructor
  · exact exists_leads_of_mem_closedChains
  · rintro ⟨vs, k, hlead, hnd, havoid, hk, rfl⟩
    exact mem_closedChains_of_leads hlead hnd havoid hk

end Catalogue

end DiagramRegistry
