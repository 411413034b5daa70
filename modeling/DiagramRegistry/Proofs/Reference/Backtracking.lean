import DiagramRegistry.Proofs.Reference.CycleDetection
import Mathlib.Data.Set.Card

/-
# The walk that keeps one path

The search for cycles hands its branch on as an argument.  The walk of this file keeps one path for
all branches and all references: a visit puts a key on the path, follows the references of the
document one after the other, and takes the key off again.  Nothing in it makes the visits within
visits end, so a visit is given the depth that is allowed to it, and has no outcome where this does
not suffice.  What the walk does without such a limit is what it does when any greater depth makes
no difference (`PathWalk.Ends`).

A visit is made only to an existing key that is not on the path, so the existing keys that are not
on the path get fewer with every visit within a visit.  A depth of their number suffices, and the
rest follows by induction on the depth.

* `PathWalk.visit_eq`: a visit ends with the path that it found, and reports the closed chains
  behind its key;
* `PathWalk.IsVisit.sound`: what holds of the path whenever a visit is made;
* `PathWalk.visits_end_and_restore_path`: both together, for every visit that resolution makes.
-/
namespace DiagramRegistry

/-! ## Existing keys -/

namespace Catalogue

variable {c : Catalogue} {path : List Key} {node : Key}

/-- The keys that exist. -/
def existing (c : Catalogue) : Set Key := {k | c.contains k = .ok true}

/-- The existing keys that are not on a path. -/
def unvisited (c : Catalogue) (path : List Key) : Set Key := {k | k ∈ c.existing ∧ k ∉ path}

lemma finite_existing (c : Catalogue) : c.existing.Finite :=
  c.keys.toFinset.finite_toSet.subset fun k hk => by simpa using c.mem_keys k hk

lemma finite_unvisited (c : Catalogue) (path : List Key) : (c.unvisited path).Finite :=
  c.finite_existing.subset fun _ hk => hk.1

lemma ncard_unvisited_le (c : Catalogue) (path : List Key) :
    (c.unvisited path).ncard ≤ c.existing.ncard :=
  Set.ncard_le_ncard (fun _ hk => hk.1) c.finite_existing

lemma ncard_unvisited_lt (hnode : node ∈ c.unvisited path) :
    (c.unvisited (path ++ [node])).ncard < (c.unvisited path).ncard := by
  refine Set.ncard_lt_ncard ⟨fun k hk => ?_, fun hsub => ?_⟩ (c.finite_unvisited path)
  · exact ⟨hk.1, fun hmem => hk.2 (List.mem_append_left _ hmem)⟩
  · exact (hsub hnode).2 (by simp)

end Catalogue

/-! ## The walk -/

/-- What the walk has at hand: the path to where it is, and what resolution knows. -/
structure PathWalk where
  /-- The keys that are being visited, beginning with the root. -/
  path : List Key
  /-- What was reported and found. -/
  known : Resolution

namespace PathWalk

/-- Put a key at the end of the path. -/
def enter (w : PathWalk) (node : Key) : PathWalk := { w with path := w.path ++ [node] }

/-- Take the last key off the path. -/
def leave (w : PathWalk) : PathWalk := { w with path := w.path.dropLast }

/-- Report that the path closes at a key, unless this has been reported. -/
def report (root : Key) (line : Nat) (w : PathWalk) (code : Code) (closing : Key) : PathWalk :=
  let text := chainText (w.path ++ [closing])
  let message :=
    if code = .directCircularReference then s!"reference chain leads back to {root.display}"
    else s!"circular reference through {closing.display}"
  if w.known.reported.contains (code, text) then w
  else
    { w with known :=
        ⟨w.known.reported ++ [(code, text)], w.known.found.error (.onLine code line message text)⟩ }

/-- Follow one reference of the document that is being visited.  How visits are made is given. -/
def follow (c : Catalogue) (root : Key) (line : Nat)
    (visit : Key → String → PathWalk → Option PathWalk) (w : PathWalk) (reference : Reference) :
    Option PathWalk :=
  match reference.target with
  | none => some w
  | some child =>
    if child = root then some (w.report root line .directCircularReference child)
    else if child ∈ w.path then some (w.report root line .circularReference child)
    else
      match c.fetch? child with
      | none => some w
      | some content => visit child content w

/-- Visit a diagram: follow the references of its document, with its key on the path.  There is no
outcome when a visit within it is deeper than allowed. -/
def visit (c : Catalogue) (root : Key) (line : Nat) :
    (depth : Nat) → Key → String → PathWalk → Option PathWalk
  | 0, _, _, _ => none
  | depth + 1, node, content, w =>
    if node ∈ w.path then some (w.report root line .circularReference node)
    else do
      let w ← (referencesOf content).foldlM (follow c root line (visit c root line depth))
        (w.enter node)
      return w.leave

/-- Take one reference of the root in.  One whose target exists and can be read is walked through
with a path that holds the root only; about any other it is said why not, and the path stays. -/
def take (c : Catalogue) (root : Key) (depth : Nat) (w : PathWalk) (reference : Reference) :
    Option PathWalk :=
  match reference.target.bind fun target => (c.fetch? target).map (target, ·) with
  | none => some { w with known := w.known.step c root reference }
  | some (target, content) =>
    let w := { w with path := [root] }
    if target = root then some (w.report root reference.line .directCircularReference target)
    else visit c root reference.line depth target content w

/-- Before any reference is taken in, the path is empty. -/
def start (found : Findings) : PathWalk := ⟨[], [], found⟩

/-- Take the references of the root in, one after the other. -/
def walk (c : Catalogue) (root : Key) (references : List Reference) (found : Findings)
    (depth : Nat) : Option PathWalk :=
  references.foldlM (take c root depth) (start found)

/-- Without a limit to its depth, something ends with an outcome: it does so at every depth that is
great enough. -/
def Ends (run : (depth : Nat) → Option PathWalk) (w : PathWalk) : Prop :=
  ∃ least, ∀ depth, least ≤ depth → run depth = some w

/-- A visit that is to be made. -/
structure Visit where
  /-- The line of the reference of the root behind which it is made. -/
  line : Nat
  /-- The diagram to be visited. -/
  node : Key
  /-- Its document. -/
  content : String
  /-- What is at hand when it begins. -/
  entry : PathWalk

namespace Visit

/-- What becomes of the visit. -/
def run (c : Catalogue) (root : Key) (v : Visit) (depth : Nat) : Option PathWalk :=
  visit c root v.line depth v.node v.content v.entry

/-- What is at hand after some references of the document have been followed. -/
def runTo (c : Catalogue) (root : Key) (v : Visit) (before : List Reference) (depth : Nat) :
    Option PathWalk :=
  before.foldlM (follow c root v.line (visit c root v.line depth)) (v.entry.enter v.node)

end Visit

/-- The visits that resolution makes: for a reference of the root, when those before it have been
taken in, and within a visit for a reference of the document, when those before it have been
followed. -/
inductive IsVisit (c : Catalogue) (root : Key) (references : List Reference) (found : Findings) :
    Visit → Prop where
  /-- A visit to the target of a reference of the root. -/
  | outer {before after : List Reference} {reference : Reference} {w : PathWalk} {target : Key}
      {content : String} (hsplit : references = before ++ reference :: after)
      (hbefore : Ends (walk c root before found) w) (htarget : reference.target = some target)
      (hfetch : c.fetch? target = some content) (hroot : target ≠ root) :
      IsVisit c root references found ⟨reference.line, target, content, { w with path := [root] }⟩
  /-- A visit to the target of a reference of the document that is being visited. -/
  | inner {v : Visit} {before after : List Reference} {reference : Reference} {w : PathWalk}
      {child : Key} {content : String} (hvisit : IsVisit c root references found v)
      (hnode : v.node ∉ v.entry.path)
      (hsplit : referencesOf v.content = before ++ reference :: after)
      (hbefore : Ends (v.runTo c root before) w) (htarget : reference.target = some child)
      (hroot : child ≠ root) (hpath : child ∉ w.path) (hfetch : c.fetch? child = some content) :
      IsVisit c root references found ⟨v.line, child, content, w⟩

variable {c : Catalogue} {root node : Key} {line depth : Nat} {content : String} {path : List Key}
  {known : Resolution} {references : List Reference} {reference : Reference} {found : Findings}
  {w w' : PathWalk} {v : Visit}

lemma Ends.unique {run : (depth : Nat) → Option PathWalk} (h : Ends run w) (h' : Ends run w') :
    w = w' := by
  obtain ⟨least, hleast⟩ := h
  obtain ⟨least', hleast'⟩ := h'
  have hrun := hleast (max least least') (le_max_left _ _)
  rw [hleast' (max least least') (le_max_right _ _)] at hrun
  exact (Option.some.inj hrun).symm

/-! ## A visit ends with the path that it found -/

/-- What a visit reports is what the search reports about the chain that closes. -/
lemma report_eq {code : Code} {closing : Key} (hcode : Resolution.cycleCode root closing = code) :
    report root line ⟨path, known⟩ code closing =
      ⟨path, known.report root line (path ++ [closing])⟩ := by
  subst hcode
  simp only [report, Resolution.report, List.getLastD_concat, Resolution.cycleMessage,
    List.contains_iff_mem]
  by_cases hclosing : closing = root
  · simp only [Resolution.cycleCode, hclosing, if_true]
    split <;> rfl
  · simp only [Resolution.cycleCode, hclosing, if_false, reduceCtorEq]
    split <;> rfl

lemma visit_of_not_mem (h : node ∉ w.path) :
    visit c root line (depth + 1) node content w =
      ((referencesOf content).foldlM (follow c root line (visit c root line depth))
        (w.enter node)).map leave := by
  rw [visit, if_neg h, Option.map_eq_bind]
  rfl

section
variable {visit : Key → String → PathWalk → Option PathWalk} (hroot : root ∈ path)
  (hvisit : ∀ child content known, child ∉ path → c.fetch? child = some content →
    visit child content ⟨path, known⟩ =
      some ⟨path, (c.closedChains (path ++ [child]) (targetsOf content)).foldl
        (Resolution.report root line) known⟩)
include hroot hvisit

/-- A reference is followed by searching for the chains that close behind its target. -/
lemma follow_eq :
    follow c root line visit ⟨path, known⟩ reference =
      some ⟨path, (c.closedChains path reference.target.toList).foldl
        (Resolution.report root line) known⟩ := by
  unfold follow
  cases htarget : reference.target with
  | none => simp [Catalogue.closedChains]
  | some child =>
    simp only [Option.toList_some, Catalogue.closedChains_cons, Catalogue.closedChains,
      List.append_nil]
    by_cases hchild : child = root
    · subst hchild
      rw [if_pos rfl, if_pos hroot, report_eq (if_pos rfl)]
      rfl
    · rw [if_neg hchild]
      by_cases hpath : child ∈ path
      · rw [if_pos hpath, if_pos hpath, report_eq (if_neg hchild)]
        rfl
      · rw [if_neg hpath, if_neg hpath]
        cases hfetch : c.fetch? child with
        | none => rfl
        | some content => exact hvisit child content known hpath hfetch

lemma foldlM_follow :
    references.foldlM (follow c root line visit) ⟨path, known⟩ =
      some ⟨path, (c.closedChains path (references.filterMap Reference.target)).foldl
        (Resolution.report root line) known⟩ := by
  induction references generalizing known with
  | nil => simp [Catalogue.closedChains]
  | cons reference references ih =>
    rw [List.foldlM_cons, follow_eq hroot hvisit, Option.bind_eq_bind, Option.bind_some, ih]
    cases htarget : reference.target with
    | none => simp [htarget, Catalogue.closedChains]
    | some child =>
      rw [List.filterMap_cons_some htarget, Catalogue.closedChains_cons, List.foldl_append,
        Option.toList_some, Catalogue.closedChains_cons, Catalogue.closedChains, List.append_nil]

end

/-- With the root on the path, a visit to a key that is not on it ends.  It leaves the path as it
was and reports the chains that close behind the key. -/
lemma visit_eq (hdepth : (c.unvisited path).ncard ≤ depth) (hroot : root ∈ path)
    (hnode : node ∉ path) (hfetch : c.fetch? node = some content) :
    visit c root line depth node content ⟨path, known⟩ =
      some ⟨path, (c.closedChains (path ++ [node]) (targetsOf content)).foldl
        (Resolution.report root line) known⟩ := by
  have hfewer : (c.unvisited (path ++ [node])).ncard < (c.unvisited path).ncard :=
    Catalogue.ncard_unvisited_lt ⟨(Catalogue.fetch?_eq_some_iff.1 hfetch).1, hnode⟩
  induction depth generalizing path node content known with
  | zero => omega
  | succ depth ih =>
    have hroot' : root ∈ path ++ [node] := List.mem_append_left _ hroot
    rw [visit_of_not_mem hnode, enter, foldlM_follow hroot' fun child content known hchild hf =>
      ih (by omega) hroot' hchild hf (Catalogue.ncard_unvisited_lt
        ⟨(Catalogue.fetch?_eq_some_iff.1 hf).1, hchild⟩), targetsOf_eq]
    simp [leave]

/-! ## All references of the root -/

/-- A reference of the root is taken in as the search would do it. -/
lemma take_eq (c : Catalogue) (root : Key) (w : PathWalk) (reference : Reference) :
    ∃ path, ∀ depth, c.existing.ncard ≤ depth →
      take c root depth w reference = some ⟨path, w.known.step c root reference⟩ := by
  cases htarget : reference.target with
  | none => exact ⟨w.path, fun _ _ => by simp [take, htarget]⟩
  | some target =>
    cases hfetch : c.fetch? target with
    | none => exact ⟨w.path, fun _ _ => by simp [take, htarget, hfetch]⟩
    | some content =>
      obtain ⟨hcontains, hread⟩ := Catalogue.fetch?_eq_some_iff.1 hfetch
      refine ⟨[root], fun depth hdepth => ?_⟩
      simp only [take, htarget, hfetch, Option.bind_some, Option.map_some, Resolution.step,
        hcontains, hread, Catalogue.closedChains_cons, List.mem_singleton, Catalogue.closedChains,
        List.append_nil]
      by_cases hroot : target = root
      · rw [if_pos hroot, if_pos hroot, report_eq (if_pos hroot)]
        rfl
      · rw [if_neg hroot, if_neg hroot]
        exact visit_eq ((c.ncard_unvisited_le _).trans hdepth) (by simp) (by simpa using hroot)
          hfetch

/-- The walk ends, and it knows in the end what the search knows. -/
lemma exists_walk_eq (c : Catalogue) (root : Key) (references : List Reference) (found : Findings) :
    ∃ w, (∀ depth, c.existing.ncard ≤ depth → walk c root references found depth = some w) ∧
      w.known = references.foldl (Resolution.step c root) ⟨[], found⟩ := by
  have hfold : ∀ w : PathWalk, ∃ w', (∀ depth, c.existing.ncard ≤ depth →
      references.foldlM (take c root depth) w = some w') ∧
      w'.known = references.foldl (Resolution.step c root) w.known := by
    induction references with
    | nil => exact fun w => ⟨w, fun _ _ => rfl, rfl⟩
    | cons reference references ih =>
      intro w
      obtain ⟨path, htake⟩ := take_eq c root w reference
      obtain ⟨w', hw', hknown⟩ := ih ⟨path, w.known.step c root reference⟩
      refine ⟨w', fun depth hdepth => ?_, hknown⟩
      rw [List.foldlM_cons, htake depth hdepth]
      exact hw' depth hdepth
  exact hfold (start found)

/-! ## The path at a visit -/

/-- What holds when a visit is made. -/
structure Visit.IsSound (c : Catalogue) (root : Key) (v : Visit) : Prop where
  /-- The key to be visited is not on the path, and no key is there twice. -/
  nodup : (v.entry.path ++ [v.node]).Nodup
  /-- The root is on the path. -/
  root_mem : root ∈ v.entry.path
  /-- All other keys exist. -/
  stored : ∀ k ∈ v.entry.path ++ [v.node], k = root ∨ k ∈ c.existing
  /-- The key to be visited can be read. -/
  fetched : c.fetch? v.node = some v.content

namespace Visit.IsSound

lemma not_mem (h : v.IsSound c root) : v.node ∉ v.entry.path :=
  fun hmem => (List.nodup_append.1 h.nodup).2.2 _ hmem _ (by simp) rfl

/-- After any number of references of the document the path is that of the visit. -/
lemma exists_runTo (h : v.IsSound c root) (before : List Reference) :
    ∃ w, (∀ depth, c.existing.ncard ≤ depth → v.runTo c root before depth = some w) ∧
      w.path = v.entry.path ++ [v.node] := by
  have hroot : root ∈ v.entry.path ++ [v.node] := List.mem_append_left _ h.root_mem
  exact ⟨_, fun _ hdepth => foldlM_follow hroot fun _ _ _ hchild hf =>
    visit_eq ((c.ncard_unvisited_le _).trans hdepth) hroot hchild hf, rfl⟩

/-- At last the path is the one that the visit found. -/
lemma exists_run (h : v.IsSound c root) :
    ∃ w, (∀ depth, c.existing.ncard ≤ depth → v.run c root depth = some w) ∧
      w.path = v.entry.path :=
  ⟨_, fun _ hdepth => visit_eq ((c.ncard_unvisited_le _).trans hdepth) h.root_mem h.not_mem
    h.fetched, rfl⟩

/-- A path without repetitions is at most one longer than there are existing keys. -/
lemma length_le (h : v.IsSound c root) :
    (v.entry.path ++ [v.node]).length ≤ c.existing.ncard + 1 :=
  calc (v.entry.path ++ [v.node]).length
      = ((v.entry.path ++ [v.node]).toFinset : Set Key).ncard := by
        rw [Set.ncard_coe_finset, List.toFinset_card_of_nodup h.nodup]
    _ ≤ (insert root c.existing).ncard :=
        Set.ncard_le_ncard (fun k hk => h.stored k (List.mem_toFinset.1 hk))
          (c.finite_existing.insert root)
    _ ≤ c.existing.ncard + 1 := Set.ncard_insert_le _ _

end Visit.IsSound

lemma IsVisit.sound (h : IsVisit c root references found v) : v.IsSound c root := by
  induction h with
  | outer _ _ _ hfetch hroot =>
    refine ⟨by simpa using Ne.symm hroot, by simp, fun k hk => ?_, hfetch⟩
    rcases List.mem_append.1 hk with hk | hk
    · exact .inl (List.mem_singleton.1 hk)
    · rw [List.mem_singleton.1 hk]
      exact .inr (Catalogue.fetch?_eq_some_iff.1 hfetch).1
  | @inner v before _ _ w child _ _ _ _ hbefore _ _ hpath hfetch ih =>
    -- the references that were followed before have left the path as it was
    obtain ⟨w', hw', hwpath⟩ := ih.exists_runTo before
    obtain rfl : w' = w := Ends.unique ⟨_, hw'⟩ hbefore
    have hroot : root ∈ w'.path := hwpath ▸ List.mem_append_left _ ih.root_mem
    have hnodup : (w'.path ++ [child]).Nodup := by
      rw [← List.concat_eq_append, List.nodup_concat]
      exact ⟨hpath, hwpath ▸ ih.nodup⟩
    refine ⟨hnodup, hroot, fun k hk => ?_, hfetch⟩
    rcases List.mem_append.1 hk with hk | hk
    · exact ih.stored k (hwpath ▸ hk)
    · rw [List.mem_singleton.1 hk]
      exact .inr (Catalogue.fetch?_eq_some_iff.1 hfetch).1

/-- The walk through the references of a diagram ends with the findings of resolution, at every
depth that is not less than the number of existing keys.  Every visit that it makes is to a key that
is not on the path.  With this key the path has no repetitions and is at most one longer than there
are existing keys; it is the same after any number of the references of the document; and the visit
ends with the path that it found. -/
theorem visits_end_and_restore_path (c : Catalogue) (root : Key) (references : List Reference)
    (found : Findings) :
    (∃ w, (∀ depth, c.existing.ncard ≤ depth → walk c root references found depth = some w) ∧
        w.known.found = resolve (some c) root references found) ∧
      ∀ v, IsVisit c root references found v →
        v.node ∉ v.entry.path ∧
        (v.entry.path ++ [v.node]).Nodup ∧
        (v.entry.path ++ [v.node]).length ≤ c.existing.ncard + 1 ∧
        (∀ before, before <+: referencesOf v.content →
          ∃ w, (∀ depth, c.existing.ncard ≤ depth → v.runTo c root before depth = some w) ∧
            w.path = v.entry.path ++ [v.node]) ∧
        ∃ w, (∀ depth, c.existing.ncard ≤ depth → v.run c root depth = some w) ∧
          w.path = v.entry.path := by
  constructor
  · obtain ⟨w, hw, hknown⟩ := exists_walk_eq c root references found
    exact ⟨w, hw, congrArg Resolution.found hknown⟩
  · intro v hv
    have hsound := hv.sound
    exact ⟨hsound.not_mem, hsound.nodup, hsound.length_le,
      fun before _ => hsound.exists_runTo before, hsound.exists_run⟩

/-- Two nested diagrams that include each other. -/
def mutualIncludes : Catalogue where
  contains k := .ok (k = .nested "latch" ∨ k = .nested "bolt")
  read k := .ok (if k = .nested "latch" then "!include nested/bolt/bolt.puml"
    else "!include nested/latch/latch.puml")
  keys := [.nested "latch", .nested "bolt"]
  mem_keys k h := by simpa using h

/-- A visit within a visit comes back from a cycle. -/
theorem mutualIncludes_are_left :
    let root := Key.staging "door" "1.0.0"
    let v : Visit := ⟨1, .nested "bolt", "!include nested/latch/latch.puml",
      ⟨[root, .nested "latch"], [], .none⟩⟩
    IsVisit mutualIncludes root [.toNested "latch"] .none v ∧
      ∃ w, Ends (v.run mutualIncludes root) w ∧ w.path = [root, .nested "latch"] := by
  intro root v
  have hlatch : IsVisit mutualIncludes root [.toNested "latch"] .none
      ⟨1, .nested "latch", "!include nested/bolt/bolt.puml", ⟨[root], [], .none⟩⟩ :=
    .outer (List.nil_append _).symm ⟨0, fun _ _ => rfl⟩ rfl (by decide) (by decide)
  have hread : referencesOf "!include nested/bolt/bolt.puml" = [.toNested "bolt"] := by
    decide +kernel
  have hbolt : IsVisit mutualIncludes root [.toNested "latch"] .none v :=
    .inner hlatch (by decide) (hread.trans (List.nil_append _).symm) ⟨0, fun _ _ => rfl⟩ rfl
      (by decide) (by decide) (by decide)
  obtain ⟨-, -, -, -, w, hends, hpath⟩ :=
    (visits_end_and_restore_path mutualIncludes root [.toNested "latch"] .none).2 v hbolt
  exact ⟨hbolt, w, ⟨_, hends⟩, hpath⟩

end PathWalk

end DiagramRegistry
