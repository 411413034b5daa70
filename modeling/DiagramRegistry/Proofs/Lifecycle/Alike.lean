import DiagramRegistry.Proofs.Lifecycle.Mirror
import DiagramRegistry.Proofs.Lifecycle.TidyStore

/-
# The life cycle over two stores at once

The life cycle is written against the interface of stores, so it is carried out on a store in
memory and on a store on disk by the same steps.  Each step asks both stores the same question or
changes both in the same way, maybe at different times.  If the store on disk mirrors the one in
memory before, the answers are the same and it does so afterwards (`EndAlike`), and this is put
together along the steps of an operation.

* `Lifecycle.EndAlike.bind`: steps are put together;
* `Lifecycle.create_alike` to `Lifecycle.promote_alike`: the operations.
-/
namespace DiagramRegistry

/-- A diagram without the times of its first and last change. -/
def Diagram.timeless (d : Diagram) : Diagram := { d with created := ⟨0, 0⟩, updated := ⟨0, 0⟩ }

namespace Lifecycle

variable {α β γ δ : Type} {m : Memory} {s : OnDisk} {x : Action Memory α} {y : Action OnDisk β}
  {f : α → Action Memory γ} {g : β → Action OnDisk δ} {a : α} {b : β} {R : α → β → Prop}
  {S : γ → δ → Prop} {now now' : Instant} {k : Key} {d d' : Diagram} {name version content : String}

/-! ## Actions that end alike -/

/-- Carried out on a store in memory and on one on disk, two actions end with values that are
related or with the same failure, and the one store mirrors the other afterwards. -/
inductive EndAlike (R : α → β → Prop) (m : Memory) (s : OnDisk) (x : Action Memory α)
    (y : Action OnDisk β) : Prop where
  /-- There are values. -/
  | value (a : α) (b : β) (m' : Memory) (s' : OnDisk) (hx : x.perform m = (.ok a, m'))
      (hy : y.perform s = (.ok b, s')) (hvalues : R a b) (h : Mirrors m' s')
  /-- There is a failure. -/
  | failure (failure : Failure) (m' : Memory) (s' : OnDisk) (hx : x.perform m = (.error failure, m'))
      (hy : y.perform s = (.error failure, s')) (h : Mirrors m' s')

namespace EndAlike

lemma pure (hvalues : R a b) (h : Mirrors m s) :
    EndAlike R m s (Pure.pure a : Action Memory α) (Pure.pure b : Action OnDisk β) :=
  .value a b m s rfl rfl hvalues h

lemma fail (h : Mirrors m s) (failure : Failure) :
    EndAlike R m s (Action.fail failure) (Action.fail failure) :=
  .failure failure m s rfl rfl h

/-- Only what the actions do counts. -/
lemma of_perform {m' : Memory} {s' : OnDisk} {x' : Action Memory α} {y' : Action OnDisk β}
    (h : EndAlike R m' s' x' y') (hx : x.perform m = x'.perform m')
    (hy : y.perform s = y'.perform s') : EndAlike R m s x y := by
  cases h with
  | value a b m'' s'' hx' hy' hvalues h =>
    exact .value a b m'' s'' (hx.trans hx') (hy.trans hy') hvalues h
  | failure failure m'' s'' hx' hy' h =>
    exact .failure failure m'' s'' (hx.trans hx') (hy.trans hy') h

/-- In a sequence the second actions start where the first ones have ended with values. -/
lemma bind (hfirst : EndAlike R m s x y)
    (hsecond : ∀ a b m' s', R a b → Mirrors m' s' → EndAlike S m' s' (f a) (g b)) :
    EndAlike S m s (x >>= f) (y >>= g) := by
  cases hfirst with
  | failure failure m' s' hx hy h =>
    exact .failure failure m' s' (by rw [Action.perform_bind, hx])
      (by rw [Action.perform_bind, hy]) h
  | value a b m' s' hx hy hvalues h =>
    exact (hsecond a b m' s' hvalues h).of_perform (by rw [Action.perform_bind, hx])
      (by rw [Action.perform_bind, hy])

/-! ## Questions -/

/-- A question leaves the stores as they are. -/
lemma bind_ask {question : Memory → Except Failure α} {question' : OnDisk → Except Failure β}
    (hm : question m = .ok a) (hs : question' s = .ok b) (hnext : EndAlike S m s (f a) (g b)) :
    EndAlike S m s (Action.ask question >>= f) (Action.ask question' >>= g) :=
  hnext.of_perform (by rw [Action.perform_bind, Action.perform_ask, hm])
    (by rw [Action.perform_bind, Action.perform_ask, hs])

lemma bind_ask_error {question : Memory → Except Failure α} {question' : OnDisk → Except Failure β}
    {failure : Failure} (h : Mirrors m s) (hm : question m = .error failure)
    (hs : question' s = .error failure) :
    EndAlike S m s (Action.ask question >>= f) (Action.ask question' >>= g) :=
  .failure failure m s (by rw [Action.perform_bind, Action.perform_ask, hm])
    (by rw [Action.perform_bind, Action.perform_ask, hs]) h

/-- A diagram is loaded with the same content, but maybe other times. -/
lemma bind_load {f : Diagram → Action Memory γ} {g : Diagram → Action OnDisk δ} (h : Mirrors m s)
    (hk : k.IsAdmissible) (hnext : ∀ d created updated, m.get? k = some d → d.key = k →
      s.view (k.location, k.stem) = some (.text d.content) →
      EndAlike S m s (f d) (g ⟨k, d.content, [], created, updated⟩)) :
    EndAlike S m s (Action.ask (Store.load k) >>= f) (Action.ask (Store.load k) >>= g) := by
  rcases h.load_cases hk with
    ⟨-, hm, hs, -⟩ | ⟨d, created, updated, hget, hkey, hm, hs, hview⟩
  · exact bind_ask_error h hm hs
  · exact bind_ask hm hs (hnext d created updated hget hkey hview)

lemma bind_contains {f : Bool → Action Memory γ} {g : Bool → Action OnDisk δ} (h : Mirrors m s)
    (hk : k.IsAdmissible)
    (hnext : EndAlike S m s (f (m.get? k).isSome) (g (m.get? k).isSome)) :
    EndAlike S m s (contains k >>= f) (contains k >>= g) := by
  have hm : m.contains k = .ok (m.get? k).isSome := h.holds.contains_eq k
  exact bind_ask hm ((h.contains_eq hk).trans hm) hnext

/-- Validation finds the same, whatever the times of the diagrams. -/
lemma bind_validated {f : Diagram × Findings → Action Memory γ}
    {g : Diagram × Findings → Action OnDisk δ} (strictness : Strictness) (h : Mirrors m s)
    (hkey : d'.key = d.key) (hcontent : d'.content = d.content)
    (hplain : HasPlainReferences d.content)
    (hnext : ∀ found, EndAlike S m s (f ({ d with references := referencesOf d.content }, found))
      (g ({ d' with references := referencesOf d.content }, found))) :
    EndAlike S m s (validated strictness d >>= f) (validated strictness d' >>= g) := by
  have hsame : (Validation.run (some (Store.catalogue s)) strictness d').2 =
      (Validation.run (some (Store.catalogue m)) strictness d).2 := by
    rw [h.run_eq strictness hplain]
    simp only [Validation.run, hkey, hcontent]
  have hm : Validation.run (some (Store.catalogue m)) strictness d =
      ({ d with references := referencesOf d.content }, _) := Prod.ext (run_fst _ _ _) rfl
  have hs : Validation.run (some (Store.catalogue s)) strictness d' =
      ({ d' with references := referencesOf d.content }, _) :=
    Prod.ext ((run_fst _ _ _).trans (by rw [hcontent])) hsame
  exact bind_ask (congrArg Except.ok hm) (congrArg Except.ok hs) (hnext _)

end EndAlike

/-! ## Changes -/

/-- The directory of a diagram is made on both stores. -/
lemma ensureDirectory_alike (h : Mirrors m s) (hk : k.IsAdmissible) :
    EndAlike (fun _ _ => True) m s (ensureDirectory k) (ensureDirectory k) := by
  obtain ⟨s', hs', hleaves⟩ := leaves_ensureDirectory h.tidy hk.isStorable
  exact .value () () _ s' (perform_ensureDirectory m k) hs' trivial
    (.of_leaves hleaves (h.holds.createDirectory _))

/-- A diagram is written on both stores. -/
lemma EndAlike.bind_write {f : Unit → Action Memory γ} {g : Unit → Action OnDisk δ}
    (h : Mirrors m s) (hkey : d'.key = d.key) (hcontent : d'.content = d.content)
    (hk : d.key.IsAdmissible) (hplain : HasPlainReferences d.content)
    (hreferences : d.references = referencesOf d.content)
    (hnext : ∀ m' s', Mirrors m' s' → EndAlike S m' s' (f ()) (g ())) :
    EndAlike S m s (Store.write now d >>= f) (Store.write now' d' >>= g) := by
  have hk' : d'.key.IsAdmissible := hkey ▸ hk
  obtain ⟨s', hs', hleaves⟩ := h.tidy.leaves_write now' hk'.isStorable
  rw [hkey, hcontent] at hleaves
  have hwrite : EndAlike (fun _ _ => True) m s (Store.write now d) (Store.write now' d') :=
    .value () () (m.put d.key d) s' (Memory.perform_write m now d) hs' trivial
      (.of_leaves hleaves (h.holds.put rfl hk hplain hreferences))
  exact hwrite.bind fun _ _ m' s' _ h' => hnext m' s' h'

/-- A draft that is there is moved to production on both stores, if nothing is there. -/
lemma move_alike (h : Mirrors m s) (now now' : Instant)
    (hdraft : (Key.staging name version).IsAdmissible)
    (hd : m.get? (.staging name version) = some d)
    (hfree : m.get? (.production name version) = none) :
    EndAlike (fun _ _ => True) m s (Store.move now name version .staging .production)
      (Store.move now' name version .staging .production) := by
  have hpromoted : (Key.production name version).IsAdmissible :=
    hdraft.relocate (by simp [Key.staging]) (by simp)
  have hview := h.holds.files _ hdraft
  have hnone := h.holds.files _ hpromoted
  rw [hd] at hview
  rw [hfree] at hnone
  obtain ⟨s', hs', hleaves⟩ := h.tidy.leaves_move hdraft.isStorable hpromoted.isStorable hview hnone
  have hmoved := (h.holds.erase hdraft).put (d := asPromoted now name version d) rfl hpromoted
    (h.holds.plain _ d hd) (h.holds.references _ (Memory.mem_entries_of_get? hd))
  exact .value () () _ s' ((Memory.perform_move m now name version _ _).trans (move_eq hd hfree)) hs'
    trivial (.of_leaves hleaves hmoved)

/-- A diagram is deleted from both stores, or is on neither. -/
lemma delete_alike (h : Mirrors m s) (hk : k.IsAdmissible) :
    EndAlike (fun _ _ => True) m s (delete k) (delete k) := by
  have hm : (delete k).perform m = Memory.delete k m := perform_delete m k
  rw [Memory.delete] at hm
  rcases h.load_cases hk with ⟨hnone, -, -, hview⟩ | ⟨d, created, updated, hget, -, -, -, hview⟩
  · rw [hnone, Option.isSome_none, if_neg (by simp)] at hm
    exact .failure _ m s hm (h.tidy.delete_eq_notFound hk.isStorable hview) h
  · rw [hget, Option.isSome_some, if_pos rfl] at hm
    obtain ⟨s', hs', hleaves⟩ := h.tidy.leaves_delete hk.isStorable hview
    exact .value () () _ s' hm hs' trivial (.of_leaves hleaves (h.holds.erase hk))

/-! ## Operations -/

/-- Diagrams with findings about them that are the same up to times. -/
def SameStored (v w : Diagram × Findings) : Prop := v.1.timeless = w.1.timeless ∧ v.2 = w.2

lemma create_alike (h : Mirrors m s) (now now' : Instant) {r : Request} (hk : r.key.IsAdmissible)
    (hplain : HasPlainReferences r.content) :
    EndAlike SameStored m s (create now r) (create now' r) := by
  unfold create
  cases hidentity : ensureIdentity r.key with
  | error failure => exact .bind_ask_error h rfl rfl
  | ok _ =>
    refine .bind_ask rfl rfl (.bind_contains h hk ?_)
    split
    · exact .fail h _
    · refine (ensureDirectory_alike h hk).bind fun _ _ m' s' _ h' => ?_
      refine .bind_validated .staging h' rfl rfl hplain fun found => ?_
      exact .bind_write h' rfl rfl hk hplain rfl fun m'' s'' h'' => .pure ⟨rfl, rfl⟩ h''

lemma get_alike (h : Mirrors m s) (hk : k.IsAdmissible) :
    EndAlike (fun d d' => d.timeless = d'.timeless) m s (get k) (get k) := by
  unfold get
  refine .bind_load h hk fun d created updated _ hkey _ => .pure ?_ h
  rw [Diagram.timeless, Diagram.timeless, hkey]

lemma update_alike (h : Mirrors m s) (now now' : Instant) (hk : k.IsAdmissible)
    (hplain : HasPlainReferences content) :
    EndAlike SameStored m s (update now k content) (update now' k content) := by
  unfold update
  split
  · exact .fail h _
  · refine .bind_load h hk fun d created updated _ _ _ => ?_
    refine .bind_validated .staging h rfl rfl hplain fun found => ?_
    exact .bind_write h rfl rfl hk hplain rfl fun m' s' h' => .pure ⟨rfl, rfl⟩ h'

lemma list_alike (h : Mirrors m s) (l : Location) :
    EndAlike (fun ds ds' => ds.map Mirrors.listed = ds'.map Mirrors.listed) m s (list l)
      (list l) := by
  unfold list
  obtain ⟨ds, hds, hsame⟩ := h.exists_list l
  have hm : Store.list l m = .ok (m.list l) := rfl
  exact .bind_ask hm hds (.pure hsame h)

lemma validate_alike (h : Mirrors m s) (strictness : Strictness) (hk : k.IsAdmissible) :
    EndAlike Eq m s (validate k strictness) (validate k strictness) := by
  unfold validate
  refine .bind_load h hk fun d created updated hget hkey _ => ?_
  exact .bind_validated strictness h hkey.symm rfl (h.holds.plain k d hget) fun found => .pure rfl h

lemma promote_alike (h : Mirrors m s) (now now' : Instant)
    (hk : (Key.staging name version).IsAdmissible) :
    EndAlike Eq m s (promote now name version) (promote now' name version) := by
  have hpromoted : (Key.production name version).IsAdmissible :=
    hk.relocate (by simp [Key.staging]) (by simp)
  unfold promote
  refine .bind_load h hk fun d created updated hget hkey _ => .bind_contains h hpromoted ?_
  split
  · exact .fail h _
  · rename_i hfree
    refine .bind_validated .production h hkey.symm rfl (h.holds.plain _ d hget) fun found => ?_
    dsimp only
    split
    · refine (move_alike h now now' hk hget (Option.not_isSome_iff_eq_none.1 hfree)).bind
        fun _ _ m' s' _ h' => ?_
      exact .pure rfl h'
    · exact .fail h _

end Lifecycle

end DiagramRegistry
