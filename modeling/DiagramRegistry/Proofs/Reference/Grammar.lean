import DiagramRegistry.Proofs.Validation.Critical
import Mathlib.Data.List.Basic
import Mathlib.Data.List.Induction
import Mathlib.Data.List.TakeWhile

/-
# The grammar of include directives

The references of a document are read off its lines by a few cuts: the blanks around a line are
dropped, a keyword is taken off, then the blanks behind it, then a pair of marks, and the path is
cut at its slashes.  The grammar of this file says the same without cuts: which lines are directives
for which path, and which paths declare which references.  A document is read exactly when it has
no NUL character, and then its references are those that its lines declare, in the order of the
lines, without those that were declared before.

* `Include.argument?_eq_some_iff`, `Include.unquote_eq_iff`: the cuts;
* `Include.ofLine?_eq_some_iff`: a line makes the reference that it declares;
* `Include.mem_firstOccurrences_iff`: what is left when repetitions are dropped;
* `includes_follow_grammar`: the references of a document.
-/
namespace DiagramRegistry

namespace Include

variable {line text argument path place stem : List Char} {number : Nat} {r : Reference}
  {rs : List Reference} {content : String}

/-! ## Directives -/

/-- The keywords of include directives. -/
def keywords : List (List Char) :=
  ["!include".toList, "!include_many".toList, "!include_once".toList]

/-- A text is an include directive with an argument: a keyword, then blanks, then the argument,
which begins where the blanks end. -/
inductive IsDirective (text argument : List Char) : Prop where
  /-- There is at least one blank, and there is an argument. -/
  | intro {keyword blanks : List Char} (hkeyword : keyword ∈ keywords) (hne : blanks ≠ [])
      (hblanks : ∀ c ∈ blanks, Text.isBlank c = true) (hargument : argument ≠ [])
      (hhead : ∀ c ∈ argument.head?, Text.isBlank c = false)
      (htext : text = keyword ++ blanks ++ argument)

/-- What an argument holds: all that is between the marks, when a pair of quotation marks or of
angle brackets is around it, and else the argument itself. -/
inductive Encloses (argument inner : List Char) : Prop where
  /-- There are quotation marks around it. -/
  | quotes (h : argument = '"' :: inner ++ ['"'])
  /-- There are angle brackets around it. -/
  | brackets (h : argument = '<' :: inner ++ ['>'])
  /-- There are no marks around it. -/
  | bare (hquotes : ∀ cs, argument ≠ '"' :: cs ++ ['"'])
      (hbrackets : ∀ cs, argument ≠ '<' :: cs ++ ['>']) (h : argument = inner)

/-- A line is an include directive for a path, which has slashes for the backslashes in it. -/
inductive Directs (line path : List Char) : Prop where
  /-- The text of the line is a directive, and the path is what its argument holds. -/
  | intro {text argument inner : List Char} (htext : Text.TrimsTo line text)
      (hdirective : IsDirective text argument) (hinner : Encloses argument inner)
      (hpath : path = inner.map fun c => if c = '\\' then '/' else c)

/-- A path names a stem at a place: its last segments are the place, the stem, and the stem with the
file extension. -/
inductive Names (path place stem : List Char) : Prop where
  /-- There may be any segments in front. -/
  | intro {front : List (List Char)} (hstem : stem ≠ [])
      (hsegments : path.splitOn '/' = front ++ [place, stem, stem ++ ".puml".toList])

/-- A line declares a reference, whatever the number of the line. -/
inductive Declares (line : List Char) (r : Reference) : Prop where
  /-- A stem among the products declares a product reference, by the name and the version that the
  stem splits into; one that does not split is a name. -/
  | product {stem : List Char} (hline : Directs line r.path.toList)
      (hnames : Names r.path.toList "products".toList stem) (hkind : r.kind = .product)
      (hsplit : (r.name, r.version) =
        (Stem.split? (String.ofList stem)).getD (String.ofList stem, ""))
  /-- A stem among the nested diagrams is the name of a nested reference. -/
  | nested {stem : List Char} (hline : Directs line r.path.toList)
      (hnames : Names r.path.toList "nested".toList stem) (hkind : r.kind = .nested)
      (hname : r.name = String.ofList stem) (hversion : r.version = "")

/-! ## The cuts -/

lemma exists_keyword_of_afterKeyword? {rest : List Char} (h : afterKeyword? text = some rest) :
    ∃ keyword ∈ keywords, text = keyword ++ rest := by
  obtain ⟨tail, htail, hrest⟩ := Option.map_eq_some_iff.1 h
  rw [Text.after?_eq_some_iff] at htail
  cases hmany : Text.after? "_many".toList tail with
  | some rest' =>
    rw [hmany] at hrest
    obtain rfl : rest' = rest := hrest
    refine ⟨"!include_many".toList, by simp [keywords], ?_⟩
    rw [htail, Text.after?_eq_some_iff.1 hmany]
    rfl
  | none =>
    cases honce : Text.after? "_once".toList tail with
    | some rest' =>
      rw [hmany, honce] at hrest
      obtain rfl : rest' = rest := hrest
      refine ⟨"!include_once".toList, by simp [keywords], ?_⟩
      rw [htail, Text.after?_eq_some_iff.1 honce]
      rfl
    | none =>
      rw [hmany, honce] at hrest
      obtain rfl : tail = rest := hrest
      exact ⟨"!include".toList, by simp [keywords], htail⟩

/-- A keyword is taken off as a whole when a blank follows it. -/
lemma afterKeyword?_append {keyword rest : List Char} {b : Char} (hkeyword : keyword ∈ keywords)
    (hb : Text.isBlank b = true) : afterKeyword? (keyword ++ b :: rest) = some (b :: rest) := by
  have hne : b ≠ '_' := by
    rintro rfl
    exact absurd hb (by decide)
  simp only [keywords, List.mem_cons, List.not_mem_nil, or_false] at hkeyword
  rcases hkeyword with rfl | rfl | rfl
  · have hmany : Text.after? "_many".toList (b :: rest) = none := by
      simp [Text.after?, Ne.symm hne]
    have honce : Text.after? "_once".toList (b :: rest) = none := by
      simp [Text.after?, Ne.symm hne]
    rw [afterKeyword?, Text.after?_eq_some_iff.2 rfl, Option.map_some, hmany, honce]
    rfl
  · rfl
  · rfl

/-- Cutting the argument off a text finds the argument of a directive. -/
lemma argument?_eq_some_iff : argument? text = some argument ↔ IsDirective text argument := by
  constructor
  · intro h
    unfold argument? at h
    split at h
    · rename_i b rest hrest
      split at h
      · rename_i hb
        obtain rfl := Option.some.inj h
        obtain ⟨keyword, hkeyword, rfl⟩ := exists_keyword_of_afterKeyword? hrest
        have hblanks : ∀ c ∈ b :: rest.takeWhile Text.isBlank, Text.isBlank c = true := by
          rw [List.forall_mem_cons]
          exact ⟨hb.1, fun c hc => List.mem_takeWhile_imp hc⟩
        refine .intro hkeyword (by simp) hblanks hb.2 (fun c hc => ?_) ?_
        · have hhead : (rest.dropWhile Text.isBlank).head? = some c := hc
          simpa [hhead] using List.head?_dropWhile_not Text.isBlank rest
        · simp [Text.trimStart]
      · exact absurd h (by simp)
    · exact absurd h (by simp)
  · rintro ⟨hkeyword, hne, hblanks, hargument, hhead, rfl⟩
    obtain ⟨b, blanks, rfl⟩ := List.exists_cons_of_ne_nil hne
    rw [List.forall_mem_cons] at hblanks
    have htrim : Text.trimStart (blanks ++ argument) = argument := by
      rw [Text.trimStart, List.dropWhile_append_of_pos hblanks.2]
      obtain ⟨c, cs, rfl⟩ := List.exists_cons_of_ne_nil hargument
      exact List.dropWhile_cons_of_neg (by simpa using hhead c rfl)
    rw [List.append_assoc, List.cons_append, argument?,
      afterKeyword?_append hkeyword hblanks.1]
    simp only [htrim, hblanks.1, hargument, ne_eq, not_false_eq_true, and_self, if_true]

lemma between?_eq_some_iff {opening closing : Char} {cs inner : List Char} :
    between? opening closing cs = some inner ↔ cs = opening :: inner ++ [closing] := by
  cases cs with
  | nil => simp [between?]
  | cons c cs =>
    by_cases hc : c = opening
    · simp [between?, hc, Text.before?_eq_some_iff]
    · simp [between?, hc]

/-- Taking the marks off an argument leaves what it holds. -/
lemma unquote_eq_iff {inner : List Char} : unquote argument = inner ↔ Encloses argument inner := by
  unfold unquote
  cases hquotes : between? '"' '"' argument with
  | some cs =>
    rw [Option.some_or, Option.getD_some]
    have hcs := between?_eq_some_iff.1 hquotes
    constructor
    · rintro rfl
      exact .quotes hcs
    · rintro (h | h | ⟨hnone, -, -⟩)
      · rw [between?_eq_some_iff.2 h] at hquotes
        exact (Option.some.inj hquotes).symm
      · rw [hcs] at h
        exact absurd (List.cons.inj h).1 (by decide)
      · exact absurd hcs (hnone cs)
  | none =>
    have hnone : ∀ cs, argument ≠ '"' :: cs ++ ['"'] := fun cs h => by
      rw [between?_eq_some_iff.2 h] at hquotes
      exact absurd hquotes (by simp)
    cases hbrackets : between? '<' '>' argument with
    | some cs =>
      rw [Option.none_or, Option.getD_some]
      have hcs := between?_eq_some_iff.1 hbrackets
      constructor
      · rintro rfl
        exact .brackets hcs
      · rintro (h | h | ⟨-, hbare, -⟩)
        · exact absurd h (hnone inner)
        · rw [between?_eq_some_iff.2 h] at hbrackets
          exact (Option.some.inj hbrackets).symm
        · exact absurd hcs (hbare cs)
    | none =>
      have hbare : ∀ cs, argument ≠ '<' :: cs ++ ['>'] := fun cs h => by
        rw [between?_eq_some_iff.2 h] at hbrackets
        exact absurd hbrackets (by simp)
      constructor
      · rintro rfl
        exact .bare hnone hbare rfl
      · rintro (h | h | ⟨-, -, h⟩)
        · exact absurd h (hnone inner)
        · exact absurd h (hbare inner)
        · exact h

/-- Cutting a path at its slashes finds the place and the stem that it names. -/
lemma addressed?_eq_some_iff : addressed? path = some (place, stem) ↔ Names path place stem := by
  constructor
  · intro h
    unfold addressed? at h
    split at h
    · rename_i file stem' place' rest hparts
      split at h
      · rename_i hfile
        obtain ⟨rfl, rfl⟩ := Prod.mk.inj (Option.some.inj h)
        have hsegments : path.splitOn '/' =
            rest.reverse ++ [place', stem', stem' ++ ".puml".toList] := by
          rw [← List.reverse_reverse (path.splitOn '/'), hparts, hfile.2]
          simp
        exact .intro hfile.1 hsegments
      · exact absurd h (by simp)
    · exact absurd h (by simp)
  · rintro ⟨hstem, hsegments⟩
    rw [addressed?, hsegments]
    simp [hstem]

lemma directs_iff :
    Directs line path ↔
      ∃ argument, argument? (Text.trim line) = some argument ∧ declaredPath argument = path := by
  constructor
  · rintro ⟨htext, hdirective, hinner, rfl⟩
    rw [Text.trimsTo_iff] at htext
    subst htext
    refine ⟨_, argument?_eq_some_iff.2 hdirective, ?_⟩
    rw [declaredPath, unquote_eq_iff.2 hinner]
  · rintro ⟨argument, hargument, rfl⟩
    exact .intro (Text.trimsTo_iff.2 rfl) (argument?_eq_some_iff.1 hargument)
      (unquote_eq_iff.1 rfl) rfl

/-- The name and the version that a stem in a path stands for. -/
lemma split?_getD (stem : List Char) :
    (Stem.split? (String.ofList stem)).getD (String.ofList stem, "") =
      (String.ofList ((Stem.splitChars? stem).getD (stem, [])).1,
        String.ofList ((Stem.splitChars? stem).getD (stem, [])).2) := by
  rw [Stem.split?, String.toList_ofList]
  cases Stem.splitChars? stem <;> rfl

/-- A line makes the reference that it declares. -/
lemma ofLine?_eq_some_iff : ofLine? line number = some r ↔ r.line = number ∧ Declares line r := by
  simp only [ofLine?, Option.bind_eq_some_iff]
  constructor
  · rintro ⟨argument, hargument, hr⟩
    have hline : Directs line (declaredPath argument) := directs_iff.2 ⟨argument, hargument, rfl⟩
    unfold reference? at hr
    split at hr
    · exact absurd hr (by simp)
    · rename_i place stem haddressed
      have hnames := addressed?_eq_some_iff.1 haddressed
      split at hr
      · rename_i hplace
        obtain rfl := Option.some.inj hr
        subst hplace
        rw [← String.toList_ofList (l := declaredPath argument)] at hline hnames
        exact ⟨rfl, .product hline hnames rfl (split?_getD stem).symm⟩
      · split at hr
        · rename_i hplace
          obtain rfl := Option.some.inj hr
          subst hplace
          rw [← String.toList_ofList (l := declaredPath argument)] at hline hnames
          exact ⟨rfl, .nested hline hnames rfl rfl rfl⟩
        · exact absurd hr (by simp)
  · rintro ⟨rfl, hdeclares⟩
    cases hdeclares with
    | product hline hnames hkind hsplit =>
      obtain ⟨argument, hargument, hpath⟩ := directs_iff.1 hline
      refine ⟨argument, hargument, ?_⟩
      rw [split?_getD, Prod.mk.injEq] at hsplit
      rw [reference?, hpath, addressed?_eq_some_iff.2 hnames]
      cases r
      simp_all [Location.directory]
    | nested hline hnames hkind hname hversion =>
      obtain ⟨argument, hargument, hpath⟩ := directs_iff.1 hline
      refine ⟨argument, hargument, ?_⟩
      rw [reference?, hpath, addressed?_eq_some_iff.2 hnames]
      cases r
      simp_all [Location.directory]

/-! ## The references of a document -/

/-- Some line of the document, counted from one, declares the reference. -/
def IsDeclaredIn (content : String) (r : Reference) : Prop :=
  ∃ line, (line, r.line) ∈ Text.numberedLines content ∧ Declares line r

/-- What is left when repetitions are dropped: in the order of their lines, the references that have
no other with the same identity on an earlier line. -/
lemma mem_firstOccurrences_iff {seen : List (ReferenceKind × String × String)}
    (hlines : rs.Pairwise fun r s => r.line < s.line) :
    r ∈ firstOccurrences seen rs ↔
      r ∈ rs ∧ r.identity ∉ seen ∧ ∀ s ∈ rs, s.identity = r.identity → r.line ≤ s.line := by
  induction rs generalizing seen with
  | nil => simp [firstOccurrences]
  | cons s rs ih =>
    obtain ⟨hs, hlines⟩ := List.pairwise_cons.1 hlines
    rw [firstOccurrences]
    by_cases hseen : s.identity ∈ seen
    · rw [if_pos hseen, ih hlines]
      constructor
      · rintro ⟨hr, hnew, hfirst⟩
        refine ⟨List.mem_cons_of_mem _ hr, hnew, fun t ht hid => ?_⟩
        rcases List.mem_cons.1 ht with rfl | ht
        · exact absurd (hid ▸ hseen) hnew
        · exact hfirst t ht hid
      · rintro ⟨hr, hnew, hfirst⟩
        have hne : r ≠ s := fun h => hnew (h ▸ hseen)
        exact ⟨(List.mem_cons.1 hr).resolve_left hne, hnew,
          fun t ht => hfirst t (List.mem_cons_of_mem _ ht)⟩
    · rw [if_neg hseen, List.mem_cons, ih hlines]
      constructor
      · rintro (rfl | ⟨hr, hnew, hfirst⟩)
        · refine ⟨List.mem_cons_self, hseen, fun t ht _ => ?_⟩
          rcases List.mem_cons.1 ht with rfl | ht
          · exact le_refl _
          · exact (hs t ht).le
        · rw [List.mem_cons, not_or] at hnew
          refine ⟨List.mem_cons_of_mem _ hr, hnew.2, fun t ht hid => ?_⟩
          rcases List.mem_cons.1 ht with rfl | ht
          · exact absurd hid.symm hnew.1
          · exact hfirst t ht hid
      · rintro ⟨hr, hnew, hfirst⟩
        rcases List.mem_cons.1 hr with rfl | hr
        · exact .inl rfl
        · refine .inr ⟨hr, ?_, fun t ht => hfirst t (List.mem_cons_of_mem _ ht)⟩
          rw [List.mem_cons, not_or]
          -- the same identity in front would be on an earlier line
          refine ⟨fun hid => ?_, hnew⟩
          exact absurd (hs r hr) (not_lt.2 (hfirst s List.mem_cons_self hid.symm))

lemma firstOccurrences_sublist (seen : List (ReferenceKind × String × String))
    (rs : List Reference) : (firstOccurrences seen rs).Sublist rs := by
  induction rs generalizing seen with
  | nil => exact List.Sublist.refl _
  | cons r rs ih =>
    rw [firstOccurrences]
    split
    · exact (ih _).cons r
    · exact (ih _).cons_cons r

/-- The references of a document that can be read are the first of those that its lines make. -/
lemma eq_of_includes_eq_ok (h : includes content = .ok rs) :
    rs = firstOccurrences []
      ((Text.numberedLines content).filterMap fun l => ofLine? l.1 l.2) := by
  unfold includes at h
  dsimp only at h
  split at h
  · exact absurd h (by simp)
  · exact (Except.ok.inj h).symm

/-- The lines make the references that they declare, one after the other. -/
lemma mem_made_iff :
    r ∈ (Text.numberedLines content).filterMap (fun l => ofLine? l.1 l.2) ↔
      IsDeclaredIn content r := by
  simp only [List.mem_filterMap, Prod.exists, ofLine?_eq_some_iff, IsDeclaredIn]
  constructor
  · rintro ⟨line, number, hline, rfl, hdeclares⟩
    exact ⟨line, hline, hdeclares⟩
  · rintro ⟨line, hline, hdeclares⟩
    exact ⟨line, r.line, hline, rfl, hdeclares⟩

lemma pairwise_made (content : String) :
    ((Text.numberedLines content).filterMap fun l => ofLine? l.1 l.2).Pairwise
      fun r s => r.line < s.line := by
  refine (Text.pairwise_numberedLines content).filterMap _ fun l l' hlt r hr s hs => ?_
  rw [(ofLine?_eq_some_iff.1 hr).1, (ofLine?_eq_some_iff.1 hs).1]
  exact hlt

/-- A document that cannot be read has its first line with a NUL character at fault. -/
lemma first_of_includes_eq_error {fault : UnreadableLine} (h : includes content = .error fault) :
    (∃ line, (line, fault.line) ∈ Text.numberedLines content ∧ '\x00' ∈ line) ∧
      ∀ line number, (line, number) ∈ Text.numberedLines content → '\x00' ∈ line →
        fault.line ≤ number := by
  unfold includes at h
  dsimp only at h
  split at h
  · rename_i line number hfind
    obtain rfl := Except.error.inj h
    obtain ⟨hnul, before, after, hsplit, hbefore⟩ := List.find?_eq_some_iff_append.1 hfind
    have hlines := Text.pairwise_numberedLines content
    rw [hsplit, List.pairwise_append, List.pairwise_cons] at hlines
    refine ⟨⟨line, by rw [hsplit]; simp, by simpa using hnul⟩, fun line' number' hmem hnul' => ?_⟩
    rw [hsplit, List.mem_append, List.mem_cons] at hmem
    rcases hmem with hmem | hmem | hmem
    · exact absurd hnul' (by simpa using hbefore _ hmem)
    · exact (Prod.mk.inj hmem).2.ge
    · exact (hlines.2.1.1 _ hmem).le
  · exact absurd h (by simp)

/-- References that lines declare are the same when they lead to the same key. -/
lemma Declares.identity_eq {line line' : List Char} (hr : Declares line r) (hs : Declares line' s)
    (h : r.target = s.target) : r.identity = s.identity := by
  cases hr with
  | product _ _ hkind _ =>
    cases hs with
    | product _ _ hkind' _ => simp_all [Reference.target, Reference.identity, Key.production]
    | nested _ _ hkind' _ _ =>
      simp [Reference.target, hkind, hkind', Key.production, Key.nested] at h
  | nested _ _ hkind _ hversion =>
    cases hs with
    | product _ _ hkind' _ =>
      simp [Reference.target, hkind, hkind', Key.production, Key.nested] at h
    | nested _ _ hkind' _ hversion' => simp_all [Reference.target, Reference.identity, Key.nested]

/-- The references of a document lead to different keys. -/
lemma nodup_targetsOf (content : String) : (targetsOf content).Nodup := by
  unfold targetsOf
  split
  · rename_i rs hrs
    obtain rfl := eq_of_includes_eq_ok hrs
    have hmade := pairwise_made content
    refine List.Pairwise.filterMap _ ?_ (List.Pairwise.and_mem.1
      (hmade.sublist (firstOccurrences_sublist [] _)))
    rintro r s ⟨hr, hs, hlt⟩ t ht t' ht' rfl
    obtain ⟨line, -, hdeclares⟩ := mem_made_iff.1 ((mem_firstOccurrences_iff hmade).1 hr).1
    obtain ⟨hs, -, hfirst⟩ := (mem_firstOccurrences_iff hmade).1 hs
    obtain ⟨line', -, hdeclares'⟩ := mem_made_iff.1 hs
    have hid := hdeclares.identity_eq hdeclares' (ht.trans ht'.symm)
    -- the later one would have been dropped
    exact absurd hlt (not_lt.2 (hfirst r ((mem_firstOccurrences_iff hmade).1 hr).1 hid))
  · exact List.nodup_nil

end Include

open Include in
/-- The references of a document follow the grammar of include directives.  A document cannot be
read just when it has a NUL character, and then the first line with one is at fault.  Otherwise its
references stand in the order of their lines, and they are those that a line declares and no
earlier line declares with the same kind, name and version. -/
theorem includes_follow_grammar (content : String) :
    ((∃ fault, includes content = .error fault) ↔ '\x00' ∈ content.toList) ∧
      (∀ fault, includes content = .error fault →
        (∃ line, (line, fault.line) ∈ Text.numberedLines content ∧ '\x00' ∈ line) ∧
        ∀ line number, (line, number) ∈ Text.numberedLines content → '\x00' ∈ line →
          fault.line ≤ number) ∧
      ∀ rs, includes content = .ok rs →
        rs.Pairwise (fun r s => r.line < s.line) ∧
        ∀ r, r ∈ rs ↔ IsDeclaredIn content r ∧
          ∀ s, IsDeclaredIn content s → s.identity = r.identity → r.line ≤ s.line := by
  refine ⟨⟨?_, fun hnul => ?_⟩, fun fault hfault => ?_, fun rs hrs => ?_⟩
  · rintro ⟨fault, hfault⟩
    obtain ⟨⟨line, hline, hnul⟩, -⟩ := first_of_includes_eq_error hfault
    exact Text.mem_of_mem_lines (List.fst_mem_of_mem_zipIdx hline) hnul
  · cases hread : includes content with
    | error fault => exact ⟨fault, rfl⟩
    | ok rs => exact absurd hnul (not_mem_of_includes_eq_ok hread)
  · exact first_of_includes_eq_error hfault
  · obtain rfl := eq_of_includes_eq_ok hrs
    refine ⟨(pairwise_made content).sublist (firstOccurrences_sublist _ _), fun r => ?_⟩
    rw [mem_firstOccurrences_iff (pairwise_made content)]
    simp only [mem_made_iff, List.not_mem_nil, not_false_eq_true, true_and]

example :
    (includes "' door\n!include_once <nested\\products\\x\\x.puml>\n!include x/x.puml").toOption =
      some [⟨"x", "", .product, "nested/products/x/x.puml", 2⟩] := by decide +kernel

end DiagramRegistry
