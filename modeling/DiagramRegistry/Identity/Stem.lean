import DiagramRegistry.Text.Blank

/-
# Stems: a name and a version in one segment

On disk and in include directives a versioned diagram goes by its stem `name-version`.  Both
halves may hold hyphens, so a stem is cut at the first hyphen that a digit follows; without
such a hyphen it is cut at the last one, which leaves a malformed version visible to the
checks instead of hiding it in the name.
-/
namespace DiagramRegistry.Stem

open Text

/-- The text before and after the first hyphen that a digit follows. -/
def cutBeforeDigit? : List Char → Option (List Char × List Char)
  | [] => none
  | c :: cs =>
    if c = '-' ∧ (cs.head?.map Char.isDigit).getD false then some ([], cs)
    else (cutBeforeDigit? cs).map fun p => (c :: p.1, p.2)

/-- The hyphen at which a stem is cut is the first one before a digit, else the last one. -/
def cut? (cs : List Char) : Option (List Char × List Char) :=
  (cutBeforeDigit? cs).or (cutAtLast? '-' cs)

/-- The name and the version of a stem.  A stem whose hyphen comes first has no name and
does not split. -/
def splitChars? (cs : List Char) : Option (List Char × List Char) :=
  (cut? cs).filter fun p => p.1 ≠ []

/-- The name and the version of a stem. -/
def split? (stem : String) : Option (String × String) :=
  (splitChars? stem.toList).map fun p => (String.ofList p.1, String.ofList p.2)

/-- The stem of a name and a version; without a version it is the name alone. -/
def join (name version : String) : String :=
  if version = "" then name else s!"{name}-{version}"

/-- Every way to cut a text at a hyphen. -/
def hyphenCuts : List Char → List (List Char × List Char)
  | [] => []
  | c :: cs =>
    (if c = '-' then [([], cs)] else []) ++ (hyphenCuts cs).map fun p => (c :: p.1, p.2)

/-- The names and versions that have a given stem are among these. -/
def candidates (stem : List Char) : List (String × String) :=
  (String.ofList stem, "") ::
    (hyphenCuts stem).map fun p => (String.ofList p.1, String.ofList p.2)

theorem mem_hyphenCuts (a b : List Char) : (a, b) ∈ hyphenCuts (a ++ '-' :: b) := by
  induction a with
  | nil => simp [hyphenCuts]
  | cons c a ih =>
    simp only [List.cons_append, hyphenCuts, List.mem_append, List.mem_map]
    exact Or.inr ⟨(a, b), ih, rfl⟩

/-- A name and a version are among the candidates for their stem. -/
theorem mem_candidates (name version : String) :
    (name, version) ∈ candidates (join name version).toList := by
  by_cases h : version = ""
  · simp [join, h, candidates]
  · have e : (join name version).toList = name.toList ++ '-' :: version.toList := by
      simp [join, h, toString]
    rw [e]
    refine List.mem_cons_of_mem _ (List.mem_map.2 ⟨_, mem_hyphenCuts _ _, ?_⟩)
    simp

example : split? "door-lock-1.0.0-rc.1" = some ("door-lock", "1.0.0-rc.1") := by decide
example : split? "door-latest" = some ("door", "latest") := by decide
example : split? "-1.0.0" = none := by decide

end DiagramRegistry.Stem
