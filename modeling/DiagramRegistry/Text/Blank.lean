/-
# Blank characters and the words of a line

A diagram is read line by line, and a line is read through its words: the blanks around it
are dropped, a keyword counts only when a blank or the end of the line follows it.  This
file fixes what a blank is (a character with the Unicode property White_Space) and gives the
few cuts that the other files make: trimming, taking a fixed beginning off, and splitting
into words.
-/
namespace DiagramRegistry.Text

/-- The characters with the Unicode property White_Space. -/
def isBlank (c : Char) : Bool :=
  let n := c.toNat
  (9 ≤ n && n ≤ 13) || n == 32 || n == 0x85 || n == 0xA0 || n == 0x1680 ||
    (0x2000 ≤ n && n ≤ 0x200A) || n == 0x2028 || n == 0x2029 || n == 0x202F ||
    n == 0x205F || n == 0x3000

/-- A text without the blanks it starts with. -/
def trimStart (cs : List Char) : List Char := cs.dropWhile isBlank

/-- A text without the blanks it ends with. -/
def trimEnd : List Char → List Char
  | [] => []
  | c :: cs =>
    match trimEnd cs with
    | [] => if isBlank c then [] else [c]
    | d :: ds => c :: d :: ds

/-- A text without the blanks around it. -/
def trim (cs : List Char) : List Char := trimEnd (trimStart cs)

/-- The number of blanks a text starts with. -/
def indentation (cs : List Char) : Nat := (cs.takeWhile isBlank).length

/-- What follows a fixed beginning, or nothing when the text starts differently. -/
def after? : List Char → List Char → Option (List Char)
  | [], cs => some cs
  | _ :: _, [] => none
  | w :: ws, c :: cs => if w = c then after? ws cs else none

/-- What precedes a fixed ending, or nothing when the text ends differently. -/
def before? (ending cs : List Char) : Option (List Char) :=
  (after? ending.reverse cs.reverse).map List.reverse

/-- The text starts with the word, and the word ends there: a blank follows it or nothing. -/
def startsWithWord (cs word : List Char) : Bool :=
  match after? word cs with
  | none => false
  | some [] => true
  | some (c :: _) => isBlank c

/-- The maximal runs of characters that are no blanks. -/
def words (cs : List Char) : List (List Char) := (cs.splitOnP isBlank).filter (· ≠ [])

/-- The text cut at the first occurrence of a character, which is dropped. -/
def cutAtFirst? (x : Char) : List Char → Option (List Char × List Char)
  | [] => none
  | c :: cs =>
    if c = x then some ([], cs) else (cutAtFirst? x cs).map fun p => (c :: p.1, p.2)

/-- The text cut at the last occurrence of a character, which is dropped. -/
def cutAtLast? (x : Char) : List Char → Option (List Char × List Char)
  | [] => none
  | c :: cs =>
    match cutAtLast? x cs with
    | some p => some (c :: p.1, p.2)
    | none => if c = x then some ([], cs) else none

/-- Capital ASCII letters made small, after dropping the blanks around the text: the form in
which the names of locations and strictness levels are compared. -/
def folded (s : String) : String := String.ofList ((trim s.toList).map Char.toLower)

/-! ## Small facts about the cuts -/

theorem after?_eq_some_iff {w cs r : List Char} : after? w cs = some r ↔ cs = w ++ r := by
  induction w generalizing cs with
  | nil => simp [after?, eq_comm]
  | cons a w ih =>
    cases cs with
    | nil => simp [after?]
    | cons c cs =>
      by_cases h : a = c
      · subst h; simp [after?, ih]
      · simp [after?, h, Ne.symm h]

theorem before?_eq_some_iff {e cs r : List Char} : before? e cs = some r ↔ cs = r ++ e := by
  simp only [before?, Option.map_eq_some_iff, after?_eq_some_iff]
  constructor
  · rintro ⟨a, h, rfl⟩
    simpa using congrArg List.reverse h
  · rintro rfl
    exact ⟨r.reverse, by simp, by simp⟩

theorem cutAtLast?_append {x : Char} {cs a b : List Char} (h : cutAtLast? x cs = some (a, b)) :
    cs = a ++ x :: b := by
  induction cs generalizing a with
  | nil => simp [cutAtLast?] at h
  | cons c cs ih =>
    unfold cutAtLast? at h
    split at h
    · rename_i p hp
      simp only [Option.some.injEq, Prod.mk.injEq] at h
      obtain ⟨rfl, rfl⟩ := h
      simp [ih hp]
    · split at h
      · rename_i hc
        simp only [Option.some.injEq, Prod.mk.injEq] at h
        obtain ⟨rfl, rfl⟩ := h
        simp [hc]
      · simp at h

end DiagramRegistry.Text
