import DiagramRegistry.Proofs.Disk.Paths
import DiagramRegistry.Proofs.Identity.Stem
import DiagramRegistry.Proofs.Text.Utf8

/-
# How a stem is cut

A stem is cut at its first hyphen before a digit, or else at its last hyphen, and it splits unless
the hyphen comes first.  So the parts of a stem are fixed by what they are: joined by a hyphen they
make up the stem, and the hyphen between them is the one at which it is cut.

A stem may be any text, also one with characters of several bytes.  Hyphen and digits are bytes of
their own in UTF-8, which no other character contains.  The hyphen can therefore be looked for among
the bytes, and both parts are found by their offsets: they begin and end between characters.

* `Stem.cut?_eq_some_iff_isCut`: the hyphen at which a stem is cut;
* `Stem.cutOffset?_bytes`: the same hyphen among the bytes of the stem;
* `Stem.splitting_is_exact`: into what a stem splits, and that the bytes lead there too.
-/
namespace DiagramRegistry.Stem

open Text Utf8

variable {stem name version : String} {cs : List Char} {c : Char}

/-! ## The hyphen at which a stem is cut -/

/-- Name and version make up the stem, and the hyphen between them is the one at which the stem is
cut. -/
structure IsCut (stem name version : String) : Prop where
  /-- With a hyphen between them they make up the stem. -/
  joined : name ++ "-" ++ version = stem
  /-- The hyphen is the first one that a digit follows, or there is none of this kind and it is
  the last hyphen. -/
  chosen : ((∃ digit rest, version.toList = digit :: rest ∧ digit.isDigit = true) ∧
      ∀ before digit after, stem.toList = before ++ '-' :: digit :: after →
        digit.isDigit = true → name.toList.length ≤ before.length) ∨
    (¬ HyphenBeforeDigit stem.toList ∧ '-' ∉ version.toList)

/-- No hyphen before a digit comes before the first one. -/
lemma length_le_of_not_hyphenBeforeDigit {a b before after : List Char} {digit : Char}
    (ha : ¬ HyphenBeforeDigit a) (h : a ++ '-' :: b = before ++ '-' :: digit :: after)
    (hdigit : digit.isDigit = true) : a.length ≤ before.length := by
  rcases List.append_eq_append_iff.1 h with ⟨c, rfl, -⟩ | ⟨c, rfl, hc⟩
  · rw [List.length_append]
    omega
  · cases c with
    | nil => rw [List.append_nil]
    | cons hyphen c =>
      -- otherwise this hyphen and the digit behind it lie in the first part
      obtain ⟨rfl, hrest⟩ := List.cons.inj hc
      cases c with
      | nil =>
        obtain ⟨rfl, -⟩ := List.cons.inj hrest
        exact absurd hdigit (by decide)
      | cons d c =>
        obtain ⟨rfl, -⟩ := List.cons.inj hrest
        exact absurd ⟨before, digit, c, rfl, hdigit⟩ ha

lemma cut?_eq_some_iff_isCut :
    cut? stem.toList = some (name.toList, version.toList) ↔ IsCut stem name version := by
  have hjoined : name ++ "-" ++ version = stem ↔
      stem.toList = name.toList ++ '-' :: version.toList := by
    rw [← String.toList_inj, eq_comm]
    simp
  constructor
  · intro h
    rcases Option.or_eq_some_iff.1 h with hcut | ⟨hnone, hcut⟩
    · obtain ⟨hstem, hname, hversion⟩ := cutBeforeDigit?_eq_some hcut
      refine ⟨hjoined.2 hstem, .inl ⟨hversion, fun before digit after hother hdigit => ?_⟩⟩
      exact length_le_of_not_hyphenBeforeDigit hname (hstem.symm.trans hother) hdigit
    · obtain ⟨hstem, hversion⟩ := Path.cutAtLast?_eq_some_iff.1 hcut
      exact ⟨hjoined.2 hstem, .inr ⟨cutBeforeDigit?_eq_none_iff.1 hnone, hversion⟩⟩
  · rintro ⟨h, ⟨hversion, hfirst⟩ | ⟨hnone, hversion⟩⟩
    · have hstem := hjoined.1 h
      have hname : ¬ HyphenBeforeDigit name.toList := by
        rintro ⟨before, digit, after, hname, hdigit⟩
        have hle := hfirst before digit (after ++ '-' :: version.toList)
          (by rw [hstem, hname]; simp) hdigit
        rw [hname, List.length_append, List.length_cons] at hle
        omega
      rw [cut?, hstem, cutBeforeDigit?_append hname hversion]
      rfl
    · rw [cut?, cutBeforeDigit?_eq_none_iff.2 hnone, Option.none_or, hjoined.1 h,
        Path.cutAtLast?_append_cons hversion]

lemma cut?_eq_none_iff : cut? cs = none ↔ '-' ∉ cs := by
  rw [cut?, Option.or_eq_none_iff, cutBeforeDigit?_eq_none_iff, Path.cutAtLast?_eq_none_iff,
    and_iff_right_iff_imp]
  rintro hno ⟨before, digit, after, rfl, -⟩
  exact hno (by simp)

/-- A stem splits into the parts at the hyphen, if there is something in front of it. -/
lemma split?_eq_some_iff_isCut :
    split? stem = some (name, version) ↔ name ≠ "" ∧ IsCut stem name version := by
  rw [split?_eq_some_iff, splitChars?, Option.filter_eq_some_iff, cut?_eq_some_iff_isCut, and_comm]
  simp

/-- A stem does not split when it has no hyphen or its hyphen comes first. -/
lemma split?_eq_none_iff_isCut :
    split? stem = none ↔ '-' ∉ stem.toList ∨ ∃ version, IsCut stem "" version := by
  rw [split?, Option.map_eq_none_iff, splitChars?, ← cut?_eq_none_iff]
  cases hcut : cut? stem.toList with
  | none => simp
  | some parts =>
    obtain ⟨a, b⟩ := parts
    have hfirst : (∃ version, IsCut stem "" version) ↔ a = [] := by
      simp only [← cut?_eq_some_iff_isCut, hcut]
      constructor
      · rintro ⟨version, h⟩
        simpa using congrArg Prod.fst (Option.some.inj h)
      · rintro rfl
        exact ⟨String.ofList b, by simp⟩
    rw [hfirst]
    simp

/-! ## Looking for the hyphen among the bytes -/

/-- The bytes of a text in UTF-8. -/
def bytes (text : String) : List UInt8 := text.toByteArray.data.toList

/-- The byte of a hyphen. -/
def hyphenByte : UInt8 := 0x2D

/-- The bytes of digits. -/
def isDigitByte (b : UInt8) : Bool := 0x30 ≤ b && b ≤ 0x39

/-- The offset of the first hyphen that a digit follows. -/
def offsetBeforeDigit? (bs : List UInt8) : Option Nat :=
  (bs.zip bs.tail).findIdx? fun pair => pair.1 == hyphenByte && isDigitByte pair.2

/-- The offset of the last hyphen. -/
def lastOffset? (bs : List UInt8) : Option Nat :=
  (bs.reverse.idxOf? hyphenByte).map fun behind => bs.length - 1 - behind

/-- The offset of the hyphen at which a stem is cut. -/
def cutOffset? (bs : List UInt8) : Option Nat := (offsetBeforeDigit? bs).or (lastOffset? bs)

/-- An offset that does not lie between two characters of a text. -/
structure WithinCharacter where
  /-- The number of bytes in front. -/
  offset : Nat
deriving DecidableEq, Repr

/-- The position in a text that has an offset. -/
def position (text : String) (offset : Nat) : Except WithinCharacter text.Pos :=
  if h : String.Pos.Raw.IsValid text ⟨offset⟩ then .ok (text.pos ⟨offset⟩ h) else .error ⟨offset⟩

/-- The name and the version of a stem, by offsets: a part that does not begin and end between
characters is no text. -/
def splitBytes (stem : String) : Except WithinCharacter (Option (String × String)) :=
  match cutOffset? (bytes stem) with
  | none => .ok none
  | some 0 => .ok none
  | some offset => do
    let nameEnd ← position stem offset
    let versionStart ← position stem (offset + 1)
    return some ((stem.sliceTo nameEnd).copy, (stem.sliceFrom versionStart).copy)

lemma bytes_eq (text : String) : bytes text = encoded text.toList := by
  rw [bytes, ← String.utf8Encode_toList, List.utf8Encode, List.toList_data_toByteArray, encoded]

/-! ### Hyphens and digits are bytes of their own -/

/-- An ASCII character is one byte. -/
lemma utf8EncodeChar_of_lt (h : c.toNat < 128) :
    String.utf8EncodeChar c = [UInt8.ofNat c.toNat] := if_pos (Nat.le_of_lt_succ h)

/-- The bytes of other characters have the highest bit. -/
lemma le_toNat_of_mem {b : UInt8} (hc : 128 ≤ c.toNat) (hb : b ∈ String.utf8EncodeChar c) :
    128 ≤ b.toNat := by
  have hhigh (n : Nat) (hn : 128 ≤ n % 256) : 128 ≤ (UInt8.ofNat n).toNat := by
    rw [UInt8.toNat_ofNat']
    exact hn
  unfold String.utf8EncodeChar at hb
  dsimp only at hb
  split at hb
  · exact absurd hc (by have : c.toNat = c.val.toNat := rfl; omega)
  split at hb
  · simp only [List.mem_cons, List.not_mem_nil, or_false] at hb
    rcases hb with rfl | rfl <;> exact hhigh _ (by omega)
  split at hb
  · simp only [List.mem_cons, List.not_mem_nil, or_false] at hb
    rcases hb with rfl | rfl | rfl <;> exact hhigh _ (by omega)
  · simp only [List.mem_cons, List.not_mem_nil, or_false] at hb
    rcases hb with rfl | rfl | rfl | rfl <;> exact hhigh _ (by omega)

lemma utf8EncodeChar_hyphen : String.utf8EncodeChar '-' = [hyphenByte] := by decide

/-- Only the hyphen has the byte of a hyphen. -/
lemma hyphenByte_mem_iff : hyphenByte ∈ String.utf8EncodeChar c ↔ c = '-' := by
  constructor
  · intro h
    by_cases hc : c.toNat < 128
    · rw [utf8EncodeChar_of_lt hc, List.mem_singleton] at h
      have hvalue := congrArg UInt8.toNat h
      rw [toNat_ofNat (by omega)] at hvalue
      exact Char.toNat_inj.1 hvalue.symm
    · exact absurd (le_toNat_of_mem (Nat.le_of_not_lt hc) h) (by decide)
  · rintro rfl
    exact utf8EncodeChar_hyphen ▸ List.mem_cons_self

lemma hyphenByte_mem_encoded_iff : hyphenByte ∈ encoded cs ↔ '-' ∈ cs := by
  rw [encoded, List.mem_flatMap]
  simp only [hyphenByte_mem_iff, exists_eq_right]

lemma isDigit_iff : c.isDigit = true ↔ 0x30 ≤ c.toNat ∧ c.toNat ≤ 0x39 := by
  simp only [Char.isDigit, Bool.and_eq_true, decide_eq_true_eq, ge_iff_le, UInt32.le_iff_toNat_le]
  exact Iff.rfl

lemma isDigitByte_iff {b : UInt8} : isDigitByte b = true ↔ 0x30 ≤ b.toNat ∧ b.toNat ≤ 0x39 := by
  simp only [isDigitByte, Bool.and_eq_true, decide_eq_true_eq, UInt8.le_iff_toNat_le]
  exact Iff.rfl

/-- The first byte of a character is that of a digit when the character is a digit. -/
lemma isDigitByte_of_cons {b : UInt8} {rest : List UInt8}
    (h : String.utf8EncodeChar c = b :: rest) : isDigitByte b = c.isDigit := by
  rw [Bool.eq_iff_iff, isDigitByte_iff, isDigit_iff]
  by_cases hc : c.toNat < 128
  · rw [utf8EncodeChar_of_lt hc] at h
    rw [← (List.cons.inj h).1, toNat_ofNat (by omega)]
  · have hc := Nat.le_of_not_lt hc
    have hb : 128 ≤ b.toNat := le_toNat_of_mem hc (h ▸ List.mem_cons_self)
    omega

/-- A digit is next among the characters when it is among the bytes. -/
lemma head?_encoded (cs : List Char) :
    ((encoded cs).head?.map isDigitByte).getD false = (cs.head?.map Char.isDigit).getD false := by
  cases cs with
  | nil => rfl
  | cons c cs =>
    obtain ⟨b, rest, hbytes⟩ := List.exists_cons_of_ne_nil (String.utf8EncodeChar_ne_nil (c := c))
    rw [encoded_cons, hbytes]
    exact isDigitByte_of_cons hbytes

/-! ### The search -/

lemma offsetBeforeDigit?_cons (b : UInt8) (bs : List UInt8) :
    offsetBeforeDigit? (b :: bs) =
      if b = hyphenByte ∧ (bs.head?.map isDigitByte).getD false then some 0
      else (offsetBeforeDigit? bs).map (· + 1) := by
  cases bs with
  | nil => simp [offsetBeforeDigit?]
  | cons next rest =>
    by_cases hpair : b = hyphenByte ∧ isDigitByte next = true
    · simp [offsetBeforeDigit?, List.findIdx?_cons, hpair]
    · simp [offsetBeforeDigit?, List.findIdx?_cons, hpair]

/-- Bytes that are no hyphens are passed over. -/
lemma offsetBeforeDigit?_append {front : List UInt8} (h : hyphenByte ∉ front) (bs : List UInt8) :
    offsetBeforeDigit? (front ++ bs) = (offsetBeforeDigit? bs).map (front.length + ·) := by
  induction front with
  | nil => simp
  | cons b front ih =>
    rw [List.mem_cons, not_or] at h
    rw [List.cons_append, offsetBeforeDigit?_cons, if_neg fun hb => h.1 hb.1.symm, ih h.2,
      Option.map_map]
    congr 1
    funext n
    simp only [Function.comp_apply, List.length_cons]
    omega

/-- The first hyphen before a digit is found among the bytes. -/
lemma offsetBeforeDigit?_encoded (cs : List Char) :
    offsetBeforeDigit? (encoded cs) =
      (cutBeforeDigit? cs).map fun parts => (encoded parts.1).length := by
  induction cs with
  | nil => rfl
  | cons c cs ih =>
    rw [encoded_cons, cutBeforeDigit?]
    by_cases hc : c = '-'
    · subst hc
      rw [utf8EncodeChar_hyphen, List.singleton_append, offsetBeforeDigit?_cons, head?_encoded, ih]
      by_cases hnext : (cs.head?.map Char.isDigit).getD false = true
      · simp [hnext, encoded]
      · simp [hnext, Function.comp_def, encoded_cons, utf8EncodeChar_hyphen]
    · rw [offsetBeforeDigit?_append fun h => hc (hyphenByte_mem_iff.1 h), ih, if_neg (by simp [hc])]
      simp [Function.comp_def, encoded_cons]

/-- The last hyphen is the one behind which there is none. -/
lemma lastOffset?_append_cons {front behind : List UInt8} (h : hyphenByte ∉ behind) :
    lastOffset? (front ++ hyphenByte :: behind) = some front.length := by
  have hindex : (front ++ hyphenByte :: behind).reverse.idxOf? hyphenByte = some behind.length := by
    have hnone := List.idxOf?_eq_none_iff.2 (mt List.mem_reverse.1 h)
    rw [List.idxOf?] at hnone
    rw [List.reverse_append, List.reverse_cons, List.append_assoc, List.idxOf?,
      List.findIdx?_append, hnone]
    simp [List.findIdx?_cons]
  rw [lastOffset?, hindex, Option.map_some, List.length_append, List.length_cons]
  congr 1
  omega

/-- The last hyphen is found among the bytes. -/
lemma lastOffset?_encoded (cs : List Char) :
    lastOffset? (encoded cs) = (cutAtLast? '-' cs).map fun parts => (encoded parts.1).length := by
  cases hcut : cutAtLast? '-' cs with
  | none =>
    have hno : hyphenByte ∉ encoded cs :=
      mt hyphenByte_mem_encoded_iff.1 (Path.cutAtLast?_eq_none_iff.1 hcut)
    rw [lastOffset?, List.idxOf?_eq_none_iff.2 (mt List.mem_reverse.1 hno)]
    rfl
  | some parts =>
    obtain ⟨a, b⟩ := parts
    obtain ⟨rfl, hb⟩ := Path.cutAtLast?_eq_some_iff.1 hcut
    rw [encoded_append, encoded_cons, utf8EncodeChar_hyphen, List.singleton_append]
    exact lastOffset?_append_cons (mt hyphenByte_mem_encoded_iff.1 hb)

/-- The hyphen at which a stem is cut is found among the bytes. -/
theorem cutOffset?_bytes (stem : String) :
    cutOffset? (bytes stem) = (cut? stem.toList).map fun parts => (encoded parts.1).length := by
  rw [cutOffset?, bytes_eq, offsetBeforeDigit?_encoded, lastOffset?_encoded, cut?, Option.map_or]

/-! ### The parts by their offsets -/

lemma length_encoded (cs : List Char) : (encoded cs).length = (String.ofList cs).utf8ByteSize := by
  rw [← String.size_toByteArray, String.toByteArray_ofList, List.utf8Encode, List.size_toByteArray]
  rfl

lemma length_encoded_eq_zero_iff : (encoded cs).length = 0 ↔ cs = [] := by
  rw [length_encoded, String.utf8ByteSize_eq_zero_iff, ← String.toList_inj, String.toList_ofList]
  rfl

/-- Between two parts of a text is a position. -/
lemma exists_position {text : String} {a b : List Char} (h : text.toList = a ++ b) :
    ∃ p, position text (encoded a).length = .ok p ∧
      p.Splits (String.ofList a) (String.ofList b) := by
  have htext : text = String.ofList a ++ String.ofList b := String.toList_inj.1 (by simp [h])
  have hvalid : String.Pos.Raw.IsValid text ⟨(encoded a).length⟩ := by
    refine String.Pos.Raw.isValid_iff_exists_append.2 ⟨_, _, htext, ?_⟩
    rw [length_encoded]
    rfl
  refine ⟨_, dif_pos hvalid, htext, ?_⟩
  rw [String.offset_pos, length_encoded]
  rfl

lemma isValid_of_position {text : String} {offset : Nat} {p : text.Pos}
    (h : position text offset = .ok p) : String.Pos.Raw.IsValid text ⟨offset⟩ := by
  unfold position at h
  split at h
  · assumption
  · exact absurd h (by simp)

/-- In front of the hyphen and behind it are positions, which lead to the parts. -/
lemma exists_positions {a b : List Char} (h : cut? stem.toList = some (a, b)) :
    ∃ nameEnd versionStart, position stem (encoded a).length = .ok nameEnd ∧
      position stem ((encoded a).length + 1) = .ok versionStart ∧
      (stem.sliceTo nameEnd).copy = String.ofList a ∧
      (stem.sliceFrom versionStart).copy = String.ofList b := by
  have hstem := eq_of_cut? h
  obtain ⟨p, hp, hname⟩ := exists_position hstem
  obtain ⟨q, hq, hversion⟩ := exists_position (show stem.toList = (a ++ ['-']) ++ b by simp [hstem])
  have hlength : (encoded (a ++ ['-'])).length = (encoded a).length + 1 := by
    rw [encoded_append, List.length_append]
    rfl
  rw [hlength] at hq
  exact ⟨p, q, hp, hq, (p.splits.eq hname).1, (q.splits.eq hversion).2⟩

/-- Both parts begin and end between characters. -/
lemma isValid_of_cutOffset? {offset : Nat} (h : cutOffset? (bytes stem) = some offset) :
    String.Pos.Raw.IsValid stem ⟨offset⟩ ∧ String.Pos.Raw.IsValid stem ⟨offset + 1⟩ := by
  rw [cutOffset?_bytes] at h
  obtain ⟨parts, hcut, rfl⟩ := Option.map_eq_some_iff.1 h
  obtain ⟨p, q, hp, hq, -⟩ := exists_positions hcut
  exact ⟨isValid_of_position hp, isValid_of_position hq⟩

/-- The bytes lead to the same parts as the characters. -/
theorem splitBytes_eq (stem : String) : splitBytes stem = .ok (split? stem) := by
  rw [splitBytes, cutOffset?_bytes, split?, splitChars?]
  cases hcut : cut? stem.toList with
  | none => rfl
  | some parts =>
    obtain ⟨a, b⟩ := parts
    obtain ⟨nameEnd, versionStart, hp, hq, hname, hversion⟩ := exists_positions hcut
    rw [Option.map_some]
    cases hoffset : (encoded a).length with
    | zero =>
      obtain rfl := length_encoded_eq_zero_iff.1 hoffset
      rfl
    | succ n =>
      have hne : a ≠ [] := by
        rintro rfl
        exact absurd hoffset (by simp [encoded])
      rw [hoffset] at hp hq
      rw [Option.filter_some, if_pos (by simpa using hne)]
      simp [hp, hq, bind, Except.bind, pure, Except.pure, hname, hversion]

/-- What a stem splits into is exactly a name that is not empty and a version, with the hyphen
between them at which the stem is cut.  It does not split exactly when it has no hyphen or this
hyphen comes first, and no two stems split alike.  The hyphen is found among the bytes, and what is
in front of it and behind it begins and ends between characters. -/
theorem splitting_is_exact (stem : String) :
    (∀ name version, split? stem = some (name, version) ↔ name ≠ "" ∧ IsCut stem name version) ∧
    (split? stem = none ↔ '-' ∉ stem.toList ∨ ∃ version, IsCut stem "" version) ∧
    (∀ other parts, split? stem = some parts → split? other = some parts → other = stem) ∧
    (∀ offset, cutOffset? (bytes stem) = some offset →
      String.Pos.Raw.IsValid stem ⟨offset⟩ ∧ String.Pos.Raw.IsValid stem ⟨offset + 1⟩) ∧
    splitBytes stem = .ok (split? stem) :=
  ⟨fun _ _ => split?_eq_some_iff_isCut, split?_eq_none_iff_isCut,
    fun _ _ h h' => eq_of_split? h' h, fun _ => isValid_of_cutOffset?, splitBytes_eq stem⟩

example : split? "tür--1é" = some ("tür-", "1é") := by decide
example : split? "-1-a" = none := by decide

end DiagramRegistry.Stem
