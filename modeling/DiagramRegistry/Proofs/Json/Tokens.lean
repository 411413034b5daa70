import DiagramRegistry.Json.Reader
import DiagramRegistry.Json.Writer
import Mathlib.Data.Nat.Basic
import Mathlib.Tactic.IntervalCases

/-
# The tokens of a written value

A written value is cut into the tokens it was written from.  Two things make this work: the
escapes of a string are undone one character at a time, so no quotation mark of the text is
taken for the closing one; and the digits of a number are followed by something that no number
continues with.

* `stringToken?_escaped` : a string is read back as the text it was written from.
* `numberToken?_digits` : a number is read back as the number it was written from.
* `tokens?_chars` : the tokens of a written value.
-/
namespace DiagramRegistry.Json

/-! ## Strings -/

section Strings

variable {c x : Char} {cs rest : List Char}

lemma hexValue?_hexDigit {n : Nat} (h : n < 16) : hexValue? (hexDigit n) = some n := by
  interval_cases n <;> decide

/-- Two zeros and the two digits of a number below 256 give that number. -/
lemma hexValue4?_hexDigit {n : Nat} (h : n < 256) :
    hexValue4? '0' '0' (hexDigit (n / 16)) (hexDigit (n % 16)) = some n := by
  have hhigh := hexValue?_hexDigit (n := n / 16) (by omega)
  have hlow := hexValue?_hexDigit (n := n % 16) (by omega)
  have hzero : hexValue? '0' = some 0 := by decide
  simp only [hexValue4?, hhigh, hlow, hzero, Option.bind_eq_bind, Option.bind_some, pure,
    Option.some.injEq]
  omega

/-- A character that is no quotation mark, no backslash and no control character stands for
itself. -/
lemma stringUnits?_plain (hquote : c ≠ '"') (hslash : c ≠ '\\') (hcontrol : ¬ c.toNat < 32) :
    stringUnits? (c :: cs) = (stringUnits? cs).map fun p => (.char c :: p.1, p.2) := by
  rw [stringUnits?.eq_def]
  split
  all_goals simp_all

/-- A short escape is read as what it stands for. -/
lemma stringUnits?_shortEscape (h : shortEscape? c = some x) :
    stringUnits? ('\\' :: c :: cs) = (stringUnits? cs).map fun p => (.char x :: p.1, p.2) := by
  have hu : c ≠ 'u' := by
    rintro rfl
    simp [shortEscape?] at h
  rw [stringUnits?, h]
  · simp [Option.map_eq_bind]
  · exact fun _ _ _ _ _ hc _ => hu hc

/-- The escape of a character by its number is read as that character. -/
lemma stringUnits?_numbered (h : c.toNat < 32) :
    stringUnits? ('\\' :: 'u' :: '0' :: '0' :: hexDigit (c.toNat / 16) ::
        hexDigit (c.toNat % 16) :: cs) =
      (stringUnits? cs).map fun p => (.char c :: p.1, p.2) := by
  have hunit : unitOf c.toNat = .char c := by
    have : ¬ (0xD800 ≤ c.toNat ∧ c.toNat < 0xE000) := by omega
    simp [unitOf, this]
  rw [stringUnits?, hexValue4?_hexDigit (by omega)]
  simp [hunit, Option.map_eq_bind]

/-- A character is escaped by a short escape that stands for it, or by its number, or it
stands for itself. -/
lemma escape_cases (c : Char) :
    (∃ e, shortEscape? e = some c ∧ escape c = ['\\', e]) ∨
      (c.toNat < 32 ∧ escape c =
        ['\\', 'u', '0', '0', hexDigit (c.toNat / 16), hexDigit (c.toNat % 16)]) ∨
      (c ≠ '"' ∧ c ≠ '\\' ∧ ¬ c.toNat < 32 ∧ escape c = [c]) := by
  by_cases hshort : ∃ e ∈ ['"', '\\', 'b', 'f', 'n', 'r', 't'], shortEscape? e = some c
  · left
    simp only [List.mem_cons, List.not_mem_nil, or_false] at hshort
    obtain ⟨e, he, hc⟩ := hshort
    refine ⟨e, hc, ?_⟩
    rcases he with rfl | rfl | rfl | rfl | rfl | rfl | rfl
    all_goals
      simp only [shortEscape?] at hc
      simp at hc
      subst hc
      decide
  · right
    simp [shortEscape?] at hshort
    obtain ⟨h1, h2, h3, h4, h5, h6, h7⟩ := hshort
    by_cases hcontrol : c.toNat < 32
    · left
      simp [escape, hcontrol, Ne.symm h1, Ne.symm h2, Ne.symm h3, Ne.symm h4, Ne.symm h5,
        Ne.symm h6, Ne.symm h7]
    · right
      simp [escape, hcontrol, Ne.symm h1, Ne.symm h2, Ne.symm h3, Ne.symm h4, Ne.symm h5,
        Ne.symm h6, Ne.symm h7]

/-- The escape of a character is read as that character. -/
lemma stringUnits?_escape (c : Char) (cs : List Char) :
    stringUnits? (escape c ++ cs) = (stringUnits? cs).map fun p => (.char c :: p.1, p.2) := by
  rcases escape_cases c with ⟨e, he, hc⟩ | ⟨hcontrol, hc⟩ | ⟨hquote, hslash, hcontrol, hc⟩
  · rw [hc]
    exact stringUnits?_shortEscape he
  · rw [hc]
    exact stringUnits?_numbered hcontrol
  · rw [hc]
    exact stringUnits?_plain hquote hslash hcontrol

/-- An escaped text is read up to the quotation mark that closes it, character by
character. -/
lemma stringUnits?_escaped (cs rest : List Char) :
    stringUnits? (cs.flatMap escape ++ '"' :: rest) = some (cs.map .char, rest) := by
  induction cs with
  | nil => simp [stringUnits?]
  | cons c cs ih =>
    rw [List.flatMap_cons, List.append_assoc, stringUnits?_escape, ih]
    simp

@[simp] lemma joinUnits?_map_char (cs : List Char) :
    joinUnits? (cs.map .char) = some cs := by
  induction cs with
  | nil => rfl
  | cons c cs ih => simp [joinUnits?, ih]

/-- A string is read back as the text it was written from. -/
lemma stringToken?_escaped (cs rest : List Char) :
    stringToken? (cs.flatMap escape ++ '"' :: rest) =
      some (.string (some (String.ofList cs)), rest) := by
  simp [stringToken?, stringUnits?_escaped]

end Strings

/-! ## Numbers -/

/-- No number continues with the text. -/
def EndsNumber (cs : List Char) : Prop :=
  ∀ c ∈ cs.head?, c.isDigit = false ∧ c ≠ '.' ∧ c ≠ 'e' ∧ c ≠ 'E'

section Numbers

variable {n : Nat} {rest : List Char}

lemma digits_eq (n : Nat) : digits n = Nat.toDigits 10 n := by
  simp [digits]

lemma isDigit_of_mem_digits {c : Char} (h : c ∈ digits n) : c.isDigit := by
  rw [digits_eq] at h
  exact Nat.isDigit_of_mem_toDigits (by omega) (by omega) h

lemma digits_ne_nil (n : Nat) : digits n ≠ [] := by
  rw [digits_eq]
  exact Nat.toDigits_ne_nil

/-- A number other than zero is written without a zero in front. -/
lemma head?_toDigits (h : 0 < n) : (Nat.toDigits 10 n).head? ≠ some '0' := by
  induction n using Nat.strong_induction_on with
  | _ n ih =>
    by_cases hn : n < 10
    · interval_cases n <;> decide
    · have hrest := ih (n / 10) (by omega) (by omega)
      obtain ⟨d, ds, hds⟩ :=
        List.exists_cons_of_ne_nil (Nat.toDigits_ne_nil (n := n / 10) (b := 10))
      rw [hds] at hrest
      rw [Nat.toDigits_of_base_le (by omega) (by omega), hds]
      simpa using hrest

/-- A zero in front of the digits of a number is the whole number. -/
lemma length_digits_of_head? (h : (digits n).head? = some '0') : ¬ 1 < (digits n).length := by
  rw [digits_eq] at h ⊢
  obtain rfl : n = 0 := by
    by_contra hn
    exact head?_toDigits (by omega) h
  decide

/-- What follows a value inside a document continues no number. -/
lemma endsNumber_cons {c : Char} (hc : c = ',' ∨ c = ']' ∨ c = '\x7d') :
    EndsNumber (c :: rest) := by
  rintro d ⟨⟩
  rcases hc with rfl | rfl | rfl
  all_goals decide

lemma EndsNumber.takeWhile (h : EndsNumber rest) : rest.takeWhile Char.isDigit = [] := by
  cases rest with
  | nil => rfl
  | cons c cs => simp [h c (by simp)]

lemma EndsNumber.dropWhile (h : EndsNumber rest) : rest.dropWhile Char.isDigit = rest := by
  cases rest with
  | nil => rfl
  | cons c cs => simp [h c (by simp)]

lemma EndsNumber.fraction? (h : EndsNumber rest) : fraction? rest = some (false, rest) := by
  rw [Json.fraction?.eq_def]
  split
  · exact absurd rfl (h '.' (by simp)).2.1
  · rfl

lemma EndsNumber.exponent? (h : EndsNumber rest) : exponent? rest = some (false, rest) := by
  cases rest with
  | nil => rfl
  | cons c cs =>
    obtain ⟨-, -, he, hE⟩ := h c (by simp)
    simp [Json.exponent?, he, hE]

lemma wholeDigits?_digits (n : Nat) (h : EndsNumber rest) :
    wholeDigits? (digits n ++ rest) = some (digits n, rest) := by
  have htake : (digits n ++ rest).takeWhile Char.isDigit = digits n := by
    rw [List.takeWhile_append_of_pos fun c hc => isDigit_of_mem_digits hc, h.takeWhile,
      List.append_nil]
  have hdrop : (digits n ++ rest).dropWhile Char.isDigit = rest := by
    rw [List.dropWhile_append_of_pos fun c hc => isDigit_of_mem_digits hc, h.dropWhile]
  have hzero : ¬ (1 < (digits n).length ∧ (digits n).head? = some '0') :=
    fun hboth => length_digits_of_head? hboth.2 hboth.1
  simp only [wholeDigits?, htake, hdrop, digits_ne_nil n, hzero, or_self, if_false]

/-- A number is read back as the number it was written from. -/
lemma numberToken?_digits (n : Nat) (h : EndsNumber rest) :
    numberToken? (digits n ++ rest) = some (.atom (.nat n), rest) := by
  have hvalue : Nat.ofDigitChars 10 (digits n) 0 = n := by
    rw [digits_eq, Nat.ofDigitChars_ten_toDigits]
  have hunsigned : unsignedNumber? (digits n ++ rest) = some (some n, rest) := by
    simp [unsignedNumber?, wholeDigits?_digits n h, h.fraction?, h.exponent?, hvalue]
  rw [numberToken?.eq_def]
  split
  · rename_i cs heq
    have hminus : '-' ∈ digits n := by
      cases hds : digits n with
      | nil => exact absurd hds (digits_ne_nil n)
      | cons d ds =>
        rw [hds, List.cons_append, List.cons.injEq] at heq
        simp [heq.1]
    exact absurd (isDigit_of_mem_digits hminus) (by decide)
  · rw [hunsigned]
    rfl

lemma isSpace_of_isDigit {d : Char} (h : d.isDigit) : isSpace d = false := by
  by_contra hspace
  simp only [isSpace, Bool.not_eq_false, Bool.or_eq_true, beq_iff_eq] at hspace
  rcases hspace with ((rfl | rfl) | rfl) | rfl
  all_goals exact absurd h (by decide)

/-- A digit begins a number and no other token. -/
lemma token?_of_isDigit {d : Char} (h : d.isDigit) :
    token? (d :: rest) = numberToken? (d :: rest) := by
  rw [token?.eq_def]
  split
  all_goals first | rfl | simp_all

end Numbers

/-! ## The cut of a text -/

/-- The text is cut into the tokens, without a blank between them. -/
inductive CutInto : List Char → List Token → Prop where
  /-- Nothing is cut into nothing. -/
  | nil : CutInto [] []
  /-- A token and what the rest is cut into. -/
  | cons {c : Char} {p rest : List Char} {t : Token} {ts : List Token}
      (hc : isSpace c = false) (ht : token? (c :: (p ++ rest)) = some (t, rest))
      (hrest : CutInto rest ts) : CutInto (c :: (p ++ rest)) (t :: ts)

namespace CutInto

variable {c : Char} {cs rest : List Char} {t : Token} {ts : List Token}

/-- Every token takes a character, so a limit of as many tokens as characters suffices. -/
lemma tokensWithin? (h : CutInto cs ts) {limit : Nat} (hlimit : cs.length ≤ limit) :
    tokensWithin? limit cs = some ts := by
  induction h generalizing limit with
  | nil => cases limit <;> simp [Json.tokensWithin?]
  | @cons c p rest t ts hc ht hrest ih =>
    simp only [List.length_cons, List.length_append] at hlimit
    obtain ⟨limit, rfl⟩ : ∃ m, limit = m + 1 := ⟨limit - 1, by omega⟩
    have hbelow : rest.length ≤ limit := by omega
    simp [Json.tokensWithin?, hc, ht, ih hbelow]

lemma tokens? (h : CutInto cs ts) : tokens? cs = some ts := h.tokensWithin? (Nat.le_refl _)

/-- A token of one character. -/
lemma single (h : CutInto rest ts) (hc : isSpace c = false)
    (ht : token? (c :: rest) = some (t, rest)) : CutInto (c :: rest) (t :: ts) :=
  .cons (p := []) hc ht h

/-- A string, with the quotation marks around it. -/
lemma string (h : CutInto rest ts) (s : String) :
    CutInto (contentText (some s) ++ rest) (.string (some s) :: ts) := by
  have htoken : token? ('"' :: ((s.toList.flatMap escape ++ ['"']) ++ rest)) =
      some (.string (some s), rest) := by
    simpa [token?] using stringToken?_escaped s.toList rest
  simpa [contentText, quoted] using cons (by decide) htoken h

/-- A number, when no number continues with the rest. -/
lemma number (h : CutInto rest ts) (n : Nat) (hrest : EndsNumber rest) :
    CutInto (digits n ++ rest) (.atom (.nat n) :: ts) := by
  obtain ⟨d, ds, hds⟩ := List.exists_cons_of_ne_nil (digits_ne_nil n)
  have hdigit : d.isDigit := isDigit_of_mem_digits (n := n) (by simp [hds])
  have htoken := numberToken?_digits n hrest
  rw [hds, List.cons_append] at htoken ⊢
  refine cons ?_ ?_ h
  · exact isSpace_of_isDigit hdigit
  · rw [token?_of_isDigit hdigit]
    exact htoken

end CutInto

/-! ## The tokens of a value -/

mutual

/-- The tokens of a value. -/
def Value.tokens : Value → List Token
  | .string s => [.string s]
  | .array items => .openArray :: itemsTokens items ++ [.closeArray]
  | .object fields => .openObject :: fieldsTokens fields ++ [.closeObject]
  | v => [.atom v]

/-- The tokens of the items of an array. -/
def itemsTokens : List Value → List Token
  | [] => []
  | [v] => v.tokens
  | v :: vs => v.tokens ++ .comma :: itemsTokens vs

/-- The tokens of the fields of an object. -/
def fieldsTokens : List (Content × Value) → List Token
  | [] => []
  | [(name, v)] => .string name :: .colon :: v.tokens
  | (name, v) :: fs => .string name :: .colon :: v.tokens ++ .comma :: fieldsTokens fs

end

/-- The values that are written in full: their strings are texts and their numbers are plain
natural numbers. -/
inductive Value.IsWhole : Value → Prop where
  /-- The value without content. -/
  | null : IsWhole .null
  /-- A truth value. -/
  | bool (b : Bool) : IsWhole (.bool b)
  /-- A natural number. -/
  | nat (n : Nat) : IsWhole (.nat n)
  /-- A text. -/
  | text (s : String) : IsWhole (.text s)
  /-- A sequence of such values. -/
  | array {items : List Value} (h : ∀ v ∈ items, IsWhole v) : IsWhole (.array items)
  /-- A record of such values. -/
  | record {fields : List (String × Value)} (h : ∀ f ∈ fields, IsWhole f.2) :
    IsWhole (.record fields)

/-- The written form of the value is cut into its tokens, whatever follows it. -/
def Value.CutsUp (v : Value) : Prop :=
  ∀ {rest : List Char} {ts : List Token}, EndsNumber rest → CutInto rest ts →
    CutInto (v.chars ++ rest) (v.tokens ++ ts)

section Cuts

variable {rest : List Char} {ts : List Token}

lemma cutInto_items {items : List Value} (hitems : ∀ v ∈ items, v.CutsUp)
    (h : CutInto rest ts) :
    CutInto (itemsChars items ++ ']' :: rest) (itemsTokens items ++ .closeArray :: ts) := by
  have hclose : CutInto (']' :: rest) (.closeArray :: ts) := h.single (by decide) rfl
  match items with
  | [] => exact hclose
  | [v] => exact hitems v (by simp) (endsNumber_cons (by simp)) hclose
  | v :: w :: vs =>
    have hitems' : ∀ x ∈ w :: vs, x.CutsUp := fun x hx => hitems x (List.mem_cons_of_mem _ hx)
    have hrest := cutInto_items hitems' h
    have hcomma := hrest.single (c := ',') (t := .comma) (by decide) rfl
    simpa [itemsChars, itemsTokens] using hitems v (by simp) (endsNumber_cons (by simp)) hcomma

lemma cutInto_fields {fields : List (String × Value)} (hfields : ∀ f ∈ fields, f.2.CutsUp)
    (h : CutInto rest ts) :
    CutInto (fieldsChars (fields.map fun f => (some f.1, f.2)) ++ '\x7d' :: rest)
      (fieldsTokens (fields.map fun f => (some f.1, f.2)) ++ .closeObject :: ts) := by
  have hclose : CutInto ('\x7d' :: rest) (.closeObject :: ts) := h.single (by decide) rfl
  match fields with
  | [] => exact hclose
  | [(name, v)] =>
    have hvalue := hfields (name, v) (by simp) (endsNumber_cons (by simp)) hclose
    have hcolon := hvalue.single (c := ':') (t := .colon) (by decide) rfl
    simpa [fieldsChars, fieldsTokens] using hcolon.string name
  | (name, v) :: f :: fs =>
    have hfields' : ∀ x ∈ f :: fs, x.2.CutsUp := fun x hx =>
      hfields x (List.mem_cons_of_mem _ hx)
    have hrest := cutInto_fields hfields' h
    have hcomma := hrest.single (c := ',') (t := .comma) (by decide) rfl
    have hvalue := hfields (name, v) (by simp) (endsNumber_cons (by simp)) hcomma
    have hcolon := hvalue.single (c := ':') (t := .colon) (by decide) rfl
    simpa [fieldsChars, fieldsTokens] using hcolon.string name

end Cuts

/-- The written form of a whole value is cut into its tokens. -/
lemma Value.IsWhole.cutsUp {v : Value} (h : v.IsWhole) : v.CutsUp := by
  induction h with
  | null => exact fun _ h => .cons (p := ['u', 'l', 'l']) (by decide) rfl h
  | bool b =>
    cases b with
    | false => exact fun _ h => .cons (p := ['a', 'l', 's', 'e']) (by decide) rfl h
    | true => exact fun _ h => .cons (p := ['r', 'u', 'e']) (by decide) rfl h
  | nat n => exact fun hends h => h.number n hends
  | text s => exact fun _ h => h.string s
  | array _ ih =>
    intro rest ts _ h
    have hitems := cutInto_items ih h
    simpa [Value.chars, Value.tokens] using hitems.single (c := '[') (by decide) rfl
  | record _ ih =>
    intro rest ts _ h
    have hfields := cutInto_fields ih h
    simpa [Value.record, Value.chars, Value.tokens] using
      hfields.single (c := '\x7b') (by decide) rfl

/-- The written form of a whole value is cut into its tokens and nothing else. -/
theorem tokens?_chars {v : Value} (h : v.IsWhole) : tokens? v.chars = some v.tokens := by
  have hcut := h.cutsUp (by simp [EndsNumber]) .nil
  rw [List.append_nil, List.append_nil] at hcut
  exact hcut.tokens?

end DiagramRegistry.Json
