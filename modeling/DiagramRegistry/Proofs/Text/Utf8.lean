import DiagramRegistry.Text.Utf8
import Mathlib.Data.List.Basic

/-
# What was encoded is read back

A character is encoded in one byte or more, of which the first says how many there are.  There is a
lemma for each number of bytes, which says what character they are read as.

* `Utf8.decode_encoded`: reading the bytes of characters gives the characters.
-/
namespace DiagramRegistry.Utf8

lemma encoded_append (a b : List Char) : encoded (a ++ b) = encoded a ++ encoded b :=
  List.flatMap_append

lemma encoded_cons (c : Char) (cs : List Char) :
    encoded (c :: cs) = String.utf8EncodeChar c ++ encoded cs := rfl

variable {a b c d : UInt8} {bs : List UInt8}

lemma decodeBehind_cons (u : Option Unfinished) (b : UInt8) (bs : List UInt8) :
    decodeBehind u (b :: bs) = (step u b.toNat).1 ++ decodeBehind (step u b.toNat).2 bs := by
  cases u <;> rfl

lemma step_last {low high bits n : Nat} (hlow : low ≤ n) (hhigh : n ≤ high) :
    step (some ⟨low, high, 0, bits⟩) n = ([Char.ofNat (bits * 0x40 + (n - 0x80))], none) :=
  if_pos ⟨hlow, hhigh⟩

lemma step_more {low high further bits n : Nat} (hlow : low ≤ n) (hhigh : n ≤ high) :
    step (some ⟨low, high, further + 1, bits⟩) n =
      ([], some ⟨0x80, 0xBF, further, bits * 0x40 + (n - 0x80)⟩) :=
  if_pos ⟨hlow, hhigh⟩

/-- A byte that goes on with a character. -/
def IsFurther (b : UInt8) : Prop := 0x80 ≤ b.toNat ∧ b.toNat ≤ 0xBF

/-- The bits of a byte that goes on with a character. -/
def furtherBits (b : UInt8) : Nat := b.toNat - 0x80

/-- A second byte goes on with a character, and has closer bounds behind one of the first bytes. -/
lemma step_second {p q : Prop} [Decidable p] [Decidable q] {low high further bits : Nat}
    (hb : IsFurther b) (hlow : p → low ≤ b.toNat) (hhigh : q → b.toNat ≤ high) :
    step (some ⟨if p then low else 0x80, if q then high else 0xBF, further + 1, bits⟩) b.toNat =
      ([], some ⟨0x80, 0xBF, further, bits * 0x40 + furtherBits b⟩) := by
  refine step_more ?_ ?_
  · split
    · exact hlow ‹p›
    · exact hb.1
  · split
    · exact hhigh ‹q›
    · exact hb.2

lemma toNat_ofNat {n : Nat} (hn : n < 256) : (UInt8.ofNat n).toNat = n :=
  UInt8.toNat_ofNat'.trans (Nat.mod_eq_of_lt hn)

lemma isFurther_ofNat (n : Nat) : IsFurther (UInt8.ofNat (n % 0x40 + 0x80)) := by
  have hbyte : (UInt8.ofNat (n % 0x40 + 0x80)).toNat = n % 0x40 + 0x80 := toNat_ofNat (by omega)
  unfold IsFurther
  omega

lemma furtherBits_ofNat (n : Nat) : furtherBits (UInt8.ofNat (n % 0x40 + 0x80)) = n % 0x40 := by
  have hbyte : (UInt8.ofNat (n % 0x40 + 0x80)).toNat = n % 0x40 + 0x80 := toNat_ofNat (by omega)
  unfold furtherBits
  omega

lemma decodeBehind_one (ha : a.toNat ≤ 0x7F) :
    decodeBehind none (a :: bs) = Char.ofNat a.toNat :: decodeBehind none bs := by
  have hfirst : step none a.toNat = ([Char.ofNat a.toNat], none) := if_pos ha
  rw [decodeBehind_cons, hfirst]
  rfl

lemma decodeBehind_two (ha : 0xC2 ≤ a.toNat ∧ a.toNat ≤ 0xDF) (hb : IsFurther b) :
    decodeBehind none (a :: b :: bs) =
      Char.ofNat ((a.toNat - 0xC0) * 0x40 + furtherBits b) :: decodeBehind none bs := by
  have hfirst : step none a.toNat = ([], some ⟨0x80, 0xBF, 0, a.toNat - 0xC0⟩) := by
    rw [step, first, if_neg (by omega), if_neg (by omega), if_pos ha.2]
  rw [decodeBehind_cons, hfirst, decodeBehind_cons, step_last hb.1 hb.2]
  rfl

lemma decodeBehind_three (ha : 0xE0 ≤ a.toNat ∧ a.toNat ≤ 0xEF) (hb : IsFurther b)
    (hlow : a.toNat = 0xE0 → 0xA0 ≤ b.toNat) (hhigh : a.toNat = 0xED → b.toNat ≤ 0x9F)
    (hc : IsFurther c) :
    decodeBehind none (a :: b :: c :: bs) =
      Char.ofNat (((a.toNat - 0xE0) * 0x40 + furtherBits b) * 0x40 + furtherBits c) ::
        decodeBehind none bs := by
  have hfirst : step none a.toNat = ([], some ⟨if a.toNat = 0xE0 then 0xA0 else 0x80,
      if a.toNat = 0xED then 0x9F else 0xBF, 1, a.toNat - 0xE0⟩) := by
    rw [step, first, if_neg (by omega), if_neg (by omega), if_neg (by omega), if_pos ha.2]
  rw [decodeBehind_cons, hfirst, decodeBehind_cons, step_second hb hlow hhigh, decodeBehind_cons,
    step_last hc.1 hc.2]
  rfl

lemma decodeBehind_four (ha : 0xF0 ≤ a.toNat ∧ a.toNat ≤ 0xF4) (hb : IsFurther b)
    (hlow : a.toNat = 0xF0 → 0x90 ≤ b.toNat) (hhigh : a.toNat = 0xF4 → b.toNat ≤ 0x8F)
    (hc : IsFurther c) (hd : IsFurther d) :
    decodeBehind none (a :: b :: c :: d :: bs) =
      Char.ofNat ((((a.toNat - 0xF0) * 0x40 + furtherBits b) * 0x40 + furtherBits c) * 0x40 +
        furtherBits d) :: decodeBehind none bs := by
  have hfirst : step none a.toNat = ([], some ⟨if a.toNat = 0xF0 then 0x90 else 0x80,
      if a.toNat = 0xF4 then 0x8F else 0xBF, 2, a.toNat - 0xF0⟩) := by
    rw [step, first, if_neg (by omega), if_neg (by omega), if_neg (by omega), if_neg (by omega),
      if_pos ha.2]
  rw [decodeBehind_cons, hfirst, decodeBehind_cons, step_second hb hlow hhigh, decodeBehind_cons,
    step_more hc.1 hc.2, decodeBehind_cons, step_last hd.1 hd.2]
  rfl

/-- The bytes of a character are read as this character. -/
lemma decodeBehind_encodeChar (c : Char) (bs : List UInt8) :
    decodeBehind none (String.utf8EncodeChar c ++ bs) = c :: decodeBehind none bs := by
  have hvalid : c.toNat < 0xD800 ∨ 0xDFFF < c.toNat ∧ c.toNat < 0x110000 := c.valid
  have hread {n : Nat} (hn : n = c.toNat) : Char.ofNat n = c := hn ▸ Char.ofNat_toNat c
  unfold String.utf8EncodeChar
  simp only [show c.val.toNat = c.toNat from rfl]
  generalize c.toNat = n at *
  by_cases hone : n ≤ 0x7F
  · rw [if_pos hone, List.singleton_append, decodeBehind_one, hread] <;> rw [toNat_ofNat] <;> omega
  rw [if_neg hone]
  by_cases htwo : n ≤ 0x7FF
  · have hfirst : (UInt8.ofNat (n / 64 % 0x20 + 0xC0)).toNat = n / 64 + 0xC0 := by
      rw [toNat_ofNat] <;> omega
    rw [if_pos htwo, List.cons_append, List.singleton_append,
      decodeBehind_two (by omega) (isFurther_ofNat n), furtherBits_ofNat, hfirst, hread (by omega)]
  rw [if_neg htwo]
  have hsecond : (UInt8.ofNat (n / 64 % 0x40 + 0x80)).toNat = n / 64 % 0x40 + 0x80 :=
    toNat_ofNat (by omega)
  by_cases hthree : n ≤ 0xFFFF
  · have hfirst : (UInt8.ofNat (n / 4096 % 0x10 + 0xE0)).toNat = n / 4096 + 0xE0 := by
      rw [toNat_ofNat] <;> omega
    rw [if_pos hthree, List.cons_append, List.cons_append, List.singleton_append,
      decodeBehind_three (by omega) (isFurther_ofNat _) (by omega) (by omega) (isFurther_ofNat _),
      furtherBits_ofNat, furtherBits_ofNat, hfirst, hread (by omega)]
  · have hfirst : (UInt8.ofNat (n / 262144 % 0x08 + 0xF0)).toNat = n / 262144 + 0xF0 := by
      rw [toNat_ofNat] <;> omega
    have hsecond : (UInt8.ofNat (n / 4096 % 0x40 + 0x80)).toNat = n / 4096 % 0x40 + 0x80 :=
      toNat_ofNat (by omega)
    rw [if_neg hthree, List.cons_append, List.cons_append, List.cons_append, List.singleton_append,
      decodeBehind_four (by omega) (isFurther_ofNat _) (by omega) (by omega) (isFurther_ofNat _)
        (isFurther_ofNat _), furtherBits_ofNat, furtherBits_ofNat, furtherBits_ofNat, hfirst,
      hread (by omega)]

/-- Reading the bytes of characters gives the characters. -/
theorem decode_encoded (cs : List Char) : decode (encoded cs) = cs := by
  induction cs with
  | nil => rfl
  | cons c cs ih => rw [encoded_cons, decode, decodeBehind_encodeChar, ← decode, ih]

end DiagramRegistry.Utf8
