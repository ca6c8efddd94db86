import UnixNetwork.Encoding.Decimal
import Mathlib.Data.Nat.Digits.Lemmas

/-!
# Hexadecimal numbers in a text

The unsigned numbers that a scanner reads off the beginning of a text to the base 16. White space, a
sign and `0x` may stand in front of the digits; a number with a minus sign is taken modulo the
range, and one that is too large is replaced by the largest. A `0x` without a digit behind it is no
number, as the C standard has it; `glibc` reads it as 0.

## Main definitions

* `scanHex`: the number at the beginning of a text, and what stands behind it
* `hexByte`: a byte as two digits

## Main results

* `scanHex_append`: digits are read as they are, whatever follows them, if that is not a digit or an
  `x`
-/

namespace Encoding

/-- A hexadecimal digit. -/
def isHexDigit (b : UInt8) : Bool := isDigit b || (65 ≤ b && b ≤ 70) || (97 ≤ b && b ≤ 102)

/-- What a digit stands for. -/
def hexDigitVal (b : UInt8) : ℕ :=
  if isDigit b then b.toNat - 48 else if b ≤ 70 then b.toNat - 55 else b.toNat - 87

/-- The number that some digits represent, the most significant one first. -/
def hexVal (ds : List UInt8) : ℕ := Nat.ofDigits 16 (ds.reverse.map hexDigitVal)

/-- The number of the digits at the beginning of a text. -/
def scanHexDigits (l : List UInt8) : Option (ℕ × List UInt8) :=
  if l.takeWhile isHexDigit = [] then none
  else some (hexVal (l.takeWhile isHexDigit), l.dropWhile isHexDigit)

/-- The text behind the `0x` or `0X` that may stand in front of the digits. -/
def skipBase (l : List UInt8) : List UInt8 :=
  if l.head? = some 48 ∧ (l.tail.head? = some 120 ∨ l.tail.head? = some 88) then l.drop 2 else l

/-- The largest number of the range. -/
def maxUnsigned : ℕ := 2 ^ 64 - 1

/-- The number at the beginning of a text, which may have a sign in front of it. -/
def scanHexSigned : List UInt8 → Option (ℕ × List UInt8)
  | [] => none
  | b :: l =>
    if b = 45 then (scanHexDigits (skipBase l)).map fun x =>
      (if maxUnsigned < x.1 then maxUnsigned else (maxUnsigned + 1 - x.1) % (maxUnsigned + 1), x.2)
    else if b = 43 then (scanHexDigits (skipBase l)).map fun x => (min x.1 maxUnsigned, x.2)
    else (scanHexDigits (skipBase (b :: l))).map fun x => (min x.1 maxUnsigned, x.2)

/-- The number at the beginning of a text, which may have white space in front of it. -/
def scanHex (l : List UInt8) : Option (ℕ × List UInt8) := scanHexSigned (l.dropWhile isSpace)

example : scanHex [32, 48, 120, 49, 70, 58] = some (31, [58]) := by decide

/-- The character of a digit. -/
def hexChar (n : ℕ) : UInt8 := UInt8.ofNat (if n < 10 then 48 + n else 87 + n)

/-- A byte as two digits. -/
def hexByte (b : UInt8) : List UInt8 := [hexChar (b.toNat / 16), hexChar (b.toNat % 16)]

/-! ## Digits -/

theorem isHexDigit_iff {b : UInt8} : isHexDigit b ↔ 48 ≤ b.toNat ∧ b.toNat ≤ 57 ∨
    65 ≤ b.toNat ∧ b.toNat ≤ 70 ∨ 97 ≤ b.toNat ∧ b.toNat ≤ 102 := by
  simp [isHexDigit, isDigit, UInt8.le_iff_toNat_le, or_assoc]

/-- A digit is no white space. -/
theorem isSpace_of_isHexDigit {b : UInt8} (h : isHexDigit b) : isSpace b = false := by
  rw [isHexDigit_iff] at h
  simp only [isSpace, ← UInt8.toNat_inj, UInt8.le_iff_toNat_le, Bool.or_eq_false_iff,
    beq_eq_false_iff_ne, Bool.and_eq_false_iff, decide_eq_false_iff_not, ne_eq]
  simp only [UInt8.reduceToNat]
  omega

/-- A digit is no character that is not a digit. -/
theorem ne_of_isHexDigit {b c : UInt8} (h : isHexDigit b) (hc : isHexDigit c = false) : b ≠ c := by
  rintro rfl
  exact absurd h (by simp [hc])

theorem hexDigitVal_lt {b : UInt8} (h : isHexDigit b) : hexDigitVal b < 16 := by
  have hb := isHexDigit_iff.mp h
  simp only [hexDigitVal, isDigit, Bool.and_eq_true, decide_eq_true_eq, UInt8.le_iff_toNat_le,
    UInt8.reduceToNat]
  split
  · omega
  · split <;> omega

variable {g t : List UInt8}

theorem hexVal_lt (hg : ∀ b ∈ g, isHexDigit b) : hexVal g < 16 ^ g.length := by
  have hlt : ∀ d ∈ g.reverse.map hexDigitVal, d < 16 := by
    intro d hd
    obtain ⟨b, hb, rfl⟩ := List.mem_map.mp hd
    exact hexDigitVal_lt (hg b (List.mem_reverse.mp hb))
  have := Nat.ofDigits_lt_base_pow_length (by decide : 1 < 16) hlt
  rwa [List.length_map, List.length_reverse] at this

/-! ## Numbers -/

/-- Digits are read as they are, if none follows. -/
theorem scanHexDigits_append (hg : ∀ b ∈ g, isHexDigit b) (hne : g ≠ [])
    (ht : ∀ b ∈ t.head?, isHexDigit b = false) : scanHexDigits (g ++ t) = some (hexVal g, t) := by
  have htake : t.takeWhile isHexDigit = [] := by
    cases t with
    | nil => rfl
    | cons b t => exact List.takeWhile_cons_of_neg (by simp [ht b rfl])
  have hdrop : t.dropWhile isHexDigit = t := by
    cases t with
    | nil => rfl
    | cons b t => exact List.dropWhile_cons_of_neg (by simp [ht b rfl])
  rw [scanHexDigits, List.takeWhile_append_of_pos hg, List.dropWhile_append_of_pos hg, htake, hdrop,
    List.append_nil, if_neg hne]

/-- There is no `0x` in front of digits that are not followed by an `x`. -/
theorem skipBase_append (hg : ∀ b ∈ g, isHexDigit b) (hne : g ≠ [])
    (ht : ∀ b ∈ t.head?, b ≠ 120 ∧ b ≠ 88) : skipBase (g ++ t) = g ++ t := by
  rw [skipBase, if_neg]
  rintro ⟨-, hx⟩
  obtain ⟨b, g, rfl⟩ := List.exists_cons_of_ne_nil hne
  rw [List.cons_append, List.tail_cons] at hx
  cases g with
  | nil =>
    rcases hx with hx | hx
    · exact (ht _ hx).1 rfl
    · exact (ht _ hx).2 rfl
  | cons c g =>
    have hc : isHexDigit c := hg c (by simp)
    rcases hx with hx | hx
    · exact ne_of_isHexDigit hc (c := 120) (by decide) (Option.some.inj hx)
    · exact ne_of_isHexDigit hc (c := 88) (by decide) (Option.some.inj hx)

/-- **Digits are read as they are**, whatever follows them, if that is no digit and no `x`. -/
theorem scanHex_append (hg : ∀ b ∈ g, isHexDigit b) (hne : g ≠ []) (hlen : g.length ≤ 16)
    (ht : ∀ b ∈ t.head?, isHexDigit b = false ∧ b ≠ 120 ∧ b ≠ 88) :
    scanHex (g ++ t) = some (hexVal g, t) := by
  have hdigits := scanHexDigits_append hg hne fun b hb => (ht b hb).1
  have hbase := skipBase_append hg hne fun b hb => (ht b hb).2
  have hmax : hexVal g ≤ maxUnsigned := by
    have hlt : hexVal g < 16 ^ 16 :=
      (hexVal_lt hg).trans_le (Nat.pow_le_pow_right (by decide) hlen)
    have h64 : 16 ^ 16 = maxUnsigned + 1 := by decide
    omega
  obtain ⟨b, g, rfl⟩ := List.exists_cons_of_ne_nil hne
  have hb : isHexDigit b := hg b List.mem_cons_self
  rw [List.cons_append] at hdigits hbase ⊢
  rw [scanHex, List.dropWhile_cons_of_neg (by simp [isSpace_of_isHexDigit hb]), scanHexSigned,
    if_neg (ne_of_isHexDigit hb (by decide)), if_neg (ne_of_isHexDigit hb (by decide)), hbase,
    hdigits, Option.map_some, min_eq_left hmax]

end Encoding
