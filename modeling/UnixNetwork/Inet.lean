import UnixNetwork.MyRoute.Attributes
import UnixNetwork.Encoding.Decimal

/-!
# Reading dotted addresses

`inet_pton` for the addresses of `AF_INET`. It accepts the dotted form that `inet_ntop` makes of an
address, and nothing else: each of the four parts is a number of one to three digits, at most 255
and without a zero in front of other digits.

## Main definitions

* `Inet.inetPton`: the four bytes of the address
* `Inet.IsIp`: the dotted form of an address

## Main results

* `Inet.inetPton_eq_some_iff`: the dotted form of an address is what is accepted
-/

namespace UnixNetwork

namespace Inet

open Encoding
open MyRoute (digit decimal dotted dotted_eq_intercalate)

/-- The byte that a part of a dotted address stands for: one to three digits, without a zero in
front of others. -/
def octet (s : List Byte) : Option Byte :=
  if s ≠ [] ∧ s.length ≤ 3 ∧ s.all isDigit ∧ (s.head? = some 48 → s.length = 1) ∧
      digitsVal s ≤ 255 then
    some (UInt8.ofNat (digitsVal s))
  else none

/-- `inet_pton(AF_INET, s, ...)`: the four bytes that it stores, if its value is 1. -/
def inetPton (s : List Byte) : Option (List Byte) :=
  let parts := s.splitOn 46
  if parts.length = 4 then parts.mapM octet else none

/-- The text is the dotted form of an address. -/
def IsIp (ip : List Byte) : Prop := ∃ addr, addr.length = 4 ∧ ip = dotted addr

/-! ## Digits -/

theorem toNat_digit {i : ℕ} (hi : i < 10) : (digit i).toNat = 48 + i := by
  rw [digit, UInt8.toNat_ofNat']
  omega

theorem isDigit_iff {b : Byte} : isDigit b ↔ 48 ≤ b.toNat ∧ b.toNat ≤ 57 := by
  simp [isDigit, UInt8.le_iff_toNat_le]

/-- A decimal digit is the character of a number. -/
theorem exists_eq_digit {b : Byte} (h : isDigit b) : ∃ i < 10, b = digit i := by
  rw [isDigit_iff] at h
  refine ⟨b.toNat - 48, by omega, UInt8.toNat_inj.mp ?_⟩
  rw [toNat_digit (by omega)]
  omega

theorem exists_eq_map_digit {s : List Byte} (h : ∀ b ∈ s, isDigit b) :
    ∃ l : List ℕ, (∀ i ∈ l, i < 10) ∧ s = l.map digit := by
  induction s with
  | nil => exact ⟨[], fun i hi => absurd hi List.not_mem_nil, rfl⟩
  | cons b s ih =>
    obtain ⟨i, hi, rfl⟩ := exists_eq_digit (h b List.mem_cons_self)
    obtain ⟨l, hl, rfl⟩ := ih fun c hc => h c (List.mem_cons_of_mem _ hc)
    exact ⟨i :: l, List.forall_mem_cons.mpr ⟨hi, hl⟩, rfl⟩

/-- What digits stand for. -/
theorem digitsVal_map_digit {l : List ℕ} (hl : ∀ i ∈ l, i < 10) :
    digitsVal (l.map digit) = Nat.ofDigits 10 l.reverse := by
  have hval : ∀ i ∈ l.reverse, ((fun d : Byte => d.toNat - 48) ∘ digit) i = id i := by
    intro i hi
    rw [Function.comp_apply, toNat_digit (hl i (List.mem_reverse.mp hi))]
    exact Nat.add_sub_cancel_left _ _
  rw [digitsVal, ← List.map_reverse, List.map_map, List.map_congr_left hval, List.map_id]

/-- Up to three digits are read if they do not begin with a zero and stand for a byte. -/
theorem octet_map_digit {l : List ℕ} {b : Byte} (hl : ∀ i ∈ l, i < 10) (hne : l ≠ [])
    (hlen : l.length ≤ 3) (h0 : l.head? = some 0 → l.length = 1)
    (hval : Nat.ofDigits 10 l.reverse = b.toNat) : octet (l.map digit) = some b := by
  rw [octet, digitsVal_map_digit hl, hval, UInt8.ofNat_toNat, if_pos]
  refine ⟨by simpa using hne, by simpa using hlen, List.all_eq_true.mpr ?_, ?_,
    Nat.le_of_lt_succ b.toNat_lt⟩
  · intro c hc
    obtain ⟨i, hi, rfl⟩ := List.mem_map.mp hc
    have hi10 := hl i hi
    rw [isDigit_iff, toNat_digit hi10]
    omega
  · intro hhead
    rw [List.head?_map, Option.map_eq_some_iff] at hhead
    obtain ⟨i, hi, h48⟩ := hhead
    have hdigit := toNat_digit (hl i (List.mem_of_mem_head? hi))
    rw [h48] at hdigit
    obtain rfl : i = 0 := Nat.add_left_cancel (hdigit.symm : 48 + i = 48 + 0)
    rw [List.length_map, h0 hi]

/-! ## Bytes -/

/-- A byte is read from its decimal form. -/
theorem octet_decimal (b : Byte) : octet (decimal b) = some b := by
  have hb := b.toNat_lt
  rw [decimal]
  split
  · refine octet_map_digit (l := [b.toNat]) ?_ ?_ ?_ ?_ ?_
    all_goals simp [Nat.ofDigits_cons]
    all_goals omega
  split
  · refine octet_map_digit (l := [b.toNat / 10, b.toNat % 10]) ?_ ?_ ?_ ?_ ?_
    all_goals simp [Nat.ofDigits_cons]
    all_goals omega
  · refine octet_map_digit (l := [b.toNat / 100, b.toNat / 10 % 10, b.toNat % 10]) ?_ ?_ ?_ ?_ ?_
    all_goals simp [Nat.ofDigits_cons]
    all_goals omega

/-- The decimal form of a byte that some digits stand for. -/
theorem decimal_ofNat {l : List ℕ} (hl : ∀ i ∈ l, i < 10) (hne : l ≠ []) (hlen : l.length ≤ 3)
    (h0 : l.head? = some 0 → l.length = 1) (hle : Nat.ofDigits 10 l.reverse ≤ 255) :
    decimal (UInt8.ofNat (Nat.ofDigits 10 l.reverse)) = l.map digit := by
  have hval : (UInt8.ofNat (Nat.ofDigits 10 l.reverse)).toNat = Nat.ofDigits 10 l.reverse := by
    rw [UInt8.toNat_ofNat']
    omega
  rw [decimal, hval]
  rcases l with _ | ⟨i, _ | ⟨j, _ | ⟨k, _ | ⟨_, _⟩⟩⟩⟩
  · exact absurd rfl hne
  · have hi : i < 10 := hl i (by simp)
    simp [Nat.ofDigits_cons, hi]
  · have hi : i ≠ 0 := fun h => absurd (h0 (congrArg some h)) (by simp)
    have hj : j < 10 := hl j (by simp)
    have hi10 : i < 10 := hl i (by simp)
    have hv : Nat.ofDigits 10 [i, j].reverse = 10 * i + j := by
      simp [Nat.ofDigits_cons]
      omega
    have hdiv : (10 * i + j) / 10 = i := by omega
    have hmod : (10 * i + j) % 10 = j := by omega
    rw [hv, if_neg (by omega), if_pos (by omega), hdiv, hmod, List.map_cons, List.map_singleton]
  · have hi : i ≠ 0 := fun h => absurd (h0 (congrArg some h)) (by simp)
    have hj : j < 10 := hl j (by simp)
    have hk : k < 10 := hl k (by simp)
    have hv : Nat.ofDigits 10 [i, j, k].reverse = 100 * i + 10 * j + k := by
      simp [Nat.ofDigits_cons]
      omega
    have hdiv : (100 * i + 10 * j + k) / 100 = i := by omega
    have hmid : (100 * i + 10 * j + k) / 10 % 10 = j := by omega
    have hmod : (100 * i + 10 * j + k) % 10 = k := by omega
    rw [hv, if_neg (by omega), if_neg (by omega), hdiv, hmid, hmod]
    rfl
  · simp only [List.length_cons] at hlen
    omega

/-- A part of a dotted address is the decimal form of its byte. -/
theorem octet_eq_some_iff {s : List Byte} {b : Byte} : octet s = some b ↔ s = decimal b := by
  constructor
  · intro h
    rw [octet] at h
    split at h
    next hs =>
      obtain ⟨hne, hlen, hdigits, h0, hle⟩ := hs
      obtain ⟨l, hl, rfl⟩ := exists_eq_map_digit (List.all_eq_true.mp hdigits)
      rw [digitsVal_map_digit hl] at h hle
      rw [← Option.some.inj h]
      refine (decimal_ofNat hl (by simpa using hne) (by simpa using hlen) ?_ hle).symm
      intro hhead
      rw [← h0 (by rw [List.head?_map, hhead]; rfl), List.length_map]
    next => cases h
  · rintro rfl
    exact octet_decimal b

/-! ## Addresses -/

theorem mapM_octet_eq_some_iff {parts : List (List Byte)} {bytes : List Byte} :
    parts.mapM octet = some bytes ↔ parts = bytes.map decimal := by
  induction parts generalizing bytes with
  | nil => simp [eq_comm]
  | cons s parts ih =>
    cases bytes with
    | nil => simp [Option.bind_eq_some_iff]
    | cons b bytes => simp [Option.bind_eq_some_iff, octet_eq_some_iff, ih]

/-- **`inet_pton` accepts exactly the dotted addresses.** -/
theorem inetPton_eq_some_iff {s addr : List Byte} :
    inetPton s = some addr ↔ addr.length = 4 ∧ s = dotted addr := by
  rw [dotted_eq_intercalate, inetPton]
  constructor
  · intro h
    split at h
    next hlen =>
      rw [mapM_octet_eq_some_iff] at h
      rw [← h, List.intercalate_splitOn]
      exact ⟨by rw [← hlen, h, List.length_map], rfl⟩
    next => cases h
  · rintro ⟨hlen, rfl⟩
    have hne : addr.map decimal ≠ [] := by
      rintro h
      rw [List.map_eq_nil_iff.mp h] at hlen
      cases hlen
    rw [List.splitOn_intercalate 46 (fun l hl => ?_) hne, if_pos (by rw [List.length_map, hlen]),
      mapM_octet_eq_some_iff]
    obtain ⟨b, -, rfl⟩ := List.mem_map.mp hl
    exact MyRoute.notMem_decimal (by decide) b

end Inet

end UnixNetwork
