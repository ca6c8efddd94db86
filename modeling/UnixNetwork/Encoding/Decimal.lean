import Mathlib.Data.Nat.Digits.Defs

/-!
# Numbers in a text

The numbers that a scanner reads off the beginning of a text: it skips white space, takes a sign if
there is one, and then all digits that follow. A number that is followed by something else is read
all the same, and what follows it is left for the next one.

## Main definitions

* `scan`: the number at the beginning of a text, and what stands behind it

## Main results

* `scan_append`: a number is read as it is whatever follows it, if that does not go on with a digit
  and is not a number itself
-/

namespace Encoding

/-- White space: a blank, or one of the five control characters from the tabulator on. -/
def isSpace (b : UInt8) : Bool := b == 32 || (9 ≤ b && b ≤ 13)

/-- A decimal digit. -/
def isDigit (b : UInt8) : Bool := 48 ≤ b && b ≤ 57

/-- The number that some digits represent, the most significant one first. -/
def digitsVal (ds : List UInt8) : ℕ := Nat.ofDigits 10 (ds.reverse.map fun d => d.toNat - 48)

/-- The number of the digits at the beginning of a text. -/
def scanDigits (l : List UInt8) : Option (ℕ × List UInt8) :=
  if l.takeWhile isDigit = [] then none
  else some (digitsVal (l.takeWhile isDigit), l.dropWhile isDigit)

/-- The number at the beginning of a text, which may have a sign in front of it. -/
def scanSigned : List UInt8 → Option (ℤ × List UInt8)
  | [] => none
  | b :: l =>
    if b = 45 then (scanDigits l).map fun x => (-x.1, x.2)
    else if b = 43 then (scanDigits l).map fun x => (x.1, x.2)
    else (scanDigits (b :: l)).map fun x => (x.1, x.2)

/-- The number at the beginning of a text, which may have white space in front of it. -/
def scan (l : List UInt8) : Option (ℤ × List UInt8) := scanSigned (l.dropWhile isSpace)

example : scan [9, 45, 49, 50, 120] = some (-12, [120]) := by decide

variable {l t : List UInt8}

theorem scanDigits_append (ht : t.takeWhile isDigit = []) (l : List UInt8) :
    scanDigits (l ++ t) = (scanDigits l).map fun x => (x.1, x.2 ++ t) := by
  have htake : (l ++ t).takeWhile isDigit = l.takeWhile isDigit := by
    induction l with
    | nil => rw [List.nil_append, ht, List.takeWhile_nil]
    | cons b l ih => rw [List.cons_append, List.takeWhile_cons, List.takeWhile_cons, ih]
  have hdrop : (l ++ t).dropWhile isDigit = l.dropWhile isDigit ++ t := by
    have h := List.takeWhile_append_dropWhile (p := isDigit) (l := l ++ t)
    have h' := List.takeWhile_append_dropWhile (p := isDigit) (l := l)
    rw [htake] at h
    have hfront : l.takeWhile isDigit ++ (l ++ t).dropWhile isDigit =
        l.takeWhile isDigit ++ (l.dropWhile isDigit ++ t) := by
      rw [h, ← List.append_assoc, h']
    exact List.append_cancel_left hfront
  rw [scanDigits, scanDigits, htake, hdrop]
  split <;> rfl

theorem scanSigned_append (ht : t.takeWhile isDigit = []) (hl : l ≠ []) :
    scanSigned (l ++ t) = (scanSigned l).map fun x => (x.1, x.2 ++ t) := by
  cases l with
  | nil => exact absurd rfl hl
  | cons b l =>
    have hdigits := scanDigits_append ht l
    have hdigits' := scanDigits_append ht (b :: l)
    rw [List.cons_append] at hdigits' ⊢
    rw [scanSigned, scanSigned, hdigits, hdigits']
    split
    · rw [Option.map_map, Option.map_map]
      rfl
    split
    · rw [Option.map_map, Option.map_map]
      rfl
    · rw [Option.map_map, Option.map_map]
      rfl

/-- **What follows a number** is left behind it. -/
theorem scan_append (ht : t.takeWhile isDigit = []) (hscan : scan t = none) (l : List UInt8) :
    scan (l ++ t) = (scan l).map fun x => (x.1, x.2 ++ t) := by
  rw [scan, List.dropWhile_append, scan]
  split
  next hl =>
    rw [List.isEmpty_iff] at hl
    rw [hl, ← scan, hscan]
    rfl
  next hl =>
    refine scanSigned_append ht ?_
    rwa [List.isEmpty_iff] at hl

end Encoding
