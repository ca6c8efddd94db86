import Mathlib.Algebra.BigOperators.Group.List.Basic
import Mathlib.Algebra.GroupWithZero.Nat
import Mathlib.Data.List.Basic

/-!
# Records with their length in front

A record begins with a header, the header says how long the record is, and the next record begins
at the next aligned place behind it. The records in some bytes are found one after the other, up to
the first place where no whole record stands.

Nothing is assumed about the bytes. What stands where no record does is left alone, and a length
that is too small or too large ends the walk.

## Main definitions

* `Framing`: a format of records
* `Framing.Ok`, `Framing.records`: a record at the beginning of some bytes, and all of them
* `Framing.extent`: how far some records reach

## Main results

* `Framing.mem_records`, `Framing.of_records_eq`: what is found are whole records, where the walk
  has come to
* `Framing.records_cons`, `Framing.records_last`: records that are put one behind the other are
  found again, whether or not the last one is padded
-/

namespace Encoding

/-- A format of records. -/
structure Framing (α : Type) where
  /-- The size of a header. -/
  header : ℕ
  /-- A header is not empty. -/
  header_pos : 0 < header
  /-- The length that the header at the beginning of some bytes says. -/
  len : List α → ℕ
  /-- It says so alone. -/
  len_append : ∀ l r, header ≤ l.length → len (l ++ r) = len l
  /-- How far behind the beginning of a record of a given length the next one begins. -/
  align : ℕ → ℕ
  /-- The next one begins behind the record. -/
  le_align : ∀ n, n ≤ align n

namespace Framing

variable {α : Type} (F : Framing α)

/-- A whole record stands at the beginning of the bytes. -/
def Ok (l : List α) : Prop := F.header ≤ l.length ∧ F.header ≤ F.len l ∧ F.len l ≤ l.length

instance (l : List α) : Decidable (F.Ok l) := inferInstanceAs (Decidable (_ ∧ _ ∧ _))

/-- The records at the beginning of the bytes, one behind the other. -/
def records (l : List α) : List (List α) :=
  if _ : F.Ok l then l.take (F.len l) :: records (l.drop (F.align (F.len l))) else []
termination_by l.length
decreasing_by
  obtain ⟨hl, hlen, -⟩ := ‹F.Ok l›
  have hpos := F.header_pos
  have halign := F.le_align (F.len l)
  rw [List.length_drop]
  omega

/-- How far some records reach, each of them with the padding behind it. -/
def extent (rs : List (List α)) : ℕ := (rs.map fun r => F.align r.length).sum

variable {F} {l r pad : List α}

@[simp] theorem extent_nil : F.extent [] = 0 := rfl

@[simp] theorem extent_cons (r : List α) (rs : List (List α)) :
    F.extent (r :: rs) = F.align r.length + F.extent rs := by
  simp [extent]

theorem records_of_ok (h : F.Ok l) :
    F.records l = l.take (F.len l) :: F.records (l.drop (F.align (F.len l))) := by
  rw [records, dif_pos h]

theorem records_of_not_ok (h : ¬ F.Ok l) : F.records l = [] := by
  rw [records, dif_neg h]

theorem records_nil : F.records [] = [] := by
  refine records_of_not_ok ?_
  rintro ⟨h, -⟩
  exact absurd h (Nat.not_le_of_lt F.header_pos)

/-- The length is a matter of the bytes of the record. -/
theorem len_take {k : ℕ} (hk : F.header ≤ k) (hl : F.header ≤ l.length) :
    F.len (l.take k) = F.len l := by
  have h := F.len_append (l.take k) (l.drop k) (by rw [List.length_take]; omega)
  rwa [List.take_append_drop, eq_comm] at h

/-- What is found are whole records, and each says its own length. -/
theorem mem_records (h : r ∈ F.records l) :
    F.header ≤ r.length ∧ F.len r = r.length ∧ r.length ≤ l.length := by
  induction l using records.induct F with
  | case1 l hok ih =>
    obtain ⟨hl, hlen, hle⟩ := hok
    rw [records_of_ok ⟨hl, hlen, hle⟩] at h
    rcases List.mem_cons.mp h with rfl | h
    · have hmin : (l.take (F.len l)).length = F.len l := List.length_take_of_le hle
      rw [hmin, len_take hlen hl]
      exact ⟨hlen, rfl, hle⟩
    · obtain ⟨h₁, h₂, h₃⟩ := ih h
      rw [List.length_drop] at h₃
      exact ⟨h₁, h₂, Nat.le_trans h₃ (Nat.sub_le _ _)⟩
  | case2 l hok =>
    rw [records_of_not_ok hok] at h
    cases h

/-- A record says its own length. -/
structure WellFormed (F : Framing α) (r : List α) : Prop where
  /-- There is room for the header. -/
  header_le : F.header ≤ r.length
  /-- The length in it is the length of the record. -/
  len_eq : F.len r = r.length

theorem WellFormed.len_append (h : F.WellFormed r) (l : List α) : F.len (r ++ l) = r.length := by
  rw [F.len_append r l h.header_le, h.len_eq]

theorem WellFormed.ok_append (h : F.WellFormed r) (l : List α) : F.Ok (r ++ l) := by
  have hle := h.header_le
  refine ⟨?_, ?_, ?_⟩
  · rw [List.length_append]
    omega
  · rw [h.len_append]
    exact hle
  · rw [h.len_append, List.length_append]
    exact Nat.le_add_right _ _

/-- A record with its padding is found, and the walk goes on behind it. -/
theorem records_cons (h : F.WellFormed r) (hpad : r.length + pad.length = F.align r.length)
    (l : List α) : F.records (r ++ (pad ++ l)) = r :: F.records l := by
  rw [records_of_ok (h.ok_append _), h.len_append, List.take_left, ← hpad, ← List.length_append,
    ← List.append_assoc, List.drop_left]

/-- The last record is found as well if less padding follows it, or none. -/
theorem records_last (h : F.WellFormed r) (pad : List α)
    (hpad : r.length + pad.length ≤ F.align r.length) : F.records (r ++ pad) = [r] := by
  have hend : (r ++ pad).drop (F.align r.length) = [] := by
    refine List.drop_eq_nil_of_le ?_
    rwa [List.length_append]
  rw [records_of_ok (h.ok_append _), h.len_append, List.take_left, hend, records_nil]

/-- Where a record is found, and how far it reaches. -/
theorem of_records_eq {rs rs' : List (List α)} (h : F.records l = rs ++ r :: rs') :
    (l.drop (F.extent rs)).take r.length = r ∧ F.extent rs + r.length ≤ l.length := by
  induction rs generalizing l with
  | nil =>
    by_cases hok : F.Ok l
    · rw [records_of_ok hok, List.nil_append] at h
      obtain ⟨rfl, -⟩ := List.cons.inj h
      have hle := hok.2.2
      have hlen : (l.take (F.len l)).length = F.len l := List.length_take_of_le hle
      rw [hlen, extent_nil, List.drop_zero, Nat.zero_add]
      exact ⟨rfl, hle⟩
    · rw [records_of_not_ok hok] at h
      cases h
  | cons s rs ih =>
    by_cases hok : F.Ok l
    · rw [records_of_ok hok, List.cons_append] at h
      obtain ⟨rfl, hrest⟩ := List.cons.inj h
      have hlen : (l.take (F.len l)).length = F.len l := List.length_take_of_le hok.2.2
      obtain ⟨htake, hle⟩ := ih hrest
      rw [List.drop_drop] at htake
      rw [List.length_drop] at hle
      rw [extent_cons, hlen]
      refine ⟨htake, ?_⟩
      have hmem : r ∈ F.records (l.drop (F.align (F.len l))) := by
        rw [hrest]
        simp
      have hpos := F.header_pos
      have hr := (mem_records hmem).1
      omega
    · rw [records_of_not_ok hok] at h
      cases h

/-! ## Records in a window of memory -/

/-- Whether a record stands in a window of some bytes is a matter of the length in it. -/
theorem ok_take {k : ℕ} (hk : k ≤ l.length) :
    F.Ok (l.take k) ↔ F.header ≤ k ∧ F.header ≤ F.len l ∧ F.len l ≤ k := by
  rw [Ok, List.length_take_of_le hk]
  refine and_congr_right fun hle => ?_
  rw [len_take hle (Nat.le_trans hle hk)]

section Window

variable {off : ℕ} {n : ℤ}

/-- A walk that counts the bytes that are left with a signed number finds the first record, and goes
on with what is left behind it. -/
theorem records_window (hn : off + n ≤ l.length) (h : (F.header : ℤ) ≤ n)
    (hlen : F.header ≤ F.len (l.drop off) ∧ (F.len (l.drop off) : ℤ) ≤ n) :
    F.records ((l.drop off).take n.toNat) = (l.drop off).take (F.len (l.drop off)) ::
      F.records ((l.drop (off + F.align (F.len (l.drop off)))).take
        (n - F.align (F.len (l.drop off))).toNat) := by
  have hk : n.toNat ≤ (l.drop off).length := by
    rw [List.length_drop]
    omega
  have hh : F.header ≤ n.toNat := by omega
  have hle : F.len (l.drop off) ≤ n.toNat := by omega
  have hrest : (n - F.align (F.len (l.drop off))).toNat =
      n.toNat - F.align (F.len (l.drop off)) := by omega
  rw [records_of_ok ((ok_take hk).mpr ⟨hh, hlen.1, hle⟩), len_take hh (Nat.le_trans hh hk),
    List.take_take, Nat.min_eq_left hle, List.drop_take, List.drop_drop, hrest]

/-- There are no records where there is no room for a header. -/
theorem records_window_of_lt (h : n < F.header) : F.records ((l.drop off).take n.toNat) = [] := by
  refine records_of_not_ok fun hok => ?_
  have hlen := hok.1
  have hpos := F.header_pos
  rw [List.length_take] at hlen
  omega

/-- There are no records where the length is too small or too large. -/
theorem records_window_of_not (hn : off + n ≤ l.length) (h : (F.header : ℤ) ≤ n)
    (hlen : ¬ (F.header ≤ F.len (l.drop off) ∧ (F.len (l.drop off) : ℤ) ≤ n)) :
    F.records ((l.drop off).take n.toNat) = [] := by
  refine records_of_not_ok fun hok => hlen ?_
  have hk : n.toNat ≤ (l.drop off).length := by
    rw [List.length_drop]
    omega
  obtain ⟨-, hge, hle⟩ := (ok_take hk).mp hok
  omega

end Window

end Framing

end Encoding
