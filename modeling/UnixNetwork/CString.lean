import Mathlib.Algebra.Group.Defs
import Mathlib.Data.List.Basic
import Mathlib.Data.List.TakeWhile

/-!
# Strings that end with a zero

A string in memory is what stands before the first zero, and it is one only if there is a zero. In
memory that may not have been written everywhere, all that stands before the zero must have been
written as well.

## Main definitions

* `CString.Terminated`, `CString.str`: there is a zero, and what stands before it
* `CString.strcpy`, `CString.strncpy`: what the two functions write
* `CString.read`: the string in memory that may not have been written

## Main results

* `CString.str_append_zero`: a string can be read back
* `CString.read_strncpy`: what can be read back of a string that may have been cut off
-/

namespace CString

variable {α : Type*} [Zero α] {s l : List α}

/-- There is a zero in the memory. -/
def Terminated (l : List α) : Prop := 0 ∈ l

theorem terminated_append_zero (s l : List α) : Terminated (s ++ 0 :: l) :=
  List.mem_append_right _ List.mem_cons_self

variable [DecidableEq α]

instance : Decidable (Terminated l) := inferInstanceAs (Decidable (0 ∈ l))

/-- What stands before the first zero. -/
def str (l : List α) : List α := l.takeWhile (· ≠ 0)

theorem zero_notMem_str (l : List α) : 0 ∉ str l := by
  intro h
  have := List.all_eq_true.mp List.all_takeWhile 0 h
  simp at this

/-- What is stored in front of a zero can be read back. -/
theorem str_append_zero (h : 0 ∉ s) (l : List α) : str (s ++ 0 :: l) = s := by
  have hs : ∀ a ∈ s, decide (a ≠ 0) = true := by
    intro a ha
    exact decide_eq_true fun h0 => h (h0 ▸ ha)
  rw [str, List.takeWhile_append_of_pos hs, List.takeWhile_cons_of_neg (by simp), List.append_nil]

/-- A string that ends with its zero does not go on behind it. -/
theorem str_append_of_mem (h : 0 ∈ s) (l : List α) : str (s ++ l) = str s := by
  induction s with
  | nil => cases h
  | cons a s ih =>
    rw [List.cons_append, str, str]
    by_cases ha : a = 0
    · rw [List.takeWhile_cons_of_neg (by simp [ha]), List.takeWhile_cons_of_neg (by simp [ha])]
    · have hs : 0 ∈ s := by
        rcases List.mem_cons.mp h with h0 | hs
        · exact absurd h0.symm ha
        · exact hs
      rw [List.takeWhile_cons_of_pos (by simp [ha]), List.takeWhile_cons_of_pos (by simp [ha])]
      exact congrArg (a :: ·) (ih hs)

/-- What is printed of a string are its first bytes. -/
theorem str_prefix (l : List α) : str l <+: l := List.takeWhile_prefix _

/-- A list without a zero is a string as it is. -/
theorem str_eq_self_iff : str s = s ↔ 0 ∉ s := by
  constructor
  · intro h
    rw [← h]
    exact zero_notMem_str s
  · intro h
    refine List.takeWhile_eq_self_iff.mpr fun a ha => decide_eq_true ?_
    rintro rfl
    exact h ha

theorem length_str_le (l : List α) : (str l).length ≤ l.length :=
  List.IsPrefix.length_le <| str_prefix l

/-- A zero behind a list does not change the string in it. -/
theorem str_append_cons (l m : List α) : str (l ++ 0 :: m) = str l := by
  by_cases h : 0 ∈ l
  · exact str_append_of_mem h _
  · rw [str_append_zero h, str_eq_self_iff.mpr h]

/-- A string in memory that has been cleared. -/
theorem str_append_replicate (l : List α) (m : ℕ) : str (l ++ List.replicate m 0) = str l := by
  cases m with
  | zero => rw [List.replicate_zero, List.append_nil]
  | succ m => rw [List.replicate_succ, str_append_cons]

/-- A list is a string, or begins with one that ends with its zero. -/
theorem eq_str_or (l : List α) : l = str l ∨ ∃ m, l = str l ++ 0 :: m := by
  induction l with
  | nil => exact .inl rfl
  | cons a l ih =>
    by_cases ha : a = 0
    · refine .inr ⟨l, ?_⟩
      rw [str, List.takeWhile_cons_of_neg (by simp [ha]), ha, List.nil_append]
    · rw [str, List.takeWhile_cons_of_pos (by simp [ha]), ← str]
      rcases ih with h | ⟨m, h⟩
      · exact .inl (congrArg (a :: ·) h)
      · exact .inr ⟨m, congrArg (a :: ·) h⟩

omit [DecidableEq α] in
theorem terminated_append_replicate {l : List α} {m : ℕ} :
    Terminated (l ++ List.replicate m 0) ↔ 0 ∈ l ∨ 0 < m := by
  rw [Terminated, List.mem_append, List.mem_replicate, Nat.pos_iff_ne_zero, and_iff_left rfl]

/-- A string that ends with its zero, and what stands behind it. -/
theorem exists_eq_str_append (h : Terminated l) : ∃ m, l = str l ++ 0 :: m := by
  rcases eq_str_or l with hl | hl
  · rw [hl] at h
    exact absurd h (zero_notMem_str l)
  · exact hl

theorem str_ne_nil (hl : l ≠ []) (h0 : l.head? ≠ some 0) : str l ≠ [] := by
  cases l with
  | nil => exact absurd rfl hl
  | cons a l =>
    have ha : a ≠ 0 := fun ha => h0 (congrArg some ha)
    rw [str, List.takeWhile_cons_of_pos (by simp [ha])]
    exact List.cons_ne_nil _ _

/-- A zero that is written into a string cuts it off. -/
theorem str_set {i : ℕ} (hi : i < (str l).length) : str (l.set i 0) = (str l).take i := by
  obtain ⟨m, hm⟩ := str_prefix l
  have h0 : 0 ∉ (str l).take i := fun h => zero_notMem_str l (List.mem_of_mem_take h)
  calc str (l.set i 0)
      = str ((str l).set i 0 ++ m) := by rw [← List.set_append_left _ _ hi, hm]
    _ = str ((str l).take i ++ 0 :: ((str l).drop (i + 1) ++ m)) := by
        rw [List.set_eq_take_append_cons_drop, if_pos hi, List.append_assoc, List.cons_append]
    _ = (str l).take i := str_append_zero h0 _

/-- The strings in some lists, one after the other, are the lists if there is no zero in any. -/
theorem flatMap_str_eq_flatten_iff {ls : List (List α)} :
    ls.flatMap str = ls.flatten ↔ ∀ l ∈ ls, 0 ∉ l := by
  have hle : ∀ ls : List (List α), (ls.flatMap str).length ≤ ls.flatten.length := by
    intro ls
    induction ls with
    | nil => exact Nat.le_refl _
    | cons l ls ih =>
      rw [List.flatMap_cons, List.flatten_cons, List.length_append, List.length_append]
      exact Nat.add_le_add (length_str_le l) ih
  induction ls with
  | nil => simp
  | cons l ls ih =>
    rw [List.flatMap_cons, List.flatten_cons, List.forall_mem_cons]
    constructor
    · intro h
      have hlen := congrArg List.length h
      rw [List.length_append, List.length_append] at hlen
      have hl := length_str_le l
      have hls := hle ls
      obtain ⟨hl', hls'⟩ := List.append_inj h (by omega)
      exact ⟨str_eq_self_iff.mp hl', ih.mp hls'⟩
    · rintro ⟨hl, hls⟩
      rw [str_eq_self_iff.mpr hl, ih.mpr hls]

/-! ## Copying -/

/-- What `strcpy` writes. -/
def strcpy (s : List α) : List α := s ++ [0]

/-- What `strncpy` writes: `n` bytes in any case, zeros where the string has ended, and none of them
if the string is that long. -/
def strncpy (s : List α) (n : ℕ) : List α := s.take n ++ List.replicate (n - s.length) 0

omit [DecidableEq α] in
@[simp] theorem length_strcpy (s : List α) : (strcpy s).length = s.length + 1 := by simp [strcpy]

omit [DecidableEq α] in
@[simp] theorem length_strncpy (s : List α) (n : ℕ) : (strncpy s n).length = n := by
  rw [strncpy, List.length_append, List.length_take, List.length_replicate]
  omega

/-- The string that stands in memory, where `none` has not been written. -/
def read : List (Option α) → Option (List α)
  | some a :: l => if a = 0 then some [] else (read l).map (a :: ·)
  | _ => none

@[simp] theorem read_zero (l : List (Option α)) : read (some 0 :: l) = some [] := if_pos rfl

/-- Bytes other than zero stand in front of what follows them. -/
theorem read_append (h : 0 ∉ s) (l : List (Option α)) :
    read (s.map some ++ l) = (read l).map (s ++ ·) := by
  induction s with
  | nil => simp
  | cons a s ih =>
    obtain ⟨ha, hs⟩ := not_or.mp (mt List.mem_cons.mpr h)
    rw [List.map_cons, List.cons_append, read, if_neg (Ne.symm ha), ih hs, Option.map_map]
    rfl

/-- What stands behind a string does not matter. -/
theorem read_append_of_eq_some {l : List (Option α)} (h : read l = some s)
    (l' : List (Option α)) : read (l ++ l') = some s := by
  induction l generalizing s with
  | nil => cases h
  | cons a l ih =>
    rcases a with _ | a
    · cases h
    rw [List.cons_append, read]
    rw [read] at h
    split at h
    next ha => rw [if_pos ha, h]
    next ha =>
      obtain ⟨s', hs', rfl⟩ := Option.map_eq_some_iff.mp h
      rw [if_neg ha, ih hs', Option.map_some]

/-- A string that has been copied can be read back. -/
theorem read_strcpy (h : 0 ∉ s) (l : List (Option α)) :
    read ((strcpy s).map some ++ l) = some s := by
  rw [strcpy, List.map_append, List.append_assoc, read_append h]
  simp

/-- A string that is shorter than `n` can be read back. If it is not, what can be read depends on
what stands behind. -/
theorem read_strncpy (h : 0 ∉ s) (n : ℕ) (l : List (Option α)) :
    read ((strncpy s n).map some ++ l) =
      if s.length < n then some s else (read l).map (s.take n ++ ·) := by
  rw [strncpy, List.map_append, List.append_assoc,
    read_append fun hmem => h (List.mem_of_mem_take hmem)]
  split
  next hlt =>
    obtain ⟨m, hm⟩ := Nat.exists_eq_succ_of_ne_zero (Nat.sub_ne_zero_of_lt hlt)
    rw [hm, List.take_of_length_le (Nat.le_of_lt hlt), List.replicate_succ, List.map_cons,
      List.cons_append, read_zero]
    simp
  next hge => rw [Nat.sub_eq_zero_of_le (Nat.le_of_not_lt hge)]; rfl

end CString
