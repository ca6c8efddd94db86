import UnixNetwork.StrCli01

/-!
# A file that is read with `fgets`

The programs that read their input with `fgets` into 1024 bytes and write it with `strlen` read it
in pieces of at most 1023 bytes, and of each piece they write what stands before its first NUL.

## Main definitions

* `TextInput.texts`: what is written of a file, line by line
* `TextInput.Left`: what is left of a file

## Main results

* `TextInput.Left.next`: what one call of `fgets` does
* `TextInput.flatten_texts`: where there are no NULs in the file, all of it is written
-/

namespace UnixNetwork

namespace TextInput

open Encoding
open StrCli01 (newline nextLine)

/-- What is written of a file, line by line. -/
def texts (input : List Byte) : List (List Byte) := (pieces newline 1023 input).map CString.str

/-- `k` lines of `input` have been read, and `file` is left. -/
def Left (input : List Byte) (k : ℕ) (file : List Byte) : Prop :=
  pieces newline 1023 file = (pieces newline 1023 input).drop k

variable {input file : List Byte} {k : ℕ}

theorem left_zero (input : List Byte) : Left input 0 input := rfl

theorem length_of_nextLine {l : List Byte} (h : nextLine 1024 file = some l) : l.length < 1024 := by
  by_cases hfile : file = []
  · subst hfile
    cases h
  · rw [StrCli01.nextLine_of_ne_nil hfile] at h
    cases h
    exact Nat.lt_succ_of_le (length_piece_le newline 1023 file)

theorem length_getD_nextLine (file : List Byte) : ((nextLine 1024 file).getD []).length < 1024 := by
  cases h : nextLine 1024 file with
  | none => exact Nat.zero_lt_succ _
  | some l => exact length_of_nextLine h

/-- Text without a NUL is a line that is not empty. -/
theorem str_nextLine_ne_nil (h0 : 0 ∉ file) (hfile : file ≠ []) :
    CString.str ((nextLine 1024 file).getD []) ≠ [] := by
  rw [StrCli01.nextLine_of_ne_nil hfile, Option.getD_some, CString.str_eq_self_iff.mpr]
  · exact piece_ne_nil (by omega) hfile
  · exact fun h => h0 ((prefix_firstLine file).subset ((List.take_prefix _ _).subset h))

theorem length_texts_le_of_left_nil (h : Left input k []) : (texts input).length ≤ k := by
  rw [Left, pieces_nil, eq_comm, List.drop_eq_nil_iff] at h
  rwa [texts, List.length_map]

/-- **A call of `fgets`** reads the next line, and none at the end of the file. -/
theorem Left.next (h : Left input k file) :
    (texts input).take (k + 1) =
        (texts input).take k ++ (nextLine 1024 file).toList.map CString.str ∧
      Left input (k + 1) (file.drop ((nextLine 1024 file).getD []).length) := by
  by_cases hfile : file = []
  · subst hfile
    have hlen := length_texts_le_of_left_nil h
    have hnext : nextLine 1024 [] = none := rfl
    rw [List.take_of_length_le hlen, List.take_of_length_le (hlen.trans k.le_succ), hnext]
    refine ⟨by simp, ?_⟩
    rw [Left, List.drop_nil, pieces_nil, eq_comm, List.drop_eq_nil_iff]
    rw [texts, List.length_map] at hlen
    exact hlen.trans k.le_succ
  · rw [Left, pieces_of_ne_nil newline (by omega) hfile] at h
    have hk : (pieces newline 1023 input)[k]? = some (piece newline 1023 file) := by
      rw [← List.head?_drop, ← h, List.head?_cons]
    rw [StrCli01.nextLine_of_ne_nil hfile, Left, texts, List.take_add_one, List.getElem?_map, hk,
      ← List.tail_drop, ← h]
    exact ⟨rfl, rfl⟩

theorem Left.flatten_next (h : Left input k file) :
    ((texts input).take (k + 1)).flatten =
        ((texts input).take k).flatten ++ CString.str ((nextLine 1024 file).getD []) ∧
      Left input (k + 1) (file.drop ((nextLine 1024 file).getD []).length) := by
  refine ⟨?_, h.next.2⟩
  rw [h.next.1, List.flatten_append]
  cases nextLine 1024 file with
  | none => rfl
  | some l => rw [Option.toList_some, List.map_singleton, List.flatten_singleton, Option.getD_some]

theorem Left.mem_input (h : Left input k file) {b : Byte} (hb : b ∈ file) : b ∈ input := by
  rw [← flatten_pieces newline (n := 1023) (by omega) file, h] at hb
  rw [← flatten_pieces newline (n := 1023) (by omega) input]
  obtain ⟨l, hl, hbl⟩ := List.mem_flatten.mp hb
  exact List.mem_flatten.mpr ⟨l, List.mem_of_mem_drop hl, hbl⟩

theorem zero_notMem_of_mem_texts {t : List Byte} (h : t ∈ texts input) : 0 ∉ t := by
  obtain ⟨l, -, rfl⟩ := List.mem_map.mp h
  exact CString.zero_notMem_str l

theorem zero_notMem_flatten_texts : 0 ∉ (texts input).flatten := by
  intro h
  obtain ⟨t, ht, h0⟩ := List.mem_flatten.mp h
  exact zero_notMem_of_mem_texts ht h0

/-- Where there are no NULs in the file, all of it is written. -/
theorem flatten_texts (h0 : 0 ∉ input) : (texts input).flatten = input := by
  have hpieces : (pieces newline 1023 input).flatten = input :=
    flatten_pieces newline (by omega) input
  nth_rewrite 2 [← hpieces]
  rw [texts, ← List.flatMap_def, CString.flatMap_str_eq_flatten_iff]
  exact fun l hl h => h0 (hpieces ▸ List.mem_flatten.mpr ⟨l, hl, h⟩)

theorem length_flatten_texts_le (input : List Byte) :
    (texts input).flatten.length ≤ input.length := by
  have hstr : ∀ ls : List (List Byte), (ls.map CString.str).flatten.length ≤ ls.flatten.length := by
    intro ls
    induction ls with
    | nil => exact le_rfl
    | cons l ls ih =>
      have hl := CString.length_str_le l
      simp only [List.map_cons, List.flatten_cons, List.length_append]
      omega
  conv_rhs => rw [← flatten_pieces newline (n := 1023) (by omega) input]
  exact hstr _

end TextInput

end UnixNetwork
