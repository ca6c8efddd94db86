import Mathlib.Data.List.Basic

/-!
# Lines, and the pieces they are read in

A line goes on to the next line end and has it with it; the last line of a text may have none. A
reader with little room reads a line in pieces: each piece ends where its line ends, or where there
is no more room.

## Main definitions

* `firstLine`, `lines`: the lines of a text
* `piece`, `pieces`: what a reader reads that has room for `n` elements

## Main results

* `flatten_pieces`: nothing is lost between the pieces
* `pieces_eq_lines`: the pieces are the lines if each line fits
* `length_lines_le`: there are as many pieces as lines only if each line fits
-/

namespace Encoding

variable {α : Type} [DecidableEq α]

/-- The first line of a text; `nl` ends a line. -/
def firstLine (nl : α) : List α → List α
  | [] => []
  | a :: l => if a = nl then [a] else a :: firstLine nl l

/-- The lines of a text. -/
def lines (nl : α) : List α → List (List α)
  | [] => []
  | a :: l =>
    if a = nl then [a] :: lines nl l
    else match lines nl l with
      | [] => [[a]]
      | line :: rest => (a :: line) :: rest

/-- What is read of the first line with room for `n` elements. -/
def piece (nl : α) (n : ℕ) (l : List α) : List α := (firstLine nl l).take n

/-- The pieces a text is read in. -/
def pieces (nl : α) (n : ℕ) (l : List α) : List (List α) :=
  if _ : piece nl n l = [] then []
  else piece nl n l :: pieces nl n (l.drop (piece nl n l).length)
termination_by l.length
decreasing_by
  have hpos : 0 < (piece nl n l).length := List.length_pos_iff.mpr ‹_›
  have hne : l ≠ [] := by
    rintro rfl
    exact ‹piece nl n [] ≠ []› (by simp [piece, firstLine])
  have := List.length_pos_iff.mpr hne
  rw [List.length_drop]
  omega

variable {nl : α} {n : ℕ} {l : List α}

/-! ## The first line -/

theorem firstLine_ne_nil (h : l ≠ []) : firstLine nl l ≠ [] := by
  cases l with
  | nil => exact absurd rfl h
  | cons a l =>
    rw [firstLine]
    split <;> exact List.cons_ne_nil _ _

theorem prefix_firstLine (l : List α) : firstLine nl l <+: l := by
  induction l with
  | nil => exact List.prefix_refl _
  | cons a l ih =>
    rw [firstLine]
    split
    · exact List.prefix_append [a] l
    · exact (List.prefix_cons_inj a).mpr ih

/-- The lines are the first line and the lines behind it. -/
theorem lines_of_ne_nil (h : l ≠ []) :
    lines nl l = firstLine nl l :: lines nl (l.drop (firstLine nl l).length) := by
  induction l with
  | nil => exact absurd rfl h
  | cons a l ih =>
    rw [lines, firstLine]
    split
    · rfl
    · rw [List.length_cons, List.drop_succ_cons]
      cases l with
      | nil => rfl
      | cons b l => rw [ih (List.cons_ne_nil b l)]

/-- What is left of the first line when a part of it has been read. -/
theorem firstLine_drop (h : n < (firstLine nl l).length) :
    firstLine nl (l.drop n) = (firstLine nl l).drop n := by
  induction l generalizing n with
  | nil => simp [firstLine] at h
  | cons a l ih =>
    cases n with
    | zero => rfl
    | succ n =>
      rw [firstLine] at h ⊢
      split at h
      next ha => simp at h
      next ha =>
        rw [if_neg ha, List.drop_succ_cons, List.drop_succ_cons]
        exact ih (by simpa using h)

/-- A line that has been read in part is still a line. -/
theorem lines_drop (h : n < (firstLine nl l).length) :
    lines nl (l.drop n) =
      (firstLine nl l).drop n :: lines nl (l.drop (firstLine nl l).length) := by
  have hne : firstLine nl (l.drop n) ≠ [] := by
    rw [firstLine_drop h]
    exact fun hnil => absurd (List.drop_eq_nil_iff.mp hnil) (Nat.not_le_of_lt h)
  have hdrop : l.drop n ≠ [] := by
    intro hnil
    rw [hnil] at hne
    exact hne rfl
  rw [lines_of_ne_nil hdrop, firstLine_drop h, List.drop_drop, List.length_drop,
    Nat.add_sub_cancel' (Nat.le_of_lt h)]

/-! ## Pieces -/

theorem piece_of_le (h : (firstLine nl l).length ≤ n) : piece nl n l = firstLine nl l :=
  List.take_of_length_le h

theorem length_piece_of_lt (h : n < (firstLine nl l).length) : (piece nl n l).length = n :=
  List.length_take_of_le (Nat.le_of_lt h)

theorem length_piece_le (nl : α) (n : ℕ) (l : List α) : (piece nl n l).length ≤ n :=
  List.length_take_le n _

@[simp] theorem piece_nil (nl : α) (n : ℕ) : piece nl n [] = [] := List.take_nil

theorem piece_ne_nil (hn : 0 < n) (h : l ≠ []) : piece nl n l ≠ [] := by
  rw [piece, ne_eq, List.take_eq_nil_iff]
  rintro (h0 | hnil)
  · omega
  · exact firstLine_ne_nil h hnil

@[simp] theorem pieces_nil (nl : α) (n : ℕ) : pieces nl n [] = [] := by
  rw [pieces, dif_pos (piece_nil nl n)]

/-- The pieces are the first one and those behind it. -/
theorem pieces_of_ne_nil (nl : α) (hn : 0 < n) (h : l ≠ []) :
    pieces nl n l = piece nl n l :: pieces nl n (l.drop (piece nl n l).length) := by
  rw [pieces, dif_neg (piece_ne_nil hn h)]

/-- A text is shorter when a piece of it has been read. -/
theorem length_drop_piece_lt (nl : α) (hn : 0 < n) (h : l ≠ []) :
    (l.drop (piece nl n l).length).length < l.length := by
  have hpiece : 0 < (piece nl n l).length := List.length_pos_iff.mpr (piece_ne_nil hn h)
  have hl : 0 < l.length := List.length_pos_iff.mpr h
  rw [List.length_drop]
  omega

/-- Induction from one piece to the next. -/
@[elab_as_elim] theorem piece_induction {motive : List α → Prop} (nl : α) (hn : 0 < n)
    (nil : motive [])
    (piece : ∀ l, l ≠ [] → motive (l.drop (piece nl n l).length) → motive l) (l : List α) :
    motive l := by
  generalize hk : l.length = k
  induction k using Nat.strongRecOn generalizing l with
  | _ k ih =>
    by_cases hl : l = []
    · rw [hl]
      exact nil
    · exact piece l hl (ih _ (hk ▸ length_drop_piece_lt nl hn hl) _ rfl)

/-- Nothing is lost between the pieces. -/
theorem flatten_pieces (nl : α) (hn : 0 < n) (l : List α) : (pieces nl n l).flatten = l := by
  induction l using piece_induction nl hn with
  | nil => rw [pieces_nil, List.flatten_nil]
  | piece l hl ih =>
    have hprefix : piece nl n l <+: l := (List.take_prefix _ _).trans (prefix_firstLine l)
    rw [pieces_of_ne_nil nl hn hl, List.flatten_cons, ih]
    exact (List.prefix_iff_eq_append.mp hprefix)

/-- Lines that fit are read as they are. -/
theorem pieces_eq_lines (nl : α) (hn : 0 < n) (h : ∀ line ∈ lines nl l, line.length ≤ n) :
    pieces nl n l = lines nl l := by
  induction l using piece_induction nl hn with
  | nil => rw [pieces_nil, lines]
  | piece l hl ih =>
    rw [lines_of_ne_nil hl] at h ⊢
    have hfirst := piece_of_le (h _ List.mem_cons_self)
    rw [hfirst] at ih
    have hrest := ih fun line hline => h line (List.mem_cons_of_mem _ hline)
    rw [pieces_of_ne_nil nl hn hl, hfirst, hrest]

/-- There are no fewer pieces than lines, and as many only if each line fits. -/
theorem length_lines_le (nl : α) (hn : 0 < n) (l : List α) :
    (lines nl l).length ≤ (pieces nl n l).length ∧
      ((pieces nl n l).length = (lines nl l).length → ∀ line ∈ lines nl l, line.length ≤ n) := by
  induction l using piece_induction nl hn with
  | nil =>
    rw [pieces_nil, lines]
    simp
  | piece l hl ih =>
    rw [lines_of_ne_nil hl, pieces_of_ne_nil nl hn hl, List.length_cons, List.length_cons]
    by_cases hfirst : (firstLine nl l).length ≤ n
    · rw [piece_of_le hfirst] at ih ⊢
      refine ⟨Nat.succ_le_succ ih.1, fun heq line hline => ?_⟩
      rcases List.mem_cons.mp hline with rfl | hline
      · exact hfirst
      · exact ih.2 (Nat.succ.inj heq) line hline
    · -- what is left of the first line counts once more
      have hlong : n < (firstLine nl l).length := Nat.lt_of_not_le hfirst
      rw [length_piece_of_lt hlong, lines_drop hlong, List.length_cons] at ih
      rw [length_piece_of_lt hlong]
      exact ⟨by omega, fun heq => by omega⟩

end Encoding
