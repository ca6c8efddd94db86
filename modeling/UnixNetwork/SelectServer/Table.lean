import UnixNetwork.SelectServer
import Mathlib.Data.Finset.Card
import Mathlib.Order.Interval.Finset.Nat
import Mathlib.Data.Int.Interval
import Mathlib.Data.Fintype.Pigeonhole

/-!
# The table of the select server

`client[]`, `allset`, `maxfd` and `maxi` hold the same information four times. `Consistent` says
how they fit together, and this file shows that taking a slot and giving one up keep them so. The
calls of the server do not occur here; only the effect of its branches on its variables does.

The search for a free slot runs to `i <= FD_SETSIZE`, one index too far, so that it stays inside
the table is a theorem about the table (`exists_free`): the listening descriptor takes one of the
`FD_SETSIZE` numbers, the entries are different numbers below `FD_SETSIZE`, hence one slot is free.

## Main results

* `Consistent.exists_free`, `Consistent.findSlot_eq`: the search ends at a free slot
* `Consistent.occupy`, `Consistent.release`: a slot is taken and given up
* `Consistent.install_eq`, `serve_eq`: the branches, as calls and these two changes
-/

namespace UnixNetwork

namespace SelectServer

open Interaction

/-- The entry of slot `i`, which is `-1` for a slot the table does not have. -/
def fdAt (client : Vector ℤ fdSetsize) (i : ℕ) : ℤ := client[i]?.getD (-1)

theorem fdAt_of_lt {client : Vector ℤ fdSetsize} {i : ℕ} (h : i < fdSetsize) :
    fdAt client i = client[i] := by
  simp [fdAt, h]

theorem fdAt_of_le {client : Vector ℤ fdSetsize} {i : ℕ} (h : fdSetsize ≤ i) :
    fdAt client i = -1 := by
  simp [fdAt, h]

@[simp] theorem fdAt_set {client : Vector ℤ fdSetsize} {j : ℕ} (hj : j < fdSetsize) (v : ℤ)
    (i : ℕ) : fdAt (client.set j v hj) i = if i = j then v else fdAt client i := by
  rcases lt_or_ge i fdSetsize with hi | hi
  · rw [fdAt_of_lt hi, fdAt_of_lt hi, Vector.getElem_set]
    simp [eq_comm]
  · rw [fdAt_of_le hi, fdAt_of_le hi, if_neg (by omega)]

@[simp] theorem fdAt_replicate (i : ℕ) : fdAt (Vector.replicate fdSetsize (-1)) i = -1 := by
  rcases lt_or_ge i fdSetsize with hi | hi
  · simp [fdAt_of_lt hi]
  · exact fdAt_of_le hi

/-- `fd` is in the table. -/
def Locals.Holds (s : Locals) (fd : ℤ) : Prop := 0 ≤ fd ∧ ∃ i, fdAt s.client i = fd

/-- The four pieces of state agree. -/
structure Consistent (listenfd : ℤ) (s : Locals) : Prop where
  /-- The listening descriptor has a bit. -/
  listen : InRange listenfd
  /-- A free slot holds `-1`. -/
  free : ∀ i, fdAt s.client i < 0 → fdAt s.client i = -1
  /-- No descriptor is in two slots. -/
  inj : ∀ i j, 0 ≤ fdAt s.client i → fdAt s.client i = fdAt s.client j → i = j
  /-- The listening descriptor is in none. -/
  ne_listen : ∀ i, fdAt s.client i ≠ listenfd
  /-- The watched descriptors are the listening one and those in the table. -/
  mem_allset : ∀ fd, fd ∈ s.allset ↔ fd = listenfd ∨ s.Holds fd
  /-- No watched descriptor is above `maxfd`. -/
  le_maxfd : ∀ fd ∈ s.allset, fd ≤ s.maxfd
  /-- The slots above `maxi` are free. -/
  above_maxi : ∀ i : ℕ, s.maxi < i → fdAt s.client i = -1
  /-- `maxi` is a slot, or `-1`. -/
  maxi_lt : s.maxi < fdSetsize

theorem consistent_start {listenfd : ℤ} (h : InRange listenfd) (buf : Buf 1024) :
    Consistent listenfd (start listenfd h buf) where
  listen := h
  free i _ := fdAt_replicate i
  inj i j hi := by
    simp only [start, fdAt_replicate] at hi
    omega
  ne_listen i := by
    have := h.1
    simp only [start, fdAt_replicate]
    omega
  mem_allset fd := by
    simp only [start, FdSet.mem_insert, FdSet.notMem_zero, Locals.Holds, fdAt_replicate]
    constructor
    · rintro (rfl | h)
      · exact .inl rfl
      · exact h.elim
    · rintro (rfl | ⟨h0, _, rfl⟩)
      · exact .inl rfl
      · omega
  le_maxfd fd hfd := by
    simp only [start, FdSet.mem_insert, FdSet.notMem_zero, or_false] at hfd
    exact hfd.le
  above_maxi i _ := fdAt_replicate i
  maxi_lt := by
    simp only [start]
    omega

namespace Consistent

variable {listenfd : ℤ} {s : Locals}

theorem inRange_of_holds (h : Consistent listenfd s) {fd : ℤ} (hfd : s.Holds fd) : InRange fd :=
  FdSet.inRange_of_mem ((h.mem_allset fd).mpr (.inr hfd))

theorem listen_mem (h : Consistent listenfd s) : listenfd ∈ s.allset :=
  (h.mem_allset listenfd).mpr (.inl rfl)

/-- **The table is never full.** Its entries are different descriptors below `FD_SETSIZE`, and the
listening descriptor is none of them. -/
theorem exists_free (h : Consistent listenfd s) : ∃ i, i < fdSetsize ∧ fdAt s.client i = -1 := by
  by_contra hno
  push Not at hno
  have hnonneg : ∀ i < fdSetsize, 0 ≤ fdAt s.client i := fun i hi => by
    by_contra hneg
    exact hno i hi (h.free i (not_le.mp hneg))
  have hmaps : ∀ i ∈ Finset.range fdSetsize,
      fdAt s.client i ∈ (Finset.Ico 0 (fdSetsize : ℤ)).erase listenfd := fun i hi => by
    have hi0 := hnonneg i (Finset.mem_range.mp hi)
    have hr := h.inRange_of_holds ⟨hi0, i, rfl⟩
    exact Finset.mem_erase.mpr ⟨h.ne_listen i, Finset.mem_Ico.mpr hr⟩
  have hcard : ((Finset.Ico 0 (fdSetsize : ℤ)).erase listenfd).card
      < (Finset.range fdSetsize).card := by
    rw [Finset.card_erase_of_mem (Finset.mem_Ico.mpr h.listen), Int.card_Ico, Finset.card_range]
    have : 0 < fdSetsize := by decide
    omega
  obtain ⟨i, hi, j, _, hij, he⟩ := Finset.exists_ne_map_eq_of_card_lt_of_maps_to hcard hmaps
  exact hij (h.inj i j (hnonneg i (Finset.mem_range.mp hi)) he)

end Consistent

/-! ## The search for a free slot -/

/-- The search stops at the first free slot, if there is one among those it looks at. -/
theorem findSlot_eq (connfd : ℤ) {client : Vector ℤ fdSetsize} {left i m : ℕ} (him : i ≤ m)
    (hm : m < i + left) (hlt : m < fdSetsize) (hfree : fdAt client m = -1) :
    ∃ j, ∃ hj : j < fdSetsize, fdAt client j = -1 ∧
      findSlot connfd client left i = .ret (j, client.set j connfd hj) := by
  induction left generalizing i with
  | zero => omega
  | succ left ih =>
    have hi : i < fdSetsize := by omega
    rw [findSlot, load_of_lt hi, Prog.ret_bind, ← fdAt_of_lt hi]
    by_cases hc : fdAt client i = -1
    · exact ⟨i, hi, hc, by simp [hc, hi]⟩
    · rw [if_neg hc]
      have hne : i ≠ m := fun he => hc (he ▸ hfree)
      exact ih (by omega) (by omega)

/-- With no free slot the search reads `client[FD_SETSIZE]`. -/
theorem findSlot_fault (connfd : ℤ) {client : Vector ℤ fdSetsize}
    (hfull : ∀ m < fdSetsize, fdAt client m ≠ -1) {left i : ℕ} (hi : i ≤ fdSetsize)
    (hl : fdSetsize < i + left) : findSlot connfd client left i = .fault := by
  induction left generalizing i with
  | zero => omega
  | succ left ih =>
    rw [findSlot]
    rcases lt_or_eq_of_le hi with hlt | rfl
    · rw [load_of_lt hlt, Prog.ret_bind, ← fdAt_of_lt hlt, if_neg (hfull i hlt)]
      exact ih hlt (by omega)
    · rw [load_of_not_lt (lt_irrefl _), Prog.fault_bind]

theorem Consistent.findSlot_eq {listenfd : ℤ} {s : Locals} (h : Consistent listenfd s)
    (connfd : ℤ) : ∃ j, ∃ hj : j < fdSetsize, fdAt s.client j = -1 ∧
      findSlot connfd s.client (fdSetsize + 1) 0 = .ret (j, s.client.set j connfd hj) := by
  obtain ⟨m, hm, hfree⟩ := h.exists_free
  exact SelectServer.findSlot_eq connfd (Nat.zero_le m) (by omega) hm hfree

/-! ## Taking a slot and giving one up -/

/-- The variables once the connection `fd` is in slot `j`. -/
def Locals.occupy (s : Locals) (j : ℕ) (hj : j < fdSetsize) (fd : ℤ) (h : InRange fd) : Locals :=
  { s with
    client := s.client.set j fd hj
    allset := s.allset.insert fd h
    maxfd := if fd > s.maxfd then fd else s.maxfd
    maxi := if (j : ℤ) > s.maxi then j else s.maxi }

/-- The variables once slot `i`, which held `fd`, is free. -/
def Locals.release (s : Locals) (i : ℕ) (hi : i < fdSetsize) (fd : ℤ) (buf : Buf 1024) : Locals :=
  { s with client := s.client.set i (-1) hi, allset := s.allset.erase fd, buf := buf }

theorem holds_occupy {s : Locals} {j : ℕ} {hj : j < fdSetsize} {fd : ℤ} {h : InRange fd}
    (hfree : fdAt s.client j = -1) {x : ℤ} :
    (s.occupy j hj fd h).Holds x ↔ x = fd ∨ s.Holds x := by
  simp only [Locals.Holds, Locals.occupy, fdAt_set]
  constructor
  · rintro ⟨hx, i, hi⟩
    split at hi
    · exact .inl hi.symm
    · exact .inr ⟨hx, i, hi⟩
  · rintro (rfl | ⟨hx, i, hi⟩)
    · exact ⟨h.1, j, if_pos rfl⟩
    · refine ⟨hx, i, ?_⟩
      rw [if_neg (by rintro rfl; omega), hi]

theorem Consistent.holds_release {listenfd : ℤ} {s : Locals} (h : Consistent listenfd s) {i : ℕ}
    {hi : i < fdSetsize} {fd : ℤ} {buf : Buf 1024} (hfd : fdAt s.client i = fd) {x : ℤ} :
    (s.release i hi fd buf).Holds x ↔ x ≠ fd ∧ s.Holds x := by
  simp only [Locals.Holds, Locals.release, fdAt_set]
  constructor
  · rintro ⟨hx, m, hm⟩
    split at hm
    · omega
    · rename_i hne
      refine ⟨?_, hx, m, hm⟩
      rintro rfl
      exact hne (h.inj m i (hm ▸ hx) (hm.trans hfd.symm))
  · rintro ⟨hne, hx, m, hm⟩
    refine ⟨hx, m, ?_⟩
    rw [if_neg (by rintro rfl; exact hne (hm.symm.trans hfd)), hm]

theorem Consistent.occupy {listenfd : ℤ} {s : Locals} (h : Consistent listenfd s) {j : ℕ}
    (hj : j < fdSetsize) {fd : ℤ} (hr : InRange fd) (hfree : fdAt s.client j = -1)
    (hne : fd ≠ listenfd) (hnew : ¬ s.Holds fd) : Consistent listenfd (s.occupy j hj fd hr) where
  listen := h.listen
  free i hi := by
    simp only [Locals.occupy, fdAt_set] at hi ⊢
    split at hi
    · exact absurd hr.1 (not_le.mpr hi)
    · rename_i hij
      rw [if_neg hij]
      exact h.free i hi
  inj a b ha hab := by
    have hfd : ∀ m, fdAt s.client m ≠ fd := fun m hm => hnew ⟨hr.1, m, hm⟩
    simp only [Locals.occupy, fdAt_set] at ha hab
    by_cases haj : a = j <;> by_cases hbj : b = j <;> simp only [haj, hbj, if_true, if_false] at *
    · exact absurd hab.symm (hfd b)
    · exact absurd hab (hfd a)
    · exact h.inj a b ha hab
  ne_listen i := by
    simp only [Locals.occupy, fdAt_set]
    split
    · exact hne
    · exact h.ne_listen i
  mem_allset x := by
    rw [holds_occupy hfree]
    simp only [Locals.occupy, FdSet.mem_insert, h.mem_allset]
    tauto
  le_maxfd x hx := by
    simp only [Locals.occupy, FdSet.mem_insert] at hx ⊢
    rcases hx with rfl | hx
    · split <;> omega
    · have := h.le_maxfd x hx
      split <;> omega
  above_maxi i hi := by
    simp only [Locals.occupy, fdAt_set] at hi ⊢
    have hij : i ≠ j := by
      rintro rfl
      split at hi <;> omega
    rw [if_neg hij]
    refine h.above_maxi i ?_
    split at hi <;> omega
  maxi_lt := by
    have := h.maxi_lt
    simp only [Locals.occupy]
    split <;> omega

theorem Consistent.release {listenfd : ℤ} {s : Locals} (h : Consistent listenfd s) {i : ℕ}
    (hi : i < fdSetsize) {fd : ℤ} (buf : Buf 1024) (hfd : fdAt s.client i = fd) :
    Consistent listenfd (s.release i hi fd buf) where
  listen := h.listen
  free m hm := by
    simp only [Locals.release, fdAt_set] at hm ⊢
    split at hm
    · rw [if_pos ‹_›]
    · rw [if_neg ‹_›]
      exact h.free m hm
  inj a b ha hab := by
    simp only [Locals.release, fdAt_set] at ha hab
    by_cases haj : a = i <;> by_cases hbj : b = i <;> simp only [haj, hbj, if_true, if_false] at *
    · omega
    · omega
    · exact h.inj a b ha hab
  ne_listen m := by
    have := h.listen.1
    simp only [Locals.release, fdAt_set]
    split
    · omega
    · exact h.ne_listen m
  mem_allset x := by
    rw [h.holds_release hfd]
    simp only [Locals.release, FdSet.mem_erase, h.mem_allset]
    have hl : listenfd ≠ fd := fun he => h.ne_listen i (hfd.trans he.symm)
    constructor
    · rintro ⟨hx, rfl | hx'⟩
      · exact .inl rfl
      · exact .inr ⟨hx, hx'⟩
    · rintro (rfl | ⟨hx, hx'⟩)
      · exact ⟨hl, .inl rfl⟩
      · exact ⟨hx, .inr hx'⟩
  le_maxfd x hx := h.le_maxfd x (FdSet.mem_erase.mp hx).2
  above_maxi m hm := by
    simp only [Locals.release, fdAt_set]
    split
    · rfl
    · exact h.above_maxi m hm
  maxi_lt := h.maxi_lt

/-- The buffer is not part of the table. -/
theorem Consistent.with_buf {listenfd : ℤ} {s : Locals} (h : Consistent listenfd s)
    (buf : Buf 1024) : Consistent listenfd { s with buf := buf } :=
  ⟨h.listen, h.free, h.inj, h.ne_listen, h.mem_allset, h.le_maxfd, h.above_maxi, h.maxi_lt⟩

theorem holds_with_buf {s : Locals} {buf : Buf 1024} {x : ℤ} :
    { s with buf := buf }.Holds x ↔ s.Holds x := Iff.rfl

/-! ## The branches as calls and changes of the table -/

/-- A connection in range is put into a free slot. If it is the last slot, the server says that
there are too many clients and takes it all the same. -/
theorem Consistent.install_eq {listenfd : ℤ} {s : Locals} (h : Consistent listenfd s) {fd : ℤ}
    (hr : InRange fd) : ∃ j, ∃ hj : j < fdSetsize, fdAt s.client j = -1 ∧
      install fd s = if (j : ℤ) = fdSetsize - 1 then
          Prog.call (I := posix) (.printf (text "too many clients\n")) fun _ =>
            .ret (s.occupy j hj fd hr)
        else .ret (s.occupy j hj fd hr) := by
  obtain ⟨j, hj, hfree, hfind⟩ := h.findSlot_eq fd
  refine ⟨j, hj, hfree, ?_⟩
  simp only [install, hfind, Prog.ret_bind, Prog.pure_eq, fdSet_of_inRange hr]
  split <;> rfl

/-- Serving a client reads once, and then either closes its descriptor and frees its slot or
writes back what it has read. -/
theorem serve_eq {s : Locals} {i : ℕ} (hi : i < fdSetsize) {fd : ℤ} (hr : InRange fd) :
    serve i fd s = Prog.call (I := posix) (.read fd (Span.whole 1024)) fun r =>
      if readValue r ≤ 0 then Prog.call (I := posix) (.close fd) fun _ =>
        .ret (s.release i hi fd (s.buf.put 0 (readBytes r)))
      else Prog.call (I := posix)
        (.write fd (Span.first 1024 (readValue r)) (s.buf.put 0 (readBytes r)).toList) fun _ =>
          .ret { s with buf := s.buf.put 0 (readBytes r) } := by
  simp only [serve, read_bind, close_bind, write_bind, fdClr_of_inRange hr, store_of_lt hi,
    Prog.ret_bind, Prog.pure_eq]
  rfl

end SelectServer

end UnixNetwork
