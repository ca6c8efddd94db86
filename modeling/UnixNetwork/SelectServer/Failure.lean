import UnixNetwork.SelectServer.Invariant

/-!
# Calls of the select server that fail

The results of `select` and `accept` are used without being looked at. A `select` that fails leaves
`rset` as it was passed, so the listening descriptor counts as ready and the server calls `accept`.
A failed `accept` puts `-1` into a slot, which leaves the slot free, and then sets the bit of `-1`
in `allset`; a descriptor that an `fd_set` has no bit for is treated the same way. With a full table
the search reads `client[FD_SETSIZE]`, and the test for too many clients is true of the last slot
and not of a full table; but no state that is reached has a full table.

`Intact` is what handling a failure should come to. No failure is handled so.

## Main results

* `install_of_not_inRange`, `install_of_full`: after these outcomes the round can only end in
  undefined behaviour
* `not_intact_of_fails`: no failing outcome is handled so that the state stays intact
-/

namespace UnixNetwork

namespace SelectServer

open Interaction

/-- Among these events is a read on `fd` that returned 0 or failed. -/
def EndedIn (t : List (Event posix)) (fd : ℤ) : Prop :=
  ∃ dst, ∃ r : Except Errno (List Byte), (⟨.read fd dst, r⟩ : Event posix) ∈ t ∧ readValue r ≤ 0

/-- A result of the call to `accept`. -/
def acceptEvent (listenfd : ℤ) (r : Except Errno ℕ) : Event posix := ⟨.accept listenfd, r⟩

/-- The round of `s` has come to a failing outcome. -/
inductive Fails (listenfd : ℤ) (s : Locals) : List (Event posix) → Prop where
  /-- `select` returned `-1` and left `rset` as it was passed. -/
  | select {sel : Selected} (h : sel.Failed s.allset FdSet.zero) :
      Fails listenfd s [selectEvent s sel]
  /-- `accept` returned `-1`, or a descriptor that does not fit into an `fd_set`. -/
  | accept {sel : Selected} {r : Except Errno ℕ} (hsel : listenfd ∈ sel.rset)
      (hr : ¬ InRange (countValue r)) :
      Fails listenfd s [selectEvent s sel, acceptEvent listenfd r]
  /-- `accept` returned a connection and `client[]` has no free slot. In no state that is reached is
  that so, see `Consistent.exists_free`. -/
  | full {sel : Selected} {r : Except Errno ℕ} (hsel : listenfd ∈ sel.rset)
      (hfull : ∀ i < fdSetsize, fdAt s.client i ≠ -1) :
      Fails listenfd s [selectEvent s sel, acceptEvent listenfd r]

/-- What is left of the round handles the failing outcome `t` properly. -/
structure Intact (s : Locals) (t : List (Event posix)) (p : Prog posix Locals) : Prop where
  /-- At the end of the round the state is the old one, but for clients that ended in it. -/
  unchanged : ∀ t' s', p.After t' (.ret s') →
    s'.maxfd = s.maxfd ∧ s'.maxi = s.maxi ∧
    (∀ i, fdAt s'.client i = fdAt s.client i ∨
      fdAt s'.client i = -1 ∧ EndedIn t' (fdAt s.client i)) ∧
    ∀ fd, fd ∈ s'.allset ↔ fd ∈ s.allset ∧ ¬ EndedIn t' fd
  /-- No array and no `fd_set` is accessed out of range. -/
  inRange : ∀ t', ¬ p.After t' .fault
  /-- After a `select` that failed there is no `accept` and no `read`. -/
  idle : (∃ sel, t = [selectEvent s sel]) → ∀ t' c k, p.After t' (.call c k) →
    (∀ fd, c ≠ .accept fd) ∧ ∀ fd dst, c ≠ .read fd dst

variable {listenfd : ℤ} {s : Locals}

/-! ## What the code does after a failing outcome -/

/-- After `select` the round handles its result. -/
theorem round_after_select {sel : Selected} {t : List (Event posix)} {p : Prog posix Locals} :
    (round listenfd s).After (selectEvent s sel :: t) p ↔ (handle listenfd s sel).After t p := by
  rw [round, select_bind, selectEvent, Prog.after_call_cons]

/-- After `select` and `accept` the round puts the result into the table. -/
theorem round_after_accept (hl : InRange listenfd) {sel : Selected} (hsel : listenfd ∈ sel.rset)
    {r : Except Errno ℕ} {p : Prog posix Locals}
    (h : (round listenfd s).After [selectEvent s sel, acceptEvent listenfd r] p) :
    ∃ f : Locals → Prog posix Locals, p = install (countValue r) s >>= f := by
  rw [round_after_select, handle_of_mem hl hsel, acceptClient, Prog.bind_assoc, accept_bind,
    acceptEvent, Prog.after_call_cons, Prog.after_nil] at h
  exact ⟨_, h⟩

/-- A descriptor that does not fit into an `fd_set` is put into the table, and then its bit is set
outside of `allset`. On the way the server may say that there are too many clients. -/
theorem install_of_not_inRange {connfd : ℤ} (h : Consistent listenfd s) (hr : ¬ InRange connfd) :
    install connfd s = .fault ∨
      install connfd s = Prog.call (I := posix) (.printf (text "too many clients\n"))
        fun _ => .fault := by
  obtain ⟨j, hj, -, hfind⟩ := h.findSlot_eq connfd
  simp only [install, hfind, Prog.ret_bind, fdSet_of_not_inRange hr, Prog.fault_bind]
  split
  · exact .inr rfl
  · exact .inl rfl

/-- With a full table the search reads beyond it. -/
theorem install_of_full (connfd : ℤ) (h : ∀ i < fdSetsize, fdAt s.client i ≠ -1) :
    install connfd s = .fault := by
  rw [install, findSlot_fault connfd h (Nat.zero_le _) (by omega), Prog.fault_bind]

/-- What is left after a failed `accept`, or with a full table, is undefined behaviour, at once or
after a message, and never the end of the round. -/
theorem fault_of_fails_accept (hl : InRange listenfd) (h : Consistent listenfd s) {sel : Selected}
    {r : Except Errno ℕ} {p : Prog posix Locals} (hsel : listenfd ∈ sel.rset)
    (hr : ¬ InRange (countValue r) ∨ ∀ i < fdSetsize, fdAt s.client i ≠ -1)
    (hp : (round listenfd s).After [selectEvent s sel, acceptEvent listenfd r] p) :
    (∃ t', p.After t' .fault) ∧ ∀ t' s', ¬ p.After t' (.ret s') := by
  obtain ⟨f, rfl⟩ := round_after_accept hl hsel hp
  have hinst : install (countValue r) s = .fault ∨
      install (countValue r) s = Prog.call (I := posix) (.printf (text "too many clients\n"))
        fun _ => .fault := by
    rcases hr with hr | hfull
    · exact install_of_not_inRange h hr
    · exact .inl (install_of_full _ hfull)
  rcases hinst with he | he
  · rw [he, Prog.fault_bind]
    exact ⟨⟨[], .nil _⟩, by simp⟩
  · rw [he, Prog.call_bind, Prog.fault_bind]
    exact ⟨⟨[⟨.printf _, ()⟩], .cons (.nil _)⟩, by simp⟩

/-- A failed `select` reports the listening descriptor, and the server calls `accept`. -/
theorem accept_after_failed_select (h : Consistent listenfd s) {sel : Selected}
    (hsel : sel.Failed s.allset FdSet.zero) :
    ∃ k, handle listenfd s sel = Prog.call (I := posix) (.accept listenfd) k := by
  have hmem : listenfd ∈ sel.rset := hsel.rset_eq ▸ h.listen_mem
  exact ⟨_, by rw [handle_of_mem h.listen hmem, acceptClient, Prog.bind_assoc, accept_bind]⟩

theorem not_intact {t : List (Event posix)} {p : Prog posix Locals} (h : Consistent listenfd s)
    (ht : Fails listenfd s t) (hp : (round listenfd s).After t p) : ¬ Intact s t p := by
  intro hi
  cases ht with
  | @select sel hsel =>
    obtain ⟨k, hk⟩ := accept_after_failed_select h hsel
    rw [round_after_select, Prog.after_nil] at hp
    exact (hi.idle ⟨sel, rfl⟩ [] _ k (by rw [hp, hk]; exact .nil _)).1 listenfd rfl
  | accept hsel hr =>
    obtain ⟨t', ht'⟩ := (fault_of_fails_accept h.listen h hsel (.inl hr) hp).1
    exact hi.inRange t' ht'
  | full hsel hfull =>
    obtain ⟨t', ht'⟩ := (fault_of_fails_accept h.listen h hsel (.inr hfull) hp).1
    exact hi.inRange t' ht'

/-- **No failing outcome is handled.** From every reachable state, whatever failing outcome the
round comes to, the state does not stay intact; and after a failed `accept`, or with a full table,
the round never ends, so no state is reached through such an outcome. -/
theorem not_intact_of_fails (hl : InRange listenfd) {buf : Buf 1024} {net : Net}
    (h : Reach (serverWorld listenfd AcceptsInRange) (body listenfd) (main listenfd buf, Net.start)
      (.ret (.inl s), net)) {t : List (Event posix)} {p : Prog posix Locals}
    (ht : Fails listenfd s t) (hp : (round listenfd s).After t p) :
    ¬ Intact s t p ∧
      ((∀ sel, t ≠ [selectEvent s sel]) → ∀ t' s', ¬ p.After t' (.ret s')) := by
  have hinv : Inv listenfd s net := reach_wp (fun _ _ hr => hr) hl h
  refine ⟨not_intact hinv.consistent ht hp, ?_⟩
  intro hne
  cases ht with
  | @select sel _ => exact absurd rfl (hne sel)
  | accept hsel hr => exact (fault_of_fails_accept hl hinv.consistent hsel (.inl hr) hp).2
  | full hsel hfull => exact (fault_of_fails_accept hl hinv.consistent hsel (.inr hfull) hp).2

/-- A `select` that fails in that state. -/
def interrupted : Selected := ⟨-1, idle.allset, FdSet.zero⟩

theorem fails_interrupted : Fails 3 idle [selectEvent idle interrupted] := .select ⟨rfl, rfl, rfl⟩

theorem after_interrupted :
    (round 3 idle).After [selectEvent idle interrupted] (handle 3 idle interrupted) := by
  rw [round_after_select, Prog.after_nil]

theorem not_intact_of_fails_interrupted :
    ¬ Intact idle [selectEvent idle interrupted] (handle 3 idle interrupted) :=
  (not_intact_of_fails (by decide) reach_idle fails_interrupted after_interrupted).1

/-- The state without clients is reachable, a `select` that fails there is a failing outcome, and
the server goes on to `accept`. -/
theorem exists_reachable_not_intact :
    Reach (serverWorld 3 AcceptsInRange) (body 3) (main 3 (Vector.replicate 1024 0), Net.start)
      (.ret (.inl idle), Net.start) ∧
    Fails 3 idle [selectEvent idle interrupted] ∧
    (round 3 idle).After [selectEvent idle interrupted] (handle 3 idle interrupted) ∧
    ¬ Intact idle [selectEvent idle interrupted] (handle 3 idle interrupted) :=
  ⟨reach_idle, fails_interrupted, after_interrupted,
    not_intact (consistent_start _ _) fails_interrupted after_interrupted⟩

end SelectServer

end UnixNetwork
