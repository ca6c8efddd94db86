import UnixNetwork.SelectServer.Invariant

/-!
# The countdown of the select server

`nready` counts down the descriptors that `select` has reported, and a round ends when none is
left. Here the round is compared with `roundAll`, the same round without the two early exits, which
always scans all slots up to `maxi`.

That nobody is skipped rests on the table. The reported descriptors are watched, so apart from the
listening one each of them is in a slot, in one slot only and not above `maxi`; the connection that
has just been accepted is not among them, because it was not open when `select` was called; and a
slot that is freed during the scan is behind the scan. So the number of slots that are still due is
`nready` all along, which is `scan_eq_scanAll`.

## Main definitions

* `scanAll`, `handleAll`, `roundAll`: the round without the early exits
* `due`: the descriptors a scan serves, in order

## Main results

* `scan_eq_scanAll`: with the right count the scan is the full scan
* `exists_roundAll`: a round can be gone through whatever comes on the connections
* `countdown_is_optimisation`: the two rounds make the same calls and end in the same state, and
  every ready client is served exactly once
-/

namespace UnixNetwork

namespace SelectServer

open Interaction

/-! ## The round without early exits -/

/-- The loop over the slots that never stops before the last one. -/
def scanAll (rset : FdSet) : (left i : ℕ) → Locals → Prog posix Locals
  | 0, _, s => .ret s
  | left + 1, i, s => do
    let sockfd ← load s.client i
    if sockfd < 0 then scanAll rset left (i + 1) s
    else do
      let ready ← fdIsSet sockfd rset
      if ready then do
        let s' ← serve i sockfd s
        scanAll rset left (i + 1) s'
      else scanAll rset left (i + 1) s

/-- What the round without early exits does once `select` has returned. -/
def handleAll (listenfd : ℤ) (s : Locals) (sel : Selected) : Prog posix Locals := do
  let ready ← fdIsSet listenfd sel.rset
  if ready then do
    let s' ← acceptClient listenfd s
    scanAll sel.rset (turns s') 0 s'
  else scanAll sel.rset (turns s) 0 s

/-- The round without early exits. -/
def roundAll (listenfd : ℤ) (s : Locals) : Prog posix Locals := do
  let sel ← select (s.maxfd + 1) s.allset FdSet.zero
  handleAll listenfd s sel

/-- The descriptors that a scan of `left` slots from `i` on serves, in order. -/
def due (rset : FdSet) (client : Vector ℤ fdSetsize) : (left i : ℕ) → List ℤ
  | 0, _ => []
  | left + 1, i =>
    if fdAt client i ∈ rset then fdAt client i :: due rset client left (i + 1)
    else due rset client left (i + 1)

/-! ## The descriptors that are due -/

theorem mem_due {rset : FdSet} {client : Vector ℤ fdSetsize} {left i : ℕ} {fd : ℤ} :
    fd ∈ due rset client left i ↔
      fd ∈ rset ∧ ∃ j, i ≤ j ∧ j < i + left ∧ fdAt client j = fd := by
  induction left generalizing i with
  | zero =>
    simp only [due, List.not_mem_nil, false_iff]
    rintro ⟨-, j, h₁, h₂, -⟩
    omega
  | succ left ih =>
    have key : fd ∈ due rset client (left + 1) i ↔
        fd ∈ rset ∧ fdAt client i = fd ∨ fd ∈ due rset client left (i + 1) := by
      rw [due]
      split
      · rename_i hmem
        rw [List.mem_cons]
        constructor
        · rintro (rfl | h)
          · exact .inl ⟨hmem, rfl⟩
          · exact .inr h
        · rintro (⟨-, rfl⟩ | h)
          · exact .inl rfl
          · exact .inr h
      · rename_i hmem
        constructor
        · exact .inr
        · rintro (⟨h, rfl⟩ | h)
          · exact absurd h hmem
          · exact h
    rw [key, ih]
    constructor
    · rintro (⟨h, he⟩ | ⟨h, j, h₁, h₂, he⟩)
      · exact ⟨h, i, le_refl i, by omega, he⟩
      · exact ⟨h, j, by omega, by omega, he⟩
    · rintro ⟨h, j, h₁, h₂, he⟩
      rcases eq_or_lt_of_le h₁ with rfl | h₁
      · exact .inl ⟨h, he⟩
      · exact .inr ⟨h, j, by omega, by omega, he⟩

theorem due_nodup {listenfd : ℤ} {s : Locals} (h : Consistent listenfd s) (rset : FdSet)
    (left i : ℕ) : (due rset s.client left i).Nodup := by
  induction left generalizing i with
  | zero => exact List.nodup_nil
  | succ left ih =>
    rw [due]
    split
    · rename_i hmem
      refine List.nodup_cons.mpr ⟨?_, ih (i + 1)⟩
      intro hin
      obtain ⟨-, j, hj, -, he⟩ := mem_due.mp hin
      have := h.inj i j (FdSet.inRange_of_mem hmem).1 he.symm
      omega
    · exact ih (i + 1)

/-- Only the slots the scan still comes to matter. -/
theorem due_congr (rset : FdSet) {client client' : Vector ℤ fdSetsize} {left i : ℕ}
    (h : ∀ j, i ≤ j → fdAt client' j = fdAt client j) :
    due rset client' left i = due rset client left i := by
  induction left generalizing i with
  | zero => rfl
  | succ left ih =>
    rw [due, due, h i (le_refl i), ih fun j hj => h j (by omega)]

/-- A full scan serves every watched descriptor that is ready. -/
theorem mem_due_turns {listenfd : ℤ} {s : Locals} (h : Consistent listenfd s) {rset : FdSet}
    {fd : ℤ} : fd ∈ due rset s.client (turns s) 0 ↔ fd ∈ rset ∧ s.Holds fd := by
  rw [mem_due]
  refine and_congr_right ?_
  intro hmem
  have h0 := (FdSet.inRange_of_mem hmem).1
  constructor
  · rintro ⟨j, -, -, he⟩
    exact ⟨h0, j, he⟩
  · rintro ⟨-, j, he⟩
    refine ⟨j, Nat.zero_le j, ?_, he⟩
    have hle : ¬ s.maxi < j := fun hlt => by
      have := h.above_maxi j hlt
      omega
    rw [turns]
    omega

/-! ## The countdown -/

variable {listenfd : ℤ} {s : Locals}

/-- What follows the serving of a client need only be known for the states it can lead to. -/
theorem serve_bind_congr {α : Type} (h : Consistent listenfd s) {i : ℕ} (hi : i < fdSetsize)
    {fd : ℤ} (hfd : fdAt s.client i = fd) (hr : InRange fd) {f g : Locals → Prog posix α}
    (hfg : ∀ s', Consistent listenfd s' → (∀ j, j ≠ i → fdAt s'.client j = fdAt s.client j) →
      f s' = g s') : serve i fd s >>= f = serve i fd s >>= g := by
  rw [serve_eq hi hr, Prog.call_bind, Prog.call_bind]
  refine congrArg _ ?_
  funext r
  split
  · refine congrArg (Prog.call (I := posix) (.close fd)) ?_
    funext _
    refine hfg _ (h.release hi _ hfd) ?_
    intro j hj
    rw [Locals.release, fdAt_set, if_neg hj]
  · refine congrArg (Prog.call (I := posix) (.write fd _ _)) ?_
    funext _
    exact hfg _ (h.with_buf _) fun j _ => rfl

/-- With nothing due a full scan serves nobody. -/
theorem scanAll_of_due_eq_nil (h : Consistent listenfd s) {rset : FdSet} {left i : ℕ}
    (hleft : i + left ≤ fdSetsize) (hdue : due rset s.client left i = []) :
    scanAll rset left i s = .ret s := by
  induction left generalizing i with
  | zero => rfl
  | succ left ih =>
    have hi : i < fdSetsize := by omega
    rw [due] at hdue
    split at hdue
    · cases hdue
    · rename_i hmem
      rw [scanAll, load_of_lt hi, Prog.ret_bind, ← fdAt_of_lt hi]
      split
      · exact ih (by omega) hdue
      · rename_i hneg
        rw [fdIsSet_of_inRange (h.inRange_of_holds ⟨not_lt.mp hneg, i, rfl⟩), Prog.ret_bind,
          if_neg (by simpa using hmem)]
        exact ih (by omega) hdue

/-- Stopping when the count has run out is the same as scanning on. -/
theorem stop_eq_scanAll (h : Consistent listenfd s) {rset : FdSet} {left i : ℕ}
    (hleft : i + left ≤ fdSetsize) {n : ℤ} (hn : n = (due rset s.client left i).length)
    (hscan : scan rset left i n s = scanAll rset left i s) :
    (if n ≤ 0 then .ret s else scan rset left i n s) = scanAll rset left i s := by
  split
  · have hnil : due rset s.client left i = [] := List.eq_nil_of_length_eq_zero (by omega)
    exact (scanAll_of_due_eq_nil h hleft hnil).symm
  · exact hscan

/-- **The countdown.** If `nready` is the number of slots that are still due, the scan is the full
scan. -/
theorem scan_eq_scanAll (h : Consistent listenfd s) {rset : FdSet} {left i : ℕ}
    (hleft : i + left ≤ fdSetsize) {nready : ℤ}
    (hn : nready = (due rset s.client left i).length) :
    scan rset left i nready s = scanAll rset left i s := by
  induction left generalizing i nready s with
  | zero => rfl
  | succ left ih =>
    have hi : i < fdSetsize := by omega
    rw [scan, scanAll, load_of_lt hi, Prog.ret_bind, Prog.ret_bind, ← fdAt_of_lt hi]
    split
    · rename_i hneg
      have hnot : fdAt s.client i ∉ rset := fun hmem =>
        absurd (FdSet.inRange_of_mem hmem).1 (not_le.mpr hneg)
      rw [due, if_neg hnot] at hn
      exact ih h (by omega) hn
    · rename_i hneg
      have h0 : 0 ≤ fdAt s.client i := not_lt.mp hneg
      have hr := h.inRange_of_holds ⟨h0, i, rfl⟩
      rw [fdIsSet_of_inRange hr, Prog.ret_bind, Prog.ret_bind]
      by_cases hmem : fdAt s.client i ∈ rset
      · rw [if_pos (by simpa using hmem), if_pos (by simpa using hmem)]
        rw [due, if_pos hmem, List.length_cons] at hn
        refine serve_bind_congr h hi rfl hr ?_
        intro s' h' hs'
        have hn' : nready - 1 = (due rset s'.client left (i + 1)).length := by
          rw [due_congr rset fun j hj => hs' j (by omega)]
          omega
        exact stop_eq_scanAll h' (by omega) hn' (ih h' (by omega) hn')
      · rw [if_neg (by simpa using hmem), if_neg (by simpa using hmem)]
        rw [due, if_neg hmem] at hn
        exact ih h (by omega) hn

/-- Apart from the listening descriptor, what `select` has reported is due, each descriptor
once. -/
theorem length_due (h : Consistent listenfd s) {rset : FdSet}
    (hsub : ∀ fd ∈ rset, fd = listenfd ∨ s.Holds fd) :
    (due rset s.client (turns s) 0).length = (rset.bits.erase listenfd).card := by
  rw [← List.toFinset_card_of_nodup (due_nodup h rset (turns s) 0)]
  refine congrArg Finset.card (Finset.ext ?_)
  intro fd
  rw [List.mem_toFinset, mem_due_turns h, Finset.mem_erase, FdSet.mem_bits]
  constructor
  · rintro ⟨hmem, -, j, he⟩
    exact ⟨fun hl => h.ne_listen j (he.trans hl), hmem⟩
  · rintro ⟨hne, hmem⟩
    exact ⟨hmem, (hsub fd hmem).resolve_left hne⟩

/-! ## The two rounds -/

/-- `select` has not failed. -/
def SelectSucceeds : (c : Call) → Res c → Prop
  | .select _ rset wset, sel => Selected.Ready sel rset wset
  | _, _ => True

/-- The results that a round is compared for: `select` reports a non-empty part of the watched
descriptors and `accept` returns a descriptor that is not open and fits into an `fd_set`. -/
def Expected (c : Call) (r : Res c) : Prop := SelectSucceeds c r ∧ AcceptsInRange c r

theorem value_eq {sel : Selected} {rset : FdSet} (h : sel.Ready rset FdSet.zero) :
    sel.value = sel.rset.bits.card := by
  have hw : sel.wset.bits = ∅ :=
    Finset.eq_empty_of_forall_notMem fun fd hfd => FdSet.notMem_zero (h.wset_sub fd hfd)
  rw [h.value_eq, hw, Finset.card_empty]
  omega

/-- A report without the listening descriptor: the scan is the full scan. -/
theorem handle_of_notMem (h : Consistent listenfd s) {sel : Selected}
    (hsel : sel.Ready s.allset FdSet.zero) (hmem : listenfd ∉ sel.rset) :
    handle listenfd s sel = scanAll sel.rset (turns s) 0 s := by
  have hn : sel.value = (due sel.rset s.client (turns s) 0).length := by
    rw [length_due h fun fd hfd => (h.mem_allset fd).mp (hsel.rset_sub fd hfd),
      Finset.erase_eq_of_notMem hmem, value_eq hsel]
  rw [handle, fdIsSet_of_inRange h.listen, Prog.ret_bind, if_neg (by simpa using hmem)]
  exact scan_eq_scanAll h (turns_le h) hn

/-- A report with the listening descriptor: once the connection is in the table, stopping or
scanning is the full scan. The new connection is not among the reported descriptors. -/
theorem stop_or_scan_of_mem (h : Consistent listenfd s) {sel : Selected}
    (hsel : sel.Ready s.allset FdSet.zero) (hmem : listenfd ∈ sel.rset) {j : ℕ}
    {hj : j < fdSetsize} {fd : ℤ} {hr : InRange fd} (hfree : fdAt s.client j = -1)
    (h' : Consistent listenfd (s.occupy j hj fd hr)) :
    (if sel.value - 1 ≤ 0 then .ret (s.occupy j hj fd hr)
      else scan sel.rset (turns (s.occupy j hj fd hr)) 0 (sel.value - 1) (s.occupy j hj fd hr)) =
      scanAll sel.rset (turns (s.occupy j hj fd hr)) 0 (s.occupy j hj fd hr) := by
  have hsub : ∀ x ∈ sel.rset, x = listenfd ∨ (s.occupy j hj fd hr).Holds x := by
    intro x hx
    refine ((h.mem_allset x).mp (hsel.rset_sub x hx)).imp_right ?_
    intro hh
    exact (holds_occupy hfree).mpr (.inr hh)
  have hcard : (sel.rset.bits.erase listenfd).card + 1 = sel.rset.bits.card :=
    Finset.card_erase_add_one hmem
  have hn : sel.value - 1 = (due sel.rset (s.occupy j hj fd hr).client
      (turns (s.occupy j hj fd hr)) 0).length := by
    rw [length_due h' hsub, value_eq hsel]
    omega
  exact stop_eq_scanAll h' (turns_le h') hn (scan_eq_scanAll h' (turns_le h') hn)

/-- After the same report of `select` the two rounds agree. -/
theorem agree_handle {net : Net} (h : Inv listenfd s net) {sel : Selected}
    (hsel : sel.Ready s.allset FdSet.zero) :
    Agree (serverWorld listenfd Expected) net (handle listenfd s sel)
      (handleAll listenfd s sel) := by
  by_cases hmem : listenfd ∈ sel.rset
  · rw [handle, handleAll, fdIsSet_of_inRange h.consistent.listen, Prog.ret_bind, Prog.ret_bind,
      if_pos (by simpa using hmem), if_pos (by simpa using hmem), acceptClient, Prog.bind_assoc,
      Prog.bind_assoc, accept_bind, accept_bind]
    refine .call ?_
    intro r hr
    obtain ⟨fd, rfl, hfd⟩ := hr.2.2
    obtain ⟨hne, hnew⟩ : (fd : ℤ) ≠ listenfd ∧ ¬ net.Open fd := hr.1
    obtain ⟨j, hj, hfree, he⟩ := h.consistent.install_eq hfd
    have heq := stop_or_scan_of_mem h.consistent hsel hmem hfree
      (h.add hfd hne hnew hj hfree).consistent
    rw [countValue_ok, he]
    split
    · rw [Prog.call_bind, Prog.call_bind, Prog.ret_bind, Prog.ret_bind, Prog.pure_eq, heq]
      exact .refl _ _
    · rw [Prog.ret_bind, Prog.ret_bind, Prog.pure_eq, heq]
      exact .refl _ _
  · rw [handle_of_notMem h.consistent hsel hmem, handleAll,
      fdIsSet_of_inRange h.consistent.listen, Prog.ret_bind, if_neg (by simpa using hmem)]
    exact .refl _ _

/-- **The two rounds agree.** -/
theorem agree_round {net : Net} (h : Inv listenfd s net) :
    Agree (serverWorld listenfd Expected) net (round listenfd s) (roundAll listenfd s) := by
  rw [round, roundAll, select_bind, select_bind]
  exact .call fun sel hsel => agree_handle h hsel.2.1

/-! ## Who is served -/

/-- Serving a client reads from it once and touches no other slot. -/
theorem serve_after (h : Consistent listenfd s) {i : ℕ} (hi : i < fdSetsize) {fd : ℤ}
    (hfd : fdAt s.client i = fd) (hr : InRange fd) {t : List (Event posix)} {s' : Locals}
    (ht : (serve i fd s).After t (.ret s')) :
    readsOf t = [fd] ∧ Consistent listenfd s' ∧
      ∀ j, j ≠ i → fdAt s'.client j = fdAt s.client j := by
  rw [serve_eq hi hr, Prog.after_call_ret] at ht
  obtain ⟨r, t', rfl, ht⟩ := ht
  split at ht
  · obtain ⟨_, t'', rfl, ht'⟩ := Prog.after_call_ret.mp ht
    obtain ⟨rfl, he⟩ := Prog.after_ret.mp ht'
    cases he
    refine ⟨rfl, h.release hi _ hfd, ?_⟩
    intro j hj
    rw [Locals.release, fdAt_set, if_neg hj]
  · obtain ⟨_, t'', rfl, ht'⟩ := Prog.after_call_ret.mp ht
    obtain ⟨rfl, he⟩ := Prog.after_ret.mp ht'
    cases he
    exact ⟨rfl, h.with_buf _, fun j _ => rfl⟩

/-- A full scan reads from the descriptors that are due, in order. -/
theorem readsOf_scanAll (h : Consistent listenfd s) {rset : FdSet} {left i : ℕ}
    (hleft : i + left ≤ fdSetsize) {t : List (Event posix)} {s' : Locals}
    (ht : (scanAll rset left i s).After t (.ret s')) : readsOf t = due rset s.client left i := by
  induction left generalizing i t s with
  | zero =>
    obtain ⟨rfl, -⟩ := Prog.after_ret.mp ht
    rfl
  | succ left ih =>
    have hi : i < fdSetsize := by omega
    rw [scanAll, load_of_lt hi, Prog.ret_bind, ← fdAt_of_lt hi] at ht
    rw [due]
    split at ht
    · rename_i hneg
      rw [if_neg fun hmem => absurd (FdSet.inRange_of_mem hmem).1 (not_le.mpr hneg)]
      exact ih h (by omega) ht
    · rename_i hneg
      have hr := h.inRange_of_holds ⟨not_lt.mp hneg, i, rfl⟩
      rw [fdIsSet_of_inRange hr, Prog.ret_bind] at ht
      by_cases hmem : fdAt s.client i ∈ rset
      · rw [if_pos (by simpa using hmem), Prog.after_bind_ret] at ht
        obtain ⟨s₁, t₁, t₂, rfl, h₁, h₂⟩ := ht
        obtain ⟨hreads, h', hs'⟩ := serve_after h hi rfl hr h₁
        rw [if_pos hmem, readsOf_append, hreads, ih h' (by omega) h₂,
          due_congr rset fun j hj => hs' j (by omega)]
        rfl
      · rw [if_neg (by simpa using hmem)] at ht
        rw [if_neg hmem]
        exact ih h (by omega) ht

/-- Accepting a connection reads from nobody. -/
theorem acceptClient_after {net : Net} (h : Inv listenfd s net) {t : List (Event posix)}
    {s' : Locals} (ht : (acceptClient listenfd s).After t (.ret s'))
    (hlegal : (serverWorld listenfd Expected).Legal net t) :
    readsOf t = [] ∧ Consistent listenfd s' ∧
      ∃ fd, ¬ s.Holds fd ∧ fd ≠ listenfd ∧ ∀ x, s'.Holds x ↔ x = fd ∨ s.Holds x := by
  rw [acceptClient, accept_bind, Prog.after_call_ret] at ht
  obtain ⟨r, t, rfl, ht⟩ := ht
  obtain ⟨fd, rfl, hfd⟩ := hlegal.1.2.2
  obtain ⟨hne, hnew⟩ : (fd : ℤ) ≠ listenfd ∧ ¬ net.Open fd := hlegal.1.1
  obtain ⟨j, hj, hfree, he⟩ := h.consistent.install_eq hfd
  have hcons := (h.add hfd hne hnew hj hfree).consistent
  have hnot : ¬ s.Holds fd := fun hh => hnew ((h.tracks fd).mp hh)
  rw [countValue_ok, he] at ht
  split at ht
  · obtain ⟨_, t', rfl, ht'⟩ := Prog.after_call_ret.mp ht
    obtain ⟨rfl, he⟩ := Prog.after_ret.mp ht'
    cases he
    exact ⟨rfl, hcons, fd, hnot, hne, fun x => holds_occupy hfree⟩
  · obtain ⟨rfl, he⟩ := Prog.after_ret.mp ht
    cases he
    exact ⟨rfl, hcons, fd, hnot, hne, fun x => holds_occupy hfree⟩

/-- After a report of `select` the full round reads once from every reported descriptor but the
listening one. -/
theorem readsOf_handleAll {net : Net} (h : Inv listenfd s net) {sel : Selected}
    (hsel : sel.Ready s.allset FdSet.zero) {t : List (Event posix)} {s' : Locals}
    (ht : (handleAll listenfd s sel).After t (.ret s'))
    (hlegal : (serverWorld listenfd Expected).Legal net t) :
    (readsOf t).Nodup ∧ ∀ fd, fd ∈ readsOf t ↔ fd ∈ sel.rset ∧ fd ≠ listenfd := by
  have hwatch : ∀ fd ∈ sel.rset, fd = listenfd ∨ s.Holds fd := fun fd hfd =>
    (h.consistent.mem_allset fd).mp (hsel.rset_sub fd hfd)
  have hne : ∀ fd, s.Holds fd → fd ≠ listenfd := fun fd ⟨_, i, he⟩ hl =>
    h.consistent.ne_listen i (he.trans hl)
  rw [handleAll, fdIsSet_of_inRange h.consistent.listen, Prog.ret_bind] at ht
  split at ht
  · obtain ⟨s₁, t₁, t₂, rfl, h₁, h₂⟩ := Prog.after_bind_ret.mp ht
    obtain ⟨hnone, h', new, hnew, hnewl, hholds⟩ :=
      acceptClient_after h h₁ (World.legal_append.mp hlegal).1
    rw [readsOf_append, hnone, List.nil_append, readsOf_scanAll h' (turns_le h') h₂]
    refine ⟨due_nodup h' _ _ _, ?_⟩
    intro fd
    rw [mem_due_turns h', hholds]
    refine and_congr_right ?_
    intro hmem
    constructor
    · rintro (rfl | hh)
      · exact hnewl
      · exact hne fd hh
    · exact fun hl => .inr ((hwatch fd hmem).resolve_left hl)
  · rw [readsOf_scanAll h.consistent (turns_le h.consistent) ht]
    refine ⟨due_nodup h.consistent _ _ _, ?_⟩
    intro fd
    rw [mem_due_turns h.consistent]
    exact and_congr_right fun hmem => ⟨hne fd, (hwatch fd hmem).resolve_left⟩

/-- **The countdown is only an optimisation.** From every reachable state, with the results a round
may see, the round with the two early exits and the round that always scans all slots make the same
calls in the same order and end in the same state. And a round that has ended after `select`
reported `sel` has read from every reported client once and from nobody else. -/
theorem countdown_is_optimisation (hl : InRange listenfd) {buf : Buf 1024} {net : Net}
    (h : Reach (serverWorld listenfd AcceptsInRange) (body listenfd) (main listenfd buf, Net.start)
      (.ret (.inl s), net)) {t : List (Event posix)}
    (ht : (serverWorld listenfd Expected).Legal net t) :
    (∀ c, (∃ k, (round listenfd s).After t (.call c k)) ↔
      ∃ k, (roundAll listenfd s).After t (.call c k)) ∧
    (∀ s', (round listenfd s).After t (.ret s') ↔ (roundAll listenfd s).After t (.ret s')) ∧
    ∀ s', (round listenfd s).After t (.ret s') → ∃ sel : Selected, ∃ t' : List (Event posix),
      t = selectEvent s sel :: t' ∧ (readsOf t).Nodup ∧
      ∀ fd, fd ∈ readsOf t ↔ fd ∈ sel.rset ∧ fd ≠ listenfd := by
  have hinv : Inv listenfd s net := reach_wp (fun _ _ hr => hr) hl h
  have hagree := agree_round hinv
  refine ⟨fun c => hagree.after_call ht, fun s' => hagree.after_ret ht, ?_⟩
  intro s' hs'
  rw [hagree.after_ret ht, roundAll, select_bind, Prog.after_call_ret] at hs'
  obtain ⟨sel, t', rfl, hs'⟩ := hs'
  have hreads := readsOf_handleAll hinv ht.1.2.1 hs' ht.2
  exact ⟨sel, t', rfl, hreads⟩

/-- A client can be served, whatever comes on its connection. -/
theorem exists_serve {i : ℕ} (hi : i < fdSetsize) {fd : ℤ} (hr : InRange fd) {bs : List Byte}
    (hlen : bs.length ≤ 1024) (net : Net) : ∃ t s', (serve i fd s).After t (.ret s') ∧
      (serverWorld listenfd Expected).Legal net t ∧
      ⟨.read fd (Span.whole 1024), .ok bs⟩ ∈ t := by
  have hread : (serverWorld listenfd Expected).Allows net (.read fd (Span.whole 1024)) (.ok bs) :=
    ⟨Int.ofNat_le.mpr hlen, trivial, trivial⟩
  rw [serve_eq hi hr]
  by_cases hnil : readValue (.ok bs) ≤ 0
  · refine ⟨[⟨.read fd (Span.whole 1024), .ok bs⟩, ⟨.close fd, ()⟩],
      s.release i hi fd (s.buf.put 0 bs), .cons ?_,
      ⟨hread, ⟨trivial, trivial, trivial⟩, trivial⟩, List.mem_cons_self⟩
    rw [if_pos hnil]
    exact .cons (.nil _)
  · refine ⟨[⟨.read fd (Span.whole 1024), .ok bs⟩, ⟨.write fd (Span.first 1024 bs.length)
      (s.buf.put 0 bs).toList, .ok bs.length⟩], { s with buf := s.buf.put 0 bs }, .cons ?_,
      ⟨hread, ⟨le_refl _, trivial, trivial⟩, trivial⟩, List.mem_cons_self⟩
    rw [if_neg hnil]
    exact .cons (.nil _)

/-- A scan of all slots can be gone through, whatever comes on the connections that are due. -/
theorem exists_scanAll {data : ℤ → List Byte} (hdata : ∀ fd, (data fd).length ≤ 1024)
    (rset : FdSet) (h : Consistent listenfd s) {left i : ℕ} (hleft : i + left ≤ fdSetsize)
    (net : Net) : ∃ t s', (scanAll rset left i s).After t (.ret s') ∧
      (serverWorld listenfd Expected).Legal net t ∧
      ∀ fd ∈ due rset s.client left i, ⟨.read fd (Span.whole 1024), .ok (data fd)⟩ ∈ t := by
  induction left generalizing i net s with
  | zero => exact ⟨[], s, .nil _, trivial, fun fd hfd => by cases hfd⟩
  | succ left ih =>
    have hi : i < fdSetsize := by omega
    rw [scanAll, load_of_lt hi, Prog.ret_bind, ← fdAt_of_lt hi, due]
    split
    · rename_i hneg
      rw [if_neg fun hmem => absurd (FdSet.inRange_of_mem hmem).1 (not_le.mpr hneg)]
      exact ih (i := i + 1) h (by omega) net
    rename_i hneg
    have hr := h.inRange_of_holds ⟨not_lt.mp hneg, i, rfl⟩
    rw [fdIsSet_of_inRange hr, Prog.ret_bind]
    by_cases hmem : fdAt s.client i ∈ rset
    · rw [if_pos hmem, if_pos (by simpa using hmem)]
      obtain ⟨t₁, s₁, h₁, hlegal₁, hread⟩ : ∃ t s',
          (serve i (fdAt s.client i) s).After t (.ret s') ∧
            (serverWorld listenfd Expected).Legal net t ∧ _ ∈ t :=
        exists_serve hi hr (hdata (fdAt s.client i)) net
      obtain ⟨-, hcons, hsame⟩ := serve_after h hi rfl hr h₁
      obtain ⟨t₂, s₂, h₂, hlegal₂, hreads⟩ := ih (i := i + 1) hcons (by omega)
        ((serverWorld listenfd Expected).after net t₁)
      refine ⟨t₁ ++ t₂, s₂, Prog.after_bind_ret.mpr ⟨s₁, t₁, t₂, rfl, h₁, h₂⟩,
        World.legal_append.mpr ⟨hlegal₁, hlegal₂⟩, fun fd hfd => ?_⟩
      rcases List.mem_cons.mp hfd with rfl | hfd
      · exact List.mem_append_left _ hread
      · refine List.mem_append_right _ (hreads fd ?_)
        rwa [due_congr rset fun j hj => hsame j (by omega)]
    · rw [if_neg hmem, if_neg (by simpa using hmem)]
      exact ih (i := i + 1) h (by omega) net

/-- A round of all slots can be gone through in which a connection is accepted, whatever comes on
the others that are ready. -/
theorem exists_roundAll (data : ℤ → List Byte) (hdata : ∀ fd, (data fd).length ≤ 1024) {net : Net}
    (h : Inv listenfd s net) {sel : Selected} (hsel : sel.Ready s.allset FdSet.zero)
    (hmem : listenfd ∈ sel.rset) (fd : ℕ) (hfd : InRange fd) (hne : (fd : ℤ) ≠ listenfd)
    (hnew : ¬ net.Open fd) : ∃ t s',
      (roundAll listenfd s).After (selectEvent s sel :: ⟨.accept listenfd, .ok fd⟩ :: t) (.ret s') ∧
      (serverWorld listenfd Expected).Legal net
        (selectEvent s sel :: ⟨.accept listenfd, .ok fd⟩ :: t) ∧
      ∀ x ∈ sel.rset, x ≠ listenfd → ⟨.read x (Span.whole 1024), .ok (data x)⟩ ∈ t := by
  obtain ⟨j, hj, hfree, he⟩ := h.consistent.install_eq hfd
  have hadd := h.add hfd hne hnew hj hfree
  obtain ⟨t, s', hscan, hlegal, hreads⟩ := exists_scanAll hdata sel.rset
    hadd.consistent (turns_le hadd.consistent) (net.add fd)
  have hread : ∀ x ∈ sel.rset, x ≠ listenfd → ⟨.read x (Span.whole 1024), .ok (data x)⟩ ∈ t := by
    intro x hx hxl
    refine hreads x ((mem_due_turns hadd.consistent).mpr ⟨hx, (holds_occupy hfree).mpr (.inr ?_)⟩)
    exact ((h.consistent.mem_allset x).mp (hsel.rset_sub x hx)).resolve_left hxl
  have hselect : (serverWorld listenfd Expected).Allows net
      (.select (s.maxfd + 1) s.allset FdSet.zero) sel := ⟨.inl hsel, hsel, trivial⟩
  have haccept : (serverWorld listenfd Expected).Allows net (.accept listenfd) (.ok fd) :=
    ⟨⟨hne, hnew⟩, trivial, fd, rfl, hfd⟩
  have hround : ∀ t', (install fd s >>= fun s' => scanAll sel.rset (turns s') 0 s').After t'
      (.ret s') → (roundAll listenfd s).After
        (selectEvent s sel :: ⟨.accept listenfd, .ok fd⟩ :: t') (.ret s') := by
    intro t' ht'
    rw [roundAll, select_bind]
    refine .cons ?_
    rw [handleAll, fdIsSet_of_inRange h.consistent.listen, Prog.ret_bind,
      if_pos (by simpa using hmem), acceptClient, Prog.bind_assoc, accept_bind]
    exact .cons ht'
  rw [he] at hround
  split at hround
  · refine ⟨⟨.printf (text "too many clients\n"), ()⟩ :: t, s', hround _ (.cons hscan),
      ⟨hselect, haccept, ⟨trivial, trivial, trivial⟩, hlegal⟩, fun x hx hxl => ?_⟩
    exact List.mem_cons_of_mem _ (hread x hx hxl)
  · exact ⟨t, s', hround t hscan, ⟨hselect, haccept, hlegal⟩, hread⟩

/-- A report of a connection that waits on descriptor 3, and of descriptors 4 and 5. -/
def threeReady : Selected where
  value := 3
  rset := ((FdSet.single 3 inRange_three).insert 4 inRange_four).insert 5 (by decide)
  wset := FdSet.zero

theorem mem_threeReady {fd : ℤ} : fd ∈ threeReady.rset ↔ fd = 3 ∨ fd = 4 ∨ fd = 5 := by
  simp only [threeReady, FdSet.mem_insert, FdSet.mem_single]
  omega

/-- Two clients, on descriptors 4 and 5, and a third one that connects. In one round the third one
is accepted, the first one sends two bytes and the second one has ended. -/
theorem countdown_is_optimisation_three : ∃ s net t s',
    Reach (serverWorld 3 AcceptsInRange) (body 3) (main 3 (Vector.replicate 1024 0), Net.start)
      (.ret (.inl s), net) ∧
    (round 3 s).After (selectEvent s threeReady :: ⟨.accept 3, .ok 6⟩ :: t) (.ret s') ∧
    ⟨.read 4 (Span.whole 1024), .ok (text "ab")⟩ ∈ t ∧
    ⟨.read 5 (Span.whole 1024), .ok []⟩ ∈ t ∧ (readsOf t).Nodup ∧
    ∀ fd, fd ∈ readsOf t ↔ fd = 4 ∨ fd = 5 := by
  have hl : InRange 3 := by decide
  have hinv : ∀ {s net}, Reach (serverWorld 3 AcceptsInRange) (body 3)
      (main 3 (Vector.replicate 1024 0), Net.start) (.ret (.inl s), net) → Inv 3 s net :=
    reach_wp (fun _ _ hr => hr) hl
  obtain ⟨s, h⟩ := reach_first_accept AcceptsInRange hl (Vector.replicate 1024 0) 4 (by decide)
    (by decide) (fun _ _ _ _ => trivial) ⟨4, rfl, by decide⟩ fun _ => trivial
  obtain ⟨s, h⟩ := reach_accept h (fun _ _ _ _ => trivial) (hinv h).consistent 5
    (by decide) (by decide) ((hinv h).wellFormed.not_open rfl) ⟨5, rfl, by decide⟩ fun _ => trivial
  have hheld : ∀ fd, fd = 4 ∨ fd = 5 → s.Holds fd := by
    rintro fd (rfl | rfl)
    · exact ((hinv h).tracks 4).mpr ((hinv h).wellFormed.open_iff.mpr ⟨0, rfl, rfl⟩)
    · exact ((hinv h).tracks 5).mpr ((hinv h).wellFormed.open_iff.mpr ⟨1, rfl, rfl⟩)
  have hready : threeReady.Ready s.allset FdSet.zero := by
    refine ⟨fun fd hfd => ?_, fun _ => id, by decide, by decide⟩
    refine ((hinv h).consistent.mem_allset fd).mpr ?_
    exact (mem_threeReady.mp hfd).imp_right (hheld fd)
  obtain ⟨t, s', ht, hlegal, hreads⟩ := exists_roundAll
    (fun fd => if fd = 4 then text "ab" else []) (fun fd => by split <;> decide)
    (hinv h) hready (mem_threeReady.mpr (.inl rfl)) 6 (by decide) (by decide)
    ((hinv h).wellFormed.not_open rfl)
  obtain ⟨-, hround, hserved⟩ := countdown_is_optimisation hl h hlegal
  have hr := (hround s').mpr ht
  obtain ⟨sel, t', he, hnodup, hread⟩ := hserved s' hr
  obtain ⟨hsel, -⟩ := List.cons.inj he
  obtain rfl : threeReady = sel := eq_of_heq (Sigma.mk.inj hsel).2
  refine ⟨s, _, t, s', h, hr, hreads 4 (mem_threeReady.mpr (by decide)) (by decide),
    hreads 5 (mem_threeReady.mpr (by decide)) (by decide), hnodup, fun fd => ?_⟩
  have hsame : readsOf (selectEvent s threeReady :: ⟨.accept 3, .ok 6⟩ :: t) = readsOf t := rfl
  rw [← hsame, hread, mem_threeReady]
  omega

end SelectServer

end UnixNetwork
