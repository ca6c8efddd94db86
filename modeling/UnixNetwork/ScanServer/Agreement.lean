import UnixNetwork.ScanServer
import UnixNetwork.SelectServer.Rounds

/-!
# The two select servers agree

The server that scans descriptors also does what `Round.Outcome` describes, and its `read_fds` and
`max_fd` become what `Round.next` and `Round.nextMax` say. It tries the descriptors in order and
skips those that are not ready; that it skips no connection rests on two facts about the watched
descriptors: none is above `max_fd`, and the connections are above the listening descriptor, because
`accept` returns the lowest free descriptor while all below the listening one stay open.

So the two servers watch the same descriptors after every round, and in every round they do the same
up to the order in which they serve the ready connections.

## Main results

* `run_scan`, `run_round`: the scan and a round of `06/server.c`
* `servers_agree`: the two servers, for any number of rounds
-/

namespace UnixNetwork

namespace ScanServer

open Interaction

variable {listenFd : ℤ} {s : Locals} {e : Round}

/-! ## The descriptors a scan serves -/

/-- The descriptors that a scan with `left` turns to go from `i` on serves, in order. -/
def due (tempFds : FdSet) : (left : ℕ) → (i : ℤ) → List ℤ
  | 0, _ => []
  | left + 1, i =>
    if i ∈ tempFds then i :: due tempFds left (i + 1) else due tempFds left (i + 1)

theorem mem_due {tempFds : FdSet} {left : ℕ} {i fd : ℤ} :
    fd ∈ due tempFds left i ↔ fd ∈ tempFds ∧ i ≤ fd ∧ fd < i + left := by
  induction left generalizing i with
  | zero =>
    simp only [due, List.not_mem_nil, false_iff]
    rintro ⟨-, h₁, h₂⟩
    simp only [Nat.cast_zero] at h₂
    omega
  | succ left ih =>
    rw [due]
    push_cast
    split
    · rename_i hmem
      rw [List.mem_cons, ih]
      constructor
      · rintro (rfl | ⟨h, h₁, h₂⟩)
        · exact ⟨hmem, le_refl _, by omega⟩
        · exact ⟨h, by omega, by omega⟩
      · rintro ⟨h, h₁, h₂⟩
        rcases eq_or_lt_of_le h₁ with rfl | h₁
        · exact .inl rfl
        · exact .inr ⟨h, by omega, by omega⟩
    · rename_i hmem
      rw [ih]
      constructor
      · rintro ⟨h, h₁, h₂⟩
        exact ⟨h, by omega, by omega⟩
      · rintro ⟨h, h₁, h₂⟩
        have hne : i ≠ fd := fun he => hmem (he ▸ h)
        exact ⟨h, by omega, by omega⟩

theorem due_nodup (tempFds : FdSet) (left : ℕ) (i : ℤ) : (due tempFds left i).Nodup := by
  induction left generalizing i with
  | zero => exact List.nodup_nil
  | succ left ih =>
    rw [due]
    split
    · refine List.nodup_cons.mpr ⟨?_, ih _⟩
      intro hin
      have := (mem_due.mp hin).2.1
      omega
    · exact ih _

/-! ## The scan -/

/-- The variables once descriptor `i` has been served. -/
def Locals.served (s : Locals) (e : Round) (i : ℤ) : Locals :=
  if e.ends i then { s with readFds := s.readFds.erase i } else s

/-- Serving a descriptor. -/
theorem run_serve {i : ℤ} (hi : InRange i) :
    ∃ t, (serve i s).run e.answer = some (t, s.served e i) ∧ Served e [i] t := by
  rw [serve_eq hi, Locals.served]
  have hlen := e.length_data i
  by_cases hd : e.data i = []
  · have hends : e.ends i = true := by rw [Round.ends, hd, List.isEmpty_nil]
    have hzero : readValue (.ok (e.data i)) = 0 := readValue_ok_eq_zero.mpr hd
    refine ⟨[⟨.read i (Span.whole 1024), .ok (e.data i)⟩,
      ⟨.printf (text "Client disconnected\n"), ()⟩, ⟨.close i, ()⟩], Prog.run_call ?_, rfl, rfl,
      ?_, ?_⟩
    · show (ite (readValue (.ok (e.data i)) = 0) _ _ : Prog posix Locals).run e.answer = _
      rw [if_pos hzero, if_pos hends]
      rfl
    · show [] = _
      simp [hends]
    · show [i] = _
      simp [hends]
  · have hends : e.ends i = false := by rw [Round.ends, List.isEmpty_eq_false_iff.mpr hd]
    have hpos : ¬ readValue (.ok (e.data i)) = 0 := mt readValue_ok_eq_zero.mp hd
    have hlt : (e.data i).length < 1024 := by omega
    set buffer : Buf 1024 := ((Buf.zeros 1024).put 0 (e.data i)).set (e.data i).length 0 hlt with hb
    refine ⟨[⟨.read i (Span.whole 1024), .ok (e.data i)⟩,
      ⟨.printf (text "Received message: " ++ CString.str buffer.toList ++ text "\n"), ()⟩,
      ⟨.send i (Span.first 1024 (e.data i).length) buffer.toList, .ok (e.data i).length⟩],
      Prog.run_call ?_, rfl, rfl, ?_, ?_⟩
    · show (ite (readValue (.ok (e.data i)) = 0) _ _ : Prog posix Locals).run e.answer = _
      rw [if_neg hpos, if_neg (by simp [hends])]
      rw [Round.answer_read, readValue_ok, readBytes_ok, storeAt_of_lt hlt, Prog.ret_bind]
      rfl
    · show [(i, (Span.first 1024 (e.data i).length).bytes buffer.toList)] = _
      rw [hb, Span.bytes_first_set, Span.bytes_first_put (by omega)]
      simp [hends]
    · show [] = _
      simp [hends]

/-- A scan serves the descriptors that are ready, in order. -/
theorem run_scan {left : ℕ} {i : ℤ} (hi : 0 ≤ i) (hleft : i + left ≤ fdSetsize) :
    ∃ t s', (scan e.ready left i s).run e.answer = some (t, s') ∧
      Served e (due e.ready left i) t ∧ s'.maxFd = s.maxFd ∧
      ∀ x, x ∈ s'.readFds ↔ x ∈ s.readFds ∧ ¬ (x ∈ due e.ready left i ∧ e.ends x = true) := by
  induction left generalizing i s with
  | zero => exact ⟨[], s, rfl, served_nil e, rfl, fun x => by simp [due]⟩
  | succ left ih =>
    push_cast at hleft
    have hr : InRange i := ⟨hi, by omega⟩
    rw [scan, due, fdIsSet_of_inRange hr, Prog.ret_bind]
    by_cases hmem : i ∈ e.ready
    · rw [if_pos (decide_eq_true hmem), if_pos hmem]
      obtain ⟨t₁, hrun₁, hserved₁⟩ := run_serve (s := s) (e := e) hr
      obtain ⟨t₂, s', hrun₂, hserved₂, hmax, hleft₂⟩ := ih (s := s.served e i) (i := i + 1)
        (by omega) (by omega)
      refine ⟨t₁ ++ t₂, s', Prog.run_bind hrun₁ hrun₂, hserved₁.append hserved₂, ?_, fun x => ?_⟩
      · rw [hmax, Locals.served]
        split <;> rfl
      · have hx : x ∈ (s.served e i).readFds ↔ x ∈ s.readFds ∧ ¬ (x = i ∧ e.ends i = true) := by
          rw [Locals.served]
          split
          · rename_i hends
            rw [FdSet.mem_erase]
            tauto
          · tauto
        rw [hleft₂, hx, e.left_cons]
    · rw [if_neg (by simpa using hmem), if_neg hmem]
      exact ih (by omega) (by omega)

/-! ## A round -/

/-- What the watched descriptors are like. -/
structure Watches (listenFd : ℤ) (s : Locals) : Prop where
  /-- The listening descriptor is watched. -/
  listen_mem : listenFd ∈ s.readFds
  /-- The others are above it. -/
  listen_le : ∀ fd ∈ s.readFds, listenFd ≤ fd
  /-- None is above `max_fd`. -/
  le_max : ∀ fd ∈ s.readFds, fd ≤ s.maxFd
  /-- `max_fd` fits into an `fd_set`. -/
  inRange : InRange s.maxFd

theorem watches_start (h : InRange listenFd) : Watches listenFd (start listenFd h) where
  listen_mem := (FdSet.mem_single h).mpr rfl
  listen_le _ hfd := ((FdSet.mem_single h).mp hfd).ge
  le_max _ hfd := ((FdSet.mem_single h).mp hfd).le
  inRange := h

/-- The variables once the connection `fd` is watched. -/
def Locals.watch (s : Locals) (fd : ℤ) (h : InRange fd) : Locals where
  readFds := s.readFds.insert fd h
  maxFd := if fd > s.maxFd then fd else s.maxFd

theorem addClient_eq_watch {fd : ℤ} (h : InRange fd) :
    addClient fd s = .ret (s.watch fd h) := by
  simp [addClient, Locals.watch, h]

theorem mem_watch {fd x : ℤ} {h : InRange fd} :
    x ∈ (s.watch fd h).readFds ↔ x = fd ∨ x ∈ s.readFds := by
  simp [Locals.watch]

theorem Watches.watch (h : Watches listenFd s) {fd : ℤ} (hr : InRange fd) (hlt : listenFd < fd) :
    Watches listenFd (s.watch fd hr) where
  listen_mem := mem_watch.mpr (.inr h.listen_mem)
  listen_le x hx := by
    rcases mem_watch.mp hx with rfl | hx
    · exact hlt.le
    · exact h.listen_le x hx
  le_max x hx := by
    simp only [Locals.watch]
    rcases mem_watch.mp hx with rfl | hx
    · split <;> omega
    · have := h.le_max x hx
      split <;> omega
  inRange := by
    simp only [Locals.watch]
    split
    · exact hr
    · exact h.inRange

/-- What is left of a round once the new connection, if there is one, is watched: the ready
connections are served. -/
theorem run_rest {s₁ : Locals} (h₁ : Watches listenFd s₁) (hlisten : 0 ≤ listenFd)
    (hp : e.Possible listenFd {fd | fd ∈ s.readFds}) (h : Watches listenFd s)
    (hmem : ∀ x, x ∈ s₁.readFds ↔ x ∈ s.readFds ∨ listenFd ∈ e.ready ∧ x = e.accepted)
    (hmax : s.maxFd ≤ s₁.maxFd) :
    ∃ t s' fds, (scan e.ready (s₁.maxFd - listenFd).toNat (listenFd + 1) s₁).run e.answer =
        some (t, s') ∧ Watches listenFd s' ∧ Served e fds t ∧ fds.Nodup ∧
      (∀ fd, fd ∈ fds ↔ fd ∈ e.ready ∧ fd ≠ listenFd) ∧
      {fd | fd ∈ s'.readFds} = e.next listenFd {fd | fd ∈ s.readFds} ∧ s'.maxFd = s₁.maxFd := by
  have hle := h₁.le_max listenFd h₁.listen_mem
  have hin := h₁.inRange.2
  have hcount : listenFd + 1 + (s₁.maxFd - listenFd).toNat ≤ fdSetsize := by omega
  obtain ⟨t, s', hrun, hserved, hmax', hleft⟩ := run_scan (s := s₁) (e := e) (by omega) hcount
  have hdue : ∀ fd, fd ∈ due e.ready (s₁.maxFd - listenFd).toNat (listenFd + 1) ↔
      fd ∈ e.ready ∧ fd ≠ listenFd := by
    intro fd
    rw [mem_due]
    refine and_congr_right fun hfd => ⟨fun hx => by omega, ?_⟩
    intro hne
    have hlow := h.listen_le fd (hp.ready_sub fd hfd)
    have hhigh := h.le_max fd (hp.ready_sub fd hfd)
    omega
  have hsub : ∀ x ∈ s'.readFds, x ∈ s₁.readFds := fun x hx => ((hleft x).mp hx).1
  refine ⟨t, s', _, hrun, ⟨?_, fun x hx => h₁.listen_le x (hsub x hx),
    fun x hx => hmax' ▸ h₁.le_max x (hsub x hx), hmax' ▸ h₁.inRange⟩, hserved, due_nodup _ _ _,
    hdue, ?_, hmax'⟩
  · rw [hleft, hdue]
    exact ⟨h₁.listen_mem, fun hx => hx.1.2 rfl⟩
  · ext fd
    show fd ∈ s'.readFds ↔ (fd ∈ s.readFds ∨ _) ∧ _
    rw [hleft, hmem, hdue]
    tauto

/-- **A round.** The server does what the results of the round ask for. -/
theorem run_round (h : Watches listenFd s) (hlisten : InRange listenFd)
    (hp : e.Possible listenFd {fd | fd ∈ s.readFds}) :
    ∃ t s', (round listenFd s).run e.answer = some (t, s') ∧ Watches listenFd s' ∧
      e.Outcome listenFd t ∧ {fd | fd ∈ s'.readFds} = e.next listenFd {fd | fd ∈ s.readFds} ∧
      s'.maxFd = e.nextMax listenFd s.maxFd := by
  have hpos : e.selected.value > 0 := by
    simpa [Round.selected] using Finset.card_pos.mpr e.nonempty
  rw [round, select_bind]
  by_cases hl : listenFd ∈ e.ready
  · have h₁ := h.watch e.inRange (hp.listen_lt hl)
    obtain ⟨t, s', fds, hrun, h', hserved, hnd, hmem, hnext, hmax⟩ :=
      run_rest h₁ hlisten.1 hp h (fun x => by rw [mem_watch, or_comm]; simp [hl])
        (by simp only [Locals.watch]; split <;> omega)
    refine ⟨⟨.select (s.maxFd + 1) s.readFds FdSet.zero, e.selected⟩ ::
      ⟨.printf (text "Select returned above zero\n"), ()⟩ ::
      ⟨.accept listenFd, .ok e.accepted⟩ :: t, s', Prog.run_call ?_, h',
      .of_served (u := [⟨.select (s.maxFd + 1) s.readFds FdSet.zero, e.selected⟩,
        ⟨.printf (text "Select returned above zero\n"), ()⟩, ⟨.accept listenFd, .ok e.accepted⟩])
        ?_ rfl rfl rfl hserved hnd hmem, hnext, ?_⟩
    · show (handle listenFd s e.selected).run e.answer = _
      rw [handle_of_mem hlisten hpos hl, acceptClient, accept_bind]
      refine Prog.run_call (Prog.run_call ?_)
      show (addClient e.accepted s >>= _).run e.answer = _
      rw [addClient_eq_watch e.inRange]
      exact hrun
    · rw [if_pos hl]
      rfl
    · rw [hmax, Round.nextMax, if_pos hl]
      simp only [Locals.watch]
      split <;> omega
  · obtain ⟨t, s', fds, hrun, h', hserved, hnd, hmem, hnext, hmax⟩ :=
      run_rest h hlisten.1 hp h (fun x => by simp [hl]) (le_refl _)
    refine ⟨⟨.select (s.maxFd + 1) s.readFds FdSet.zero, e.selected⟩ ::
      ⟨.printf (text "Select returned above zero\n"), ()⟩ :: t, s', Prog.run_call ?_, h',
      .of_served (u := [⟨.select (s.maxFd + 1) s.readFds FdSet.zero, e.selected⟩,
        ⟨.printf (text "Select returned above zero\n"), ()⟩]) ?_ rfl rfl rfl hserved hnd hmem,
      hnext, ?_⟩
    · show (handle listenFd s e.selected).run e.answer = _
      rw [handle_of_notMem hlisten hpos hl]
      exact Prog.run_call hrun
    · rw [if_neg hl]
      rfl
    · rw [hmax, Round.nextMax, if_neg hl]

end ScanServer

/-! ## Both servers -/

/-- From variables that watch the same descriptors the two servers agree. -/
theorem agree_of_same {listenfd : ℤ} (hl : InRange listenfd) {es : List Round}
    {s : ScanServer.Locals} {s' : SelectServer.Locals} (h : ScanServer.Watches listenfd s)
    (h' : SelectServer.Consistent listenfd s') (hset : s.readFds = s'.allset)
    (hmax : s.maxFd = s'.maxfd) (hes : Round.Possibles listenfd {fd | fd ∈ s'.allset} es) :
    ∃ t₁ s₁ t₂ s₂, runRounds (ScanServer.round listenfd) es s = some (t₁, s₁) ∧
      runRounds (SelectServer.round listenfd) es s' = some (t₂, s₂) ∧
      s₁.readFds = s₂.allset ∧ s₁.maxFd = s₂.maxfd ∧ List.Forall₂ SameRound t₁ t₂ := by
  induction es generalizing s s' with
  | nil => exact ⟨[], s, [], s', rfl, rfl, hset, hmax, .nil⟩
  | cons e es ih =>
    obtain ⟨hp, hes⟩ := hes
    have hp₀ : e.Possible listenfd {fd | fd ∈ s.readFds} := hset ▸ hp
    obtain ⟨t, u, hrun, hu, hout, hnext, hm⟩ := ScanServer.run_round h hl hp₀
    obtain ⟨t', u', hrun', hu', hout', hnext', hm'⟩ := SelectServer.run_round h' hp
    have hset' : u.readFds = u'.allset := FdSet.ext_mem fun fd => by
      have heq : {fd | fd ∈ u.readFds} = {fd | fd ∈ u'.allset} := by rw [hnext, hnext', hset]
      exact Set.ext_iff.mp heq fd
    obtain ⟨t₁, s₁, t₂, s₂, h₁, h₂, hset₂, hmax₂, hsame⟩ :=
      ih hu hu' hset' (by rw [hm, hm', hmax]) (hnext' ▸ hes)
    exact ⟨t :: t₁, s₁, t' :: t₂, s₂, runRounds_cons hrun h₁, runRounds_cons hrun' h₂, hset₂,
      hmax₂, .cons (hout.same hout') hsame⟩

/-- **The two servers agree.** From the variables with which `main` enters its loop, and run round
after round against the same results, the two servers never fail, watch the same descriptors and
have the same largest one at the end, and differ in no round in more than the order in which they
serve the ready connections. -/
theorem servers_agree {listenfd : ℤ} (hl : InRange listenfd) (buf : Buf 1024) {es : List Round}
    (hes : Round.Possibles listenfd {listenfd} es) :
    ScanServer.main listenfd = .ret (.inl (ScanServer.start listenfd hl)) ∧
    SelectServer.main listenfd buf = .ret (.inl (SelectServer.start listenfd hl buf)) ∧
    ∃ t s t' s',
      runRounds (ScanServer.round listenfd) es (ScanServer.start listenfd hl) = some (t, s) ∧
      runRounds (SelectServer.round listenfd) es (SelectServer.start listenfd hl buf) =
        some (t', s') ∧
      s.readFds = s'.allset ∧ s.maxFd = s'.maxfd ∧ List.Forall₂ SameRound t t' := by
  refine ⟨ScanServer.main_eq_start hl, SelectServer.main_eq_start hl buf, ?_⟩
  refine agree_of_same hl (ScanServer.watches_start hl) (SelectServer.consistent_start hl buf)
    rfl rfl ?_
  have hstart : {fd | fd ∈ (SelectServer.start listenfd hl buf).allset} = {listenfd} := by
    ext fd
    exact FdSet.mem_single hl
  rw [hstart]
  exact hes

/-- A connection on descriptor 4 arrives at a server that listens on descriptor 3. -/
def arrival : Round := ⟨FdSet.single 3 inRange_three, ⟨3, by decide⟩, 4, by decide, fun _ => [],
  fun _ => by decide⟩

/-- The client on descriptor 4 sends one byte. -/
def oneByte : Round := ⟨FdSet.single 4 inRange_four, ⟨4, by decide⟩, 4, by decide, fun _ => [65],
  fun _ => by decide⟩

theorem possibles_arrival : Round.Possibles 3 {3} [arrival, oneByte] := by
  have h3 : (3 : ℤ) ∈ arrival.ready := (FdSet.mem_single (by decide)).mpr rfl
  refine ⟨⟨fun fd hfd => ?_, fun _ => ⟨{fd | 0 ≤ fd ∧ fd < 3}, fun fd h₀ h₁ => ⟨h₀, h₁⟩, ?_, ?_⟩⟩,
    ⟨fun fd hfd => ?_, fun h => ?_⟩, trivial⟩
  · exact (FdSet.mem_single (by decide)).mp hfd
  · simp [arrival]
  · rintro fd ⟨hfd, hne⟩
    have hfd' : ¬ (0 ≤ (fd : ℤ) ∧ (fd : ℤ) < 3) := hfd
    have hne' : (fd : ℤ) ≠ 3 := hne
    show 4 ≤ fd
    omega
  · obtain rfl : fd = 4 := (FdSet.mem_single (by decide)).mp hfd
    refine ⟨.inr ⟨h3, rfl⟩, ?_⟩
    intro h
    have h4 : (4 : ℤ) = 3 := (FdSet.mem_single (by decide)).mp h.1
    omega
  · have h4 : (3 : ℤ) = 4 := (FdSet.mem_single (by decide)).mp h
    omega

theorem servers_agree_arrival : ∃ t s t' s',
    runRounds (ScanServer.round 3) [arrival, oneByte] (ScanServer.start 3 (by decide)) =
      some (t, s) ∧
    runRounds (SelectServer.round 3) [arrival, oneByte] SelectServer.idle = some (t', s') ∧
    s.readFds = s'.allset ∧ s.maxFd = s'.maxfd ∧ List.Forall₂ SameRound t t' :=
  (servers_agree (by decide) (Vector.replicate 1024 0) possibles_arrival).2.2

end UnixNetwork
