import UnixNetwork.SelectServer.Countdown
import UnixNetwork.EchoRounds

/-!
# The rounds of the select server

Against the results of one round the select server does what `Round.Outcome` describes, and its
`allset` and `maxfd` become what `Round.next` and `Round.nextMax` say. The order in which it serves
the ready connections is that of their slots.

## Main results

* `run_serve`, `run_scanAll`: one slot, and all of them
* `run_round`: a round
-/

namespace UnixNetwork

namespace SelectServer

open Interaction

variable {listenfd : ℤ} {s : Locals} {e : Round}

/-- The variables once the connection `fd` in slot `i` has been served. -/
def Locals.served (s : Locals) (e : Round) (i : ℕ) (hi : i < fdSetsize) (fd : ℤ) : Locals :=
  if e.ends fd then s.release i hi fd (s.buf.put 0 (e.data fd))
  else { s with buf := s.buf.put 0 (e.data fd) }

/-- Serving the connection in a slot. -/
theorem run_serve {i : ℕ} (hi : i < fdSetsize) {fd : ℤ} (hr : InRange fd) :
    ∃ t, (serve i fd s).run e.answer = some (t, s.served e i hi fd) ∧ Served e [fd] t := by
  rw [serve_eq hi hr, Locals.served]
  have hlen := e.length_data fd
  by_cases hd : e.data fd = []
  · have hends : e.ends fd = true := by rw [Round.ends, hd, List.isEmpty_nil]
    have hle : readValue (.ok (e.data fd)) ≤ 0 := readValue_ok_nonpos.mpr hd
    refine ⟨[⟨.read fd (Span.whole 1024), .ok (e.data fd)⟩, ⟨.close fd, ()⟩], Prog.run_call ?_,
      rfl, rfl, ?_, ?_⟩
    · show (ite (readValue (.ok (e.data fd)) ≤ 0) _ _ : Prog posix Locals).run e.answer = _
      rw [if_pos hle, if_pos hends]
      rfl
    · show [] = _
      simp [hends]
    · show [fd] = _
      simp [hends]
  · have hends : e.ends fd = false := by rw [Round.ends, List.isEmpty_eq_false_iff.mpr hd]
    have hpos : ¬ readValue (.ok (e.data fd)) ≤ 0 := mt readValue_ok_nonpos.mp hd
    refine ⟨[⟨.read fd (Span.whole 1024), .ok (e.data fd)⟩,
      ⟨.write fd (Span.first 1024 (e.data fd).length) (s.buf.put 0 (e.data fd)).toList,
        .ok (e.data fd).length⟩], Prog.run_call ?_, rfl, rfl, ?_, ?_⟩
    · show (ite (readValue (.ok (e.data fd)) ≤ 0) _ _ : Prog posix Locals).run e.answer = _
      rw [if_neg hpos, if_neg (by simp [hends])]
      rfl
    · show [(fd, (Span.first 1024 (e.data fd).length).bytes (s.buf.put 0 (e.data fd)).toList)] = _
      rw [Span.bytes_first_put (by omega)]
      simp [hends]
    · show [] = _
      simp [hends]

/-- What the table holds once the connection in a slot has been served. -/
theorem holds_served (h : Consistent listenfd s) {i : ℕ} (hi : i < fdSetsize) {fd : ℤ}
    (hfd : fdAt s.client i = fd) : Consistent listenfd (s.served e i hi fd) ∧
      (s.served e i hi fd).maxfd = s.maxfd ∧
      (∀ j, j ≠ i → fdAt (s.served e i hi fd).client j = fdAt s.client j) ∧
      ∀ x, (s.served e i hi fd).Holds x ↔ s.Holds x ∧ ¬ (x = fd ∧ e.ends fd = true) := by
  rw [Locals.served]
  split
  · rename_i hends
    refine ⟨h.release hi _ hfd, rfl, fun j hj => ?_, fun x => ?_⟩
    · rw [Locals.release, fdAt_set, if_neg hj]
    · rw [h.holds_release hfd]
      tauto
  · rename_i hends
    refine ⟨h.with_buf _, rfl, fun j _ => rfl, ?_⟩
    intro x
    rw [holds_with_buf]
    exact ⟨fun hx => ⟨hx, fun hno => hends hno.2⟩, fun hx => hx.1⟩

/-- A full scan serves the connections that are due, in the order of their slots. -/
theorem run_scanAll (h : Consistent listenfd s) {left i : ℕ} (hleft : i + left ≤ fdSetsize) :
    ∃ t s', (scanAll e.ready left i s).run e.answer = some (t, s') ∧
      Served e (due e.ready s.client left i) t ∧ Consistent listenfd s' ∧ s'.maxfd = s.maxfd ∧
      ∀ x, s'.Holds x ↔ s.Holds x ∧
        ¬ (x ∈ due e.ready s.client left i ∧ e.ends x = true) := by
  induction left generalizing i s with
  | zero => exact ⟨[], s, rfl, served_nil e, h, rfl, fun x => by simp [due]⟩
  | succ left ih =>
    have hi : i < fdSetsize := by omega
    rw [scanAll, load_of_lt hi, Prog.ret_bind, ← fdAt_of_lt hi, due]
    split
    · rename_i hneg
      rw [if_neg fun hmem => absurd (FdSet.inRange_of_mem hmem).1 (not_le.mpr hneg)]
      exact ih h (by omega)
    · rename_i hneg
      have hr := h.inRange_of_holds ⟨not_lt.mp hneg, i, rfl⟩
      rw [fdIsSet_of_inRange hr, Prog.ret_bind]
      by_cases hmem : fdAt s.client i ∈ e.ready
      · rw [if_pos (decide_eq_true hmem), if_pos hmem]
        obtain ⟨t₁, hrun₁, hserved₁⟩ := run_serve (s := s) (e := e) hi hr
        obtain ⟨h', hmax, hslots, hholds⟩ := holds_served (e := e) h hi rfl
        obtain ⟨t₂, s', hrun₂, hserved₂, h'', hmax', hholds'⟩ := ih h' (i := i + 1) (by omega)
        rw [due_congr e.ready fun j hj => hslots j (by omega)] at hserved₂ hholds'
        refine ⟨t₁ ++ t₂, s', Prog.run_bind hrun₁ hrun₂, hserved₁.append hserved₂, h'',
          hmax'.trans hmax, ?_⟩
        intro x
        rw [hholds', hholds, e.left_cons]
      · rw [if_neg (by simpa using hmem), if_neg hmem]
        exact ih h (by omega)

/-- What `select` reports is a part of what is watched. -/
theorem ready_of_possible (hp : e.Possible listenfd {fd | fd ∈ s.allset}) :
    e.selected.Ready s.allset FdSet.zero where
  rset_sub fd hfd := hp.ready_sub fd hfd
  wset_sub fd hfd := absurd hfd FdSet.notMem_zero
  value_eq := by simp [Round.selected, FdSet.zero]
  value_pos := by simpa [Round.selected] using Finset.card_pos.mpr e.nonempty

/-- What is left of a round once the new connection, if there is one, is in the table: the ready
connections are served. -/
theorem run_rest {s₁ : Locals} (h : Consistent listenfd s) (h₁ : Consistent listenfd s₁)
    (hp : e.Possible listenfd {fd | fd ∈ s.allset})
    (hholds : ∀ x, s₁.Holds x ↔ s.Holds x ∨ listenfd ∈ e.ready ∧ x = e.accepted) :
    ∃ t s' fds, (scanAll e.ready (turns s₁) 0 s₁).run e.answer = some (t, s') ∧
      Consistent listenfd s' ∧ Served e fds t ∧ fds.Nodup ∧
      (∀ fd, fd ∈ fds ↔ fd ∈ e.ready ∧ fd ≠ listenfd) ∧
      {fd | fd ∈ s'.allset} = e.next listenfd {fd | fd ∈ s.allset} ∧ s'.maxfd = s₁.maxfd := by
  obtain ⟨t, s', hrun, hserved, h', hmax, hleft⟩ := run_scanAll (e := e) h₁ (turns_le h₁)
  have hdue : ∀ fd, fd ∈ due e.ready s₁.client (turns s₁) 0 ↔ fd ∈ e.ready ∧ fd ≠ listenfd := by
    intro fd
    rw [mem_due_turns h₁]
    refine and_congr_right fun hmem => ⟨fun ⟨_, i, he⟩ => he ▸ h₁.ne_listen i, ?_⟩
    intro hne
    have hwatched : fd = listenfd ∨ s.Holds fd := (h.mem_allset fd).mp (hp.ready_sub fd hmem)
    exact (hholds fd).mpr (.inl (hwatched.resolve_left hne))
  refine ⟨t, s', _, hrun, h', hserved, due_nodup h₁ _ _ _, hdue, ?_, hmax⟩
  ext fd
  show fd ∈ s'.allset ↔ (fd ∈ s.allset ∨ _) ∧ _
  rw [h'.mem_allset, h.mem_allset, hleft, hholds, hdue]
  constructor
  · rintro (rfl | ⟨hin, hno⟩)
    · exact ⟨.inl (.inl rfl), fun hx => hx.2.1 rfl⟩
    · exact ⟨hin.imp_left .inr, fun hx => hno ⟨⟨hx.1, hx.2.1⟩, hx.2.2⟩⟩
  · rintro ⟨(rfl | hin) | hin, hno⟩
    · exact .inl rfl
    · exact .inr ⟨.inl hin, fun hx => hno ⟨hx.1.1, hx.1.2, hx.2⟩⟩
    · exact .inr ⟨.inr hin, fun hx => hno ⟨hx.1.1, hx.1.2, hx.2⟩⟩

/-- A new connection is put into the table. -/
theorem run_install (h : Consistent listenfd s) : ∃ j, ∃ hj : j < fdSetsize, ∃ t,
    fdAt s.client j = -1 ∧
      (install (e.accepted : ℕ) s).run e.answer =
        some (t, s.occupy j hj e.accepted e.inRange) ∧ Served e [] t := by
  obtain ⟨j, hj, hfree, he⟩ := h.install_eq e.inRange
  rw [he]
  split
  · exact ⟨j, hj, [⟨.printf _, ()⟩], hfree, rfl, rfl, rfl, rfl, rfl⟩
  · exact ⟨j, hj, [], hfree, rfl, served_nil e⟩

/-- **A round.** The select server does what the results of the round ask for. -/
theorem run_round (h : Consistent listenfd s) (hp : e.Possible listenfd {fd | fd ∈ s.allset}) :
    ∃ t s', (round listenfd s).run e.answer = some (t, s') ∧ Consistent listenfd s' ∧
      e.Outcome listenfd t ∧ {fd | fd ∈ s'.allset} = e.next listenfd {fd | fd ∈ s.allset} ∧
      s'.maxfd = e.nextMax listenfd s.maxfd := by
  have hready := ready_of_possible hp
  rw [round, select_bind]
  by_cases hl : listenfd ∈ e.ready
  · have hne : (e.accepted : ℤ) ≠ listenfd := (hp.listen_lt hl).ne'
    have hnew : ¬ s.Holds e.accepted := fun hh =>
      hp.accepted_notMem hl ((h.mem_allset _).mpr (.inr hh))
    obtain ⟨j, hj, t₁, hfree, hinst, hserved₁⟩ := run_install (e := e) h
    have h₁ := h.occupy hj e.inRange hfree hne hnew
    obtain ⟨t, s', fds, hrun, h', hserved, hnd, hmem, hnext, hmax⟩ := run_rest h h₁ hp fun x => by
      rw [holds_occupy hfree, or_comm]
      simp [hl]
    have hscan : (if e.selected.value - 1 ≤ 0 then .ret (s.occupy j hj e.accepted e.inRange)
        else scan e.selected.rset (turns (s.occupy j hj e.accepted e.inRange)) 0
          (e.selected.value - 1) (s.occupy j hj e.accepted e.inRange)) = _ :=
      stop_or_scan_of_mem h hready hl hfree h₁
    refine ⟨selectEvent s e.selected :: ⟨.accept listenfd, .ok e.accepted⟩ :: (t₁ ++ t), s',
      Prog.run_call ?_, h', .of_served
        (u := [selectEvent s e.selected, ⟨.accept listenfd, .ok e.accepted⟩]) ?_ rfl rfl rfl
        (hserved₁.append hserved) hnd hmem, hnext, ?_⟩
    · show (handle listenfd s e.selected).run e.answer = _
      rw [handle_of_mem h.listen hl, acceptClient, Prog.bind_assoc, accept_bind]
      refine Prog.run_call (Prog.run_bind hinst ?_)
      rw [hscan]
      exact hrun
    · rw [if_pos hl]
      rfl
    · rw [hmax, Round.nextMax, if_pos hl]
      simp only [Locals.occupy]
      split <;> omega
  · obtain ⟨t, s', fds, hrun, h', hserved, hnd, hmem, hnext, hmax⟩ := run_rest h h hp fun x => by
      simp [hl]
    refine ⟨selectEvent s e.selected :: t, s', Prog.run_call ?_, h',
      .of_served (u := [selectEvent s e.selected]) ?_ rfl rfl rfl hserved hnd hmem, hnext, ?_⟩
    · show (handle listenfd s e.selected).run e.answer = _
      rw [handle_of_notMem h hready hl]
      exact hrun
    · rw [if_neg hl]
      rfl
    · rw [hmax, Round.nextMax, if_neg hl]

end SelectServer

end UnixNetwork
