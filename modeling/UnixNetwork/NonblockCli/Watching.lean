import UnixNetwork.NonblockCli.Pointers

/-!
# What the client with non-blocking calls waits for

At the head of its loop `str_cli` of `16/str_cli.c` puts into the two sets the descriptors that it
can make progress with: the standard input and the socket for reading while there is room in their
buffers, the socket and the standard output for writing while there is something to write.

`maxfdp1` is computed from the standard input and the standard output alone, so `select` looks at
the descriptors 0 and 1 only. The end of the standard input is never noticed, the pointer behind
data that has been read is not moved, and one that has been moved back by `EWOULDBLOCK` makes an
empty buffer look as if there were something in it.

## Main definitions

* `NonblockCli.unsent`, `NonblockCli.unwritten`: what has been read and not been passed on
* `NonblockCli.Sensible`, `NonblockCli.Watched`: the client waits for what can make progress

## Main results

* `exists_watch_eq`: what the client waits for
* `watched_of_quiet`: when it waits for the right descriptors
-/

namespace UnixNetwork

namespace NonblockCli

open Interaction

variable {maxline : ℕ}

/-- The bytes that have been read from the standard input and not been written to the socket. -/
def unsent (w : Traffic) : List Byte := (w.stdin.flatMap readBytes).drop w.toSock.length

/-- The bytes that have been read from the socket and not been written to the standard output. -/
def unwritten (w : Traffic) : List Byte := (w.sock.flatMap readBytes).drop w.toStdout.length

/-- What `select` is asked for is what can make progress. -/
structure Sensible (sockfd : ℤ) (s : Locals maxline) (w : Traffic) (nfds : ℤ)
    (rset wset : FdSet) : Prop where
  /-- The standard input has not ended, and there is room for more of it. -/
  stdin : stdinFileno ∈ rset ↔ .ok [] ∉ w.stdin ∧ s.toiptr < maxline
  /-- There is room for more from the socket. -/
  sock : sockfd ∈ rset ↔ s.fromiptr < maxline
  /-- There is something to send. -/
  send : sockfd ∈ wset ↔ unsent w ≠ []
  /-- There is something to write to the standard output. -/
  stdout : stdoutFileno ∈ wset ↔ unwritten w ≠ []
  /-- `select` looks at all of them. -/
  below : ∀ fd, fd ∈ rset ∨ fd ∈ wset → fd < nfds

/-- At a head of the loop the client calls `select`, and asks it for what can make progress. -/
def Watched (sockfd : ℤ) (s : Locals maxline) (w : Traffic) : Prop :=
  ∃ nfds rset wset, watch sockfd s = Prog.call (I := posix) (.select nfds rset wset) .ret ∧
    Sensible sockfd s w nfds rset wset

section Head

variable {sockfd : ℤ} {s : Locals maxline} {w : Traffic}

/-- A conditional `FD_SET`. -/
theorem exists_fdSetIf {I : Interface} {c : Prop} [Decidable c] {fd : ℤ} (h : InRange fd)
    (S : FdSet) : ∃ T : FdSet, (if c then fdSet fd S else .ret S : Prog I FdSet) = .ret T ∧
      ∀ x, x ∈ T ↔ (c ∧ x = fd) ∨ x ∈ S := by
  by_cases hc : c
  · exact ⟨S.insert fd h, by rw [if_pos hc, fdSet_of_inRange h], fun x => by simp [hc]⟩
  · exact ⟨S, by rw [if_neg hc], fun x => by simp [hc]⟩

/-- What the client waits for at a head of the loop. -/
theorem exists_watch_eq (h : Inv s w) (hmax : 0 < maxline) (hsock : InRange sockfd) :
    ∃ rset wset, watch sockfd s = Prog.call (I := posix) (.select 2 rset wset) .ret ∧
      (∀ fd, fd ∈ rset ↔ fd = stdinFileno ∨ fd = sockfd) ∧
      ∀ fd, fd ∈ wset ↔ (s.toiptr ≠ 0 ∧ fd = sockfd) ∨ s.fromiptr ≠ 0 ∧ fd = stdoutFileno := by
  have hin : InRange stdinFileno := by decide
  have hout : InRange stdoutFileno := by decide
  have htoiptr := h.toiptr
  obtain ⟨S₁, h₁, hS₁⟩ := exists_fdSetIf (I := posix)
    (c := s.stdineof = false ∧ s.toiptr < maxline) hin FdSet.zero
  obtain ⟨S₂, h₂, hS₂⟩ := exists_fdSetIf (I := posix) (c := s.fromoptr < maxline) hsock S₁
  obtain ⟨S₃, h₃, hS₃⟩ := exists_fdSetIf (I := posix) (c := s.tooptr ≠ s.toiptr) hsock FdSet.zero
  obtain ⟨S₄, h₄, hS₄⟩ := exists_fdSetIf (I := posix) (c := s.fromiptr ≠ s.fromoptr) hout S₃
  refine ⟨S₂, S₄, ?_, ?_, ?_⟩
  · rw [watch, fdSetIf, h₁, Prog.ret_bind, fdSetIf, h₂, Prog.ret_bind, fdSetIf, h₃, Prog.ret_bind,
      fdSetIf, h₄, Prog.ret_bind]
    rfl
  · intro fd
    have hroom : s.toiptr < maxline := by omega
    rw [hS₂, hS₁, h.stdineof, h.fromoptr]
    simp [hroom, hmax, or_comm]
  · intro fd
    rw [hS₄, hS₃, h.tooptr, h.fromoptr]
    simp [eq_comm, or_comm]

/-- A descriptor that an `fd_set` has no bit for cannot be waited for. -/
theorem watch_of_not_inRange (h : Inv s w) (hmax : 0 < maxline) (hsock : ¬ InRange sockfd) :
    watch sockfd s = .fault := by
  have hin : InRange stdinFileno := by decide
  have hroom : s.fromoptr < maxline := by
    rw [h.fromoptr]
    exact_mod_cast hmax
  obtain ⟨S, hS, -⟩ := exists_fdSetIf (I := posix)
    (c := s.stdineof = false ∧ s.toiptr < maxline) hin FdSet.zero
  rw [watch, fdSetIf, hS, Prog.ret_bind, fdSetIf, if_pos hroom, fdSet_of_not_inRange hsock]
  rfl

/-- While every read returns 0, the client waits for the right descriptors as long as the standard
input has not ended, if `select` looks at the socket. -/
theorem watched_of_inv (h : Inv s w) (hmax : 0 < maxline) (hsock : 0 ≤ sockfd ∧ sockfd < 2)
    (heof : .ok [] ∉ w.stdin) (hq : w.Quiet) : Watched sockfd s w := by
  have hrange : InRange sockfd := ⟨hsock.1, by rw [fdSetsize]; omega⟩
  obtain ⟨hti, hfi⟩ := h.unmoved_of_quiet hq
  obtain ⟨rset, wset, hwatch, hr, hw⟩ := exists_watch_eq h hmax hrange
  have hnil : ∀ l : List (Except Errno (List Byte)), (∀ r ∈ l, r ∈ w.stdin ++ w.sock) →
      l.flatMap readBytes = [] := by
    intro l hl
    refine List.flatMap_eq_nil_iff.mpr ?_
    intro r hmem
    rw [hq r (hl r hmem)]
    rfl
  have hunsent : unsent w = [] := by
    rw [unsent, hnil _ fun r hmem => List.mem_append_left _ hmem, List.drop_nil]
  have hunwritten : unwritten w = [] := by
    rw [unwritten, hnil _ fun r hmem => List.mem_append_right _ hmem, List.drop_nil]
  have hempty : ∀ fd, fd ∉ wset := by
    intro fd
    rw [hw]
    rintro (⟨hne, -⟩ | ⟨hne, -⟩)
    · exact hne hti
    · exact hne hfi
  refine ⟨2, rset, wset, hwatch, ?_, ?_, ?_, ?_, ?_⟩
  · rw [hr, hti]
    exact iff_of_true (.inl rfl) ⟨heof, by exact_mod_cast hmax⟩
  · rw [hr, hfi]
    exact iff_of_true (.inr rfl) (by exact_mod_cast hmax)
  · exact iff_of_false (hempty _) fun hne => hne hunsent
  · exact iff_of_false (hempty _) fun hne => hne hunwritten
  · rintro fd (hfd | hfd)
    · rcases (hr fd).mp hfd with rfl | rfl
      · decide
      · exact hsock.2
    · exact absurd hfd (hempty fd)

/-- Where the client waits for the right descriptors, `select` looks at the socket, the standard
input has not ended, and data has been read only if a read has failed with `EWOULDBLOCK`. -/
theorem of_watched (h : Inv s w) (hmax : 0 < maxline) (hwatched : Watched sockfd s w) :
    (0 ≤ sockfd ∧ sockfd < 2) ∧ .ok [] ∉ w.stdin ∧
      ((∃ r ∈ w.stdin ++ w.sock, readBytes r ≠ []) ↔
        ∃ r ∈ w.stdin ++ w.sock, wouldBlock r = true) := by
  obtain ⟨nfds, rset, wset, hcall, hs⟩ := hwatched
  have hrange : InRange sockfd := by
    by_contra hout
    rw [watch_of_not_inRange h hmax hout] at hcall
    cases hcall
  obtain ⟨rset', wset', hcall', hr, hw⟩ := exists_watch_eq h hmax hrange
  rw [hcall'] at hcall
  cases hcall
  have hsent : unsent w = w.stdin.flatMap readBytes := by
    rw [unsent, h.sent]
    rfl
  have hshown : unwritten w = w.sock.flatMap readBytes := by
    rw [unwritten, h.shown]
    rfl
  have hdata : (∃ r ∈ w.stdin ++ w.sock, readBytes r ≠ []) ↔ unsent w ≠ [] ∨ unwritten w ≠ [] := by
    rw [hsent, hshown, ← not_and_or, List.flatMap_eq_nil_iff, List.flatMap_eq_nil_iff,
      ← List.forall_mem_append]
    push Not
    rfl
  have hmoved : (∃ r ∈ w.stdin ++ w.sock, wouldBlock r = true) ↔
      s.toiptr ≠ 0 ∨ s.fromiptr ≠ 0 := by
    rw [← not_and_or, h.unmoved]
    push Not
    simp
  refine ⟨⟨hrange.1, hs.below sockfd (.inl ((hr sockfd).mpr (.inr rfl)))⟩,
    (hs.stdin.mp ((hr _).mpr (.inl rfl))).1, ?_⟩
  rw [hdata, hmoved, ← hs.send, ← hs.stdout, hw, hw]
  constructor
  · rintro ((⟨hne, -⟩ | ⟨hne, -⟩) | (⟨hne, -⟩ | ⟨hne, -⟩))
    · exact .inl hne
    · exact .inr hne
    · exact .inl hne
    · exact .inr hne
  · rintro (hne | hne)
    · exact .inl (.inl ⟨hne, rfl⟩)
    · exact .inr (.inr ⟨hne, rfl⟩)

end Head

/-- **When the client waits for the right descriptors.** At the head of the loop, after any run, it
does so if its socket is 0 or 1, the standard input has not ended and every read has returned 0. It
does so for no other socket, nor once the standard input has ended, nor after a read that has
returned data unless another one has failed with `EWOULDBLOCK`, or the other way round. -/
theorem watched_of_quiet (maxline : ℕ) (hmax : 0 < maxline) (sockfd : ℤ)
    (toBuf fromBuf : Buf maxline) (s : Locals maxline) (w : Traffic)
    (h : Run sockfd toBuf fromBuf (.ret (.inl s), w)) :
    ((0 ≤ sockfd ∧ sockfd < 2) ∧ .ok [] ∉ w.stdin ∧ w.Quiet → Watched sockfd s w) ∧
    (Watched sockfd s w → (0 ≤ sockfd ∧ sockfd < 2) ∧ .ok [] ∉ w.stdin ∧
      ((∃ r ∈ w.stdin ++ w.sock, readBytes r ≠ []) ↔
        ∃ r ∈ w.stdin ++ w.sock, wouldBlock r = true)) := by
  have hinv : Inv s w := run_wp h
  constructor
  · rintro ⟨hsock, heof, hq⟩
    exact watched_of_inv hinv hmax hsock heof hq
  · intro hwatched
    exact of_watched hinv hmax hwatched

/-- The socket is the standard output, and nothing has happened. -/
theorem watched_of_quiet_start :
    Watched 1 (start (Buf.zeros 4096) (Buf.zeros 4096)) Traffic.start :=
  (watched_of_quiet 4096 (by decide) 1 _ _ _ _ .refl).1
    ⟨by decide, by simp [Traffic.start], by simp [Traffic.Quiet, Traffic.start]⟩

/-- A socket that the program can really be given is never looked at. -/
theorem not_watched_socket :
    Run 3 (Buf.zeros 4096) (Buf.zeros 4096)
      (.ret (.inl (start (Buf.zeros 4096) (Buf.zeros 4096))), Traffic.start) ∧
    ¬ Watched 3 (start (Buf.zeros 4096) (Buf.zeros 4096)) Traffic.start := by
  refine ⟨.refl, ?_⟩
  intro hwatched
  have hlt := (of_watched (inv_start _ _) (by decide) hwatched).1.2
  omega

end NonblockCli

end UnixNetwork
