import UnixNetwork.NonblockCli.Pointers

/-!
# The half-close of the client with non-blocking calls

`str_cli` of `16/str_cli.c` has two places that send a FIN: where the standard input ends with an
empty buffer, and where the last of a buffer has been written once it has ended. Neither is ever
reached. The first belongs to an `else` that C attaches to `errno != EWOULDBLOCK`, so it would take
a failed read that returned 0; the second asks for `stdineof`, which only the first one sets. The
same goes for the two ways out of the loop at the end of the stream from the socket.

So the discipline of the half-close is kept in a state exactly when it asks for nothing: an end of
the standard input with nothing to send, or any end of the stream from the socket, breaks it.

## Main definitions

* `NonblockCli.History`: the traffic, with the ends of the streams and the calls of `shutdown`
* `NonblockCli.HalfClosed`, `NonblockCli.EndsAsItShould`: what is asked at a head of the loop, and
  of the way the function ends

## Main results

* `leaves_body`: no turn ends the function but by `err_sys`
* `reach_untouched`: there is no `shutdown` in any run
* `halfClosed_iff`: when the half-close is as it should be
-/

namespace UnixNetwork

namespace NonblockCli

open Interaction

variable {maxline : ℕ}

/-! ## What is remembered -/

/-- What has gone over the descriptors, with the order of the ends and the calls of `shutdown`. -/
structure History extends Traffic where
  /-- The descriptors from which an end of file has been read, in order. -/
  ends : List ℤ
  /-- The number of calls of `shutdown` on the socket. -/
  shutdowns : ℕ
  /-- The bytes written to the socket after one of them. -/
  late : List Byte

namespace History

/-- Nothing has happened. -/
def start : History := ⟨Traffic.start, [], 0, []⟩

variable (w : History) (sockfd : ℤ)

/-- The ends that have been read once a call has returned. -/
def endsAfter : (c : Call) → Res c → List ℤ
  | .read fd _, r => if r = .ok [] then w.ends ++ [fd] else w.ends
  | _, _ => w.ends

/-- The number of calls of `shutdown` once a call has returned. -/
def shutdownsAfter : Call → ℕ
  | .shutdownWr fd => if fd = sockfd then w.shutdowns + 1 else w.shutdowns
  | _ => w.shutdowns

/-- The bytes written too late once a call has returned. -/
def lateAfter : (c : Call) → Res c → List Byte
  | .write fd src mem, r =>
    if fd = sockfd ∧ 0 < w.shutdowns then w.late ++ taken (src.bytes mem) r else w.late
  | _, _ => w.late

/-- What has happened once a call has returned. -/
def next (c : Call) (r : Res c) : History where
  toTraffic := w.toTraffic.next sockfd c r
  ends := w.endsAfter c r
  shutdowns := w.shutdownsAfter sockfd c
  late := w.lateAfter sockfd c r

/-- The surroundings of the client on the socket `sockfd`; they return what `NonblockCli.world`
returns. -/
def world (sockfd : ℤ) : World posix History := ⟨fun _ => Allows, fun w => w.next sockfd⟩

theorem extends_world (sockfd : ℤ) :
    (world sockfd).Extends (NonblockCli.world sockfd) History.toTraffic :=
  ⟨fun _ _ _ => Iff.rfl, fun _ _ _ => rfl⟩

end History

/-! ## The discipline -/

/-- The discipline of the half-close, at a head of the loop. -/
structure HalfClosed (sockfd : ℤ) (w : History) : Prop where
  /-- There has been a `shutdown` exactly if the standard input has ended and all of it has been
  sent. -/
  shut : 0 < w.shutdowns ↔
    stdinFileno ∈ w.ends ∧ w.toSock = w.stdin.flatMap readBytes
  /-- There has been one at most. -/
  once : w.shutdowns ≤ 1
  /-- Nothing has been written after it. -/
  silent : w.late = []
  /-- The loop does not go on after the end of the stream from the socket. -/
  going : sockfd ∉ w.ends

/-- The function that has read the end of the stream from the socket returns if the standard input
has ended before, and reports a premature end if not. -/
def EndsAsItShould (sockfd : ℤ) (w : History) (e : Exit) : Prop :=
  sockfd ∈ w.ends →
    e = if stdinFileno ∈ w.ends.takeWhile (· ≠ sockfd) then .returned
      else .errQuit "server terminated prematurely"

/-! ## How a turn ends -/

/-- The program is ended by `err_sys`. -/
def Exit.IsErrSys : Exit → Prop
  | .errSys _ => True
  | _ => False

/-- What a part of a turn leaves if only `err_sys` ends it. -/
abbrev Goes {α : Type} : α ⊕ Exit → Prop := Sum.elim (fun _ => True) Exit.IsErrSys

/-- The branch for the end of a stream is one for a failed read that returned 0. -/
theorem leaves_read {α : Type} {r : Except Errno (List Byte)} {msg : String}
    {eof log rest : Prog posix (α ⊕ Exit)} (hlog : log.Leaves Goes) (hrest : rest.Leaves Goes) :
    (if readValue r < 0 then
      if wouldBlock r = false then .ret (.inr (.errSys msg))
      else if readValue r = 0 then eof else log
    else rest).Leaves Goes := by
  by_cases hn : readValue r < 0
  · rw [if_pos hn, if_neg hn.ne]
    split
    · trivial
    · exact hlog
  · rw [if_neg hn]
    exact hrest

theorem leaves_fromStdin (sockfd : ℤ) (rset wset : FdSet) (s : Locals maxline) :
    (fromStdin sockfd rset wset s).Leaves Goes := by
  rw [fromStdin]
  refine (silent_fdIsSet _ _).leaves_bind fun ready => ?_
  cases ready with
  | false => trivial
  | true =>
    refine fun r => (Buf.silent_storeBytes _ _ _).leaves_bind fun b => leaves_read ?_ trivial
    exact fun now _ => (silent_fdSet _ _).leaves_bind fun S => trivial

theorem leaves_fromSocket (sockfd : ℤ) (rset wset : FdSet) (s : Locals maxline) :
    (fromSocket sockfd rset wset s).Leaves Goes := by
  rw [fromSocket]
  refine (silent_fdIsSet _ _).leaves_bind fun ready => ?_
  cases ready with
  | false => trivial
  | true =>
    refine fun r => (Buf.silent_storeBytes _ _ _).leaves_bind fun b => leaves_read ?_ trivial
    exact fun now _ => (silent_fdSet _ _).leaves_bind fun S => trivial

theorem leaves_watch (sockfd : ℤ) (s : Locals maxline) :
    (watch sockfd s).Leaves fun _ => True := by
  rw [watch]
  refine (silent_fdSetIf _ _ _).leaves_bind fun S₁ => (silent_fdSetIf _ _ _).leaves_bind ?_
  refine fun S₂ => (silent_fdSetIf _ _ _).leaves_bind fun S₃ => ?_
  refine (silent_fdSetIf _ _ _).leaves_bind fun S₄ => ?_
  exact fun _ => trivial

theorem leaves_toStdout (sockfd : ℤ) (wset : FdSet) (s : Locals maxline) :
    (toStdout sockfd wset s).Leaves Goes := by
  rw [toStdout]
  refine (silent_fdIsSet _ _).leaves_bind fun ready => ?_
  dsimp only
  split
  · rw [write_bind, Prog.leaves_call]
    intro r
    by_cases hn : countValue r < 0
    · rw [if_pos hn]
      split <;> trivial
    · rw [if_neg hn]
      intro now _
      by_cases hdrained : s.fromoptr + countValue r = s.fromiptr
      · show (ite _ _ _ : Prog posix _).Leaves _
        rw [if_pos hdrained]
        cases s.stdineof with
        | true => exact fun _ => trivial
        | false => trivial
      · show (ite _ _ _ : Prog posix _).Leaves _
        rw [if_neg hdrained]
        trivial
  · trivial

theorem leaves_toSocket (sockfd : ℤ) (wset : FdSet) (s : Locals maxline) :
    (toSocket sockfd wset s).Leaves Goes := by
  rw [toSocket]
  refine (silent_fdIsSet _ _).leaves_bind fun ready => ?_
  dsimp only
  split
  · rw [write_bind, Prog.leaves_call]
    intro r
    by_cases hn : countValue r < 0
    · rw [if_pos hn]
      split <;> trivial
    · rw [if_neg hn]
      exact fun now _ => trivial
  · trivial

/-- **No turn returns from the function or reports a premature end.** -/
theorem leaves_body (sockfd : ℤ) (s : Locals maxline) : (body sockfd s).Leaves Goes := by
  rw [body, Prog.leaves_bind]
  refine Prog.leaves_mono ?_ (leaves_watch sockfd s)
  intro sel _
  rw [handle]
  split
  · trivial
  · rw [Prog.leaves_bind]
    refine Prog.leaves_mono ?_ (leaves_fromStdin sockfd sel.rset sel.wset s)
    rintro (⟨s₁, S₁⟩ | e) h₁
    · rw [Prog.leaves_bind]
      refine Prog.leaves_mono ?_ (leaves_fromSocket sockfd sel.rset S₁ s₁)
      rintro (⟨s₂, S₂⟩ | e) h₂
      · rw [Prog.leaves_bind]
        refine Prog.leaves_mono ?_ (leaves_toStdout sockfd S₂ s₂)
        rintro (⟨s₃, go⟩ | e) h₃
        · cases go with
          | true => exact leaves_toSocket sockfd S₂ s₃
          | false => trivial
        · exact h₃
      · exact h₂
    · exact h₁

/-! ## Whole runs -/

namespace History

/-- A run of the loop, from uninitialised buffers. -/
abbrev Run (sockfd : ℤ) (toBuf fromBuf : Buf maxline) :
    Prog posix (Locals maxline ⊕ Exit) × History → Prop :=
  Reach (world sockfd) (body sockfd) (.ret (.inl (NonblockCli.start toBuf fromBuf)), start)

/-- There has been no `shutdown`, and the ends are those of the traffic. -/
structure Untouched (sockfd : ℤ) (w : History) : Prop where
  /-- There has been no `shutdown`. -/
  shutdowns : w.shutdowns = 0
  /-- Nothing has been written after a `shutdown`. -/
  late : w.late = []
  /-- The standard input has ended if a read from it has returned 0. -/
  stdin : stdinFileno ∈ w.ends ↔ .ok [] ∈ w.stdin
  /-- The stream from the socket has ended if a read from it has returned 0. -/
  sock : sockfd ∈ w.ends ↔ .ok [] ∈ w.sock

variable {sockfd : ℤ} {toBuf fromBuf : Buf maxline}

theorem untouched_start : Untouched sockfd start :=
  ⟨rfl, rfl, by simp [start, Traffic.start], by simp [start, Traffic.start]⟩

/-- An end is read from a descriptor when a read from it returns 0. -/
theorem mem_endsAfter {w : History} {x fd : ℤ} {l : List (Except Errno (List Byte))}
    (h : x ∈ w.ends ↔ .ok [] ∈ l) (dst : Span) (r : Res (.read fd dst)) :
    x ∈ w.endsAfter (.read fd dst) r ↔ .ok [] ∈ if fd = x then l ++ [r] else l := by
  show x ∈ (if r = .ok [] then w.ends ++ [fd] else w.ends) ↔ _
  by_cases hr : r = .ok [] <;> by_cases hfd : fd = x
  · simp [hr, hfd]
  · simp [hr, hfd, h, Ne.symm hfd]
  · simp [hr, hfd, h, Ne.symm hr]
  · simp [hr, hfd, h]

/-- A call that is no `shutdown` leaves it so. -/
theorem Untouched.next {w : History} (h : w.Untouched sockfd) {c : Call}
    (hc : ∀ fd, c ≠ .shutdownWr fd) (r : Res c) : (w.next sockfd c r).Untouched sockfd := by
  cases c with
  | shutdownWr fd => exact absurd rfl (hc fd)
  | write fd src mem =>
    refine ⟨h.shutdowns, ?_, h.stdin, h.sock⟩
    show (if fd = sockfd ∧ 0 < w.shutdowns then _ else w.late) = []
    rw [if_neg fun hw => hw.2.ne' h.shutdowns, h.late]
  | read fd dst =>
    exact ⟨h.shutdowns, h.late, mem_endsAfter h.stdin dst r, mem_endsAfter h.sock dst r⟩
  | _ => exact ⟨h.shutdowns, h.late, h.stdin, h.sock⟩

/-- The loop keeps its invariant whether or not more is remembered. -/
theorem run_wp {x : Prog posix (Locals maxline ⊕ Exit) × History} (h : Run sockfd toBuf fromBuf x) :
    wp (NonblockCli.world sockfd) guard x.1 (Sum.elim Inv fun _ _ => True) x.2.toTraffic :=
  NonblockCli.run_wp (h.forget (extends_world sockfd))

/-- **There is no `shutdown` in any run.** -/
theorem reach_untouched {x : Prog posix (Locals maxline ⊕ Exit) × History}
    (h : Run sockfd toBuf fromBuf x) : x.2.Untouched sockfd := by
  refine Reach.monitor h ?_ untouched_start
  intro c k w r hrun hw _
  refine hw.next ?_ r
  rintro fd rfl
  exact (run_wp hrun).1.2

end History

/-- An end the half-close has to act on: of a standard input that was empty, or of the stream from
the socket. -/
def Unanswered (sockfd : ℤ) (w : History) : Prop :=
  (stdinFileno ∈ w.ends ∧ w.stdin.flatMap readBytes = []) ∨ sockfd ∈ w.ends

/-- **When the half-close is as it should be.** At a head of the loop, after any run, if and only
if the standard input has not ended before it returned any data, and the stream from the socket has
not ended. When the function has ended, if and only if the stream from the socket has not ended. -/
theorem halfClosed_iff (maxline : ℕ) (sockfd : ℤ) (toBuf fromBuf : Buf maxline) :
    (∀ s w, History.Run sockfd toBuf fromBuf (.ret (.inl s), w) →
      (HalfClosed sockfd w ↔ ¬ Unanswered sockfd w)) ∧
    (∀ e w, History.Run sockfd toBuf fromBuf (.ret (.inr e), w) →
      (EndsAsItShould sockfd w e ↔ sockfd ∉ w.ends)) := by
  constructor
  · intro s w h
    have hsent : w.toSock = [] := (History.run_wp h).sent
    have hw : w.Untouched sockfd := History.reach_untouched h
    constructor
    · rintro hc (⟨hend, hread⟩ | hend)
      · have := hc.shut.mpr ⟨hend, hsent.trans hread.symm⟩
        rw [hw.shutdowns] at this
        exact Nat.lt_irrefl 0 this
      · exact hc.going hend
    · intro hne
      refine ⟨?_, hw.shutdowns ▸ Nat.zero_le 1, hw.late, fun hend => hne (.inr hend)⟩
      rw [hw.shutdowns, hsent]
      constructor
      · intro h0
        exact absurd h0 (Nat.lt_irrefl 0)
      · rintro ⟨hend, hread⟩
        exact absurd (.inl ⟨hend, hread.symm⟩) hne
  · intro e w h
    have he : e.IsErrSys := Reach.leaves (leaves_body sockfd) h trivial
    constructor
    · intro hends hend
      rw [hends hend] at he
      split at he <;> exact he
    · intro hne hend
      exact absurd hend hne

/-- A turn in which data or the end of the standard input is read. -/
theorem exists_run_stdin (bs : List Byte) (hbs : bs.length ≤ 4096) : ∃ s w,
    History.Run 3 (Buf.zeros 4096) (Buf.zeros 4096) (.ret (.inl s), w) ∧
      w.toTraffic = ⟨[.ok bs], [], [], []⟩ := by
  have h := executes_stdin 3 (Buf.zeros 4096) (Buf.zeros 4096) bs (by decide) (by decide)
    (by decide) hbs
  have hrun : Run 3 (Buf.zeros 4096) (Buf.zeros 4096) _ := .head .again h.reach
  obtain ⟨w, hw, h⟩ := hrun.remember (History.extends_world 3) (w := History.start) rfl
  exact ⟨_, w, h, hw⟩

/-- A line has been read, and neither stream has ended. -/
theorem halfClosed_iff_line : ∃ s w,
    History.Run 3 (Buf.zeros 4096) (Buf.zeros 4096) (.ret (.inl s), w) ∧
      w.stdin = [.ok (text "hi\n")] ∧ HalfClosed 3 w := by
  obtain ⟨s, w, h, hw⟩ := exists_run_stdin (text "hi\n") (by decide)
  have hu := History.reach_untouched h
  have hin : stdinFileno ∉ w.ends := by
    rw [hu.stdin, hw]
    decide
  have hsock : 3 ∉ w.ends := by
    rw [hu.sock, hw]
    exact List.not_mem_nil
  refine ⟨s, w, h, congrArg Traffic.stdin hw, ((halfClosed_iff _ _ _ _).1 s w h).mpr ?_⟩
  rintro (⟨hend, -⟩ | hend)
  · exact hin hend
  · exact hsock hend

/-- The standard input was empty and has ended, and there has been no `shutdown`. -/
theorem not_halfClosed_empty : ∃ s w,
    History.Run 3 (Buf.zeros 4096) (Buf.zeros 4096) (.ret (.inl s), w) ∧
      w.stdin = [.ok []] ∧ stdinFileno ∈ w.ends ∧ w.shutdowns = 0 ∧ ¬ HalfClosed 3 w := by
  obtain ⟨s, w, h, hw⟩ := exists_run_stdin [] (by decide)
  have hu := History.reach_untouched h
  have hend : stdinFileno ∈ w.ends := hu.stdin.mpr (by rw [hw]; exact List.mem_singleton_self _)
  refine ⟨s, w, h, congrArg Traffic.stdin hw, hend, hu.shutdowns, ?_⟩
  intro hc
  have hsent : w.toSock = w.stdin.flatMap readBytes := by
    rw [hw]
    rfl
  exact (hc.shut.mpr ⟨hend, hsent⟩).ne' hu.shutdowns

end NonblockCli

end UnixNetwork
