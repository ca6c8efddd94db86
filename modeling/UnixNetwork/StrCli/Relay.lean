import UnixNetwork.StrCli
import UnixNetwork.Streams

/-!
# What the client hands on, and where

`str_cli` hands on everything it reads: what comes from the socket goes to a descriptor for output,
what comes from the file goes to the socket. The descriptor for output is `fileno(fp)`, the one it
reads its input from, and not the standard output. So the standard output stays empty, whatever
`fp` is, and the file is written to as soon as the server has sent anything.

Nothing is assumed of the surroundings but that a read returns no more than it was asked for: reads
may fail, after which the program hands -1 to `write`, and writes may be short or fail.

## Main definitions

* `StrCli.Relayed`, `StrCli.Trails`: what has been handed on at a head of the loop, and at any
  moment
* `StrCli.Shown`: the output is where it belongs
* `StrCli.Untroubled`: the runs that need no output

## Main results

* `wp_body`: a turn hands on what it reads
* `reach_relayed`, `reach_trails`: every head of the loop, and every moment
* `shown_iff`: when the output is where it belongs
-/

namespace UnixNetwork

namespace StrCli

open Interaction

/-- Everything that has been read from either side has been handed to the other one. -/
structure Relayed (fp sockfd : ℤ) (w : Streams) : Prop where
  /-- The input has been handed to the socket. -/
  toSocket : w.offered sockfd = w.rd fp
  /-- What came from the socket has been handed to the descriptor of the input. -/
  toFile : w.offered fp = w.rd sockfd
  /-- Nothing has been handed to any other descriptor. -/
  elsewhere : ∀ fd, fd ≠ fp → fd ≠ sockfd → w.offered fd = []

/-- What has been handed to the socket has been read from the file. -/
def Trails (fp sockfd : ℤ) (w : Streams) : Prop := w.offered sockfd <+: w.rd fp

variable {fp sockfd : ℤ} {w : Streams}

theorem relayed_start (fp sockfd : ℤ) : Relayed fp sockfd Streams.start :=
  ⟨rfl, rfl, fun _ _ _ => rfl⟩

namespace Relayed

/-- The two sides have the same part in it. -/
theorem symm (h : Relayed fp sockfd w) : Relayed sockfd fp w :=
  ⟨h.toFile, h.toSocket, fun fd h₁ h₂ => h.elsewhere fd h₂ h₁⟩

theorem trails (h : Relayed fp sockfd w) : Trails fp sockfd w := by
  rw [Trails, h.toSocket]

/-- Between a read and the write that follows. -/
theorem trails_onRead (h : Relayed fp sockfd w) (fd : ℤ) (bs : List Byte) :
    Trails fp sockfd (w.onRead fd bs) := by
  rw [Trails, Streams.rd_onRead, Streams.offered_onRead, h.toSocket]
  exact List.prefix_append _ _

/-- A read from the socket and the write of what it has returned. -/
theorem onRead_onWrite (h : Relayed fp sockfd w) (bs : List Byte) (r : Except Errno ℕ) :
    Relayed fp sockfd ((w.onRead sockfd bs).onWrite fp bs r) := by
  refine ⟨?_, ?_, fun fd hfp hsock => ?_⟩
  · simp [h.toSocket, eq_comm]
  · simp [h.toFile]
  · simp [h.elsewhere fd hfp hsock, hfp]

end Relayed

/-! ## The parts of a turn -/

/-- At every moment, and where the behaviour becomes undefined, the output trails the input. -/
def relayGuard (fp sockfd : ℤ) : Guard posix Streams :=
  ⟨fun w _ => Trails fp sockfd w, Trails fp sockfd⟩

section Turn

variable {s : Locals}

/-- A part without calls, between two of them. -/
theorem wp_silent {α β : Type} {p : Prog posix α} (hp : p.Silent) (hw : Trails fp sockfd w)
    {f : α → Prog posix β} {Q : β → Streams → Prop}
    (hf : ∀ a, wp Streams.world (relayGuard fp sockfd) (f a) Q w) :
    wp Streams.world (relayGuard fp sockfd) (p >>= f) Q w := hp.wp_bind hw hf

theorem wp_watch (h : Relayed fp sockfd w) :
    wp Streams.world (relayGuard fp sockfd) (watch fp sockfd s)
      (fun _ => Relayed fp sockfd) w := by
  have hselect : ∀ rset : FdSet, wp Streams.world (relayGuard fp sockfd)
      (fdSet sockfd rset >>= fun rset => select (max fp sockfd + 1) rset FdSet.zero >>= fun sel =>
        (.ret { s with rset := sel.rset } : Prog posix Locals)) (fun _ => Relayed fp sockfd) w := by
    intro rset
    refine wp_silent (silent_fdSet sockfd rset) h.trails fun rset => ?_
    exact ⟨h.trails, fun _ _ => h⟩
  rw [watch]
  split
  · exact hselect s.rset
  · exact wp_silent (silent_fdSet fp s.rset) h.trails hselect

theorem wp_fromServer (h : Relayed fp sockfd w) :
    wp Streams.world (relayGuard fp sockfd) (fromServer fp sockfd s)
      (fun _ => Relayed fp sockfd) w := by
  rw [fromServer]
  refine wp_silent (silent_fdIsSet sockfd s.rset) h.trails ?_
  intro ready
  cases ready with
  | false => exact h
  | true =>
    rw [if_pos rfl, read_bind, wp_call]
    refine ⟨h.trails, fun r hr => ?_⟩
    show wp _ _ (ite _ _ _) _ (w.onRead sockfd (readBytes r))
    split
    · rename_i hn
      rw [readBytes_of_readValue hn, Streams.onRead_nil]
      cases s.stdineof with
      | true => exact ⟨h.trails, fun _ _ => h⟩
      | false => exact ⟨h.trails, fun _ _ => h⟩
    · refine ⟨h.trails_onRead _ _, fun r' _ => ?_⟩
      show Relayed fp sockfd (Streams.onWrite _ fp ((Span.first 1024 (readValue r)).bytes _) r')
      rw [Streams.bytes_first_readValue (Streams.length_readBytes_le_of_feasible hr)]
      exact h.onRead_onWrite _ _

theorem wp_fromFile (h : Relayed fp sockfd w) :
    wp Streams.world (relayGuard fp sockfd) (fromFile fp sockfd s)
      (fun _ => Relayed fp sockfd) w := by
  rw [fromFile]
  refine wp_silent (silent_fdIsSet fp s.rset) h.trails ?_
  intro ready
  cases ready with
  | false => exact h
  | true =>
    rw [if_pos rfl, read_bind, wp_call]
    refine ⟨h.trails, fun r hr => ?_⟩
    show wp _ _ (ite _ _ _) _ (w.onRead fp (readBytes r))
    split
    · rename_i hn
      rw [readBytes_of_readValue hn, Streams.onRead_nil]
      refine ⟨h.trails, fun _ _ => ⟨h.trails, fun _ _ => ?_⟩⟩
      exact wp_silent (silent_fdClr fp s.rset) h.trails fun _ => h
    · refine ⟨h.trails_onRead _ _, fun r' _ => ?_⟩
      show Relayed fp sockfd (Streams.onWrite _ sockfd ((Span.first 1024 (readValue r)).bytes _) r')
      rw [Streams.bytes_first_readValue (Streams.length_readBytes_le_of_feasible hr)]
      exact (h.symm.onRead_onWrite _ _).symm

/-- **A turn hands on what it reads.** -/
theorem wp_body (h : Relayed fp sockfd w) :
    wp Streams.world (relayGuard fp sockfd) (body fp sockfd s)
      (Sum.elim (fun _ => Relayed fp sockfd) fun _ => Relayed fp sockfd) w := by
  rw [body, wp_bind]
  refine wp_mono ?_ (wp_watch h)
  intro s₁ w₁ h₁
  rw [wp_bind]
  refine wp_mono ?_ (wp_fromServer h₁)
  intro x w₂ h₂
  rcases x with s₂ | e
  · rw [wp_bind]
    exact wp_mono (fun s₃ w₃ h₃ => h₃) (wp_fromFile h₂)
  · exact h₂

end Turn

/-! ## Whole runs -/

/-- A run of `str_cli` with any `fp` and `sockfd`, from an uninitialised buffer. -/
abbrev Run (fp sockfd : ℤ) (buf : Buf 1024) : Prog posix (Locals ⊕ Exit) × Streams → Prop :=
  Reach Streams.world (body fp sockfd) (strCli buf, Streams.start)

variable {buf : Buf 1024} {p : Prog posix (Locals ⊕ Exit)}

theorem run_wp (h : Run fp sockfd buf (p, w)) :
    wp Streams.world (relayGuard fp sockfd) p
      (Sum.elim (fun _ => Relayed fp sockfd) fun _ => Relayed fp sockfd) w := by
  refine Reach.wp (fun s w hs => wp_body hs) h ?_
  exact ⟨(relayed_start fp sockfd).trails, fun _ _ => relayed_start fp sockfd⟩

/-- At the head of the loop, and where the function ends, all has been handed on. -/
theorem reach_relayed {x : Locals ⊕ Exit} (h : Run fp sockfd buf (.ret x, w)) :
    Relayed fp sockfd w := by
  have hwp := run_wp h
  cases x with
  | inl s => exact hwp
  | inr e => exact hwp

/-- At every moment the output trails the input. -/
theorem reach_trails (h : Run fp sockfd buf (p, w)) : Trails fp sockfd w := by
  cases p with
  | ret x => exact (reach_relayed h).trails
  | call c k => exact (run_wp h).1
  | fault => exact run_wp h

/-! ## The standard output -/

/-- What the server has sent is on the standard output, and nothing has been written to the
descriptor of the input. -/
structure Shown (fp sockfd : ℤ) (w : Streams) : Prop where
  /-- The standard output. -/
  output : w.wr stdoutFileno = w.rd sockfd
  /-- The descriptor of the input. -/
  input : w.wr fp = []

/-- The server has sent nothing, and if the standard output is itself the socket the file is
empty so far. -/
def Untroubled (fp sockfd : ℤ) (w : Streams) : Prop :=
  w.rd sockfd = [] ∧ (sockfd = stdoutFileno → w.rd fp = [])

/-- The variables in a first turn in which the socket, descriptor 3, is ready. -/
def socketReady : Locals where
  stdineof := false
  rset := .single 3 inRange_three
  buf := Buf.zeros 1024

theorem mem_socketReady {fd : ℤ} : fd ∈ socketReady.rset ↔ fd = 3 := by
  rw [socketReady, FdSet.mem_single]

/-- Such a turn, with the standard input as `fp`. -/
theorem run_fromServer {x : Locals ⊕ Exit} {w : Streams}
    (h : Executes Streams.world (fromServer 0 3 socketReady) Streams.start x w)
    (hx : ∀ s, x = .inl s → s.rset = socketReady.rset) :
    Run 0 3 (Buf.zeros 1024) (.ret x, w) := by
  have hfp : InRange 0 := by decide
  have hsock : InRange 3 := by decide
  refine .head (.call (r := ()) trivial) (.head .again (Executes.reach ?_))
  rw [body, watch_eq hfp hsock, executes_bind]
  refine ⟨socketReady, Streams.start, ⟨⟨1, .single 3 hsock, .zero⟩,
    ⟨fun fd hfd => ?_, fun fd hfd => hfd⟩, rfl, rfl⟩, executes_bind.mpr ⟨x, w, h, ?_⟩⟩
  · exact FdSet.mem_insert.mpr (.inl ((FdSet.mem_single hsock).mp hfd))
  · rcases x with s | e
    · have hnot : (0 : ℤ) ∉ s.rset := by
        rw [hx s rfl, mem_socketReady]
        decide
      show Executes _ (fromFile 0 3 s >>= _) _ _ _
      rw [fromFile_of_notMem hfp hnot]
      exact ⟨rfl, rfl⟩
    · exact ⟨rfl, rfl⟩

/-- **When the output is where it belongs**: if the server has sent nothing, and only then. -/
theorem shown_iff (fp sockfd : ℤ) (buf : Buf 1024) (x : Locals ⊕ Exit) (w : Streams)
    (h : Run fp sockfd buf (.ret x, w)) :
    (Untroubled fp sockfd w → Shown fp sockfd w) ∧
      (sockfd ≠ stdoutFileno → (Shown fp sockfd w ↔ w.rd sockfd = [])) := by
  have hr : Relayed fp sockfd w := reach_relayed h
  have hnil : ∀ fd, w.offered fd = [] → w.wr fd = [] := by
    intro fd hfd
    exact List.sublist_nil.mp (hfd ▸ Streams.sublist_offered h fd)
  have hshown : Untroubled fp sockfd w → Shown fp sockfd w := by
    rintro ⟨hsock, hout⟩
    have hinput : w.wr fp = [] := hnil fp (hr.toFile.trans hsock)
    refine ⟨?_, hinput⟩
    rw [hsock]
    by_cases hfp : stdoutFileno = fp
    · rw [hfp, hinput]
    by_cases hfd : stdoutFileno = sockfd
    · refine hnil _ ?_
      rw [hfd, hr.toSocket, hout hfd.symm]
    · exact hnil _ (hr.elsewhere _ hfp hfd)
  refine ⟨hshown, fun hne => ⟨fun hs => ?_, fun hsock => hshown ⟨hsock, fun h => absurd h hne⟩⟩⟩
  rw [← hs.output]
  by_cases hfp : stdoutFileno = fp
  · rw [hfp, hs.input]
  · exact hnil _ (hr.elsewhere _ hfp hne.symm)

/-- The server ends the connection without having sent anything. -/
theorem shown_iff_silent_server :
    Run 0 3 (Buf.zeros 1024) (.ret (.inr .exit1), Streams.start) ∧
      Shown 0 3 Streams.start := by
  have h : Run 0 3 (Buf.zeros 1024) (.ret (.inr .exit1), Streams.start) := by
    refine run_fromServer ?_ fun s hs => by cases hs
    rw [fromServer_of_mem (mem_socketReady.mpr rfl)]
    exact ⟨.ok [], Int.natCast_nonneg 1024, (), trivial, rfl, (Streams.onRead_nil _ _).symm⟩
  exact ⟨h, ((shown_iff 0 3 _ _ _ h).2 (by decide)).mpr rfl⟩

/-- What the server sends is written to the standard input. -/
theorem run_line {bs : List Byte} (hne : bs ≠ []) (hlen : bs.length ≤ 1024) :
    ∃ s, Run 0 3 (Buf.zeros 1024) (.ret (.inl s),
      (Streams.start.onRead 3 bs).onWrite 0 bs (.ok bs.length)) := by
  refine ⟨{ socketReady with buf := (Buf.zeros 1024).put 0 bs },
    run_fromServer ?_ fun s hs => by cases hs; rfl⟩
  have hn : ¬ readValue (.ok bs) = 0 := mt readValue_ok_eq_zero.mp hne
  rw [fromServer_of_mem (mem_socketReady.mpr rfl), executes_call]
  refine ⟨.ok bs, Int.ofNat_le.mpr hlen, ?_⟩
  rw [if_neg hn]
  refine ⟨.ok bs.length, le_refl (bs.length : ℤ), rfl, ?_⟩
  show _ = Streams.onWrite _ 0 ((Span.first 1024 bs.length).bytes (Buf.put _ 0 bs).toList) _
  rw [Span.bytes_first_put hlen]
  rfl

/-- The server's line is written to the standard input and not to the standard output. -/
theorem not_shown_line : ∃ s w, Run 0 3 (Buf.zeros 1024) (.ret (.inl s), w) ∧
    w.rd 3 = text "hi\n" ∧ w.wr 0 = text "hi\n" ∧ w.wr stdoutFileno = [] ∧ ¬ Shown 0 3 w := by
  obtain ⟨s, h⟩ := @run_line (text "hi\n") (by decide) (by decide)
  refine ⟨s, _, h, rfl, rfl, rfl, ?_⟩
  intro hs
  cases hs.output

end StrCli

end UnixNetwork
