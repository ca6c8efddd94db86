import UnixNetwork.Posix
import UnixNetwork.Interaction.World
import Mathlib.Data.Finset.Card

/-!
# Connections that are given up when they have been served

The loops of `main` of `09/sctp-server.c` and of `26/tcp_server01.c`. The first serves a connection
itself: it receives one message and calls `sctp_sendmsg`. The second hands the connection to a
thread, and the thread has to close it, because the threads of a process share its descriptors.

The first closes the connection where receiving or sending fails, and not where both succeed. The
second has a function `doit` that serves a connection and closes it, but hands `copyto` to
`pthread_create`, which does nothing. So the one keeps a descriptor for every successful
`sctp_sendmsg`, and the other one for every client.

The arguments of `sctp_sendmsg` are in each other's places: there is no message, and `"Hello"` is
the address it is sent to. A kernel that looks at the address refuses the call, and then the
connection is closed. Here every call may succeed or fail.

`accept` returns a descriptor that is not open. `err_sys`, which is not part of the sources, prints
a message and ends the process.

## Main definitions

* `SctpServer.body`, `ThreadServer.body`: one turn of each loop
* `ThreadServer.doit`, `ThreadServer.copyto`: the functions of a thread
* `ThreadServer.Step`, `ThreadServer.Reach`: the main thread and the threads it has created
* `ThreadServer.State.Owned`: every open connection is owned by a thread that is still serving it

## Main results

* `SctpServer.card_opened`, `ThreadServer.card_opened`: how many descriptors have been kept
* `served_connections_released`: when all connections have been given up
-/

namespace UnixNetwork

open Interaction

/-! ## The server that serves -/

namespace SctpServer

/-- The calls of `main`. -/
inductive Call where
  | accept (fd : ℤ)
  | fprintfErrno (before : List Byte) (errno : Errno) (after : List Byte)
  | sctpRecvmsg (fd : ℕ) (dst : Span)
  /-- Its arguments are those of the function, in its order. A null pointer is `none`. -/
  | sctpSendmsg (fd : ℕ) (msg : Option (List Byte)) (len : ℕ) (addr : Option (List Byte))
      (tolen ppid flags streamNo timetolive context : ℕ)
  | perror (msg : List Byte)
  | close (fd : ℕ)

/-- The result of each call. -/
@[reducible] def Res : Call → Type
  | .accept _ => Except Errno ℕ
  | .sctpRecvmsg .. => Except Errno (List Byte)
  | .sctpSendmsg .. => Except Errno ℕ
  | _ => Unit

/-- The interface of `main`. -/
abbrev sctp : Interface := ⟨Call, Res⟩

/-- One turn of `while (1)`. The stream is set to 1, whatever the message came on. -/
def body (sockfd : ℤ) : Unit → Prog sctp (Unit ⊕ ℕ) := fun _ => do
  match ← Prog.perform (I := sctp) (.accept sockfd) with
  | .error errno => do
    let _ ← Prog.perform (I := sctp) (.fprintfErrno (text "errno: ") errno (text "\n"))
    return .inr 1
  | .ok connfd => do
    let r ← Prog.perform (I := sctp) (.sctpRecvmsg connfd (Span.whole 1024))
    if readValue r < 0 then do
      let _ ← Prog.perform (I := sctp) (.perror (text "sctp_rcvmsg"))
      let _ ← Prog.perform (I := sctp) (.close connfd)
      return .inl ()
    else do
      let r ← Prog.perform (I := sctp)
        (.sctpSendmsg connfd none 0 (some (text "Hello")) 5 0 0 1 0 0)
      if countValue r < 0 then do
        let _ ← Prog.perform (I := sctp) (.perror (text "sctp_sndmsg"))
        let _ ← Prog.perform (I := sctp) (.close connfd)
        return .inl ()
      else return .inl ()

/-- What the server has done. -/
structure View where
  /-- The connections that have been accepted and not closed. -/
  opened : Finset ℕ
  /-- How many calls of `sctp_sendmsg` have succeeded. -/
  replied : ℕ

/-- Nothing has happened. -/
def View.start : View := ⟨∅, 0⟩

/-- What has happened once a call has returned. -/
def View.next (v : View) : (c : Call) → Res c → View
  | .accept _, .ok fd => { v with opened := insert fd v.opened }
  | .close fd, _ => { v with opened := v.opened.erase fd }
  | .sctpSendmsg .., .ok _ => { v with replied := v.replied + 1 }
  | _, _ => v

/-- The surroundings of the server. -/
def world : World sctp View where
  Allows v c r := match c, r with
    | .accept _, .ok fd => fd ∉ v.opened
    | _, _ => True
  next := View.next

/-- Nothing is asked of the server. -/
def guard : Guard sctp View := ⟨fun _ _ => True, fun _ => False⟩

/-- **A turn of the server** keeps a descriptor if `sctp_sendmsg` succeeds. -/
theorem wp_body {v : View} (h : v.opened.card = v.replied) (sockfd : ℤ) (s : Unit) :
    wp world guard (body sockfd s)
      (Sum.elim (fun _ v => v.opened.card = v.replied) fun _ _ => True) v := by
  refine ⟨trivial, fun r hr => ?_⟩
  rcases r with e | fd
  · exact ⟨trivial, fun _ _ => trivial⟩
  have hfd : fd ∉ v.opened := hr
  have herase : ((insert fd v.opened).erase fd).card = v.replied := by
    rw [Finset.erase_insert hfd, h]
  refine ⟨trivial, fun r _ => ?_⟩
  rcases r with e | bs
  · exact ⟨trivial, fun _ _ => ⟨trivial, fun _ _ => herase⟩⟩
  have hbs : ¬ readValue (.ok bs) < 0 := by simp
  dsimp only [Prog.bind]
  rw [if_neg hbs]
  refine ⟨trivial, fun r _ => ?_⟩
  rcases r with e | n
  · exact ⟨trivial, fun _ _ => ⟨trivial, fun _ _ => herase⟩⟩
  have hn : ¬ countValue (.ok n) < 0 := by simp
  dsimp only [Prog.bind]
  rw [if_neg hn]
  show (insert fd v.opened).card = v.replied + 1
  rw [Finset.card_insert_of_notMem hfd, h]

/-- Between two turns there is an open connection for every successful `sctp_sendmsg`. -/
theorem card_opened {sockfd : ℤ} {v : View} {s : Unit}
    (h : Reach world (body sockfd) (.ret (.inl ()), .start) (.ret (.inl s), v)) :
    v.opened.card = v.replied :=
  h.wp (fun s _ hv => wp_body hv sockfd s) (show View.start.opened.card = 0 from rfl)

end SctpServer

/-! ## The server with threads -/

namespace ThreadServer

/-- The functions a thread can be created with. -/
inductive Routine where
  | doit
  | copyto

/-- The calls of `main` and of the threads. -/
inductive Call where
  | accept (fd : ℤ)
  | pthreadCreate (start : Routine) (arg : ℕ)
  | errSys (msg : List Byte)
  | pthreadDetach
  | strEcho (fd : ℕ)
  | close (fd : ℕ)

/-- The result of each call. -/
@[reducible] def Res : Call → Type
  | .accept _ => Except Errno ℕ
  | .pthreadCreate .. => Except Errno Unit
  | _ => Unit

/-- The interface of `main` and of the threads. -/
abbrev threads : Interface := ⟨Call, Res⟩

/-- One turn of `for(;;)`. -/
def body (listenfd : ℤ) : Unit → Prog threads (Unit ⊕ Unit) := fun _ => do
  match ← Prog.perform (I := threads) (.accept listenfd) with
  | .error _ => do
    let _ ← Prog.perform (I := threads) (.errSys (text "accept error"))
    return .inr ()
  | .ok connfd => do
    match ← Prog.perform (I := threads) (.pthreadCreate .copyto connfd) with
    | .error _ => do
      let _ ← Prog.perform (I := threads) (.errSys (text "pthread_create error"))
      return .inr ()
    | .ok _ => return .inl ()

/-- `doit`. -/
def doit (arg : ℕ) : Prog threads Unit := do
  let _ ← Prog.perform (I := threads) .pthreadDetach
  let _ ← Prog.perform (I := threads) (.strEcho arg)
  let _ ← Prog.perform (I := threads) (.close arg)
  return ()

/-- `copyto`. -/
def copyto (_arg : ℕ) : Prog threads Unit := .ret ()

/-- The program of a thread. -/
def Routine.program : Routine → ℕ → Prog threads Unit
  | .doit => ThreadServer.doit
  | .copyto => ThreadServer.copyto

/-- A thread. -/
structure Thread where
  /-- The connection it has been handed. -/
  fd : ℕ
  /-- What is left of its program. -/
  prog : Prog threads Unit

/-- What the process has done. -/
structure View where
  /-- The connections that have been accepted and not closed. -/
  opened : Finset ℕ
  /-- How many connections have been accepted. -/
  accepted : ℕ
  /-- The threads that have been created. -/
  pool : List Thread

/-- Nothing has happened. -/
def View.start : View := ⟨∅, 0, []⟩

/-- What has happened once a call has returned. -/
def View.next (v : View) : (c : Call) → Res c → View
  | .accept _, .ok fd => { v with opened := insert fd v.opened, accepted := v.accepted + 1 }
  | .pthreadCreate start arg, .ok _ => { v with pool := v.pool ++ [⟨arg, start.program arg⟩] }
  | .close fd, _ => { v with opened := v.opened.erase fd }
  | _, _ => v

/-- The surroundings of the main thread. -/
def world : World threads View where
  Allows v c r := match c, r with
    | .accept _, .ok fd => fd ∉ v.opened
    | _, _ => True
  next := View.next

/-- The main thread and what the process has done. -/
structure State where
  /-- What is left of the main thread's turn. -/
  main : Prog threads (Unit ⊕ Unit)
  /-- What the process has done. -/
  view : View

/-- One step of the process. -/
inductive Step (listenfd : ℤ) : State → State → Prop where
  /-- The main thread. -/
  | main {p q : Prog threads (Unit ⊕ Unit)} {v w : View}
      (h : Interaction.Step world (body listenfd) (p, v) (q, w)) : Step listenfd ⟨p, v⟩ ⟨q, w⟩
  /-- A call of a thread returns. -/
  | thread {st : State} {i fd : ℕ} {c : Call} {k : Res c → Prog threads Unit} {r : Res c}
      (hi : st.view.pool[i]? = some ⟨fd, .call c k⟩) (hr : world.Allows st.view c r) :
      Step listenfd st { st with
        view := { st.view.next c r with pool := (st.view.next c r).pool.set i ⟨fd, k r⟩ } }

/-- `st` is a state of a run of the process. -/
def Reach (listenfd : ℤ) (st : State) : Prop :=
  Relation.ReflTransGen (Step listenfd) ⟨.ret (.inl ()), .start⟩ st

/-- Every open connection is owned by a thread that is still serving it. -/
def State.Owned (st : State) : Prop :=
  ∀ fd ∈ st.view.opened, ∃ t ∈ st.view.pool, t.fd = fd ∧ t.prog ≠ .ret ()

/-- The threads have nothing left to do. -/
def View.Idle (v : View) : Prop := ∀ t ∈ v.pool, t.prog = .ret ()

/-- What holds whenever the main thread makes a call. -/
def guard : Guard threads View := ⟨fun v _ => v.Idle, fun _ => False⟩

/-- What holds between two turns of the main thread. -/
structure Kept (v : View) : Prop where
  /-- Every connection is still open. -/
  card : v.opened.card = v.accepted
  /-- The threads have nothing left to do. -/
  idle : v.Idle

theorem kept_start : Kept .start := ⟨rfl, fun _ h => absurd h List.not_mem_nil⟩

/-- **A turn of the main thread** keeps a descriptor if there is a client. -/
theorem wp_body {v : View} (h : Kept v) (listenfd : ℤ) (s : Unit) :
    wp world guard (body listenfd s) (Sum.elim (fun _ => Kept) fun _ => View.Idle) v := by
  refine ⟨h.idle, fun r hr => ?_⟩
  rcases r with e | fd
  · exact ⟨h.idle, fun _ _ => h.idle⟩
  have hfd : fd ∉ v.opened := hr
  refine ⟨h.idle, fun r _ => ?_⟩
  rcases r with e | _
  · exact ⟨h.idle, fun _ _ => h.idle⟩
  · refine ⟨?_, fun t ht => ?_⟩
    · show (insert fd v.opened).card = v.accepted + 1
      rw [Finset.card_insert_of_notMem hfd, h.card]
    · rcases List.mem_append.mp ht with ht | ht
      · exact h.idle t ht
      · rw [List.mem_singleton.mp ht]
        rfl

variable {listenfd : ℤ} {st : State}

/-- At every moment the main thread is in a turn that keeps what it has accepted. -/
theorem reach_wp (h : Reach listenfd st) :
    wp world guard st.main (Sum.elim (fun _ => Kept) fun _ => View.Idle) st.view := by
  induction h with
  | refl => exact kept_start
  | tail _ hs ih =>
    cases hs with
    | main hs =>
      exact Interaction.Reach.wp (fun s _ hv => wp_body hv listenfd s) (.single hs) ih
    | thread hi _ =>
      -- no thread has a call to make
      have hidle : View.Idle _ := wp_now (J := View.Idle) ih (fun a _ ha => by
        rcases a with s | s
        · exact ha.idle
        · exact ha) (fun _ _ hc => hc) fun _ hf => hf.elim
      exact absurd (hidle _ (List.mem_of_getElem? hi)) (by simp)

/-- Between two turns of the main thread every connection is still open, and no thread serves. -/
theorem reach_kept (h : Reach listenfd st) (hmain : st.main = .ret (.inl ())) : Kept st.view := by
  have hwp := reach_wp h
  rw [hmain] at hwp
  exact hwp

theorem owned_iff (h : Reach listenfd st) (hmain : st.main = .ret (.inl ())) :
    st.Owned ↔ st.view.accepted = 0 := by
  have hkept := reach_kept h hmain
  rw [← hkept.card, Finset.card_eq_zero]
  constructor
  · intro howned
    refine Finset.eq_empty_of_forall_notMem fun fd hfd => ?_
    obtain ⟨t, ht, -, hlive⟩ := howned fd hfd
    exact hlive (hkept.idle t ht)
  · intro hnone fd hfd
    rw [hnone] at hfd
    exact absurd hfd (Finset.notMem_empty fd)

end ThreadServer

/-- **The connections that have been served are released** as long as no `sctp_sendmsg` of the one
server has succeeded, and the other server has had no client: there is an open descriptor for every
such call of the one, and for every client of the other. -/
theorem served_connections_released (listenfd : ℕ) :
    (∀ v, Interaction.Reach SctpServer.world (SctpServer.body listenfd)
      (.ret (.inl ()), .start) (.ret (.inl ()), v) →
      v.opened.card = v.replied ∧ (v.opened = ∅ ↔ v.replied = 0)) ∧
    ∀ st, ThreadServer.Reach listenfd st → st.main = .ret (.inl ()) →
      st.view.opened.card = st.view.accepted ∧ (st.Owned ↔ st.view.accepted = 0) := by
  refine ⟨fun v h => ?_, fun st h hmain => ?_⟩
  · have hcard := SctpServer.card_opened h
    exact ⟨hcard, by rw [← hcard, Finset.card_eq_zero]⟩
  · exact ⟨(ThreadServer.reach_kept h hmain).card, ThreadServer.owned_iff h hmain⟩

/-- A client whose message cannot be received, and a server without clients. -/
theorem served_connections_released_error :
    (∃ v, Interaction.Reach SctpServer.world (SctpServer.body 3) (.ret (.inl ()), .start)
      (.ret (.inl ()), v) ∧ v.opened = ∅) ∧
    ∃ st, ThreadServer.Reach 3 st ∧ st.main = .ret (.inl ()) ∧ st.Owned := by
  have hfd : SctpServer.world.Allows .start (.accept 3) (.ok 4) := Finset.notMem_empty 4
  have hrecv : SctpServer.world.Allows ⟨insert 4 ∅, 0⟩ (.sctpRecvmsg 4 (Span.whole 1024))
      (.error .eintr) := trivial
  have hperror : SctpServer.world.Allows ⟨insert 4 ∅, 0⟩ (.perror (text "sctp_rcvmsg")) () :=
    trivial
  have hclose : SctpServer.world.Allows ⟨insert 4 ∅, 0⟩ (.close 4) () := trivial
  have h : Interaction.Reach SctpServer.world (SctpServer.body 3) (.ret (.inl ()), .start)
      (.ret (.inl ()), ⟨(insert 4 ∅ : Finset ℕ).erase 4, 0⟩) :=
    .tail (.tail (.tail (.tail (.tail .refl .again) (.call hfd)) (.call hrecv)) (.call hperror))
      (.call hclose)
  refine ⟨⟨_, h, ((served_connections_released 3).1 _ h).2.mpr rfl⟩, _, .refl, rfl, ?_⟩
  exact ((served_connections_released 3).2 _ .refl rfl).2.mpr rfl

/-- One client of the server with threads: its connection is open, and no thread serves it. -/
theorem not_owned_after_accept :
    ¬ ∀ listenfd st, ThreadServer.Reach listenfd st → st.main = .ret (.inl ()) → st.Owned := by
  intro hall
  have hfd : ThreadServer.world.Allows .start (.accept 3) (.ok 4) := Finset.notMem_empty 4
  have hcreate : ThreadServer.world.Allows ⟨insert 4 ∅, 1, []⟩ (.pthreadCreate .copyto 4)
      (.ok ()) := trivial
  have h : ThreadServer.Reach 3 ⟨.ret (.inl ()), ⟨insert 4 ∅, 1, [⟨4, .ret ()⟩]⟩⟩ :=
    .tail (.tail (.tail .refl (.main .again)) (.main (.call hfd))) (.main (.call hcreate))
  obtain ⟨t, ht, -, hlive⟩ := hall 3 _ h rfl 4 (Finset.mem_insert_self 4 ∅)
  rw [List.mem_singleton.mp ht] at hlive
  exact hlive rfl

end UnixNetwork
