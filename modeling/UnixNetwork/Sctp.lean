import UnixNetwork.Posix
import UnixNetwork.Interaction.World

/-!
# The SCTP server

The loop of `main` of `10/sctp-server.c`. Every message is answered with `Hello`. While
`stream_increment` is set, the reply goes out on the stream after the one the message came on; then
the stream number is compared with itself, and the flag is cleared. So the first reply of a run goes
out on another stream than every later one.

A stream number has 16 bits, and the one after the last is 0.

## Main definitions

* `Sctp.pickStream`, `Sctp.body`: the program
* `Sctp.Log`, `Sctp.world`: the surroundings, which remember what has been received and sent
* `Sctp.SameStream`: two runs that end with the same message answer it on the same stream

## Main results

* `Sctp.wp_body`: what one turn sends
* `Sctp.replies_eq`: what a run has sent
* `Sctp.sameStream_iff`: when two runs agree on the stream of a reply
-/

namespace UnixNetwork

namespace Sctp

open Interaction

/-! ## The program -/

/-- The address of a client, as it stands in `client`. -/
structure Client where
  /-- `sin_addr.s_addr`. -/
  addr : UInt32
  /-- `sin_port`. -/
  port : UInt16
deriving DecidableEq

/-- What `sctp_recvmsg` stores. -/
structure Message where
  /-- The bytes of the message. -/
  bytes : List Byte
  /-- They fit into `read_buf`. -/
  length_le : bytes.length ≤ 1024
  /-- Where it came from. -/
  client : Client
  /-- The stream it came on. -/
  stream : UInt16
deriving DecidableEq

/-- The arguments of `sctp_sendmsg` after the descriptor. -/
structure Reply where
  /-- The bytes that are sent. -/
  msg : List Byte
  /-- The address they are sent to, if one is given. -/
  dest : Option Client
  /-- The payload protocol identifier. -/
  ppid : UInt32
  /-- The flags. -/
  flags : UInt32
  /-- The stream. -/
  stream : UInt16
  /-- How long the message may wait. -/
  timetolive : UInt32
  /-- What an error would be reported with. -/
  context : UInt32
deriving DecidableEq

/-- The calls of the loop. -/
inductive Call where
  | recvmsg (fd : ℤ) (dst : Span)
  | sendmsg (fd : ℤ) (reply : Reply)

/-- The result of each call. -/
@[reducible] def Res : Call → Type
  | .recvmsg .. => Except Errno Message
  | .sendmsg .. => Except Errno ℕ

/-- The interface of the server. -/
abbrev sctp : Interface := ⟨Call, Res⟩

/-- The variables of `main` that live from one turn of the loop to the next. -/
structure Locals where
  /-- The buffer. -/
  readBuf : Buf 1024
  /-- The address of the last client. -/
  client : Client
  /-- `sri.sinfo_stream`. -/
  sinfoStream : UInt16
  /-- Whether the stream number is still changed. -/
  streamIncrement : ℤ

/-- The variables after `sctp_recvmsg`; one that fails stores nothing. The program passes the
arguments of `sctp_recvmsg` in another order than the function has them in. That it stores the
address of the client and the stream of the message all the same is assumed here. -/
def received (r : Except Errno Message) (s : Locals) : Locals :=
  match r with
  | .ok m => { s with
      readBuf := s.readBuf.put 0 m.bytes
      client := m.client
      sinfoStream := m.stream }
  | .error _ => s

/-- `if(stream_increment) { ... }`. -/
def pickStream (s : Locals) : Locals :=
  if s.streamIncrement ≠ 0 then
    let s := { s with sinfoStream := s.sinfoStream + 1 }
    if s.sinfoStream ≥ s.sinfoStream then { s with streamIncrement := 0 } else s
  else s

/-- The reply to a message from this client on this stream. -/
def hello (client : Client) (stream : UInt16) : Reply :=
  ⟨text "Hello", none, client.addr, client.port.toUInt32, stream, 0, 0⟩

/-- One turn of the loop. -/
def body (sockFd : ℤ) (s : Locals) : Prog sctp (Locals ⊕ Empty) := do
  let r ← Prog.perform (I := sctp) (.recvmsg sockFd (Span.whole 1024))
  let s := pickStream (received r s)
  let _ ← Prog.perform (I := sctp) (.sendmsg sockFd (hello s.client s.sinfoStream))
  return .inl s

/-- The variables at the head of the loop: `stream_increment` is set, the others are not
initialised. -/
def start (s : Locals) : Locals := { s with streamIncrement := 1 }

/-! ## Messages and replies -/

/-- What has been received and sent, in order. -/
structure Log where
  /-- The messages. -/
  received : List Message
  /-- The replies. -/
  replies : List Reply

/-- What the calls return: a receive any message, a send anything. -/
def Allows (_ : Log) : (c : Call) → Res c → Prop
  | .recvmsg .., r => ∃ m, r = .ok m
  | .sendmsg .., _ => True

/-- The log after a call. -/
def next (w : Log) : (c : Call) → Res c → Log
  | .recvmsg .., .ok m => { w with received := w.received ++ [m] }
  | .recvmsg .., .error _ => w
  | .sendmsg _ reply, _ => { w with replies := w.replies ++ [reply] }

/-- The surroundings of the server. -/
def world : World sctp Log := ⟨Allows, next⟩

/-- A run of the loop. -/
abbrev Run (sockFd : ℤ) (s : Locals) : Prog sctp (Locals ⊕ Empty) × Log → Prop :=
  Reach world (body sockFd) (.ret (.inl (start s)), ⟨[], []⟩)

/-- Two runs that end by receiving `m`, one after the messages `ms` and one after `ms'`, answer it
on the same stream. -/
def SameStream (sockFd : ℤ) (ms ms' : List Message) (m : Message) : Prop :=
  ∀ s w s' w' t t', Run sockFd s (.ret (.inl t), w) → Run sockFd s' (.ret (.inl t'), w') →
    w.received = ms ++ [m] → w'.received = ms' ++ [m] →
    w.replies.getLast?.map Reply.stream = w'.replies.getLast?.map Reply.stream

/-! ## A turn -/

/-- The stream on which `m` is answered if the messages `ms` have come before it. -/
def replyStream (ms : List Message) (m : Message) : UInt16 :=
  if ms = [] then m.stream + 1 else m.stream

/-- What is sent for some messages. -/
def answers : List Message → List Reply
  | [] => []
  | m :: ms => hello m.client (m.stream + 1) :: ms.map fun m => hello m.client m.stream

theorem answers_append (ms : List Message) (m : Message) :
    answers (ms ++ [m]) = answers ms ++ [hello m.client (replyStream ms m)] := by
  cases ms with
  | nil => rfl
  | cons m' ms => simp [answers, replyStream]

/-- What holds at the head of the loop: every message has been answered, and the flag is set until
the first one has come. -/
structure Inv (s : Locals) (w : Log) : Prop where
  /-- Every message has been answered. -/
  replies : w.replies = answers w.received
  /-- The flag is set until the first message has come. -/
  increment : s.streamIncrement = if w.received = [] then 1 else 0

/-- The first message is answered on the next stream, and the flag is cleared. -/
theorem pickStream_of_ne_zero {s : Locals} (h : s.streamIncrement ≠ 0) :
    pickStream s = { s with sinfoStream := s.sinfoStream + 1, streamIncrement := 0 } := by
  rw [pickStream, if_pos h, if_pos (UInt16.le_refl _)]

theorem pickStream_of_eq_zero {s : Locals} (h : s.streamIncrement = 0) : pickStream s = s :=
  if_neg (not_not_intro h)

/-- The variables after a message has been received. -/
theorem pickStream_received {s : Locals} {w : Log} (h : Inv s w) (m : Message) :
    (pickStream (received (.ok m) s)).client = m.client ∧
      (pickStream (received (.ok m) s)).sinfoStream = replyStream w.received m ∧
      (pickStream (received (.ok m) s)).streamIncrement = 0 := by
  have hinc : s.streamIncrement = if w.received = [] then 1 else 0 := h.increment
  rw [received, replyStream]
  generalize s.readBuf.put 0 m.bytes = readBuf
  split at hinc
  next hnil =>
    rw [pickStream_of_ne_zero (by simp [hinc]), if_pos hnil]
    exact ⟨rfl, rfl, rfl⟩
  next hne =>
    rw [pickStream_of_eq_zero (by simp [hinc]), if_neg hne]
    exact ⟨rfl, rfl, hinc⟩

/-- A turn after its receive. -/
def answer (sockFd : ℤ) (s : Locals) : Prog sctp (Locals ⊕ Empty) :=
  Prog.call (I := sctp) (.sendmsg sockFd (hello s.client s.sinfoStream)) fun _ => .ret (.inl s)

theorem body_eq (sockFd : ℤ) (s : Locals) :
    body sockFd s = Prog.call (I := sctp) (.recvmsg sockFd (Span.whole 1024)) fun r =>
      answer sockFd (pickStream (received r s)) := by
  rw [body, Prog.perform_bind]
  refine congrArg _ (funext fun r => ?_)
  generalize pickStream (received r s) = s'
  rfl

/-- **A turn** receives a message and answers it. -/
theorem wp_body {s : Locals} {w : Log} (h : Inv s w) (sockFd : ℤ) :
    wp world Guard.none (body sockFd s) (Sum.elim Inv fun _ _ => False) w := by
  rw [body_eq]
  refine ⟨trivial, ?_⟩
  rintro r ⟨m, rfl⟩
  obtain ⟨hclient, hstream, hinc⟩ := pickStream_received h m
  dsimp only
  generalize pickStream (received (.ok m) s) = s' at hclient hstream hinc
  refine ⟨trivial, fun _ _ => ⟨?_, ?_⟩⟩
  · show w.replies ++ [hello s'.client s'.sinfoStream] = answers (w.received ++ [m])
    rw [hclient, hstream, h.replies, answers_append]
  · show s'.streamIncrement = if w.received ++ [m] = [] then 1 else 0
    rw [hinc, if_neg (List.append_ne_nil_of_right_ne_nil _ (List.cons_ne_nil m []))]

/-! ## A run -/

/-- **What a run has sent**, at every head of the loop. -/
theorem replies_eq {sockFd : ℤ} {s t : Locals} {w : Log} (h : Run sockFd s (.ret (.inl t), w)) :
    w.replies = answers w.received := by
  have hstart : Inv (start s) ⟨[], []⟩ := ⟨rfl, rfl⟩
  have hwp : wp world Guard.none (.ret (.inl t)) (Sum.elim Inv fun _ _ => False) w :=
    Reach.wp (fun _ _ hs => wp_body hs sockFd) h hstart
  exact hwp.replies

/-- The stream of the last reply. -/
theorem getLast_replies {sockFd : ℤ} {s t : Locals} {w : Log} {ms : List Message} {m : Message}
    (h : Run sockFd s (.ret (.inl t), w)) (hms : w.received = ms ++ [m]) :
    w.replies.getLast?.map Reply.stream = some (replyStream ms m) := by
  rw [replies_eq h, hms, answers_append, List.getLast?_concat]
  rfl

/-- Any messages can be received, one after the other. -/
theorem exists_run (sockFd : ℤ) (s : Locals) (ms : List Message) :
    ∃ t w, Run sockFd s (.ret (.inl t), w) ∧ w.received = ms := by
  induction ms using List.reverseRecOn with
  | nil => exact ⟨start s, ⟨[], []⟩, .refl, rfl⟩
  | append_singleton ms m ih =>
    obtain ⟨t, w, hrun, rfl⟩ := ih
    have hrecv : Reach world (body sockFd) (body sockFd t, w)
        (answer sockFd (pickStream (received (.ok m) t)), ⟨w.received ++ [m], w.replies⟩) := by
      rw [body_eq]
      exact .single (.call (I := sctp) (c := .recvmsg ..) (r := .ok m) ⟨m, rfl⟩)
    generalize pickStream (received (.ok m) t) = t' at hrecv
    have hsend := hrecv.tail (.call (I := sctp) (c := .sendmsg ..) (r := .ok 5) trivial)
    exact ⟨t', _, (hrun.tail .again).trans hsend, rfl⟩

/-! ## Two runs -/

/-- The stream a message is answered on depends on whether it is the first one. -/
theorem replyStream_eq_iff (ms ms' : List Message) (m : Message) :
    replyStream ms m = replyStream ms' m ↔ (ms = [] ↔ ms' = []) := by
  rw [replyStream, replyStream]
  cases ms <;> cases ms' <;> simp

/-- **Two runs answer a message on the same stream** if and only if it is the first message of both
or of neither. -/
theorem sameStream_iff (sockFd : ℤ) (ms ms' : List Message) (m : Message) :
    SameStream sockFd ms ms' m ↔ (ms = [] ↔ ms' = []) := by
  rw [← replyStream_eq_iff ms ms' m]
  constructor
  · intro h
    let s : Locals := ⟨Buf.zeros 1024, ⟨0, 0⟩, 0, 0⟩
    obtain ⟨t, w, hrun, hw⟩ := exists_run sockFd s (ms ++ [m])
    obtain ⟨t', w', hrun', hw'⟩ := exists_run sockFd s (ms' ++ [m])
    have hlast := h s w s w' t t' hrun hrun' hw hw'
    rw [getLast_replies hrun hw, getLast_replies hrun' hw'] at hlast
    exact Option.some.inj hlast
  · intro h s w s' w' t t' hrun hrun' hw hw'
    rw [getLast_replies hrun hw, getLast_replies hrun' hw', h]

/-- A message on stream 3. -/
def hi : Message := ⟨text "hi", by decide, ⟨0x0100007f, 9000⟩, 3⟩

/-- The message alone, and the message a second time. -/
theorem first_not_sameStream : ¬ SameStream 3 [] [hi] hi := by
  intro h
  let s : Locals := ⟨Buf.zeros 1024, ⟨0, 0⟩, 0, 0⟩
  obtain ⟨t, w, hrun, hw⟩ := exists_run 3 s ([] ++ [hi])
  obtain ⟨t', w', hrun', hw'⟩ := exists_run 3 s ([hi] ++ [hi])
  have hlast := h s w s w' t t' hrun hrun' hw hw'
  rw [getLast_replies hrun hw, getLast_replies hrun' hw'] at hlast
  exact absurd hlast (by decide)

end Sctp

end UnixNetwork
