import Mathlib.Algebra.Order.BigOperators.Group.Finset
import Mathlib.Data.Fintype.Option
import UnixNetwork.Interaction.Channel
import UnixNetwork.Interaction.Component
import UnixNetwork.SelectServer.Countdown
import UnixNetwork.StrCli.HalfClose

/-!
# The select server and its clients over connections of finite capacity

Any number of clients, each in its own call of `str_cli` of `07/client.c`, and the select server of
`07/server.c`, where each direction of a connection has room for so many bytes and no more. A
`write` that finds no room waits for some, in the middle of its bytes if need be: to the kernel it
is one byte after the other (`puts`). While a program waits for room it does not read. No call fails
or is interrupted.

Here are the programs, the connections between them, and what each program does in one turn, told
of what the others may do meanwhile.

## Main definitions

* `FiniteBuffers.Wire`, `FiniteBuffers.lower`: the calls, with `write` taken apart
* `FiniteBuffers.Pipe`, `FiniteBuffers.Medium`: a connection with what its two ends hold of it, and
  all connections
* `FiniteBuffers.Client`, `FiniteBuffers.clientWorld`: a client and its surroundings
* `FiniteBuffers.Setup`, `FiniteBuffers.system`: the programs with their arguments
* `FiniteBuffers.Pipe.Sound`: what holds of a connection at every moment
* `FiniteBuffers.contract`: what each program is told of the others and tells them

## Main results

* `FiniteBuffers.wpr_client`: a turn of a client
-/

namespace UnixNetwork

namespace FiniteBuffers

open Interaction

/-! ## Writes, byte by byte -/

/-- The calls as the kernel sees them. -/
inductive Wire where
  /-- A call other than `write` and `accept`. -/
  | sys (c : Call)
  /-- A connection is accepted. -/
  | accept (fd : ℤ)
  /-- One byte of a `write`. -/
  | put (fd : ℤ) (b : Byte)

/-- Their results; `accept` also tells whose connection it has returned. -/
@[reducible] def WireRes (ι : Type) : Wire → Type
  | .sys c => Res c
  | .accept _ => ℕ × ι
  | .put .. => Unit

/-- The interface of the kernel; `ι` are the clients. -/
abbrev wire (ι : Type) : Interface := ⟨Wire, WireRes ι⟩

variable {ι : Type}

/-- These bytes are handed over, one after the other. -/
abbrev puts (fd : ℤ) : List Byte → Prog (wire ι) Unit := Prog.callEach (I := wire ι) (.put fd)

/-- What a call of a program is to the kernel. No call fails. -/
def lower : (c : Call) → Prog (wire ι) (Res c)
  | .write fd src mem => puts fd (src.bytes mem) >>= fun _ => .ret (.ok src.len.toNat)
  | .accept fd => .call (I := wire ι) (.accept fd) fun x => .ret (.ok x.1)
  | c => .call (I := wire ι) (.sys c) .ret

/-! ## The connections -/

/-- A connection, and what the programs at its ends hold of it. -/
structure Pipe where
  /-- What the client has not read of its file. -/
  file : List Byte
  /-- What it has read of it and not handed over yet. -/
  out : List Byte
  /-- From the client to the server. -/
  up : Channel Byte
  /-- The client has shut down its side. -/
  shut : Bool
  /-- What the server has read and not handed over yet. -/
  held : List Byte
  /-- From the server to the client. -/
  down : Channel Byte
  /-- The server has closed the connection. -/
  closed : Bool
  /-- What the client has read from the server and not handed over yet. -/
  back : List Byte
  /-- What it has shown. -/
  shown : List Byte

/-- All connections. -/
structure Medium (ι : Type) where
  /-- The connection of each client. -/
  pipe : ι → Pipe
  /-- The descriptors of the server. -/
  fds : ℤ → Option ι
  /-- The server has accepted the connection. -/
  accepted : ι → Bool

/-- Something can be read from what is under way. -/
theorem exists_prefix (l : List Byte) :
    ∃ bs, bs <+: l ∧ bs.length ≤ 1024 ∧ (bs = [] → l = []) := by
  refine ⟨l.take 1024, List.take_prefix _ _, List.length_take_le _ _, fun h => ?_⟩
  exact (List.take_eq_nil_iff.mp h).resolve_left (by decide)

namespace Pipe

/-- What the client has still to read, and whether it has still to shut down its side. -/
def left (content : List Byte) (p : Pipe) : ℕ :=
  p.file.length + (content.length - p.down.delivered.length) + (!p.shut).toNat

/-- Nothing has happened. -/
def start (content : List Byte) : Pipe := ⟨content, [], .empty, false, [], .empty, false, [], []⟩

/-- The server does not wait for the client. -/
def Readable (p : Pipe) : Prop := p.up.queue ≠ [] ∨ p.shut = true

/-- The client does not wait for the server. -/
def Answered (p : Pipe) : Prop := p.down.queue ≠ [] ∨ p.closed = true

/-- The client reads its file. -/
def onFile (p : Pipe) (bs : List Byte) : Pipe :=
  { p with file := p.file.drop bs.length, out := bs }

/-- The client hands a byte over to the server. -/
def onSend (p : Pipe) (b : Byte) : Pipe := { p with out := p.out.tail, up := p.up.push [b] }

/-- The client shuts down its side. -/
def onShut (p : Pipe) : Pipe := { p with shut := true }

/-- The server reads. -/
def onTake (p : Pipe) (bs : List Byte) : Pipe := { p with up := p.up.pop bs.length, held := bs }

/-- The server hands a byte over to the client. -/
def onEcho (p : Pipe) (b : Byte) : Pipe := { p with held := p.held.tail, down := p.down.push [b] }

/-- The server closes the connection. -/
def onClose (p : Pipe) : Pipe := { p with closed := true }

/-- The client reads from the server. -/
def onReceive (p : Pipe) (bs : List Byte) : Pipe :=
  { p with down := p.down.pop bs.length, back := bs }

/-- The client shows a byte. -/
def onShow (p : Pipe) (b : Byte) : Pipe := { p with back := p.back.tail, shown := p.shown ++ [b] }

end Pipe

section Medium

variable [DecidableEq ι]

/-- Something happens to the connection of client `i`. -/
def Medium.on (m : Medium ι) (i : ι) (f : Pipe → Pipe) : Medium ι :=
  { m with pipe := Function.update m.pipe i (f (m.pipe i)) }

/-- Something happens to the connection behind a descriptor of the server. -/
def Medium.behind (m : Medium ι) (fd : ℤ) (f : Pipe → Pipe) : Medium ι :=
  (m.fds fd).elim m fun i => m.on i f

section On

variable {i j : ι} {fd : ℤ} {m : Medium ι} {f : Pipe → Pipe}

@[simp] theorem pipe_on : (m.on i f).pipe i = f (m.pipe i) := Function.update_self ..

@[simp] theorem fds_on : (m.on i f).fds = m.fds := rfl

@[simp] theorem accepted_on : (m.on i f).accepted = m.accepted := rfl

theorem pipe_on_of_ne (h : j ≠ i) : (m.on i f).pipe j = m.pipe j := Function.update_of_ne h _ _

theorem behind_of_fds (h : m.fds fd = some i) : m.behind fd f = m.on i f := by
  rw [Medium.behind, h]
  rfl

end On

/-- The connection of client `i`. -/
def pipeOf (i : ι) : Component (Medium ι) Pipe where
  get m := m.pipe i
  set m p := { m with pipe := Function.update m.pipe i p }
  get_set _ _ := Function.update_self ..
  set_get m := by rw [Function.update_eq_self]
  set_set m p q := by rw [Function.update_idem]

end Medium

/-! ## The programs -/

/-- A connection: what is to be sent over it, and its room. -/
structure Line where
  /-- What the client is to send, and to be sent back. -/
  content : List Byte
  /-- How many bytes may be under way from the client. -/
  up : ℕ
  up_pos : 0 < up
  /-- How many bytes may be under way to the client. -/
  down : ℕ
  down_pos : 0 < down

/-- A server, and the connections to it. -/
structure Host (ι : Type) [Fintype ι] where
  /-- The listening descriptor. -/
  listenfd : ℤ
  /-- It has a bit. -/
  listen : InRange listenfd
  /-- There are descriptors for all clients. -/
  few : Fintype.card ι + 4 ≤ fdSetsize
  /-- The buffer of the server, which is not initialised. -/
  serverBuf : Buf 1024
  /-- The connections. -/
  line : ι → Line

/-- A client, and the room of its connection. -/
structure Client where
  /-- Its call of `str_cli`. -/
  session : StrCli.Session
  /-- Its descriptors have bits. -/
  file : InRange session.fp
  socket : InRange session.sockfd
  /-- Its buffer, which is not initialised. -/
  buf : Buf 1024
  /-- How many bytes may be under way from the client. -/
  up : ℕ
  up_pos : 0 < up
  /-- How many bytes may be under way to the client. -/
  down : ℕ
  down_pos : 0 < down

/-- The connection of a client. -/
abbrev Client.line (c : Client) : Line := ⟨c.session.content, c.up, c.up_pos, c.down, c.down_pos⟩

/-- The surroundings of a client: its file and its connection. -/
def clientWorld (c : Client) : World (wire ι) Pipe where
  Allows p x r := match x, r with
    | .sys (.select _ rset _), sel =>
        sel.Ready rset .zero ∧ ∀ fd ∈ sel.rset, fd = c.session.sockfd → p.Answered
    | .sys (.read fd dst), r => ∃ bs, r = .ok bs ∧ (bs.length : ℤ) ≤ dst.len ∧
        (fd = c.session.fp → bs <+: p.file ∧ (bs = [] → p.file = [])) ∧
        (fd = c.session.sockfd → bs <+: p.down.queue ∧
          (bs = [] → p.down.queue = [] ∧ p.closed = true))
    | .put fd _, _ => fd = c.session.sockfd → p.up.queue.length < c.up
    | _, _ => True
  next p x r := match x, r with
    | .sys (.read fd _), r =>
      if fd = c.session.fp then p.onFile (readBytes r)
      else if fd = c.session.sockfd then p.onReceive (readBytes r)
      else p
    | .sys (.shutdownWr fd), _ => if fd = c.session.sockfd then p.onShut else p
    | .put fd b, _ =>
      if fd = c.session.sockfd then p.onSend b
      else if fd = c.session.fp then p.onShow b
      else p
    | _, _ => p

/-- A turn of a client. -/
def clientBody (c : Client) (s : StrCli.Locals) : Prog (wire ι) (StrCli.Locals ⊕ StrCli.Exit) :=
  (StrCli.body c.session.fp c.session.sockfd s).interp lower

/-- A client at its beginning. -/
def clientStart (c : Client) : Prog (wire ι) (StrCli.Locals ⊕ StrCli.Exit) :=
  (StrCli.strCli c.buf).interp lower

/-- The arguments of the programs. -/
structure Setup (ι : Type) [Fintype ι] where
  /-- The listening descriptor of the server. -/
  listenfd : ℤ
  /-- It has a bit. -/
  listen : InRange listenfd
  /-- There are descriptors for all clients. -/
  few : Fintype.card ι + 4 ≤ fdSetsize
  /-- The buffer of the server, which is not initialised. -/
  serverBuf : Buf 1024
  /-- The clients. -/
  client : ι → Client

section Programs

variable [Fintype ι] (S : Setup ι)

/-- The server, and the connections to it. -/
abbrev Setup.host : Host ι :=
  ⟨S.listenfd, S.listen, S.few, S.serverBuf, fun i => (S.client i).line⟩

/-- The call of `str_cli` of client `i`. -/
abbrev Setup.session (i : ι) : StrCli.Session := (S.client i).session

/-- How many bytes may be under way from client `i`. -/
abbrev Setup.up (i : ι) : ℕ := (S.client i).up

/-- How many bytes may be under way to client `i`. -/
abbrev Setup.down (i : ι) : ℕ := (S.client i).down

variable [DecidableEq ι]

/-- The surroundings of the server. -/
def serverWorld (H : Host ι) : World (wire ι) (Medium ι) where
  Allows m c r := match c, r with
    | .sys (.select _ rset _), sel => sel.Ready rset .zero ∧ ∀ fd ∈ sel.rset,
        (fd = H.listenfd ∧ ∃ i, m.accepted i = false) ∨
          ∃ i, m.fds fd = some i ∧ (m.pipe i).Readable
    | .accept fd, (n, i) => fd = H.listenfd ∧ InRange n ∧ (n : ℤ) ≠ H.listenfd ∧
        m.fds n = none ∧ m.accepted i = false
    | .sys (.read fd dst), r => ∃ bs i, r = .ok bs ∧ (bs.length : ℤ) ≤ dst.len ∧
        m.fds fd = some i ∧ bs <+: (m.pipe i).up.queue ∧
          (bs = [] → (m.pipe i).up.queue = [] ∧ (m.pipe i).shut = true)
    | .put fd _, _ => ∃ i, m.fds fd = some i ∧ (m.pipe i).down.queue.length < (H.line i).down
    | _, _ => True
  next m c r := match c, r with
    | .accept _, (n, i) =>
      { m with
        fds := Function.update m.fds n (some i)
        accepted := Function.update m.accepted i true }
    | .sys (.read fd _), r => m.behind fd fun p => p.onTake (readBytes r)
    | .put fd b, _ => m.behind fd fun p => p.onEcho b
    | .sys (.close fd), _ =>
      { m.behind fd Pipe.onClose with fds := Function.update m.fds fd none }
    | _, _ => m

/-- A round of the server. -/
def serverBody (H : Host ι) (s : SelectServer.Locals) :
    Prog (wire ι) (SelectServer.Locals ⊕ Empty) :=
  (SelectServer.body H.listenfd s).interp lower

/-- The server at its beginning. -/
def serverStart (H : Host ι) : Prog (wire ι) (SelectServer.Locals ⊕ Empty) :=
  (SelectServer.main H.listenfd H.serverBuf).interp lower

/-- Every client has connected. -/
def Host.start (H : Host ι) : Medium ι :=
  ⟨fun i => .start (H.line i).content, fun _ => none, fun _ => false⟩

/-- The server, `none`, and its clients. -/
def system : System (Option ι) (Medium ι) where
  I _ := wire ι
  σ
    | none => SelectServer.Locals
    | some _ => StrCli.Locals
  ρ
    | none => Empty
    | some _ => StrCli.Exit
  world
    | none => serverWorld S.host
    | some i => (clientWorld (S.client i)).within (pipeOf i)
  body
    | none => serverBody S.host
    | some i => clientBody (S.client i)

/-- All programs at their beginning. -/
def start : (system S).State where
  fst
    | none => serverStart S.host
    | some i => clientStart (S.client i)
  snd := S.host.start

end Programs

/-! ## What holds of a connection -/

namespace Pipe

/-- What holds of a connection at every moment; there is room for `u` bytes from the client and for
`d` bytes to it. -/
structure Sound (content : List Byte) (u d : ℕ) (p : Pipe) : Prop where
  /-- What the client has read of its file it hands over. -/
  sent : p.up.sent ++ p.out ++ p.file = content
  /-- What the server has read it hands over. -/
  echoed : p.down.sent ++ p.held = p.up.delivered
  /-- What the client has read from the server it shows. -/
  shows : p.shown ++ p.back = p.down.delivered
  /-- There is no more under way to the server than there is room for. -/
  roomUp : p.up.queue.length ≤ u
  /-- There is no more under way to the client than there is room for. -/
  roomDown : p.down.queue.length ≤ d
  /-- The client shuts down its side when it has sent its file. -/
  shut : p.shut = true → p.file = [] ∧ p.out = []
  /-- The server closes the connection when it has sent all of it back. -/
  closed : p.closed = true → p.shut = true ∧ p.up.queue = [] ∧ p.held = []

/-- What a client does to its connection. -/
structure ByClient (content : List Byte) (u d : ℕ) (p p' : Pipe) : Prop where
  /-- What the server holds is as before. -/
  held : p'.held = p.held
  /-- What the server has read is as before. -/
  delivered : p'.up.delivered = p.up.delivered
  /-- Whether the server has closed the connection is as before. -/
  closed : p'.closed = p.closed
  /-- More may be under way to the server. -/
  queue : p.up.queue <+: p'.up.queue
  /-- The client may have shut down its side. -/
  shut : p.shut = true → p'.shut = true
  /-- What holds at every moment still holds. -/
  sound : p.Sound content u d → p'.Sound content u d

/-- What the server does to a connection. -/
structure ByServer (content : List Byte) (u d : ℕ) (p p' : Pipe) : Prop where
  /-- The file is as before. -/
  file : p'.file = p.file
  /-- What the client is to hand over is as before. -/
  out : p'.out = p.out
  back : p'.back = p.back
  /-- What the client has shown is as before. -/
  shown : p'.shown = p.shown
  /-- What the client has read is as before. -/
  delivered : p'.down.delivered = p.down.delivered
  /-- Whether the client has shut down its side is as before. -/
  shut : p'.shut = p.shut
  /-- More may be under way to the client. -/
  queue : p.down.queue <+: p'.down.queue
  /-- The server may have closed the connection. -/
  closed : p.closed = true → p'.closed = true
  /-- What holds at every moment still holds. -/
  sound : p.Sound content u d → p'.Sound content u d

variable {content : List Byte} {u d : ℕ} {p p' p'' : Pipe}

theorem ByClient.refl (p : Pipe) : p.ByClient content u d p :=
  ⟨rfl, rfl, rfl, List.prefix_refl _, id, id⟩

theorem ByClient.trans (h : p.ByClient content u d p') (h' : p'.ByClient content u d p'') :
    p.ByClient content u d p'' :=
  ⟨h'.held.trans h.held, h'.delivered.trans h.delivered, h'.closed.trans h.closed,
    h.queue.trans h'.queue, h'.shut ∘ h.shut, h'.sound ∘ h.sound⟩

theorem ByServer.refl (p : Pipe) : p.ByServer content u d p :=
  ⟨rfl, rfl, rfl, rfl, rfl, rfl, List.prefix_refl _, id, id⟩

theorem ByServer.trans (h : p.ByServer content u d p') (h' : p'.ByServer content u d p'') :
    p.ByServer content u d p'' :=
  ⟨h'.file.trans h.file, h'.out.trans h.out, h'.back.trans h.back, h'.shown.trans h.shown,
    h'.delivered.trans h.delivered, h'.shut.trans h.shut, h.queue.trans h'.queue,
    h'.closed ∘ h.closed, h'.sound ∘ h.sound⟩

/-- What the server can read it can still read. -/
theorem ByClient.readable (h : p.ByClient content u d p') (hp : p.Readable) : p'.Readable := by
  rcases hp with hne | hshut
  · refine .inl fun hnil => hne ?_
    exact List.prefix_nil.mp (hnil ▸ h.queue)
  · exact .inr (h.shut hshut)

/-- What the client can read it can still read. -/
theorem ByServer.answered (h : p.ByServer content u d p') (hp : p.Answered) : p'.Answered := by
  rcases hp with hne | hclosed
  · refine .inl fun hnil => hne ?_
    exact List.prefix_nil.mp (hnil ▸ h.queue)
  · exact .inr (h.closed hclosed)

namespace Sound

theorem start (content : List Byte) (u d : ℕ) : (Pipe.start content).Sound content u d :=
  ⟨rfl, rfl, rfl, Nat.zero_le u, Nat.zero_le d, nofun, nofun⟩

/-! What each program does keeps it. -/

theorem onFile (h : p.Sound content u d) (hshut : p.shut = false) (hout : p.out = [])
    {bs : List Byte} (hbs : bs <+: p.file) : (p.onFile bs).Sound content u d where
  sent := by
    obtain ⟨rest, hrest⟩ := hbs
    have hsent := h.sent
    rw [hout, ← hrest] at hsent
    simpa [Pipe.onFile, ← hrest] using hsent
  echoed := h.echoed
  shows := h.shows
  roomUp := h.roomUp
  roomDown := h.roomDown
  shut hs := by cases hshut.symm.trans hs
  closed := h.closed

theorem onSend (h : p.Sound content u d) {b : Byte} {bs : List Byte} (hout : p.out = b :: bs)
    (hroom : p.up.queue.length < u) : (p.onSend b).Sound content u d where
  sent := by
    have hsent := h.sent
    rw [hout] at hsent
    simpa [Pipe.onSend, hout] using hsent
  echoed := h.echoed
  shows := h.shows
  roomUp := by
    rw [Pipe.onSend, Channel.queue_push, List.length_append]
    exact hroom
  roomDown := h.roomDown
  shut hs := by cases hout.symm.trans (h.shut hs).2
  closed hc := by cases hout.symm.trans (h.shut (h.closed hc).1).2

theorem onShut (h : p.Sound content u d) (hfile : p.file = []) (hout : p.out = []) :
    p.onShut.Sound content u d :=
  ⟨h.sent, h.echoed, h.shows, h.roomUp, h.roomDown, fun _ => ⟨hfile, hout⟩,
    fun hc => ⟨rfl, (h.closed hc).2⟩⟩

theorem onTake (h : p.Sound content u d) (hheld : p.held = []) {bs : List Byte}
    (hbs : bs <+: p.up.queue) : (p.onTake bs).Sound content u d where
  sent := by
    rw [Pipe.onTake, Channel.sent_pop]
    exact h.sent
  echoed := by
    have hechoed := h.echoed
    rw [hheld, List.append_nil] at hechoed
    show p.down.sent ++ bs = p.up.delivered ++ p.up.queue.take bs.length
    rw [hechoed, ← List.prefix_iff_eq_take.mp hbs]
  shows := h.shows
  roomUp := by
    refine le_trans ?_ h.roomUp
    simp [Pipe.onTake, Channel.pop]
  roomDown := h.roomDown
  shut := h.shut
  closed hc := by
    obtain ⟨hshut, hqueue, -⟩ := h.closed hc
    refine ⟨hshut, ?_, List.prefix_nil.mp (hqueue ▸ hbs)⟩
    simp [Pipe.onTake, Channel.pop, hqueue]

theorem onEcho (h : p.Sound content u d) {b : Byte} {bs : List Byte} (hheld : p.held = b :: bs)
    (hroom : p.down.queue.length < d) : (p.onEcho b).Sound content u d where
  sent := h.sent
  echoed := by
    have hechoed := h.echoed
    rw [hheld] at hechoed
    simpa [Pipe.onEcho, hheld] using hechoed
  shows := h.shows
  roomUp := h.roomUp
  roomDown := by
    rw [Pipe.onEcho, Channel.queue_push, List.length_append]
    exact hroom
  shut := h.shut
  closed hc := by cases hheld.symm.trans (h.closed hc).2.2

theorem onClose (h : p.Sound content u d) (hshut : p.shut = true) (hqueue : p.up.queue = [])
    (hheld : p.held = []) : p.onClose.Sound content u d :=
  ⟨h.sent, h.echoed, h.shows, h.roomUp, h.roomDown, h.shut, fun _ => ⟨hshut, hqueue, hheld⟩⟩

theorem onReceive (h : p.Sound content u d) (hback : p.back = []) {bs : List Byte}
    (hbs : bs <+: p.down.queue) : (p.onReceive bs).Sound content u d where
  sent := h.sent
  echoed := by
    rw [Pipe.onReceive, Channel.sent_pop]
    exact h.echoed
  shows := by
    have hshows := h.shows
    rw [hback, List.append_nil] at hshows
    show p.shown ++ bs = p.down.delivered ++ p.down.queue.take bs.length
    rw [hshows, ← List.prefix_iff_eq_take.mp hbs]
  roomUp := h.roomUp
  roomDown := by
    refine le_trans ?_ h.roomDown
    simp [Pipe.onReceive, Channel.pop]
  shut := h.shut
  closed := h.closed

theorem onShow (h : p.Sound content u d) {b : Byte} {bs : List Byte} (hback : p.back = b :: bs) :
    (p.onShow b).Sound content u d where
  sent := h.sent
  echoed := h.echoed
  shows := by
    have hshows := h.shows
    rw [hback] at hshows
    simpa [Pipe.onShow, hback] using hshows
  roomUp := h.roomUp
  roomDown := h.roomDown
  shut := h.shut
  closed := h.closed

/-! What is known of a connection. -/

/-- What is under way and what the programs hold is part of the file. -/
theorem length_le (h : p.Sound content u d) : p.down.delivered.length + p.down.queue.length +
    p.held.length + p.up.queue.length + p.out.length + p.file.length = content.length := by
  have hsent := congrArg List.length h.sent
  have hechoed := congrArg List.length h.echoed
  simp only [List.length_append, Channel.length_sent] at hsent hechoed
  omega

/-- Once the client has shut down its side and the server has read what was under way, nothing comes
any more, whatever the client does. -/
theorem queue_eq_nil (h : p.Sound content u d) (hshut : p.shut = true) (hqueue : p.up.queue = [])
    (h' : p.ByClient content u d p') : p'.up.queue = [] := by
  obtain ⟨hfile, hout⟩ := h.shut hshut
  have hsent := congrArg List.length h.sent
  have hsent' := congrArg List.length (h'.sound h).sent
  rw [hfile, hout] at hsent
  simp only [List.length_append, Channel.length_sent, hqueue, List.length_nil] at hsent
  simp only [List.length_append, Channel.length_sent, h'.delivered] at hsent'
  exact List.eq_nil_of_length_eq_zero (by omega)

/-- Once the server has closed the connection and the client has read what was under way, the whole
file has been shown. -/
theorem shown_eq (h : p.Sound content u d) (hclosed : p.closed = true) (hqueue : p.down.queue = [])
    (hback : p.back = []) : p.shown = content := by
  obtain ⟨hshut, hup, hheld⟩ := h.closed hclosed
  obtain ⟨hfile, hout⟩ := h.shut hshut
  have hsent := h.sent
  have hechoed := h.echoed
  have hshows := h.shows
  rw [Channel.sent, hup, hout, hfile] at hsent
  rw [Channel.sent, hqueue, hheld] at hechoed
  rw [hback] at hshows
  simp only [List.append_nil] at hsent hechoed hshows
  rw [hshows, hechoed, hsent]

end Sound

end Pipe

/-! ## Contracts -/

/-- What holds of a connection at every moment. -/
abbrev Line.Sound (l : Line) (p : Pipe) : Prop := p.Sound l.content l.up l.down

/-- What its client does to it. -/
abbrev Line.ByClient (l : Line) (p p' : Pipe) : Prop := p.ByClient l.content l.up l.down p'

/-- What its server does to it. -/
abbrev Line.ByServer (l : Line) (p p' : Pipe) : Prop := p.ByServer l.content l.up l.down p'

section Client

variable (c : Client)

/-- What holds of the connection of a client at every moment. -/
abbrev Client.Sound (p : Pipe) : Prop := c.line.Sound p

/-- What the client does to it. -/
abbrev Client.ByClient (p p' : Pipe) : Prop := c.line.ByClient p p'

/-- What the server does to it. -/
abbrev Client.ByServer (p p' : Pipe) : Prop := c.line.ByServer p p'

/-- What is asked of a client when it makes a call. -/
def ClientCall (p : Pipe) : Wire → Prop
  | .sys (.select _ rset _) => c.session.sockfd ∈ rset ∧ (p.shut = false → c.session.fp ∈ rset)
  | .sys (.read fd dst) => dst = Span.whole 1024 ∧
      ((fd = c.session.fp ∧ fd ≠ c.session.sockfd) ∨ fd = c.session.sockfd ∧ p.Answered)
  | .put fd _ => fd = c.session.sockfd → p.out ≠ []
  | .sys (.write ..) | .accept _ => False
  | _ => True

/-- The contract of a client. -/
def clientContract : Contract (wire ι) Pipe where
  Call p x := c.Sound p ∧ ClientCall c p x
  Fault _ := False
  Rely := c.ByServer
  Guarantee := c.ByClient
  refl _ := .refl _
  trans h h' := h.trans h'

end Client

section Contracts

variable [DecidableEq ι] [Fintype ι] (H : Host ι) (S : Setup ι) (i : ι)

/-- What holds of the connection of client `i` at every moment. -/
abbrev SoundAt (m : Medium ι) : Prop := (H.line i).Sound (m.pipe i)

/-- What client `i` does to its connection. -/
abbrev ByClientAt (m m' : Medium ι) : Prop := (H.line i).ByClient (m.pipe i) (m'.pipe i)

/-- What the server does to it. -/
abbrev ByServerAt (m m' : Medium ι) : Prop := (H.line i).ByServer (m.pipe i) (m'.pipe i)

/-- What is asked of the server when it makes a call. -/
def ServerCall (m : Medium ι) : Wire → Prop
  | .sys (.select _ rset _) => H.listenfd ∈ rset ∧ ∀ i, m.accepted i = true →
      (m.pipe i).closed = false → ∃ fd ∈ rset, m.fds fd = some i
  | .accept fd => fd = H.listenfd ∧ (∃ i, m.accepted i = false) ∧
      ∃ n : ℕ, InRange n ∧ (n : ℤ) ≠ H.listenfd ∧ m.fds n = none
  | .sys (.read fd dst) => dst = Span.whole 1024 ∧ ∃ i, m.fds fd = some i ∧ (m.pipe i).Readable
  | .put fd _ => ∃ i, m.fds fd = some i ∧ (m.pipe i).held ≠ []
  | _ => True

/-- The contract of the server: only it accepts connections. -/
def serverContract : Contract (wire ι) (Medium ι) where
  Call m c := (∀ i, SoundAt H i m) ∧ ServerCall H m c
  Fault _ := False
  Rely m m' := m'.fds = m.fds ∧ m'.accepted = m.accepted ∧ ∀ i, ByClientAt H i m m'
  Guarantee m m' := ∀ i, ByServerAt H i m m'
  refl _ := ⟨rfl, rfl, fun _ => .refl _⟩
  trans h h' := ⟨h'.1.trans h.1, h'.2.1.trans h.2.1, fun i => (h.2.2 i).trans (h'.2.2 i)⟩

/-- The contracts of the programs. A client does nothing to other connections. -/
def contract : ∀ x, Contract ((system S).I x) (Medium ι)
  | none => serverContract S.host
  | some i => (clientContract (S.client i)).within (pipeOf i)

theorem fits : System.Fits (contract S) := by
  rintro (_ | i) (_ | j) hne m m' h
  · exact absurd rfl hne
  · exact h j
  · obtain ⟨p, hp, rfl⟩ := h
    refine ⟨rfl, rfl, fun j => ?_⟩
    show (S.client j).ByClient (m.pipe j) (Function.update m.pipe i p j)
    by_cases hj : j = i
    · subst hj
      rw [Function.update_self]
      exact hp
    · rw [Function.update_of_ne hj]
      exact .refl _
  · obtain ⟨p, -, rfl⟩ := h
    have hji : j ≠ i := fun he => hne (congrArg some he)
    show (S.client j).ByServer (m.pipe j) (Function.update m.pipe i p j)
    rw [Function.update_of_ne hji]
    exact .refl _

end Contracts

/-! ## A turn of a client -/

section Client

variable {c : Client} {p p' : Pipe} {n : ℕ} {out back : List Byte} {shut : Bool}

/-- Where a client has come to. -/
structure ClientAt (c : Client) (shut : Bool) (out back : List Byte) (n : ℕ) (p : Pipe) :
    Prop where
  /-- What holds at every moment. -/
  sound : c.Sound p
  /-- It has shut down its side, or it has not. -/
  shut : p.shut = shut
  /-- What it is to hand over to the server. -/
  out : p.out = out
  /-- What it is to show. -/
  back : p.back = back
  /-- There is not too much left. -/
  left : p.left c.session.content < n

/-- A client has returned. -/
structure ClientDone (c : Client) (e : StrCli.Exit) (p : Pipe) : Prop where
  /-- What holds at every moment. -/
  sound : c.Sound p
  /-- It has found both ends. -/
  exit : e = .returned
  /-- The server has closed the connection. -/
  closed : p.closed = true
  /-- The whole file has been shown. -/
  shown : p.shown = c.session.content

theorem ClientAt.rely (h : ClientAt c shut out back n p) (h' : c.ByServer p p') :
    ClientAt c shut out back n p' := by
  refine ⟨h'.sound h.sound, h'.shut.trans h.shut, h'.out.trans h.out, h'.back.trans h.back, ?_⟩
  rw [Pipe.left, h'.file, h'.delivered, h'.shut]
  exact h.left

/-- Something is left. -/
theorem ClientAt.exists_succ (h : ClientAt c shut out back n p) : ∃ k, n = k + 1 :=
  ⟨n - 1, (Nat.succ_pred_eq_of_pos (Nat.zero_lt_of_lt h.left)).symm⟩

theorem ClientDone.rely {e : StrCli.Exit} (h : ClientDone c e p) (h' : c.ByServer p p') :
    ClientDone c e p' :=
  ⟨h'.sound h.sound, h.exit, h'.closed h.closed, h'.shown.trans h.shown⟩

/-- What a client does brings it to where its connection says. -/
theorem ClientAt.step {q : Pipe} (h : ClientAt c shut out back n p) (hp : c.ByClient p q) {k : ℕ}
    (hleft : q.left c.session.content < k) : c.ByClient p q ∧ ClientAt c q.shut q.out q.back k q :=
  ⟨hp, hp.sound h.sound, rfl, rfl, rfl, hleft⟩

/-- The client reads its file. -/
theorem ClientAt.read (h : ClientAt c false [] back (n + 1) p) {bs : List Byte} (hne : bs ≠ [])
    (hbs : bs <+: p.file) :
    c.ByClient p (p.onFile bs) ∧ ClientAt c false bs back n (p.onFile bs) := by
  obtain ⟨hby, hat⟩ := h.step (q := p.onFile bs) (k := n)
    ⟨rfl, rfl, rfl, List.prefix_refl _, id, fun hs => hs.onFile h.shut h.out hbs⟩ <| by
      have hleft := h.left
      have hpos := List.length_pos_iff.mpr hne
      have hle := hbs.length_le
      rw [Pipe.left] at hleft
      simp only [Pipe.left, Pipe.onFile, List.length_drop]
      omega
  exact ⟨hby, h.shut ▸ h.back ▸ hat⟩

/-- A client finds the end of its file. -/
theorem ClientAt.readEnd (h : ClientAt c false [] back n p) :
    c.ByClient p (p.onFile []) ∧ ClientAt c false [] back n (p.onFile []) := by
  obtain ⟨hby, hat⟩ := h.step (q := p.onFile []) (k := n)
    ⟨rfl, rfl, rfl, List.prefix_refl _, id, fun hs => hs.onFile h.shut h.out List.nil_prefix⟩
    h.left
  exact ⟨hby, h.shut ▸ h.back ▸ hat⟩

/-- A client hands a byte over to the server. -/
theorem ClientAt.send {b : Byte} (h : ClientAt c shut (b :: out) back n p)
    (hroom : p.up.queue.length < c.up) :
    c.ByClient p (p.onSend b) ∧ ClientAt c shut out back n (p.onSend b) := by
  obtain ⟨hby, hat⟩ := h.step (q := p.onSend b) (k := n)
    ⟨rfl, rfl, rfl, List.prefix_append _ _, id, fun hs => hs.onSend h.out hroom⟩ h.left
  have hout : (p.onSend b).out = out := congrArg List.tail h.out
  exact ⟨hby, h.shut ▸ h.back ▸ hout ▸ hat⟩

/-- A client shuts down its side. -/
theorem ClientAt.shutDown (h : ClientAt c false [] back (n + 1) p) (hfile : p.file = []) :
    c.ByClient p p.onShut ∧ ClientAt c true [] back n p.onShut := by
  obtain ⟨hby, hat⟩ := h.step (q := p.onShut) (k := n)
    ⟨rfl, rfl, rfl, List.prefix_refl _, fun _ => rfl, fun hs => hs.onShut hfile h.out⟩ <| by
      have hleft := h.left
      rw [Pipe.left, h.shut] at hleft
      exact Nat.lt_of_succ_lt_succ hleft
  exact ⟨hby, h.out ▸ h.back ▸ hat⟩

/-- A client reads from the server. -/
theorem ClientAt.receive (h : ClientAt c shut out [] (n + 1) p) {bs : List Byte} (hne : bs ≠ [])
    (hbs : bs <+: p.down.queue) :
    c.ByClient p (p.onReceive bs) ∧ ClientAt c shut out bs n (p.onReceive bs) := by
  obtain ⟨hby, hat⟩ := h.step (q := p.onReceive bs) (k := n)
    ⟨rfl, rfl, rfl, List.prefix_refl _, id, fun hs => hs.onReceive h.back hbs⟩ <| by
      have hleft := h.left
      have hpos := List.length_pos_iff.mpr hne
      have hle := hbs.length_le
      have hlen : _ = c.session.content.length := h.sound.length_le
      rw [Pipe.left] at hleft
      simp only [Pipe.left, Pipe.onReceive, Channel.Offers.delivered_pop ⟨hne, hbs⟩,
        List.length_append]
      omega
  exact ⟨hby, h.shut ▸ h.out ▸ hat⟩

/-- A client finds the end of what the server sends. -/
theorem ClientAt.finish (h : ClientAt c shut out [] n p) (hqueue : p.down.queue = [])
    (hclosed : p.closed = true) :
    c.ByClient p (p.onReceive []) ∧ ClientDone c .returned (p.onReceive []) := by
  have hby : c.ByClient p (p.onReceive []) :=
    ⟨rfl, rfl, rfl, List.prefix_refl _, id, fun hs => hs.onReceive h.back List.nil_prefix⟩
  exact ⟨hby, hby.sound h.sound, rfl, hclosed, h.sound.shown_eq hclosed hqueue h.back⟩

/-- A client shows a byte. -/
theorem ClientAt.display {b : Byte} (h : ClientAt c shut out (b :: back) n p) :
    c.ByClient p (p.onShow b) ∧ ClientAt c shut out back n (p.onShow b) := by
  obtain ⟨hby, hat⟩ := h.step (q := p.onShow b) (k := n)
    ⟨rfl, rfl, rfl, List.prefix_refl _, id, fun hs => hs.onShow h.back⟩ h.left
  have hback : (p.onShow b).back = back := congrArg List.tail h.back
  exact ⟨hby, h.shut ▸ h.out ▸ hback ▸ hat⟩

/-- A `write` to the server. -/
theorem wpr_send (h : ClientAt c false out [] n p) :
    wpr (clientWorld c) (clientContract c) (puts (ι := ι) c.session.sockfd out)
      (fun _ => ClientAt c false [] [] n) p := by
  refine wpr_callEach (C := clientContract c) (f := Wire.put c.session.sockfd)
    (A := fun out => ClientAt c false out [] n) (fun _ _ _ => ClientAt.rely)
    (fun b bs p h => ⟨h.sound, fun _ => h.out ▸ List.cons_ne_nil b bs⟩) ?_ h
  rintro b bs p ⟨⟩ h hr
  have hnext : (clientWorld (ι := ι) c).next p (.put c.session.sockfd b) () = p.onSend b :=
    if_pos rfl
  rw [hnext]
  exact h.send (hr rfl)

/-- A `write` of what the server has sent. -/
theorem wpr_display (h : ClientAt c shut [] back n p) :
    wpr (clientWorld c) (clientContract c) (puts (ι := ι) c.session.fp back)
      (fun _ => ClientAt c shut [] [] n) p := by
  have hne : c.session.fp ≠ c.session.sockfd := c.session.ne
  refine wpr_callEach (C := clientContract c) (f := Wire.put c.session.fp)
    (A := fun back => ClientAt c shut [] back n) (fun _ _ _ => ClientAt.rely)
    (fun b bs p h => ⟨h.sound, fun he => absurd he hne⟩) ?_ h
  rintro b bs p ⟨⟩ h -
  have hnext : (clientWorld (ι := ι) c).next p (.put c.session.fp b) () = p.onShow b := by
    show ite _ _ (ite _ _ _) = _
    rw [if_neg hne, if_pos rfl]
  rw [hnext]
  exact h.display

/-- The branch of a readable socket. -/
theorem wpr_fromServer {s : StrCli.Locals} (h : ClientAt c s.stdineof [] [] n p)
    (hready : c.session.sockfd ∈ s.rset → p.Answered) :
    wpr (clientWorld (ι := ι) c) (clientContract c)
      ((StrCli.fromServer c.session.fp c.session.sockfd s).interp lower)
      (Sum.elim (fun s' p' => s'.stdineof = s.stdineof ∧ s'.rset = s.rset ∧
        ClientAt c s.stdineof [] [] (if c.session.sockfd ∈ s.rset then n - 1 else n) p')
        (ClientDone c)) p := by
  obtain ⟨k, rfl⟩ := h.exists_succ
  by_cases hmem : c.session.sockfd ∈ s.rset
  · rw [StrCli.fromServer_of_mem hmem, if_pos hmem]
    refine fun p₁ h₁ => ⟨⟨(h.rely h₁).sound, rfl, .inr ⟨rfl, h₁.answered (hready hmem)⟩⟩, ?_⟩
    rintro r ⟨bs, rfl, hlen, -, hsock⟩
    obtain ⟨hbs, hend⟩ := hsock rfl
    have hlen' : bs.length ≤ 1024 := Int.ofNat_le.mp hlen
    have hnext : (clientWorld (ι := ι) c).next p₁
        (.sys (.read c.session.sockfd (Span.whole 1024))) (.ok bs) = p₁.onReceive bs := by
      show ite _ _ (ite _ _ _) = _
      rw [if_neg c.session.ne.symm, if_pos rfl]
      rfl
    rw [hnext]
    by_cases hnil : bs = []
    · obtain ⟨hqueue, hclosed⟩ := hend hnil
      obtain ⟨hby, hdone⟩ := (h.rely h₁).finish hqueue hclosed
      subst hnil
      have heof : s.stdineof = true :=
        (h.rely h₁).shut.symm.trans ((h.rely h₁).sound.closed hclosed).1
      refine ⟨hby, ?_⟩
      show wpr _ _ (Prog.interp _ (ite _ _ _)) _ _
      rw [if_pos (readValue_ok_eq_zero.mpr rfl), if_pos heof]
      exact fun p₂ h₂ => ⟨⟨(hdone.rely h₂).sound, trivial⟩, fun _ _ =>
        ⟨.refl _, fun p₃ h₃ => (hdone.rely h₂).rely h₃⟩⟩
    · obtain ⟨hby, hat⟩ := (h.rely h₁).receive hnil hbs
      refine ⟨hby, ?_⟩
      show wpr _ _ (Prog.interp _ (ite _ _ _)) _ _
      rw [if_neg (mt readValue_ok_eq_zero.mp hnil)]
      show wpr _ _ ((puts _ _ >>= _) >>= _) _ _
      rw [readValue_ok, readBytes_ok, Span.bytes_first_put hlen']
      refine wpr_bind (wpr_bind (wpr_mono ?_ (wpr_display hat)))
      intro _ p₂ hat' p₃ h₃
      exact fun p₄ h₄ => ⟨rfl, rfl, (hat'.rely h₃).rely h₄⟩
  · rw [StrCli.fromServer_of_notMem c.socket hmem, if_neg hmem]
    exact fun p₁ h₁ => ⟨rfl, rfl, h.rely h₁⟩

/-- The branch of a readable file. -/
theorem wpr_fromFile {s : StrCli.Locals} (h : ClientAt c s.stdineof [] [] n p)
    (hopen : c.session.fp ∈ s.rset → s.stdineof = false) :
    wpr (clientWorld (ι := ι) c) (clientContract c)
      ((StrCli.fromFile c.session.fp c.session.sockfd s).interp lower)
      (fun s' p' => (s'.stdineof = true → c.session.fp ∉ s'.rset) ∧
        (∀ fd ∈ s'.rset, fd ∈ s.rset) ∧ ClientAt c s'.stdineof [] []
          (if c.session.fp ∈ s.rset then n - 1 else n) p') p := by
  have hne : c.session.fp ≠ c.session.sockfd := c.session.ne
  obtain ⟨k, rfl⟩ := h.exists_succ
  by_cases hmem : c.session.fp ∈ s.rset
  · rw [StrCli.fromFile_of_mem hmem, if_pos hmem]
    have heof := hopen hmem
    rw [heof] at h
    refine fun p₁ h₁ => ⟨⟨(h.rely h₁).sound, rfl, .inl ⟨rfl, hne⟩⟩, ?_⟩
    rintro r ⟨bs, rfl, hlen, hfile, -⟩
    obtain ⟨hbs, hend⟩ := hfile rfl
    have hlen' : bs.length ≤ 1024 := Int.ofNat_le.mp hlen
    have hnext : (clientWorld (ι := ι) c).next p₁ (.sys (.read c.session.fp (Span.whole 1024)))
        (.ok bs) = p₁.onFile bs := if_pos rfl
    rw [hnext]
    by_cases hnil : bs = []
    · obtain ⟨hby, hat⟩ := (h.rely h₁).readEnd
      have hrest := hend hnil
      subst hnil
      refine ⟨hby, ?_⟩
      show wpr _ _ (Prog.interp _ (ite _ _ _)) _ _
      rw [if_pos (readValue_ok_eq_zero.mpr rfl)]
      refine fun p₂ h₂ => ⟨⟨(hat.rely h₂).sound, trivial⟩, fun _ _ =>
        ⟨.refl _, fun p₃ h₃ => ?_⟩⟩
      have hat₃ := (hat.rely h₂).rely h₃
      obtain ⟨hby', hat'⟩ := hat₃.shutDown ((h₃.file.trans h₂.file).trans hrest)
      have hshut : (clientWorld (ι := ι) c).next p₃ (.sys (.shutdownWr c.session.sockfd)) () =
          p₃.onShut := if_pos rfl
      refine ⟨⟨hat₃.sound, trivial⟩, fun _ _ => ?_⟩
      rw [hshut]
      refine ⟨hby', fun p₄ h₄ => ⟨fun _ hin => ?_, fun fd hfd => ?_, hat'.rely h₄⟩⟩
      · exact (FdSet.mem_erase.mp hin).1 rfl
      · exact (FdSet.mem_erase.mp hfd).2
    · obtain ⟨hby, hat⟩ := (h.rely h₁).read hnil hbs
      refine ⟨hby, ?_⟩
      show wpr _ _ (Prog.interp _ (ite _ _ _)) _ _
      rw [if_neg (mt readValue_ok_eq_zero.mp hnil)]
      show wpr _ _ ((puts _ _ >>= _) >>= _) _ _
      rw [readValue_ok, readBytes_ok, Span.bytes_first_put hlen']
      refine wpr_bind (wpr_bind (wpr_mono ?_ (wpr_send hat)))
      intro _ p₂ hat' p₃ h₃
      refine fun p₄ h₄ => ⟨fun he => ?_, fun _ => id, ?_⟩
      · cases heof.symm.trans he
      · exact heof ▸ (hat'.rely h₃).rely h₄
  · rw [StrCli.fromFile_of_notMem c.file hmem, if_neg hmem]
    exact fun p₁ h₁ => ⟨fun _ => hmem, fun _ => id, h.rely h₁⟩

/-- What holds at the head of the loop of a client. -/
structure ClientHead (c : Client) (s : StrCli.Locals) (p : Pipe) : Prop where
  /-- Nothing is held. -/
  idle : ClientAt c s.stdineof [] [] (p.left c.session.content + 1) p
  /-- Only the two descriptors are watched. -/
  watched : ∀ fd ∈ s.rset, fd = c.session.fp ∨ fd = c.session.sockfd
  /-- The file is not watched behind its end. -/
  file : s.stdineof = true → c.session.fp ∉ s.rset

theorem ClientHead.rely {s : StrCli.Locals} (h : ClientHead c s p) (h' : c.ByServer p p') :
    ClientHead c s p' :=
  ⟨{ h.idle.rely h' with left := Nat.lt_succ_self _ }, h.watched, h.file⟩

/-- `select` has reported something. -/
theorem exists_mem_of_ready {sel : Selected} {rset : FdSet} (h : sel.Ready rset .zero) :
    ∃ fd, fd ∈ sel.rset := by
  have hpos := h.value_pos
  rw [SelectServer.value_eq h] at hpos
  exact Finset.card_pos.mp (Int.natCast_pos.mp hpos)

/-- **A turn of a client** takes it closer to its end. -/
theorem wpr_client {s : StrCli.Locals} (h : ClientHead c s p) :
    wpr (clientWorld (ι := ι) c) (clientContract c) (clientBody c s)
      (Sum.elim (fun s' p' =>
        ClientHead c s' p' ∧ p'.left c.session.content < p.left c.session.content)
        (ClientDone c)) p := by
  set watch : FdSet := (if s.stdineof then s.rset else
    s.rset.insert c.session.fp c.file).insert c.session.sockfd c.socket with hwatch
  have hfp : c.session.fp ∈ watch ↔ s.stdineof = false := by
    have hne : c.session.fp ≠ c.session.sockfd := c.session.ne
    cases heof : s.stdineof with
    | true => simp [hwatch, heof, hne, h.file heof]
    | false => simp [hwatch, heof]
  have hsub : ∀ fd ∈ watch, fd = c.session.fp ∨ fd = c.session.sockfd := by
    intro fd hfd
    rcases FdSet.mem_insert.mp hfd with rfl | hfd
    · exact .inr rfl
    split at hfd
    · exact h.watched fd hfd
    · rcases FdSet.mem_insert.mp hfd with rfl | hfd
      · exact .inl rfl
      · exact h.watched fd hfd
  rw [clientBody, StrCli.body, StrCli.watch_eq c.file c.socket]
  refine fun p₁ h₁ => ⟨⟨(h.idle.rely h₁).sound, FdSet.mem_insert.mpr (.inl rfl),
    fun hshut => ?_⟩, ?_⟩
  · exact hfp.mpr ((h.idle.rely h₁).shut.symm.trans hshut)
  rintro sel ⟨hsel, hsock⟩
  refine ⟨.refl _, ?_⟩
  set s₁ : StrCli.Locals := { s with rset := sel.rset }
  show wpr _ _ (Prog.interp _ (StrCli.fromServer _ _ s₁ >>= _)) _ _
  rw [Prog.interp_bind]
  have hserver := wpr_fromServer (ι := ι) (s := s₁) (h.idle.rely h₁) fun hin => hsock _ hin rfl
  refine wpr_bind (wpr_mono ?_ hserver)
  rintro (s₂ | e) p₂ hpost
  · obtain ⟨heof, hrset, hat⟩ :
      s₂.stdineof = s.stdineof ∧ s₂.rset = sel.rset ∧ ClientAt .. := hpost
    show wpr _ _ (Prog.interp _ (StrCli.fromFile _ _ s₂ >>= _)) _ _
    rw [Prog.interp_bind]
    refine wpr_bind (wpr_mono ?_ (wpr_fromFile (s := s₂) (heof.symm ▸ hat) fun hin => ?_))
    · rintro s₃ p₃ ⟨hfile, hin, hat₃⟩ p₄ h₄
      have hat₄ := hat₃.rely h₄
      have hless : p₄.left c.session.content < p.left c.session.content := by
        refine lt_of_lt_of_le hat₄.left ?_
        obtain ⟨fd, hfd⟩ := exists_mem_of_ready hsel
        rw [hrset]
        rcases hsub fd (hsel.rset_sub fd hfd) with rfl | rfl
        · rw [if_pos hfd]
          split <;> omega
        · rw [if_pos hfd]
          split <;> omega
      refine ⟨⟨⟨hat₄.sound, hat₄.shut, hat₄.out, hat₄.back, Nat.lt_succ_self _⟩, ?_, hfile⟩, hless⟩
      intro fd hfd
      exact hsub fd (hsel.rset_sub fd (hrset ▸ hin fd hfd))
    · exact heof.trans (hfp.mp (hsel.rset_sub _ (hrset ▸ hin)))
  · exact fun p₃ h₃ => ClientDone.rely hpost h₃

/-- A client begins. -/
theorem wpr_clientStart (c : Client) :
    wpr (clientWorld (ι := ι) c) (clientContract c) (clientStart c)
      (Sum.elim (ClientHead c) (ClientDone c)) (.start c.session.content) := by
  have hhead : ClientHead c ⟨false, .zero, c.buf⟩ (.start c.session.content) :=
    ⟨⟨.start _ _ _, rfl, rfl, rfl, Nat.lt_succ_self _⟩,
      fun fd hfd => absurd hfd FdSet.notMem_zero, nofun⟩
  exact fun p hp => ⟨⟨(hhead.rely hp).idle.sound, trivial⟩, fun _ _ =>
    ⟨.refl _, fun p' hp' => (hhead.rely hp).rely hp'⟩⟩

end Client

end FiniteBuffers

end UnixNetwork
