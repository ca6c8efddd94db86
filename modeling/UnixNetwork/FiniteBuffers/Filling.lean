import UnixNetwork.FiniteBuffers

/-!
# How a client fills its connection

A client whose bytes come back while it has more of them to send can fill both directions of its
connection and wait for room, with a byte in hand, while whoever echoes them holds one more and
waits for room too. This is so whatever else the other end does, as long as it can read a byte and
can write it back.

## Main definitions

* `FiniteBuffers.Client.Waits`: what a client waits for
* `FiniteBuffers.Echoes`: a system in which the bytes of a client can come back one by one
* `FiniteBuffers.Filling`, `FiniteBuffers.Full`: the connection is being filled, and it is full

## Main results

* `FiniteBuffers.Client.Waits.readable`, `FiniteBuffers.Client.Waits.long`: what a client that waits
  says about its connection
* `FiniteBuffers.Filling.exists_full`: a long file can fill a connection
-/

namespace UnixNetwork

namespace FiniteBuffers

open Interaction

variable {ι σ : Type} {c : Client} {p : Pipe}

/-! ## A client that waits -/

/-- What a client waits for: an answer, or room. -/
def Client.Waits (c : Client) (p : Pipe) : Prop :=
  (p.shut = true ∧ p.down.queue = [] ∧ p.closed = false) ∨
    p.out ≠ [] ∧ c.up ≤ p.up.queue.length

/-- A call of a client that does not return. -/
theorem ClientCall.waits {x : Wire} (h : ClientCall c p x)
    (hno : ∀ r, ¬ (clientWorld (ι := ι) c).Allows p x r) : c.Waits p := by
  have hne : c.session.fp ≠ c.session.sockfd := c.session.ne
  match x with
  | .put fd b =>
    by_cases hfd : fd = c.session.sockfd
    · exact .inr ⟨h hfd, not_lt.mp fun hlt => hno () fun _ => hlt⟩
    · exact absurd (fun he => absurd he hfd) (hno ())
  | .accept fd => exact h.elim
  | .sys (.select n rset wset) =>
    refine .inl ?_
    have hanswered : ¬ p.Answered := fun hready =>
      hno (.only _ c.socket) ⟨Selected.ready_only _ h.1, fun _ _ _ => hready⟩
    have hshut : p.shut = true := by
      by_contra hshut
      refine hno (.only _ c.file) ⟨Selected.ready_only _ (h.2 (by simpa using hshut)), ?_⟩
      intro fd hfd he
      exact absurd (((FdSet.mem_single c.file).mp hfd).symm.trans he) hne
    rw [Pipe.Answered, not_or, not_not, Bool.not_eq_true] at hanswered
    exact ⟨hshut, hanswered⟩
  | .sys (.read fd dst) =>
    exfalso
    obtain ⟨rfl, ⟨rfl, -⟩ | ⟨rfl, hready⟩⟩ := h
    · obtain ⟨bs, hbs, hlen, hend⟩ := exists_prefix p.file
      exact hno (.ok bs) ⟨bs, rfl, Int.ofNat_le.mpr hlen, fun _ => ⟨hbs, hend⟩,
        fun he => absurd he hne⟩
    · obtain ⟨bs, hbs, hlen, hend⟩ := exists_prefix p.down.queue
      refine hno (.ok bs) ⟨bs, rfl, Int.ofNat_le.mpr hlen, fun he => absurd he hne.symm,
        fun _ => ⟨hbs, fun hnil => ⟨hend hnil, ?_⟩⟩⟩
      exact hready.resolve_left fun hq => hq (hend hnil)
  | .sys (.write ..) => exact h.elim
  | .sys (.accept fd) => exact absurd trivial (hno (.ok 0))
  | .sys (.send ..) => exact absurd trivial (hno (.ok 0))
  | .sys (.close fd) => exact absurd trivial (hno ())
  | .sys (.shutdownWr fd) => exact absurd trivial (hno ())
  | .sys (.printf t) => exact absurd trivial (hno ())
  | .sys (.eprintf t) => exact absurd trivial (hno ())
  | .sys .time => exact absurd trivial (hno [])

/-- A client that waits has something to be read, on a connection that is open. -/
theorem Client.Waits.readable (h : c.Waits p) (hs : c.Sound p) :
    p.closed = false ∧ p.Readable := by
  rcases h with ⟨hshut, -, hopen⟩ | ⟨-, hfull⟩
  · exact ⟨hopen, .inr hshut⟩
  · have hqueue : p.up.queue ≠ [] :=
      List.ne_nil_of_length_pos (lt_of_lt_of_le c.up_pos hfull)
    refine ⟨?_, .inl hqueue⟩
    by_contra hclosed
    exact hqueue (hs.closed (by simpa using hclosed)).2.1

/-- A client reads some bytes of its file and is to hand them over. -/
theorem client_reads {s : StrCli.Locals} (heof : s.stdineof = false) {bs : List Byte}
    (hnil : bs ≠ []) (hlen : bs.length ≤ 1024) (hfile : bs <+: p.file) :
    ∃ s', s'.stdineof = false ∧ Interaction.Reach (clientWorld (ι := ι) c) (clientBody c)
      (.ret (.inl s), p)
      (puts c.session.sockfd bs >>= fun _ => .ret (.inl s'), p.onFile bs) := by
  have hne : c.session.fp ≠ c.session.sockfd := c.session.ne
  set sel : Selected := .only c.session.fp c.file
  set s₁ : StrCli.Locals := { s with rset := sel.rset }
  have hfp : c.session.fp ∈ s₁.rset := (FdSet.mem_single c.file).mpr rfl
  have hsock : c.session.sockfd ∉ s₁.rset := fun hmem =>
    hne ((FdSet.mem_single c.file).mp hmem).symm
  refine ⟨{ s₁ with buf := s₁.buf.put 0 bs }, heof, .head .again ?_⟩
  rw [clientBody, StrCli.body, StrCli.watch_eq c.file c.socket]
  refine .head (.call (r := sel) ⟨Selected.ready_only _ ?_, fun fd hfd he => ?_⟩) ?_
  · simp [heof]
  · exact absurd (he ▸ hfd) hsock
  show Interaction.Reach _ _ (Prog.interp lower (StrCli.fromServer _ _ s₁ >>= _), p) _
  rw [StrCli.fromServer_of_notMem c.socket hsock, Prog.ret_bind]
  show Interaction.Reach _ _ (Prog.interp lower (StrCli.fromFile _ _ s₁ >>= _), p) _
  rw [StrCli.fromFile_of_mem hfp]
  refine .head (.call (r := Except.ok bs) ⟨bs, rfl, Int.ofNat_le.mpr hlen,
    fun _ => ⟨hfile, fun he => absurd he hnil⟩, fun he => absurd he hne⟩) ?_
  have hnext : (clientWorld (ι := ι) c).next p (.sys (.read c.session.fp (Span.whole 1024)))
      (.ok bs) = p.onFile bs := if_pos rfl
  rw [hnext]
  show Interaction.Reach _ _ (Prog.interp _ (ite _ _ _ >>= _), _) _
  rw [if_neg (mt readValue_ok_eq_zero.mp hnil)]
  show Interaction.Reach _ _ ((puts _ (Span.bytes _ _) >>= _) >>= _, _) _
  rw [readValue_ok, readBytes_ok, Span.bytes_first_put hlen, Prog.bind_assoc]
  exact .refl

/-- A system with a client in it, whose program and connection are `prog` and `pipe`. Whoever is at
the other end can read a byte and is then to write it back (`server`). -/
structure Echoes (c : Client) (Step : σ → σ → Prop)
    (prog : σ → Prog (wire ι) (StrCli.Locals ⊕ StrCli.Exit)) (pipe : σ → Pipe)
    (server : Option Byte → σ → Prop) : Prop where
  /-- What the client can do on its own it can do in the system. -/
  client : ∀ {a o q x}, server o a →
    Interaction.Reach (clientWorld c) (clientBody c) (prog a, pipe a) (q, x) →
      ∃ b, Relation.ReflTransGen Step a b ∧ server o b ∧ prog b = q ∧ pipe b = x
  /-- The server can read one byte of what is under way to it. -/
  take : ∀ {a b rest}, server none a → (pipe a).up.queue = b :: rest →
    ∃ a', Relation.ReflTransGen Step a a' ∧ server (some b) a' ∧ prog a' = prog a ∧
      pipe a' = (pipe a).onTake [b]
  /-- The server can write the byte back where there is room. -/
  echo : ∀ {a b}, server (some b) a → (pipe a).down.queue.length < c.down →
    ∃ a', Relation.ReflTransGen Step a a' ∧ server none a' ∧ prog a' = prog a ∧
      pipe a' = (pipe a).onEcho b

section Filling

variable {Step : σ → σ → Prop} {prog : σ → Prog (wire ι) (StrCli.Locals ⊕ StrCli.Exit)}
  {pipe : σ → Pipe} {server : Option Byte → σ → Prop} {o : Option Byte} {k j : ℕ} {a : σ}

/-- The client fills its connection: it has read nothing from the server, `k` of its bytes are under
way to the server, `o` is held there and `j` are under way to it. -/
structure Filling (c : Client) (prog : σ → Prog (wire ι) (StrCli.Locals ⊕ StrCli.Exit))
    (pipe : σ → Pipe) (server : Option Byte → σ → Prop) (o : Option Byte) (k j : ℕ) (a : σ) :
    Prop where
  /-- The client is at the head of its loop, and its file has not ended. -/
  client : ∃ s, prog a = .ret (.inl s) ∧ s.stdineof = false
  /-- The server is at the head of its loop, or it is to write `o` back. -/
  server : server o a
  /-- What holds at every moment. -/
  sound : c.Sound (pipe a)
  /-- Nothing is in the hands of the client. -/
  out : (pipe a).out = []
  /-- It has not shut down its side. -/
  shut : (pipe a).shut = false
  /-- `k` bytes are under way to the server. -/
  up : (pipe a).up.queue.length = k
  /-- The server holds `o`. -/
  held : (pipe a).held = o.toList
  /-- `j` bytes are under way to the client. -/
  down : (pipe a).down.queue.length = j
  /-- The client has read nothing of it. -/
  unread : (pipe a).down.delivered = []

/-- The connection is full, and both ends are to write a byte more. -/
structure Full (c : Client) (prog : σ → Prog (wire ι) (StrCli.Locals ⊕ StrCli.Exit))
    (pipe : σ → Pipe) (server : Option Byte → σ → Prop) (a : σ) : Prop where
  /-- The client is to hand a byte over. -/
  client : ∃ b k, prog a = .call (I := wire ι) (.put c.session.sockfd b) k
  /-- The server is to hand a byte over. -/
  server : ∃ b, server (some b) a
  /-- There is no room on the way to the server. -/
  up : c.up ≤ (pipe a).up.queue.length
  /-- There is no room on the way back. -/
  down : c.down ≤ (pipe a).down.queue.length
  /-- The client has read nothing from the server. -/
  unread : (pipe a).down.delivered = []

namespace Filling

variable (E : Echoes c Step prog pipe server)

/-- The client has more to read. -/
theorem exists_file (h : Filling c prog pipe server o k j a)
    (hmore : k + o.toList.length + j < c.session.content.length) :
    ∃ b rest, (pipe a).file = b :: rest := by
  have hlen : _ = c.session.content.length := h.sound.length_le
  rw [h.up, h.held, h.down, h.unread, h.out] at hlen
  simp only [List.length_nil] at hlen
  exact List.exists_cons_of_length_pos (by omega)

include E

/-- The client reads a byte and is to hand it over. -/
theorem read (h : Filling c prog pipe server o k j a)
    (hmore : k + o.toList.length + j < c.session.content.length) :
    ∃ (b : Byte) (s : StrCli.Locals) (a' : σ), s.stdineof = false ∧
      Relation.ReflTransGen Step a a' ∧ server o a' ∧
      prog a' = (.call (I := wire ι) (.put c.session.sockfd b) fun _ => .ret (.inl s)) ∧
      pipe a' = (pipe a).onFile [b] ∧ c.Sound (pipe a') := by
  obtain ⟨b, rest, hfile⟩ := h.exists_file hmore
  obtain ⟨s, hs, heof⟩ := h.client
  have hb : [b] <+: (pipe a).file := hfile ▸ ⟨rest, rfl⟩
  obtain ⟨s', heof', hreach⟩ := client_reads (ι := ι) (c := c) heof (List.cons_ne_nil b [])
    (Nat.succ_le_succ (Nat.zero_le _)) hb
  obtain ⟨a', ha', hserver, hprog, hpipe⟩ := E.client h.server (hs ▸ hreach)
  exact ⟨b, s', a', heof', ha', hserver, hprog, hpipe, hpipe ▸ h.sound.onFile h.shut h.out hb⟩

/-- The client sends a byte. -/
theorem send (h : Filling c prog pipe server o k j a)
    (hmore : k + o.toList.length + j < c.session.content.length) (hroom : k < c.up) :
    ∃ a', Relation.ReflTransGen Step a a' ∧ Filling c prog pipe server o (k + 1) j a' := by
  obtain ⟨b, s, a₁, heof, h₁, hserver, hprog, hpipe, hsound⟩ := h.read E hmore
  have hqueue : (pipe a₁).up.queue.length < c.up := by
    rw [hpipe]
    exact h.up.trans_lt hroom
  have hput : Interaction.Reach (clientWorld (ι := ι) c) (clientBody c) (prog a₁, pipe a₁)
      (.ret (.inl s), (pipe a₁).onSend b) := by
    have hnext : (clientWorld (ι := ι) c).next (pipe a₁) (.put c.session.sockfd b) () =
        (pipe a₁).onSend b := if_pos rfl
    rw [hprog, ← hnext]
    exact .single (.call (r := ()) fun _ => hqueue)
  obtain ⟨a₂, h₂, hserver₂, hprog₂, hpipe₂⟩ := E.client hserver hput
  have hout : (pipe a₁).out = [b] := hpipe ▸ rfl
  refine ⟨a₂, h₁.trans h₂, ⟨s, hprog₂, heof⟩, hserver₂, ?_, ?_, ?_, ?_, ?_, ?_, ?_⟩
  · rw [hpipe₂]
    exact hsound.onSend hout hqueue
  · rw [hpipe₂, Pipe.onSend, hout]
    rfl
  · rw [hpipe₂, hpipe]
    exact h.shut
  · rw [hpipe₂, hpipe, Pipe.onSend, Channel.queue_push, List.length_append, Pipe.onFile, h.up]
    rfl
  · rw [hpipe₂, hpipe]
    exact h.held
  · rw [hpipe₂, hpipe]
    exact h.down
  · rw [hpipe₂, hpipe]
    exact h.unread

/-- The server reads a byte and is to write it back. -/
theorem take (h : Filling c prog pipe server none (k + 1) j a) :
    ∃ b a', Relation.ReflTransGen Step a a' ∧ Filling c prog pipe server (some b) k j a' := by
  obtain ⟨b, rest, hqueue⟩ : ∃ b rest, (pipe a).up.queue = b :: rest :=
    List.exists_cons_of_length_pos (h.up ▸ Nat.succ_pos k)
  obtain ⟨a', ha', hserver, hprog, hpipe⟩ := E.take h.server hqueue
  obtain ⟨s, hs, heof⟩ := h.client
  refine ⟨b, a', ha', ⟨s, hprog.trans hs, heof⟩, hserver, ?_, ?_, ?_, ?_, ?_, ?_, ?_⟩
  · rw [hpipe]
    exact h.sound.onTake h.held (hqueue ▸ ⟨rest, rfl⟩)
  · rw [hpipe]
    exact h.out
  · rw [hpipe]
    exact h.shut
  · have hup := h.up
    rw [hqueue] at hup
    rw [hpipe, Pipe.onTake, Channel.pop, hqueue]
    exact Nat.succ.inj hup
  · rw [hpipe]
    rfl
  · rw [hpipe]
    exact h.down
  · rw [hpipe]
    exact h.unread

/-- The server writes a byte back. -/
theorem echo {b : Byte} (h : Filling c prog pipe server (some b) k j a) (hroom : j < c.down) :
    ∃ a', Relation.ReflTransGen Step a a' ∧ Filling c prog pipe server none k (j + 1) a' := by
  have hqueue : (pipe a).down.queue.length < c.down := h.down.trans_lt hroom
  obtain ⟨a', ha', hserver, hprog, hpipe⟩ := E.echo h.server hqueue
  obtain ⟨s, hs, heof⟩ := h.client
  refine ⟨a', ha', ⟨s, hprog.trans hs, heof⟩, hserver, ?_, ?_, ?_, ?_, ?_, ?_, ?_⟩
  · rw [hpipe]
    exact h.sound.onEcho h.held hqueue
  · rw [hpipe]
    exact h.out
  · rw [hpipe]
    exact h.shut
  · rw [hpipe]
    exact h.up
  · rw [hpipe, Pipe.onEcho, h.held]
    rfl
  · rw [hpipe, Pipe.onEcho, Channel.queue_push, List.length_append, h.down]
    rfl
  · rw [hpipe]
    exact h.unread

/-- The client sends as much as there is room for. -/
theorem exists_sent (h : Filling c prog pipe server o 0 j a) (hroom : k ≤ c.up)
    (hmore : k + o.toList.length + j ≤ c.session.content.length) :
    ∃ b, Relation.ReflTransGen Step a b ∧ Filling c prog pipe server o k j b := by
  induction k with
  | zero => exact ⟨a, .refl, h⟩
  | succ k ih =>
    obtain ⟨b, hb, hfill⟩ := ih (by omega) (by omega)
    obtain ⟨b', hb', hfill'⟩ := hfill.send E (by omega) hroom
    exact ⟨b', hb.trans hb', hfill'⟩

/-- Bytes are left where they can be read by the client. -/
theorem exists_echoed (h : Filling c prog pipe server none 0 0 a) (hroom : j ≤ c.down)
    (hmore : j ≤ c.session.content.length) :
    ∃ b, Relation.ReflTransGen Step a b ∧ Filling c prog pipe server none 0 j b := by
  induction j with
  | zero => exact ⟨a, .refl, h⟩
  | succ j ih =>
    obtain ⟨a₀, h₀, hfill⟩ := ih (by omega) (by omega)
    obtain ⟨a₁, h₁, hfill⟩ := hfill.send E (by simp; omega) c.up_pos
    obtain ⟨b, a₂, h₂, hfill⟩ := hfill.take E
    obtain ⟨a₃, h₃, hfill⟩ := hfill.echo E (by omega)
    exact ⟨a₃, ((h₀.trans h₁).trans h₂).trans h₃, hfill⟩

/-- **A long file can fill a connection.** -/
theorem exists_full (h : Filling c prog pipe server none 0 0 a)
    (hlong : c.up + c.down + 1 < c.session.content.length) :
    ∃ b, Relation.ReflTransGen Step a b ∧ Full c prog pipe server b := by
  have hup := c.up_pos
  -- all that comes back is left there,
  obtain ⟨a₀, h₀, hfill⟩ := h.exists_echoed E le_rfl (by omega)
  -- then what goes to the server is,
  obtain ⟨a₁, h₁, hfill⟩ := hfill.exists_sent E le_rfl (by simp; omega)
  obtain ⟨k, hk⟩ := Nat.exists_eq_succ_of_ne_zero hup.ne'
  rw [hk] at hfill
  -- and then each side takes a byte more
  obtain ⟨b, a₂, h₂, hfill⟩ := hfill.take E
  obtain ⟨a₃, h₃, hfill⟩ := hfill.send E (by simp; omega) (by omega)
  obtain ⟨b', s, a₄, -, h₄, hserver, hprog, hpipe, -⟩ := hfill.read E (by simp; omega)
  refine ⟨a₄, (((h₀.trans h₁).trans h₂).trans h₃).trans h₄, ⟨b', _, hprog⟩, ⟨b, hserver⟩, ?_, ?_,
    ?_⟩
  · rw [hpipe, Pipe.onFile, hfill.up]
    exact hk.le
  · rw [hpipe, Pipe.onFile, hfill.down]
  · rw [hpipe]
    exact hfill.unread

end Filling

end Filling

end FiniteBuffers

end UnixNetwork
