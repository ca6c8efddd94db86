import UnixNetwork.SelectServer.Invariant
import UnixNetwork.StrCli.HalfClose

/-!
# The clients and the select server together

Any number of clients, each in its own call of `str_cli`, and the select server, connected by
reliable byte streams. A step of the system is a call of one of the programs that returns, or one of
them going round its loop, so the steps of all programs interleave freely.

What a program sees of the others is what its reads return. A read returns some of the bytes that
have been sent and not yet read, or the end of the stream when the other side has shut down or
closed and everything has been read. Which connection belongs to which client is decided when the
server accepts it: it may be any client that has no connection yet.

Seen from the server a run of the system is a run of the server, and seen from a client it is a run
of `str_cli` (`Reach.server`, `Reach.client`), so what was proved about each of them alone holds
here. `Linked` is the rest: it ties the two ends of each stream to each other.

## Main definitions

* `EchoSystem.Setup`, `EchoSystem.State`: the programs with their arguments, and the whole system
* `EchoSystem.State.FromClient`, `EchoSystem.State.FromServer`: what the two streams of a
  connection may deliver
* `EchoSystem.Step`, `EchoSystem.Reach`: one step of one program, and any number of them
* `EchoSystem.Linked`: the invariant over both ends of all connections

## Main results

* `Reach.server`, `Reach.client`: a run of the system is a run of each program
* `Linked.step`, `reach_linked`: a step, and a run, keeps the ends of all connections tied to each
  other
-/

namespace UnixNetwork

namespace EchoSystem

open Interaction

/-- The arguments of the programs; `ι` are the clients. -/
structure Setup (ι : Type) where
  /-- The listening descriptor of the server. -/
  listenfd : ℤ
  /-- The buffer of the server, which is not initialised. -/
  serverBuf : Buf 1024
  /-- The call of `str_cli` of each client. -/
  session : ι → StrCli.Session
  /-- The buffer of each client, which is not initialised. -/
  clientBuf : ι → Buf 1024

/-- The state of all programs and what they have done. -/
structure State (ι : Type) where
  /-- What is left of the server's round. -/
  server : Prog posix (SelectServer.Locals ⊕ Empty)
  /-- The connections, as the server has treated them. -/
  net : Net
  /-- What is left of each client's turn. -/
  client : ι → Prog posix (StrCli.Locals ⊕ StrCli.Exit)
  /-- What each client has done. -/
  view : ι → StrCli.View
  /-- The client at the other end of a connection. -/
  owner : ℕ → Option ι

variable {ι : Type}

/-- All programs at their beginning. -/
def initial (S : Setup ι) : State ι where
  server := SelectServer.main S.listenfd S.serverBuf
  net := Net.start
  client i := StrCli.strCli (S.clientBuf i)
  view _ := StrCli.View.start
  owner _ := none

/-! ## The streams -/

namespace State

/-- Client `i` sends no more: it has shut down its sending side, or it has ended. -/
def Shut (st : State ι) (i : ι) : Prop :=
  0 < (st.view i).shutdowns ∨ ∃ e, st.client i = .ret (.inr e)

/-- A read of the server on connection `k` may return `bs`. -/
def FromClient (st : State ι) (k : ℕ) (bs : List Byte) : Prop :=
  ∃ i, st.owner k = some i ∧ (st.net.conn k).rd ++ bs <+: (st.view i).sent ∧
    (bs = [] → st.Shut i ∧ (st.net.conn k).rd = (st.view i).sent)

/-- A read of client `i` on its socket may return `bs`. -/
def FromServer (st : State ι) (i : ι) (bs : List Byte) : Prop :=
  ∃ k, st.owner k = some i ∧ (st.view i).recvd ++ bs <+: (st.net.conn k).wr ∧
    (bs = [] → 0 < (st.net.conn k).closes ∧ (st.view i).recvd = (st.net.conn k).wr)

/-- Client `i` has no connection yet. -/
def Waiting (st : State ι) (i : ι) : Prop := ∀ k, st.owner k ≠ some i

/-- What the rest of the system adds to the results of a call of the server: a descriptor that is
reported ready is, and a read returns what its connection delivers. -/
def ServerAllows (S : Setup ι) (st : State ι) : (c : Call) → Res c → Prop
  | .select _ rset wset, sel => Selected.Ready sel rset wset ∧ ∀ fd ∈ sel.rset,
      (fd = S.listenfd ∧ ∃ i, st.Waiting i) ∨
        ∃ k bs, st.net.holder fd = some k ∧ st.FromClient k bs
  | .read fd _, r => ∃ bs k, r = .ok bs ∧ st.net.holder fd = some k ∧ st.FromClient k bs
  | _, _ => True

/-- What the rest of the system adds to the results of a call of client `i`. -/
def ClientAllows (S : Setup ι) (st : State ι) (i : ι) : (c : Call) → Res c → Prop
  | .select _ rset wset, sel => Selected.Ready sel rset wset ∧ ∀ fd ∈ sel.rset,
      fd = (S.session i).sockfd → ∃ bs, st.FromServer i bs
  | .read fd _, r => fd = (S.session i).sockfd → ∃ bs, r = .ok bs ∧ st.FromServer i bs
  | _, _ => True

end State

/-! ## The two ends of each connection -/

variable {S : Setup ι} {st : State ι}

/-- What ties the two ends of each connection to each other. -/
structure Linked (st : State ι) : Prop where
  /-- Only accepted connections have a client. -/
  owned : ∀ k i, st.owner k = some i → k < st.net.count
  /-- The server has read a beginning of what the client has sent. -/
  upstream : ∀ k i, st.owner k = some i → (st.net.conn k).rd <+: (st.view i).sent
  /-- At the end of the connection the file of the client has ended and all that was sent has been
  read. -/
  drained : ∀ k i, st.owner k = some i → (st.net.conn k).eof = true →
    .file ∈ (st.view i).ends ∧ (st.net.conn k).rd = (st.view i).sent
  /-- No read of the server has failed. -/
  healthy : ∀ k, (st.net.conn k).failed = false
  /-- A client has received a beginning of what the server has written to its connection. -/
  downstream : ∀ i, (st.view i).recvd = [] ∨
    ∃ k, st.owner k = some i ∧ (st.view i).recvd <+: (st.net.conn k).wr
  /-- Where the socket has ended the server has closed and all that was written has been
  received. -/
  ended : ∀ i, .socket ∈ (st.view i).ends → ∃ k, st.owner k = some i ∧
    0 < (st.net.conn k).closes ∧ (st.view i).recvd = (st.net.conn k).wr

theorem linked_initial (S : Setup ι) : Linked (initial S) where
  owned _ _ h := by cases h
  upstream _ _ h := by cases h
  drained _ _ h := by cases h
  healthy _ := rfl
  downstream _ := .inl rfl
  ended _ h := by cases h

/-- A connection has changed in a way that the other end need not know of. -/
structure Unnoticed (c c' : Conn) : Prop where
  /-- Nothing more has been read. -/
  rd : c'.rd = c.rd
  /-- The end has not been read. -/
  eof : c'.eof = c.eof
  /-- No read has failed. -/
  failed : c'.failed = c.failed
  /-- More may have been written. -/
  wr : c.wr <+: c'.wr
  /-- It stays closed, and then nothing has been written. -/
  closed : 0 < c.closes → 0 < c'.closes ∧ c'.wr = c.wr

theorem Unnoticed.refl (c : Conn) : Unnoticed c c :=
  ⟨rfl, rfl, rfl, List.prefix_refl _, fun h => ⟨h, rfl⟩⟩

theorem unnoticed_onClose (c : Conn) : Unnoticed c c.onClose :=
  ⟨rfl, rfl, rfl, List.prefix_refl _, fun _ => ⟨Nat.succ_pos _, rfl⟩⟩

theorem unnoticed_onWrite {c : Conn} (hc : c.closes = 0) (bs : List Byte) (r : Except Errno ℕ) :
    Unnoticed c (c.onWrite bs r) where
  rd := c.rd_onWrite bs r
  eof := c.eof_onWrite bs r
  failed := c.failed_onWrite bs r
  wr := by
    cases r with
    | ok n => exact List.prefix_append _ _
    | error e => exact List.prefix_refl _
  closed h := absurd hc (Nat.ne_of_gt h)

namespace Linked

/-- A client whose socket has ended had found the end of its file. -/
theorem file_mem (h : Linked st) (hnet : st.net.Sound) {i : ι}
    (hs : .socket ∈ (st.view i).ends) : .file ∈ (st.view i).ends := by
  obtain ⟨k, hk, hc, -⟩ := h.ended i hs
  rcases hnet.closed.ended k hc with heof | hfail
  · exact (h.drained k i hk heof).1
  · rw [h.healthy k] at hfail
    cases hfail

/-- Changes of connections that the clients need not know of. -/
theorem of_unnoticed (h : Linked st) (p : Prog posix (SelectServer.Locals ⊕ Empty)) {net : Net}
    (hcount : net.count = st.net.count) (hconn : ∀ k, Unnoticed (st.net.conn k) (net.conn k)) :
    Linked { st with server := p, net := net } where
  owned k i hk := hcount ▸ h.owned k i hk
  upstream k i hk := (hconn k).rd ▸ h.upstream k i hk
  drained k i hk he := (hconn k).rd ▸ h.drained k i hk ((hconn k).eof ▸ he)
  healthy k := (hconn k).failed ▸ h.healthy k
  downstream i := (h.downstream i).imp_right fun ⟨k, hk, hpre⟩ =>
    ⟨k, hk, hpre.trans (hconn k).wr⟩
  ended i hi := by
    obtain ⟨k, hk, hc, he⟩ := h.ended i hi
    obtain ⟨hc', hwr⟩ := (hconn k).closed hc
    exact ⟨k, hk, hc', he.trans hwr.symm⟩

/-- A read of the server. -/
theorem read (h : Linked st) (p : Prog posix (SelectServer.Locals ⊕ Empty))
    (hshut : ∀ i, st.Shut i → .file ∈ (st.view i).ends) {fd : ℤ} {k : ℕ} {bs : List Byte}
    (hk : st.net.holder fd = some k) (hbs : st.FromClient k bs) :
    Linked { st with server := p, net := st.net.on fd fun c => c.onRead (.ok bs) } := by
  obtain ⟨j, hj, hpre, hend⟩ := hbs
  -- only connection `k` has changed, and only by the read
  have hconn : ∀ m, ((st.net.on fd fun c => c.onRead (.ok bs)).conn m) =
      if m = k then (st.net.conn k).onRead (.ok bs) else st.net.conn m := by
    intro m
    rw [Net.conn_on_of_holder hk, Function.update_apply]
  have hwr : ∀ m, ((st.net.on fd fun c => c.onRead (.ok bs)).conn m).wr = (st.net.conn m).wr :=
    Net.conn_on_congr Conn.wr fun c => c.wr_onRead _
  have hcl : ∀ m, ((st.net.on fd fun c => c.onRead (.ok bs)).conn m).closes =
      (st.net.conn m).closes :=
    Net.conn_on_congr Conn.closes fun c => c.closes_onRead _
  constructor
  · intro m i hm
    rw [Net.count_on]
    exact h.owned m i hm
  · intro m i hm
    rw [hconn]
    split
    · rename_i he
      subst he
      obtain rfl : j = i := Option.some.inj (hj.symm.trans hm)
      rw [Conn.rd_onRead]
      exact hpre
    · exact h.upstream m i hm
  · intro m i hm he
    rw [hconn] at he ⊢
    split at he
    · rename_i hmk
      subst hmk
      obtain rfl : j = i := Option.some.inj (hj.symm.trans hm)
      rw [if_pos rfl, Conn.rd_onRead, readBytes_ok]
      rcases bs with _ | ⟨b, bs⟩
      · obtain ⟨hsh, hall⟩ := hend rfl
        exact ⟨hshut j hsh, by rw [List.append_nil, hall]⟩
      · -- the end had been read before, so there was nothing left to read
        obtain ⟨hfile, hall⟩ := h.drained m j hm he
        rw [hall] at hpre
        have hlen := hpre.length_le
        rw [List.length_append, List.length_cons] at hlen
        omega
    · rename_i hmk
      rw [if_neg hmk]
      exact h.drained m i hm he
  · refine Net.forall_conn_on (P := fun c => c.failed = false) h.healthy fd fun c hc => ?_
    rcases bs with _ | _ <;> exact hc
  · intro i
    exact (h.downstream i).imp_right fun ⟨m, hm, hp⟩ => ⟨m, hm, (hwr m).symm ▸ hp⟩
  · intro i hi
    obtain ⟨m, hm, hc, he⟩ := h.ended i hi
    exact ⟨m, hm, (hcl m).symm ▸ hc, he.trans (hwr m).symm⟩

end Linked

/-- A new connection of client `i`. -/
theorem Linked.accept (h : Linked st) (p : Prog posix (SelectServer.Locals ⊕ Empty)) (fd : ℤ)
    (i : ι) : Linked { st with
      server := p
      net := st.net.add fd
      owner := Function.update st.owner st.net.count (some i) } := by
  have hold : ∀ k j, st.owner k = some j →
      Function.update st.owner st.net.count (some i) k = some j ∧
        (st.net.add fd).conn k = st.net.conn k := by
    intro k j hk
    have hne : k ≠ st.net.count := (h.owned k j hk).ne
    exact ⟨by rw [Function.update_of_ne hne, hk], Net.conn_add_of_ne hne fd⟩
  have hcase : ∀ k j, Function.update st.owner st.net.count (some i) k = some j →
      st.owner k = some j ∧ (st.net.add fd).conn k = st.net.conn k ∨
        k = st.net.count ∧ (st.net.add fd).conn k = Conn.fresh fd := by
    intro k j hk
    by_cases he : k = st.net.count
    · exact .inr ⟨he, by simp [Net.add, he]⟩
    · rw [Function.update_of_ne he] at hk
      exact .inl ⟨hk, (hold k j hk).2⟩
  constructor
  · intro k j hk
    rcases hcase k j hk with ⟨hk, -⟩ | ⟨rfl, -⟩
    · exact Nat.lt_succ_of_lt (h.owned k j hk)
    · exact Nat.lt_succ_self _
  · intro k j hk
    rcases hcase k j hk with ⟨hk, he⟩ | ⟨-, he⟩
    · exact he ▸ h.upstream k j hk
    · exact he ▸ List.nil_prefix
  · intro k j hk heof
    rcases hcase k j hk with ⟨hk, he⟩ | ⟨-, he⟩
    · exact he ▸ h.drained k j hk (he ▸ heof)
    · rw [he] at heof
      cases heof
  · exact Net.forall_conn_add (P := fun c => c.failed = false) h.healthy rfl
  · intro j
    refine (h.downstream j).imp_right ?_
    rintro ⟨k, hk, hp⟩
    obtain ⟨ho, he⟩ := hold k j hk
    exact ⟨k, ho, he ▸ hp⟩
  · intro j hj
    obtain ⟨k, hk, hc, hr⟩ := h.ended j hj
    obtain ⟨ho, he⟩ := hold k j hk
    exact ⟨k, ho, he ▸ hc, he ▸ hr⟩

/-! ## Steps -/

/-- The world of the server in the system. -/
def serverSide (S : Setup ι) : World posix Net :=
  serverWorld S.listenfd fun c r => AcceptsInRange c r ∧ WritesComplete c r

variable [DecidableEq ι]

/-- One step of one of the programs. -/
inductive Step (S : Setup ι) : State ι → State ι → Prop where
  /-- A call of the server returns, other than an `accept`. -/
  | server {st : State ι} {c : Call} {k : Res c → Prog posix (SelectServer.Locals ⊕ Empty)}
      {r : Res c} (hp : st.server = .call c k) (hc : ∀ fd, c ≠ .accept fd)
      (hr : (serverSide S).Allows st.net c r) (hs : st.ServerAllows S c r) :
      Step S st { st with server := k r, net := st.net.next c r }
  /-- The server accepts the connection of client `i`. -/
  | accept {st : State ι} {l : ℤ}
      {k : Res (.accept l) → Prog posix (SelectServer.Locals ⊕ Empty)} {fd : ℕ} {i : ι}
      (hp : st.server = .call (.accept l) k)
      (hr : (serverSide S).Allows st.net (.accept l) (.ok fd)) (hi : st.Waiting i) :
      Step S st { st with
        server := k (.ok fd)
        net := st.net.add fd
        owner := Function.update st.owner st.net.count (some i) }
  /-- The server begins a round. -/
  | serverAgain {st : State ι} {s : SelectServer.Locals} (hp : st.server = .ret (.inl s)) :
      Step S st { st with server := SelectServer.body S.listenfd s }
  /-- A call of client `i` returns. -/
  | client {st : State ι} {i : ι} {c : Call}
      {k : Res c → Prog posix (StrCli.Locals ⊕ StrCli.Exit)} {r : Res c}
      (hp : st.client i = .call c k) (hr : (S.session i).world.Allows (st.view i) c r)
      (hs : st.ClientAllows S i c r) :
      Step S st { st with
        client := Function.update st.client i (k r)
        view := Function.update st.view i ((st.view i).next (S.session i) c r) }
  /-- Client `i` begins a turn of its loop. -/
  | clientAgain {st : State ι} {i : ι} {s : StrCli.Locals} (hp : st.client i = .ret (.inl s)) :
      Step S st { st with
        client := Function.update st.client i
          (StrCli.body (S.session i).fp (S.session i).sockfd s) }

/-- `st` is a state of a run of the system. -/
def Reach (S : Setup ι) (st : State ι) : Prop := Relation.ReflTransGen (Step S) (initial S) st

/-! ## A run of the system is a run of each program -/

/-- The server's part of a run of the system is a run of the server. -/
theorem Reach.server (h : Reach S st) :
    Interaction.Reach (serverSide S) (SelectServer.body S.listenfd)
      (SelectServer.main S.listenfd S.serverBuf, Net.start) (st.server, st.net) := by
  induction h with
  | refl => exact .refl
  | tail _ hs ih =>
    cases hs with
    | server hp _ hr _ =>
      rw [hp] at ih
      exact ih.tail (.call hr)
    | accept hp hr _ =>
      rw [hp] at ih
      exact ih.tail (.call hr)
    | serverAgain hp =>
      rw [hp] at ih
      exact ih.tail .again
    | client | clientAgain => exact ih

/-- The part of client `i` in a run of the system is a run of its call of `str_cli`. -/
theorem Reach.client (h : Reach S st) (i : ι) :
    Interaction.Reach (S.session i).world
      (StrCli.body (S.session i).fp (S.session i).sockfd)
      (StrCli.strCli (S.clientBuf i), StrCli.View.start) (st.client i, st.view i) := by
  induction h with
  | refl => exact .refl
  | tail _ hs ih =>
    cases hs with
    | server | accept | serverAgain => exact ih
    | @client j c k r hp hr _ =>
      by_cases hij : i = j
      · subst hij
        simp only [Function.update_self]
        rw [hp] at ih
        exact ih.tail (.call hr)
      · simpa only [Function.update_of_ne hij] using ih
    | @clientAgain j s hp =>
      by_cases hij : i = j
      · subst hij
        simp only [Function.update_self]
        rw [hp] at ih
        exact ih.tail .again
      · simpa only [Function.update_of_ne hij] using ih

/-- Something has happened at client `i`. -/
theorem Linked.of_view (h : Linked st) {i : ι} (p : Prog posix (StrCli.Locals ⊕ StrCli.Exit))
    {v : StrCli.View} (hsent : (st.view i).sent <+: v.sent)
    (hfile : .file ∈ (st.view i).ends → .file ∈ v.ends ∧ v.sent = (st.view i).sent)
    (hdown : v.recvd = (st.view i).recvd ∨
      ∃ k, st.owner k = some i ∧ v.recvd <+: (st.net.conn k).wr)
    (hend : .socket ∈ v.ends → .socket ∈ (st.view i).ends ∧ v.recvd = (st.view i).recvd ∨
      ∃ k, st.owner k = some i ∧ 0 < (st.net.conn k).closes ∧ v.recvd = (st.net.conn k).wr) :
    Linked { st with
      client := Function.update st.client i p
      view := Function.update st.view i v } := by
  constructor
  · exact h.owned
  · intro k j hk
    by_cases hj : j = i
    · subst hj
      simpa using (h.upstream k j hk).trans hsent
    · simpa [Function.update_of_ne hj] using h.upstream k j hk
  · intro k j hk heof
    by_cases hj : j = i
    · subst hj
      obtain ⟨hf, hr⟩ := h.drained k j hk heof
      obtain ⟨hf', hs⟩ := hfile hf
      simpa [hs] using And.intro hf' hr
    · simpa [Function.update_of_ne hj] using h.drained k j hk heof
  · exact h.healthy
  · intro j
    by_cases hj : j = i
    · subst hj
      simp only [Function.update_self]
      rcases hdown with he | hd
      · exact he ▸ h.downstream j
      · exact .inr hd
    · simpa [Function.update_of_ne hj] using h.downstream j
  · intro j hs
    by_cases hj : j = i
    · subst hj
      simp only [Function.update_self] at hs ⊢
      rcases hend hs with ⟨hs', he⟩ | hd
      · exact he ▸ h.ended j hs'
      · exact hd
    · simp only [Function.update_of_ne hj] at hs ⊢
      exact h.ended j hs

/-- A call of client `i` has returned. -/
theorem Linked.of_clientCall (h : Linked st) {i : ι} {c : Call} {r : Res c}
    (p : Prog posix (StrCli.Locals ⊕ StrCli.Exit)) (hok : (S.session i).CallOk (st.view i) c)
    (hs : st.ClientAllows S i c r) :
    Linked { st with
      client := Function.update st.client i p
      view := Function.update st.view i ((st.view i).next (S.session i) c r) } := by
  have hsame : ∀ v : StrCli.View, v.sent = (st.view i).sent → v.recvd = (st.view i).recvd →
      (.file ∈ (st.view i).ends → .file ∈ v.ends) →
      (.socket ∈ v.ends → .socket ∈ (st.view i).ends) →
      Linked { st with
        client := Function.update st.client i p
        view := Function.update st.view i v } := by
    intro v hsent hrecvd hfile hsock
    exact h.of_view p (hsent ▸ List.prefix_refl _) (fun hf => ⟨hfile hf, hsent⟩) (.inl hrecvd)
      fun hm => .inl ⟨hsock hm, hrecvd⟩
  cases c with
  | select | printf => exact hsame _ rfl rfl id id
  | read fd dst =>
    obtain ⟨hopen, -, rfl | ⟨rfl, -⟩⟩ := hok
    · obtain ⟨bs, rfl, k, hk, hpre, hend⟩ := hs rfl
      rw [StrCli.next_read_socket, readBytes_ok, readValue_ok]
      refine h.of_view p (List.prefix_refl _) (fun hf => ⟨?_, rfl⟩) (.inr ⟨k, hk, hpre⟩)
        fun hm => .inr ?_
      · exact StrCli.mem_ends_iff.mpr (.inl hf)
      · rcases bs with _ | ⟨b, bs⟩
        · obtain ⟨hc, hr⟩ := hend rfl
          exact ⟨k, hk, hc, by simp [hr]⟩
        · exact absurd hm hopen
    · rw [StrCli.next_read_file]
      refine hsame _ rfl rfl (fun hf => StrCli.mem_ends_iff.mpr (.inl hf)) fun hm => ?_
      exact (StrCli.mem_ends_iff.mp hm).resolve_right nofun
  | write fd src mem =>
    obtain ⟨-, -, rfl | ⟨rfl, hfile⟩⟩ := hok
    · rw [StrCli.next_write_file]
      exact hsame _ rfl rfl id id
    · rw [StrCli.next_write_socket]
      exact h.of_view p (List.prefix_append _ _) (fun hf => absurd hf hfile) (.inl rfl)
        fun hm => .inl ⟨hm, rfl⟩
  | shutdownWr fd =>
    obtain ⟨-, rfl, -⟩ := hok
    rw [StrCli.next_shutdownWr]
    exact hsame _ rfl rfl id id
  | accept | send | close | eprintf | time => exact hok.elim

/-! ## Every moment of every run -/

/-- A step keeps the ends of all connections tied to each other. -/
theorem Linked.step (h : Linked st) (hreach : Reach S st) {st' : State ι} (hs : Step S st st') :
    Linked st' := by
  have hnet : st.net.Sound := SelectServer.reach_sound (fun _ _ hr => hr.1) hreach.server
  have hwf : st.net.WellFormed := hreach.server.world (fun _ _ _ hw hr => hw.next hr.1)
    Net.wellFormed_start
  have hshut : ∀ i, st.Shut i → .file ∈ (st.view i).ends := by
    rintro i (hpos | ⟨e, he⟩)
    · exact (StrCli.reach_sound (hreach.client i)).shut hpos
    · have hdone := StrCli.reach_done (he ▸ hreach.client i)
      cases e with
      | returned => simp [hdone.ends]
      | exit1 => exact h.file_mem hnet (by simp [hdone.ends])
  cases hs with
  | @server c k r hp hc hr hs =>
    have hok : CallOk st.net c := SelectServer.reach_callOk (fun _ _ hr => hr.1)
      (hp ▸ hreach.server)
    have hwrite : ∀ fd bs (r : Except Errno ℕ), st.net.Open fd → ∀ m,
        Unnoticed (st.net.conn m) ((st.net.on fd fun c => c.onWrite bs r).conn m) := by
      intro fd bs r hopen m
      rw [Net.conn_on]
      split
      · rename_i hm
        exact unnoticed_onWrite (hwf.closes_of_open hopen hm) bs r
      · exact .refl _
    cases c with
    | accept fd => exact absurd rfl (hc fd)
    | read fd dst =>
      obtain ⟨bs, m, rfl, hm, hbs⟩ := hs
      exact h.read _ hshut hm hbs
    | write fd src mem =>
      exact h.of_unnoticed _ (Net.count_on _ _ _) (hwrite fd _ r (hok.target fd rfl))
    | send fd src mem =>
      exact h.of_unnoticed _ (Net.count_on _ _ _) (hwrite fd _ r (hok.target fd rfl))
    | close fd =>
      refine h.of_unnoticed _ (Net.count_on _ _ _) ?_
      intro m
      rw [Net.next_close, Net.conn_on]
      split
      · exact unnoticed_onClose _
      · exact .refl _
    | select | shutdownWr | printf | eprintf | time => exact h.of_unnoticed _ rfl fun m => .refl _
  | accept hp hr hi => exact h.accept _ _ _
  | serverAgain hp => exact h.of_unnoticed _ rfl fun m => .refl _
  | @client i c k r hp hr hs =>
    exact h.of_clientCall _ (StrCli.reach_callOk (hp ▸ hreach.client i)) hs
  | clientAgain hp =>
    exact ⟨h.owned, h.upstream, h.drained, h.healthy, h.downstream, h.ended⟩

/-- **The ends of all connections stay tied to each other.** -/
theorem reach_linked (h : Reach S st) : Linked st := by
  induction h with
  | refl => exact linked_initial S
  | tail hr hs ih => exact ih.step hr hs

end EchoSystem

end UnixNetwork
