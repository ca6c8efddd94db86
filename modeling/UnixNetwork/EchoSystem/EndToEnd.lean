import UnixNetwork.EchoSystem

/-!
# End-to-end echo

What a client has received, at every moment of every run of the whole system, and that there are
runs to speak of. What one program can do while the others stand still, the system can do, so runs
of the system are put together from turns of the clients and rounds of the server, and whatever the
file of a client holds, there is one in which its `str_cli` returns.

## Main definitions

* `EchoSystem.State.BesideClient`, `EchoSystem.State.BesideServer`: what may be returned to one
  program while the others stand still
* `EchoSystem.Talking`: a client that has a connection, and all it has sent has come back

## Main results

* `Reach.clientTurn`, `Reach.serverRound`: what one program can do alone, the system can do
* `exists_returned`: a run in which a client returns
* `end_to_end_echo`: what a client has received
-/

namespace UnixNetwork

namespace EchoSystem

open Interaction

variable {ι : Type} {S : Setup ι} {st : State ι} {i : ι}

/-! ## One program while the others stand still -/

namespace State

/-- The system with another program and other connections of the server. -/
def withServer (st : State ι) (p : Prog posix (SelectServer.Locals ⊕ Empty)) (net : Net) :
    State ι := { st with server := p, net := net }

/-- The system when the next connection is that of client `i`. -/
def withOwner (st : State ι) (i : ι) : State ι :=
  { st with owner := Function.update st.owner st.net.count (some i) }

section WithServer

variable {p : Prog posix (SelectServer.Locals ⊕ Empty)} {net : Net}

@[simp] theorem net_withServer : (st.withServer p net).net = net := rfl

@[simp] theorem client_withServer : (st.withServer p net).client = st.client := rfl

@[simp] theorem view_withServer : (st.withServer p net).view = st.view := rfl

@[simp] theorem owner_withServer : (st.withServer p net).owner = st.owner := rfl

@[simp] theorem view_withOwner : (st.withOwner i).view = st.view := rfl

@[simp] theorem client_withOwner : (st.withOwner i).client = st.client := rfl

@[simp] theorem owner_withOwner :
    (st.withOwner i).owner = Function.update st.owner st.net.count (some i) := rfl

end WithServer

/-- What the server may be returned while the clients stand still, and it accepts nobody. -/
def BesideServer (S : Setup ι) (st : State ι) (net : Net) (c : Call) (r : Res c) : Prop :=
  (∀ fd, c ≠ .accept fd) ∧ (serverSide S).Allows net c r ∧
    (st.withServer st.server net).ServerAllows S c r

end State

section BesideServer

variable {k : ℕ} {fd : ℤ}

theorem besideServer_of_routine (net : Net) (c : Call) (r : Res c) (h : Routine c r) :
    st.BesideServer S net c r := by
  cases c with
  | write fd src mem =>
    obtain ⟨n, rfl, hn⟩ := h
    exact ⟨fun _ => Call.noConfusion, ⟨hn.le, trivial, n, rfl, hn⟩, trivial⟩
  | close | shutdownWr | printf =>
    exact ⟨fun _ => Call.noConfusion, ⟨trivial, trivial, trivial⟩, trivial⟩
  | select | accept | read | send | eprintf | time => exact h.elim

theorem besideServer_select {nfds : ℤ} {hr : InRange fd} {rset : FdSet} (hfd : fd ∈ rset)
    (hfrom : (fd = S.listenfd ∧ ∃ i, st.Waiting i) ∨
      ∃ k bs, st.net.holder fd = some k ∧ st.FromClient k bs) :
    st.BesideServer S st.net (.select nfds rset .zero) (.only fd hr) := by
  have hready : (Selected.only fd hr).Ready rset .zero := Selected.ready_only hr hfd
  refine ⟨fun _ => Call.noConfusion, ⟨.inl hready, trivial, trivial⟩, hready, ?_⟩
  intro x hx
  obtain rfl : x = fd := (FdSet.mem_single hr).mp hx
  exact hfrom

theorem besideServer_read {bs : List Byte} (hlen : bs.length ≤ 1024)
    (hk : st.net.holder fd = some k) (hfrom : st.FromClient k bs) :
    st.BesideServer S st.net (.read fd (Span.whole 1024)) (.ok bs) :=
  ⟨fun _ => Call.noConfusion, ⟨Int.ofNat_le.mpr hlen, trivial, trivial⟩, bs, k, rfl, hk, hfrom⟩

end BesideServer

variable [DecidableEq ι]

namespace State

/-- The system with another program and another view of client `i`. -/
def withClient (st : State ι) (i : ι) (p : Prog posix (StrCli.Locals ⊕ StrCli.Exit))
    (v : StrCli.View) : State ι :=
  { st with client := Function.update st.client i p, view := Function.update st.view i v }

variable {p q : Prog posix (StrCli.Locals ⊕ StrCli.Exit)} {v w : StrCli.View}

@[simp] theorem client_withClient : (st.withClient i p v).client i = p := by
  simp [withClient]

@[simp] theorem view_withClient : (st.withClient i p v).view i = v := by
  simp [withClient]

@[simp] theorem net_withClient : (st.withClient i p v).net = st.net := rfl

@[simp] theorem withClient_withClient :
    (st.withClient i p v).withClient i q w = st.withClient i q w := by
  simp [withClient]

@[simp] theorem withClient_self : st.withClient i (st.client i) (st.view i) = st := by
  simp [withClient]

/-- What client `i` may be returned while the other programs stand still. -/
def BesideClient (S : Setup ι) (st : State ι) (i : ι) (v : StrCli.View) (c : Call) (r : Res c) :
    Prop :=
  (S.session i).Allows v c r ∧ (st.withClient i (st.client i) v).ClientAllows S i c r

end State

/-- A call of client `i` that returns while the other programs stand still. -/
theorem step_client {c : Call} {k : Res c → Prog posix (StrCli.Locals ⊕ StrCli.Exit)}
    {v : StrCli.View} {r : Res c} (h : st.BesideClient S i v c r) :
    Step S (st.withClient i (.call c k) v)
      (st.withClient i (k r) (v.next (S.session i) c r)) := by
  have hstep : Step S (st.withClient i (.call c k) v)
      ((st.withClient i (.call c k) v).withClient i (k r)
        (((st.withClient i (.call c k) v).view i).next (S.session i) c r)) :=
    .client State.client_withClient (by rw [State.view_withClient]; exact h.1) h.2
  rwa [State.view_withClient, State.withClient_withClient] at hstep

/-- What client `i` can do alone, the system can do. -/
theorem reach_of_client {p : Prog posix (StrCli.Locals ⊕ StrCli.Exit)} {v v' : StrCli.View}
    {x : StrCli.Locals ⊕ StrCli.Exit}
    (h : Executes ⟨st.BesideClient S i, StrCli.View.next (S.session i)⟩ p v x v') :
    Relation.ReflTransGen (Step S) (st.withClient i p v) (st.withClient i (.ret x) v') :=
  h.simulate (fun a => st.withClient i a.1 a.2) fun _ _ _ _ hr => step_client hr

/-- A call of the server that returns while the clients stand still. -/
theorem step_server {c : Call} {k : Res c → Prog posix (SelectServer.Locals ⊕ Empty)} {net : Net}
    {r : Res c} (h : st.BesideServer S net c r) :
    Step S (st.withServer (.call c k) net) (st.withServer (k r) (net.next c r)) :=
  .server rfl h.1 h.2.1 h.2.2

/-- What the server can do alone, the system can do. -/
theorem reach_of_server {p : Prog posix (SelectServer.Locals ⊕ Empty)} {net net' : Net}
    {x : SelectServer.Locals ⊕ Empty} (h : Executes ⟨st.BesideServer S, Net.next⟩ p net x net') :
    Relation.ReflTransGen (Step S) (st.withServer p net) (st.withServer (.ret x) net') :=
  h.simulate (fun a => st.withServer a.1 a.2) fun _ _ _ _ hr => step_server hr

/-- A turn of client `i`. -/
theorem Reach.clientTurn (h : Reach S st) {s : StrCli.Locals} (hp : st.client i = .ret (.inl s))
    {x : StrCli.Locals ⊕ StrCli.Exit} {v : StrCli.View}
    (he : Executes ⟨st.BesideClient S i, StrCli.View.next (S.session i)⟩
      (StrCli.body (S.session i).fp (S.session i).sockfd s) (st.view i) x v) :
    Reach S (st.withClient i (.ret x) v) := by
  have hstep : Step S st (st.withClient i
      (StrCli.body (S.session i).fp (S.session i).sockfd s) (st.view i)) := by
    rw [State.withClient, Function.update_eq_self]
    exact .clientAgain hp
  exact (h.tail hstep).trans (reach_of_client he)

/-- A round of the server in which it accepts nobody. -/
theorem Reach.serverRound (h : Reach S st) {s : SelectServer.Locals}
    (hp : st.server = .ret (.inl s)) {x : SelectServer.Locals ⊕ Empty} {net : Net}
    (he : Executes ⟨st.BesideServer S, Net.next⟩ (SelectServer.body S.listenfd s) st.net x net) :
    Reach S (st.withServer (.ret x) net) :=
  (h.tail (Step.serverAgain hp)).trans (reach_of_server he)

/-! ## Turns of a client -/

section Turns

variable {s : StrCli.Locals}

theorem besideClient_of_routine (v : StrCli.View) (c : Call) (r : Res c) (h : Routine c r) :
    st.BesideClient S i v c r := by
  refine ⟨StrCli.Session.allows_of_routine h, ?_⟩
  cases c with
  | write | close | shutdownWr | printf => trivial
  | select | accept | read | send | eprintf | time => exact h.elim

theorem besideClient_select {v : StrCli.View} {nfds fd : ℤ} {hr : InRange fd} {rset : FdSet}
    (hfd : fd ∈ rset)
    (hfrom : fd = (S.session i).sockfd → ∃ bs, (st.withClient i (st.client i) v).FromServer i bs) :
    st.BesideClient S i v (.select nfds rset .zero) (.only fd hr) := by
  have hready : (Selected.only fd hr).Ready rset .zero := Selected.ready_only hr hfd
  refine ⟨hready.rset_sub, hready, ?_⟩
  intro x hx
  obtain rfl : x = fd := (FdSet.mem_single hr).mp hx
  exact hfrom

theorem besideClient_read_file {bs : List Byte} (hlen : bs.length ≤ 1024)
    (hpre : (st.view i).fpRead ++ bs <+: (S.session i).content)
    (hend : bs = [] → (st.view i).fpRead = (S.session i).content) :
    st.BesideClient S i (st.view i) (.read (S.session i).fp (Span.whole 1024)) (.ok bs) :=
  ⟨⟨bs, rfl, Int.ofNat_le.mpr hlen, fun _ => ⟨hpre, hend⟩⟩,
    fun he => absurd he (S.session i).ne⟩

theorem besideClient_read_socket {bs : List Byte} (hlen : bs.length ≤ 1024)
    (hfrom : st.FromServer i bs) :
    st.BesideClient S i (st.view i) (.read (S.session i).sockfd (Span.whole 1024)) (.ok bs) :=
  ⟨⟨bs, rfl, Int.ofNat_le.mpr hlen, fun he => absurd he (S.session i).ne.symm⟩,
    fun _ => ⟨bs, rfl, by rwa [State.withClient_self]⟩⟩

variable (h : Reach S st) (hfp : InRange (S.session i).fp) (hsock : InRange (S.session i).sockfd)
  (hp : st.client i = .ret (.inl s))

include h hfp hsock hp

/-- At the head of its loop the client is in its invariant. -/
theorem Reach.clientInv : StrCli.Inv (S.session i) s (st.view i) := by
  have hreach := h.client i
  rw [hp] at hreach
  exact StrCli.reach_wp hfp hsock hreach

/-- Client `i` may send the next bytes of its file. -/
theorem Reach.upload (heof : s.stdineof = false) {bs : List Byte} (hbs : bs ≠ [])
    (hlen : bs.length ≤ 1024) (hpre : (st.view i).fpRead ++ bs <+: (S.session i).content) :
    ∃ s', s'.stdineof = false ∧ Reach S (st.withClient i (.ret (.inl s')) { st.view i with
      fpRead := (st.view i).fpRead ++ bs
      sent := (st.view i).sent ++ bs }) := by
  have hinv := h.clientInv hfp hsock hp
  obtain ⟨s', heof', he⟩ := StrCli.executes_upload besideClient_of_routine hinv hfp hsock heof
    (fun nfds rset hfd => besideClient_select hfd fun hs => absurd hs (S.session i).ne) hbs hlen
    (besideClient_read_file hlen hpre fun hnil => absurd hnil hbs)
  exact ⟨s', heof', h.clientTurn hp he⟩

/-- Client `i` may find the end of its file. -/
theorem Reach.fileEnd (heof : s.stdineof = false)
    (hall : (st.view i).fpRead = (S.session i).content) :
    ∃ s', s'.stdineof = true ∧ Reach S (st.withClient i (.ret (.inl s')) { st.view i with
      ends := (st.view i).ends ++ [.file]
      shutdowns := (st.view i).shutdowns + 1 }) := by
  have hinv := h.clientInv hfp hsock hp
  have hpre : (st.view i).fpRead ++ [] <+: (S.session i).content := by
    rw [List.append_nil]
    exact hinv.reading
  obtain ⟨s', heof', he⟩ := StrCli.executes_fileEnd besideClient_of_routine hinv hfp hsock heof
    (fun nfds rset hfd => besideClient_select hfd fun hs => absurd hs (S.session i).ne)
    (besideClient_read_file (by decide) hpre fun _ => hall)
  exact ⟨s', heof', h.clientTurn hp he⟩

/-- Client `i` may receive what the server has written. -/
theorem Reach.download {bs : List Byte} (hbs : bs ≠ []) (hlen : bs.length ≤ 1024)
    (hfrom : st.FromServer i bs) :
    ∃ s', s'.stdineof = s.stdineof ∧ Reach S (st.withClient i (.ret (.inl s')) { st.view i with
      recvd := (st.view i).recvd ++ bs
      shown := (st.view i).shown ++ bs }) := by
  have hinv := h.clientInv hfp hsock hp
  obtain ⟨s', heof', he⟩ := StrCli.executes_download besideClient_of_routine hinv hfp hsock
    (fun nfds rset hfd => besideClient_select hfd fun _ =>
      ⟨bs, by rwa [State.withClient_self]⟩) hbs hlen (besideClient_read_socket hlen hfrom)
  exact ⟨s', heof', h.clientTurn hp he⟩

/-- Client `i` may find the end of its socket, and returns if its file has ended. -/
theorem Reach.socketEnd (heof : s.stdineof = true) (hfrom : st.FromServer i []) :
    ∃ v, Reach S (st.withClient i (.ret (.inr .returned)) v) := by
  have hinv := h.clientInv hfp hsock hp
  obtain ⟨v, he⟩ := StrCli.executes_socketEnd besideClient_of_routine hinv hfp hsock
    (fun nfds rset hfd => besideClient_select hfd fun _ =>
      ⟨[], by rwa [State.withClient_self]⟩) (besideClient_read_socket (by decide) hfrom)
  rw [if_pos heof] at he
  exact ⟨v, h.clientTurn hp he⟩

end Turns

/-! ## Rounds of the server -/

section Rounds

variable {s : SelectServer.Locals} {k : ℕ} {fd : ℤ} (h : Reach S st) (hl : InRange S.listenfd)
  (hp : st.server = .ret (.inl s))

include h hl hp

/-- At the head of its loop the server is in its invariant. -/
theorem Reach.serverInv : SelectServer.Inv S.listenfd s st.net := by
  have hreach := h.server
  rw [hp] at hreach
  exact SelectServer.reach_wp (fun _ _ hr => hr.1) hl hreach

/-- The server may write back what a client has sent. -/
theorem Reach.echo (hk : st.net.holder fd = some k)
    (hc : (st.net.conn k).closes = 0) {bs : List Byte} (hbs : bs ≠ []) (hlen : bs.length ≤ 1024)
    (hfrom : st.FromClient k bs) : ∃ s', Reach S (st.withServer (.ret (.inl s'))
      ((st.net.on fd fun c => c.onRead (.ok bs)).on fd fun c => c.onWrite bs (.ok bs.length))) := by
  have hinv := h.serverInv hl hp
  have hh : s.Holds fd := (hinv.tracks fd).mpr (hinv.wellFormed.open_iff.mpr ⟨k, hk, hc⟩)
  have hmem : fd ∈ s.allset := (hinv.consistent.mem_allset fd).mpr (.inr hh)
  obtain ⟨s', he⟩ := SelectServer.executes_echo besideServer_of_routine hinv.consistent hh
    (hinv.consistent.inRange_of_holds hh)
    (besideServer_select hmem (.inr ⟨k, bs, hk, hfrom⟩)) hbs hlen (besideServer_read hlen hk hfrom)
  exact ⟨s', h.serverRound hp he⟩

/-- The server may find the end of a connection, and closes it. -/
theorem Reach.close (hk : st.net.holder fd = some k)
    (hc : (st.net.conn k).closes = 0) (hfrom : st.FromClient k []) :
    ∃ s', Reach S (st.withServer (.ret (.inl s'))
      ((st.net.on fd fun c => c.onRead (.ok [])).on fd Conn.onClose)) := by
  have hinv := h.serverInv hl hp
  have hh : s.Holds fd := (hinv.tracks fd).mpr (hinv.wellFormed.open_iff.mpr ⟨k, hk, hc⟩)
  have hmem : fd ∈ s.allset := (hinv.consistent.mem_allset fd).mpr (.inr hh)
  obtain ⟨s', he⟩ := SelectServer.executes_close besideServer_of_routine hinv.consistent hh
    (hinv.consistent.inRange_of_holds hh)
    (besideServer_select hmem (.inr ⟨k, [], hk, hfrom⟩)) (besideServer_read (by decide) hk hfrom)
  exact ⟨s', h.serverRound hp he⟩

/-- The server may accept the connection of a client that has none. -/
theorem Reach.accept (hi : st.Waiting i) {fd : ℕ} (hfd : InRange fd)
    (hne : (fd : ℤ) ≠ S.listenfd) (hopen : ¬ st.net.Open fd) :
    ∃ s', Reach S ((st.withOwner i).withServer (.ret (.inl s')) (st.net.add fd)) := by
  have hcons := (h.serverInv hl hp).consistent
  have hbegin : Reach S (st.withServer (SelectServer.body S.listenfd s) st.net) :=
    h.tail (.serverAgain hp)
  have hsel : st.BesideServer S st.net (.select (s.maxfd + 1) s.allset .zero)
      (.only S.listenfd hl) := besideServer_select hcons.listen_mem (.inl ⟨rfl, i, hi⟩)
  set rest : Res (.accept S.listenfd) → Prog posix (SelectServer.Locals ⊕ Empty) := fun r =>
    SelectServer.install (countValue r) s >>= fun s' => .ret (.inl s')
  have hcall : (SelectServer.handle S.listenfd s (.only S.listenfd hl) >>= fun s' =>
      (.ret (.inl s') : Prog posix (SelectServer.Locals ⊕ Empty))) =
        .call (.accept S.listenfd) rest := by
    rw [SelectServer.handle_only]
    rfl
  have hready : Reach S (st.withServer (.call (.accept S.listenfd) rest) st.net) := by
    have hstep : Step S (st.withServer (SelectServer.body S.listenfd s) st.net) (st.withServer
        (SelectServer.handle S.listenfd s (.only S.listenfd hl) >>= fun s' => .ret (.inl s'))
        st.net) := step_server hsel
    rw [hcall] at hstep
    exact hbegin.tail hstep
  have haccept : Reach S ((st.withOwner i).withServer (rest (.ok fd)) (st.net.add fd)) :=
    hready.tail (.accept rfl ⟨⟨hne, hopen⟩, ⟨fd, rfl, hfd⟩, trivial⟩ hi)
  have hpr : ∀ net t, (st.withOwner i).BesideServer S net (.printf t) () := fun net t =>
    besideServer_of_routine net (.printf t) () trivial
  obtain ⟨s', he⟩ : ∃ s', Executes ⟨(st.withOwner i).BesideServer S, Net.next⟩
      (SelectServer.install fd s) (st.net.add fd) s' (st.net.add fd) :=
    SelectServer.executes_install hpr hcons hfd
  exact ⟨s', haccept.trans (reach_of_server (executes_bind.mpr ⟨s', _, he, rfl, rfl⟩))⟩

end Rounds

/-! ## A run in which a client returns -/

/-- Client `i` has a connection, its file has not ended, and it has sent `bs` and received it. -/
structure Talking (S : Setup ι) (i : ι) (bs : List Byte) (st : State ι) : Prop where
  /-- The state is reached. -/
  reach : Reach S st
  /-- The client is at the head of its loop, and its file has not ended. -/
  client : ∃ s, st.client i = .ret (.inl s) ∧ s.stdineof = false
  /-- The server is at the head of its loop. -/
  server : ∃ s, st.server = .ret (.inl s)
  /-- The client has sent these bytes. -/
  sent : (st.view i).sent = bs
  /-- It has received them. -/
  recvd : (st.view i).recvd = bs
  /-- It has a connection on which the server has read them and written them back. -/
  conn : ∃ fd k, st.net.holder fd = some k ∧ st.owner k = some i ∧ (st.net.conn k).closes = 0 ∧
    (st.net.conn k).rd = bs ∧ (st.net.conn k).wr = bs

/-- The first connection may be that of client `i`. -/
theorem exists_talking (hl : InRange S.listenfd) (i : ι) : ∃ st, Talking S i [] st := by
  obtain ⟨fd, hfd, hne⟩ : ∃ fd : ℕ, InRange fd ∧ (fd : ℤ) ≠ S.listenfd := by
    by_cases h0 : S.listenfd = 0
    · exact ⟨1, by decide, by omega⟩
    · exact ⟨0, by decide, by omega⟩
  set s : StrCli.Locals := ⟨false, .zero, S.clientBuf i⟩
  have hclient : Reach S ((initial S).withClient i (.ret (.inl s)) .start) := by
    have hstart : (initial S).withClient i (StrCli.strCli (S.clientBuf i)) .start = initial S :=
      State.withClient_self
    have hstep : Step S ((initial S).withClient i (StrCli.strCli (S.clientBuf i)) .start)
        ((initial S).withClient i (.ret (.inl s)) .start) :=
      step_client (besideClient_of_routine _ (.printf _) () trivial)
    rw [hstart] at hstep
    exact .single hstep
  have hopen : ¬ Net.start.Open fd := fun ⟨k, hk, _⟩ => absurd hk.1 (Nat.not_lt_zero _)
  obtain ⟨t, h⟩ := hclient.accept hl (SelectServer.main_eq_start hl S.serverBuf)
    (i := i) (fun k hk => by cases hk) hfd hne hopen
  refine ⟨_, h, ⟨s, by simp, rfl⟩, ⟨t, rfl⟩, ?_, ?_, fd, 0, ?_, ?_, ?_⟩
  · simp [StrCli.View.start]
  · simp [StrCli.View.start]
  · simp [Net.add, initial, Net.start]
  · simp [initial, Net.start]
  · simp [Net.add, initial, Net.start, Conn.fresh]

namespace Talking

variable {bs : List Byte} (hl : InRange S.listenfd) (hfp : InRange (S.session i).fp)
  (hsock : InRange (S.session i).sockfd)

include hl hfp hsock

/-- The next byte of the file may go to the server and come back. -/
theorem byte (h : Talking S i bs st) {b : Byte} (hpre : bs ++ [b] <+: (S.session i).content) :
    ∃ st', Talking S i (bs ++ [b]) st' := by
  obtain ⟨s, hp, heof⟩ := h.client
  obtain ⟨t, ht⟩ := h.server
  obtain ⟨fd, k, hk, ho, hc, hrd, hwr⟩ := h.conn
  have hne : [b] ≠ [] := List.cons_ne_nil b []
  have hlen : [b].length ≤ 1024 := by simp
  have hread : (st.view i).fpRead = bs := (h.reach.clientInv hfp hsock hp).sent.symm.trans h.sent
  obtain ⟨s₁, heof₁, h₁⟩ := h.reach.upload hfp hsock hp heof hne hlen (by rwa [hread])
  obtain ⟨t', h₂⟩ := h₁.echo hl ht hk hc hne hlen
    ⟨i, ho, by simp [h.sent, hrd], fun hnil => absurd hnil hne⟩
  obtain ⟨s₂, heof₂, h₃⟩ := h₂.download hfp hsock (s := s₁) (by simp) hne hlen
    ⟨k, ho, by simp [h.recvd, hwr, hk, Net.conn_on, Conn.onWrite], fun hnil => absurd hnil hne⟩
  refine ⟨_, h₃, ⟨s₂, by simp, heof₂.trans heof₁⟩, ⟨t', rfl⟩, ?_, ?_, fd, k, ?_, ho, ?_, ?_, ?_⟩
  · simp [h.sent]
  · simp [h.recvd]
  · simpa using hk
  · simp [hk, Net.conn_on, hc]
  · simp [hk, Net.conn_on, hrd]
  · simp [hk, Net.conn_on, hwr, Conn.onWrite]

/-- When the file ends the server closes the connection, and the client returns. -/
theorem finish (h : Talking S i (S.session i).content st) :
    ∃ st', Reach S st' ∧ st'.client i = .ret (.inr .returned) := by
  obtain ⟨s, hp, heof⟩ := h.client
  obtain ⟨t, ht⟩ := h.server
  obtain ⟨fd, k, hk, ho, hc, hrd, hwr⟩ := h.conn
  have hread : (st.view i).fpRead = (S.session i).content :=
    (h.reach.clientInv hfp hsock hp).sent.symm.trans h.sent
  obtain ⟨s₁, heof₁, h₁⟩ := h.reach.fileEnd hfp hsock hp heof hread
  obtain ⟨t', h₂⟩ := h₁.close hl ht hk hc
    ⟨i, ho, by simp [h.sent, hrd], fun _ => ⟨.inl (by simp), by simp [h.sent, hrd]⟩⟩
  obtain ⟨v, h₃⟩ := h₂.socketEnd hfp hsock (s := s₁) (by simp) heof₁
    ⟨k, ho, by simp [h.recvd, hwr, hk, Net.conn_on, Conn.onClose],
      fun _ => by simp [h.recvd, hwr, hk, Net.conn_on, Conn.onClose]⟩
  exact ⟨_, h₃, State.client_withClient⟩

end Talking

/-- **A client can return.** Whatever its file holds, and whatever the other clients are, there is a
run in which the whole file goes to the server and comes back and `str_cli` returns. -/
theorem exists_returned (hl : InRange S.listenfd) (hfp : InRange (S.session i).fp)
    (hsock : InRange (S.session i).sockfd) :
    ∃ st, Reach S st ∧ st.client i = .ret (.inr .returned) := by
  have htalk : ∀ bs, bs <+: (S.session i).content → ∃ st, Talking S i bs st := by
    intro bs
    induction bs using List.reverseRecOn with
    | nil => exact fun _ => exists_talking hl i
    | append_singleton bs b ih =>
      intro hpre
      obtain ⟨st, h⟩ := ih ((List.prefix_append bs [b]).trans hpre)
      exact h.byte hl hfp hsock hpre
  obtain ⟨st, h⟩ := htalk _ (List.prefix_refl _)
  exact h.finish hl hfp hsock

/-! ## What a client has received -/

/-- **End-to-end echo.** At every moment of every run of the system, and for every client: what it
has received is a beginning of what it has read from its file, its socket has not ended before its
file, so it never takes the `exit(1)` branch, and when its `str_cli` has returned it has received
the whole content of its file. -/
theorem end_to_end_echo (h : Reach S st) (i : ι) :
    (st.view i).recvd <+: (st.view i).fpRead ∧
    (st.view i).ends ≠ [.socket] ∧ st.client i ≠ .ret (.inr .exit1) ∧
    (st.client i = .ret (.inr .returned) → (st.view i).recvd = (S.session i).content) := by
  have hnet : st.net.Sound := SelectServer.reach_sound (fun _ _ hr => hr.1) h.server
  have hdel : st.net.Delivered := h.server.world (fun _ _ _ hw hr => hw.next hr.2.2)
    Net.delivered_start
  have hview : (st.view i).Sound (S.session i) := StrCli.reach_sound (h.client i)
  have hlink : Linked st := reach_linked h
  have hends : (st.view i).ends ≠ [.socket] := by
    intro he
    have hfile := hlink.file_mem hnet (i := i) (by simp [he])
    simp [he] at hfile
  refine ⟨?_, hends, fun hp => ?_, fun hp => ?_⟩
  · rcases hlink.downstream i with he | ⟨k, hk, hpre⟩
    · rw [he]
      exact List.nil_prefix
    · calc (st.view i).recvd <+: (st.net.conn k).wr := hpre
        _ = (st.net.conn k).offered := hdel k
        _ <+: (st.net.conn k).rd := hnet.trails k
        _ <+: (st.view i).sent := hlink.upstream k i hk
        _ <+: (st.view i).fpRead := hview.trails
  · exact hends (StrCli.reach_done (hp ▸ h.client i)).ends
  · have hdone := StrCli.reach_done (hp ▸ h.client i)
    obtain ⟨k, hk, hc, hr⟩ := hlink.ended i (by simp [hdone.ends])
    have heof : (st.net.conn k).eof = true :=
      (hnet.closed.ended k hc).resolve_right (by simp [hlink.healthy k])
    obtain ⟨hfile, hall⟩ := hlink.drained k i hk heof
    calc (st.view i).recvd = (st.net.conn k).wr := hr
      _ = (st.net.conn k).offered := hdel k
      _ = (st.net.conn k).rd := hnet.settled k hc
      _ = (st.view i).sent := hall
      _ = (S.session i).content := hview.whole hfile

/-- A server on descriptor 3 and a client on descriptor 4 whose file, the standard input, holds two
bytes. -/
def twoBytes : Setup Unit where
  listenfd := 3
  serverBuf := Buf.zeros 1024
  session _ := ⟨0, 4, by decide, [104, 105]⟩
  clientBuf _ := Buf.zeros 1024

theorem end_to_end_echo_two_bytes : ∃ st, Reach twoBytes st ∧
    st.client () = .ret (.inr .returned) ∧ (st.view ()).recvd = [104, 105] := by
  obtain ⟨st, h, hret⟩ : ∃ st, Reach twoBytes st ∧ st.client () = .ret (.inr .returned) :=
    exists_returned (by decide) (by decide) (by decide)
  exact ⟨st, h, hret, (end_to_end_echo h ()).2.2.2 hret⟩

end EchoSystem

end UnixNetwork
