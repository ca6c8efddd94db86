import UnixNetwork.SelectServer.Invariant
import UnixNetwork.ScanServer
import UnixNetwork.StrCli.Relay

/-!
# Short writes

A write may accept less than it is handed. The select server, the server that scans descriptors and
`str_cli` hand their system calls everything they have read and drop the result, so what a short
write has left over is never offered again: it is missing from the stream if anything follows it on
the same connection, and only then.

What is handed over is always the beginning of what has been read, whatever the calls return: reads
and writes may fail, `select` may fail and `accept` may return any descriptor that is not open.

## Main definitions

* `Net.CaughtUp`, `Net.Waits`: all that was handed over for a descriptor has been accepted, and a
  call that is made only then
* `Net.Unbroken`: what has been accepted on a connection is the beginning of what it was handed

## Main results

* `SelectServer.reach_echoed`, `ScanServer.reach_echoed`: both servers hand back all they read
* `no_gap`: where no write follows a short one, the streams have no gap
-/

namespace UnixNetwork

open Interaction

namespace Net

variable {net : Net}

/-- All that was handed over for the connection on `fd` has been accepted. -/
def CaughtUp (net : Net) (fd : ℤ) : Prop :=
  ∀ k, net.holder fd = some k → (net.conn k).wr = (net.conn k).offered

/-- A write is made only if none to the same connection has been short. -/
def Waits (net : Net) : Call → Prop
  | .write fd _ _ => net.CaughtUp fd
  | .send fd _ _ => net.CaughtUp fd
  | _ => True

/-- What has been accepted on a connection is the beginning of what it was handed. -/
def Unbroken (net : Net) : Prop := ∀ k, (net.conn k).wr <+: (net.conn k).offered

theorem Unbroken.onWrite (h : net.Unbroken) {fd : ℤ} (hfd : net.CaughtUp fd) (bs : List Byte)
    (r : Except Errno ℕ) : (net.on fd fun c => c.onWrite bs r).Unbroken := by
  intro k
  rw [conn_on]
  split
  · rename_i hk
    cases r with
    | ok n =>
      show (net.conn k).wr ++ bs.take n <+: (net.conn k).offered ++ bs
      rw [hfd k hk]
      exact (List.prefix_append_right_inj _).mpr (List.take_prefix n bs)
    | error e => exact (h k).trans (List.prefix_append _ _)
  · exact h k

/-- **A write that waits leaves no gap.** -/
theorem Unbroken.next (h : net.Unbroken) {c : Call} (hc : net.Waits c) (r : Res c) :
    (net.next c r).Unbroken := by
  have hon : ∀ (fd : ℤ) (f : Conn → Conn),
      (∀ c, (f c).wr = c.wr ∧ (f c).offered = c.offered) → (net.on fd f).Unbroken := by
    intro fd f hf
    refine forall_conn_on (P := fun c => c.wr <+: c.offered) h fd fun c hc => ?_
    rw [(hf c).1, (hf c).2]
    exact hc
  cases c with
  | accept fd =>
    cases r with
    | ok fd' => exact forall_conn_add (P := fun c => c.wr <+: c.offered) h (List.prefix_refl _)
    | error e => exact h
  | read fd dst => exact hon fd _ fun c => ⟨c.wr_onRead r, c.offered_onRead r⟩
  | write fd src mem => exact h.onWrite hc _ r
  | send fd src mem => exact h.onWrite hc _ r
  | close fd => exact hon fd _ fun c => ⟨rfl, rfl⟩
  | select | shutdownWr | printf | eprintf | time => exact h

end Net

/-- What a read has returned fits into the array it was to be stored in. -/
theorem Net.length_readBytes_le_of_plausible {listenfd fd : ℤ} {net : Net} {n : ℕ}
    {r : Except Errno (List Byte)} (h : net.Plausible listenfd (.read fd (Span.whole n)) r) :
    (readBytes r).length ≤ n := by
  cases r with
  | ok bs => exact Int.ofNat_le.mp h
  | error e => exact Nat.zero_le _

variable {listenfd : ℤ} {Extra : (c : Call) → Res c → Prop} {net : Net}

/-! ## The select server -/

namespace SelectServer

theorem wp_serve_echoed (h : net.Echoed) (i : ℕ) (sockfd : ℤ) (s : Locals) :
    wp (serverWorld listenfd Extra) .none (serve i sockfd s) (fun _ => Net.Echoed) net := by
  rw [serve, read_bind, wp_call]
  refine ⟨trivial, fun r hr => ?_⟩
  show wp _ _ (ite _ _ _) _ (net.on sockfd fun c => c.onRead r)
  split
  · rename_i hn
    have hbs : readBytes r = [] := by
      have := length_readBytes_le r
      exact List.eq_nil_of_length_eq_zero (by omega)
    refine ⟨trivial, fun _ _ => (silent_fdClr _ _).wp_bind trivial fun allset => ?_⟩
    refine (silent_store _ _ _).wp_bind trivial fun client => ?_
    exact (h.onRead sockfd hbs).on sockfd fun c hc => hc
  · refine ⟨trivial, fun r' _ => ?_⟩
    show ((net.on sockfd fun c => c.onRead r).on sockfd fun c => c.onWrite
      ((Span.first 1024 (readValue r)).bytes (s.buf.put 0 (readBytes r)).toList) r').Echoed
    rw [Streams.bytes_first_readValue (Net.length_readBytes_le_of_plausible hr.1)]
    exact h.onRead_onWrite sockfd r r'

theorem wp_scan_echoed (rset : FdSet) (left i : ℕ) (nready : ℤ) (s : Locals) {net : Net}
    (h : net.Echoed) :
    wp (serverWorld listenfd Extra) .none (scan rset left i nready s) (fun _ => Net.Echoed)
      net := by
  induction left generalizing i nready s net with
  | zero => exact h
  | succ left ih =>
    rw [scan]
    refine (silent_load _ _).wp_bind trivial fun sockfd => ?_
    split
    · exact ih _ _ _ h
    · refine (silent_fdIsSet _ _).wp_bind trivial fun ready => ?_
      cases ready with
      | false => exact ih _ _ _ h
      | true =>
        rw [if_pos rfl, wp_bind]
        refine wp_mono ?_ (wp_serve_echoed h i sockfd s)
        intro s' net' h'
        split
        · exact h'
        · exact ih _ _ _ h'

theorem silent_findSlot (connfd : ℤ) (client : Vector ℤ fdSetsize) (left i : ℕ) :
    (findSlot connfd client left i).Silent := by
  induction left generalizing i with
  | zero => trivial
  | succ left ih =>
    rw [findSlot]
    refine (silent_load _ _).bind fun c => ?_
    split
    · exact (silent_store _ _ _).bind fun client' => trivial
    · exact ih _

theorem wp_install_echoed (h : net.Echoed) (connfd : ℤ) (s : Locals) :
    wp (serverWorld listenfd Extra) .none (install connfd s) (fun _ => Net.Echoed) net := by
  have hwatch : ∀ (i : ℕ) (client : Vector ℤ fdSetsize),
      wp (serverWorld listenfd Extra) .none (fdSet connfd s.allset >>= fun allset =>
        (.ret { s with
          client := client
          allset := allset
          maxfd := if connfd > s.maxfd then connfd else s.maxfd
          maxi := if (i : ℤ) > s.maxi then i else s.maxi } : Prog posix Locals))
        (fun _ => Net.Echoed) net := by
    intro i client
    exact (silent_fdSet _ _).wp_bind trivial fun allset => h
  rw [install]
  refine (silent_findSlot _ _ _ _).wp_bind trivial ?_
  rintro ⟨i, client⟩
  dsimp only
  split
  · exact ⟨trivial, fun _ _ => hwatch i client⟩
  · exact hwatch i client

theorem wp_acceptClient_echoed (h : net.Echoed) (s : Locals) :
    wp (serverWorld listenfd Extra) .none (acceptClient listenfd s) (fun _ => Net.Echoed) net := by
  rw [acceptClient, accept_bind, wp_call]
  refine ⟨trivial, fun r _ => ?_⟩
  refine wp_install_echoed ?_ _ _
  cases r with
  | ok fd => exact h.add fd
  | error e => exact h

/-- Whatever the calls return, a turn hands back what it reads. -/
theorem wp_body_echoed (h : net.Echoed) (s : Locals) :
    wp (serverWorld listenfd Extra) .none (body listenfd s)
      (Sum.elim (fun _ => Net.Echoed) fun _ _ => False) net := by
  rw [body, wp_bind, round, select_bind, wp_call]
  refine ⟨trivial, fun sel _ => ?_⟩
  show wp _ _ (handle listenfd s sel) (fun _ => Net.Echoed) net
  rw [handle]
  refine (silent_fdIsSet _ _).wp_bind trivial fun ready => ?_
  cases ready with
  | false => exact wp_scan_echoed _ _ _ _ _ h
  | true =>
    rw [if_pos rfl, wp_bind]
    refine wp_mono ?_ (wp_acceptClient_echoed h s)
    intro s' net' h'
    split
    · exact h'
    · exact wp_scan_echoed _ _ _ _ _ h'

/-- **At every head of the loop everything read has been handed back.** -/
theorem reach_echoed {buf : Buf 1024} {s : Locals}
    (h : Reach (serverWorld listenfd Extra) (body listenfd) (main listenfd buf, Net.start)
      (.ret (.inl s), net)) : net.Echoed := by
  refine Reach.inv (fun s net h => wp_body_echoed h s) h ?_
  exact (silent_fdSet _ _).wp_bind trivial fun allset _ => rfl

end SelectServer

/-! ## The server that scans descriptors -/

namespace ScanServer

theorem wp_serve_echoed (h : net.Echoed) (i : ℤ) (s : Locals) :
    wp (serverWorld listenfd Extra) .none (serve i s) (fun _ => Net.Echoed) net := by
  rw [serve, read_bind, wp_call]
  refine ⟨trivial, fun r hr => ?_⟩
  show wp _ _ (ite _ _ _) _ (net.on i fun c => c.onRead r)
  split
  · rename_i hn
    refine ⟨trivial, fun _ _ => ⟨trivial, fun _ _ => ?_⟩⟩
    refine (silent_fdClr _ _).wp_bind trivial fun readFds => ?_
    exact (h.onRead i (readBytes_of_readValue hn)).on i fun c hc => hc
  · -- the NUL behind what was read is stored out of bounds if the read failed or filled the buffer
    cases r with
    | error e => trivial
    | ok bs =>
      have hlen : bs.length ≤ 1024 := Net.length_readBytes_le_of_plausible hr.1
      rcases hlen.lt_or_eq with hlt | heq
      · rw [readValue_ok, readBytes_ok, storeAt_of_lt hlt]
        refine ⟨trivial, fun _ _ => ⟨trivial, fun r' _ => ?_⟩⟩
        show ((net.on i fun c => c.onRead (.ok bs)).on i fun c => c.onWrite
          ((Span.first 1024 bs.length).bytes
            (((Buf.zeros 1024).put 0 bs).set bs.length 0 hlt).toList) r').Echoed
        rw [Span.bytes_first_set hlt, Span.bytes_first_put hlen]
        exact h.onRead_onWrite i (.ok bs) r'
      · rw [readValue_ok, storeAt, if_pos (Int.natCast_nonneg _), store, dif_neg (by simp [heq])]
        trivial

theorem wp_scan_echoed (tempFds : FdSet) (left : ℕ) (i : ℤ) (s : Locals) {net : Net}
    (h : net.Echoed) :
    wp (serverWorld listenfd Extra) .none (scan tempFds left i s) (fun _ => Net.Echoed) net := by
  induction left generalizing i s net with
  | zero => exact h
  | succ left ih =>
    rw [scan]
    refine (silent_fdIsSet _ _).wp_bind trivial fun ready => ?_
    cases ready with
    | false => exact ih _ _ h
    | true =>
      rw [if_pos rfl, wp_bind]
      exact wp_mono (fun s' net' h' => ih _ _ h') (wp_serve_echoed h i s)

theorem wp_acceptClient_echoed (h : net.Echoed) (s : Locals) :
    wp (serverWorld listenfd Extra) .none (acceptClient listenfd s) (fun _ => Net.Echoed) net := by
  rw [acceptClient, accept_bind, wp_call]
  refine ⟨trivial, fun r _ => ?_⟩
  refine (silent_fdSet _ _).wp_bind trivial fun readFds => ?_
  cases r with
  | ok fd => exact h.add fd
  | error e => exact h

/-- Whatever the calls return, a turn hands back what it reads. -/
theorem wp_body_echoed (h : net.Echoed) (s : Locals) :
    wp (serverWorld listenfd Extra) .none (body listenfd s)
      (Sum.elim (fun _ => Net.Echoed) fun _ _ => False) net := by
  rw [body, wp_bind, round, select_bind, wp_call]
  refine ⟨trivial, fun sel _ => ?_⟩
  show wp _ _ (handle listenfd s sel) (fun _ => Net.Echoed) net
  rw [handle]
  split
  · refine ⟨trivial, fun _ _ => (silent_fdIsSet _ _).wp_bind trivial fun ready => ?_⟩
    cases ready with
    | false => exact wp_scan_echoed _ _ _ _ h
    | true =>
      rw [if_pos rfl, wp_bind]
      exact wp_mono (fun s' net' h' => wp_scan_echoed _ _ _ _ h') (wp_acceptClient_echoed h s)
  · exact h

/-- **At every head of the loop everything read has been handed back.** -/
theorem reach_echoed {s : Locals}
    (h : Reach (serverWorld listenfd Extra) (body listenfd) (main listenfd, Net.start)
      (.ret (.inl s), net)) : net.Echoed := by
  refine Reach.inv (fun s net h => wp_body_echoed h s) h ?_
  exact (silent_fdSet _ _).wp_bind trivial fun readFds _ => rfl

end ScanServer

/-! ## Runs without a write after a short one -/

/-- The runs of a server in which no write follows a short one on the same connection. -/
def patientWorld (listenfd : ℤ) : World posix Net :=
  (serverWorld listenfd fun _ _ => True).when Net.Waits

theorem reach_unbroken {σ ρ : Type} {body : σ → Prog posix (σ ⊕ ρ)} {p q : Prog posix (σ ⊕ ρ)}
    (h : Reach (patientWorld listenfd) body (p, Net.start) (q, net)) : net.Unbroken := by
  refine Reach.world (fun net c r hw hr => ?_) h fun _ => List.prefix_refl _
  exact hw.next hr.2 r

section Runs

variable {C : Net → Call → Prop} {s : SelectServer.Locals}

/-- A run of the select server on descriptor 3 in which every call is made where `C` allows it. -/
abbrev ServerRun (C : Net → Call → Prop) :
    Prog posix (SelectServer.Locals ⊕ Empty) × Net → Prop :=
  Reach ((serverWorld 3 AcceptsInRange).when C) (SelectServer.body 3)
    (SelectServer.main 3 (Vector.replicate 1024 0), Net.start)

/-- The first client gets descriptor 4. -/
theorem serverRun_accept (hC : ∀ net c, (c.span = none ∨ ∃ fd dst, c = .read fd dst) → C net c) :
    ∃ s, ServerRun C (.ret (.inl s), Net.start.add (4 : ℕ)) := by
  have hl : InRange 3 := by decide
  have hfd : InRange (4 : ℕ) := by decide
  have hcons := SelectServer.consistent_start hl (Vector.replicate 1024 0)
  have hopen : ¬ Net.start.Open 4 := fun ⟨k, hk, _⟩ => absurd hk.1 (Nat.not_lt_zero _)
  obtain ⟨s, he⟩ := SelectServer.executes_accept
    (A := ((serverWorld 3 AcceptsInRange).when C).Allows)
    (fun _ t => ⟨⟨trivial, trivial⟩, hC _ _ (.inl rfl)⟩) hcons
    ⟨⟨.inl (Selected.ready_only hl hcons.listen_mem), trivial⟩, hC _ _ (.inl rfl)⟩
    hfd ⟨⟨⟨by decide, hopen⟩, 4, rfl, by decide⟩, hC _ _ (.inl rfl)⟩
  refine ⟨s, ?_⟩
  rw [ServerRun, SelectServer.main_eq_start hl]
  exact .head .again (Executes.reach (W := (serverWorld 3 AcceptsInRange).when C) he)

/-- The client on descriptor 4 sends some bytes, and `n` of them are accepted. -/
theorem serverRun_serve (hC : ∀ net c, (c.span = none ∨ ∃ fd dst, c = .read fd dst) → C net c)
    (h : ServerRun C (.ret (.inl s), net)) (hopen : net.Open 4) (bs : List Byte) (n : ℕ)
    (hbs : bs ≠ []) (hlen : bs.length ≤ 1024) (hn : n ≤ bs.length)
    (hwrite : ∀ src mem, C (net.on 4 fun c => c.onRead (.ok bs)) (.write 4 src mem)) :
    ((net.on 4 fun c => c.onRead (.ok bs)).on 4 fun c => c.onWrite bs (.ok n)).Open 4 ∧
      ∃ s, ServerRun C (.ret (.inl s),
        (net.on 4 fun c => c.onRead (.ok bs)).on 4 fun c => c.onWrite bs (.ok n)) := by
  have hr : InRange 4 := by decide
  have hinv : SelectServer.Inv 3 s net :=
    SelectServer.reach_wp (fun _ _ hr => hr) (by decide) h.of_when
  have hholds : s.Holds 4 := (hinv.tracks 4).mpr hopen
  have hmem : 4 ∈ s.allset := (hinv.consistent.mem_allset 4).mpr (.inr hholds)
  obtain ⟨s', he⟩ := SelectServer.executes_serve
    (A := ((serverWorld 3 AcceptsInRange).when C).Allows) hinv.consistent hholds hr
    ⟨⟨.inl (Selected.ready_only hr hmem), trivial⟩, hC _ _ (.inl rfl)⟩ hbs hlen
    ⟨⟨Int.ofNat_le.mpr hlen, trivial⟩, hC _ _ (.inr ⟨_, _, rfl⟩)⟩ (n := n)
    ⟨⟨Int.ofNat_le.mpr hn, trivial⟩, hwrite _ _⟩
  refine ⟨?_, s', h.trans (.head .again
    (Executes.reach (W := (serverWorld 3 AcceptsInRange).when C) he))⟩
  rw [Net.open_on_iff (fun c => c.fd_onWrite _ _) fun c => c.closes_onWrite _ _,
    Net.open_on_iff (fun c => c.fd_onRead _) fun c => c.closes_onRead _]
  exact hopen

end Runs

/-- **No gap.** In every run in which no write follows a short one on the same connection: at every
head of the loop of either server, what has been accepted on a connection is the beginning of what
has been read from it; and at every moment of `str_cli`, what has been accepted on the socket is the
beginning of what has been read from the file. -/
theorem no_gap (listenfd : ℕ) :
    (∀ buf s net, Reach (patientWorld listenfd) (SelectServer.body listenfd)
      (SelectServer.main listenfd buf, Net.start) (.ret (.inl s), net) →
      ∀ k, (net.conn k).wr <+: (net.conn k).rd) ∧
    (∀ s net, Reach (patientWorld listenfd) (ScanServer.body listenfd)
      (ScanServer.main listenfd, Net.start) (.ret (.inl s), net) →
      ∀ k, (net.conn k).wr <+: (net.conn k).rd) ∧
    ∀ fp sockfd buf p w, Reach (Streams.world.when (Streams.Waits sockfd)) (StrCli.body fp sockfd)
      (StrCli.strCli buf, Streams.start) (p, w) → w.wr sockfd <+: w.rd fp := by
  refine ⟨fun buf s net h k => ?_, fun s net h k => ?_, fun fp sockfd buf p w h => ?_⟩
  · have hech : net.Echoed := SelectServer.reach_echoed h.of_when
    exact hech k ▸ reach_unbroken h k
  · have hech : net.Echoed := ScanServer.reach_echoed h.of_when
    exact hech k ▸ reach_unbroken h k
  · exact (Streams.prefix_offered h).trans (StrCli.reach_trails h.of_when)

/-- The first write to the only client is short. -/
theorem no_gap_first_write : ∃ s net,
    Reach (patientWorld 3) (SelectServer.body 3)
      (SelectServer.main 3 (Vector.replicate 1024 0), Net.start) (.ret (.inl s), net) ∧
    (net.conn 0).wr = text "a" ∧ (net.conn 0).wr <+: (net.conn 0).rd := by
  have hC : ∀ (net : Net) (c : Call), (c.span = none ∨ ∃ fd dst, c = .read fd dst) →
      net.Waits c := by
    rintro net c (hc | ⟨fd, dst, rfl⟩)
    · cases c with
      | write | send => cases hc
      | _ => trivial
    · trivial
  obtain ⟨s, h⟩ := serverRun_accept hC
  have hopen : (Net.start.add (4 : ℕ)).Open 4 := Net.open_add_iff.mpr (.inl rfl)
  obtain ⟨-, s, h⟩ := serverRun_serve hC h hopen (text "ab") 1 (by decide) (by decide) (by decide)
    fun _ _ k hk => by
      obtain rfl : 0 = k := Option.some.inj hk
      rfl
  have hallows : ∀ net c r, ((serverWorld 3 AcceptsInRange).when Net.Waits).Allows net c r →
      (patientWorld 3).Allows (id net) c r := fun _ _ _ hr => ⟨⟨hr.1.1, trivial⟩, hr.2⟩
  have hrun : Reach (patientWorld 3) _ _ _ := h.map hallows fun _ _ _ => rfl
  exact ⟨s, _, hrun, rfl, (no_gap 3).1 _ s _ hrun 0⟩

/-- Two writes to the only client accept one byte each, and the second byte is missing. -/
theorem gap_after_short_write : ∃ s net,
    Reach (serverWorld 3 AcceptsInRange) (SelectServer.body 3)
      (SelectServer.main 3 (Vector.replicate 1024 0), Net.start) (.ret (.inl s), net) ∧
    (net.conn 0).rd = text "abc" ∧ (net.conn 0).wr = text "ac" ∧
    ¬ (net.conn 0).wr <+: (net.conn 0).rd := by
  have hC : ∀ (net : Net) (c : Call), (c.span = none ∨ ∃ fd dst, c = .read fd dst) →
      (fun _ _ => True : Net → Call → Prop) net c := fun _ _ _ => trivial
  obtain ⟨s, h⟩ := serverRun_accept hC
  have hopen : (Net.start.add (4 : ℕ)).Open 4 := Net.open_add_iff.mpr (.inl rfl)
  obtain ⟨hopen, s, h⟩ := serverRun_serve hC h hopen (text "ab") 1 (by decide) (by decide)
    (by decide) fun _ _ => trivial
  obtain ⟨-, s, h⟩ := serverRun_serve hC h hopen (text "c") 1 (by decide) (by decide)
    (by decide) fun _ _ => trivial
  exact ⟨s, _, h.of_when, rfl, rfl, by decide⟩

end UnixNetwork
