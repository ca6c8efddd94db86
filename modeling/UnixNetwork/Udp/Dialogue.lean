import UnixNetwork.Udp
import UnixNetwork.Interaction.World

/-!
# The dialogue of the datagram clients with their server

Any number of clients in calls of `dlg_cli`, and one server in `dlg_echo`, over a network that
neither loses nor doubles nor reorders the datagrams between two of them. How the datagrams of
different clients interleave at the server is open. A `recvfrom` cuts a datagram off at the length
it is handed.

The server has one buffer and one address for all clients. It sends back what it has just received,
to where it came from; but it receives 80 bytes at most, and it prints what its buffer holds up to a
NUL that it does not put there. So a line of 80 bytes or more is answered by a part of it, and the
server reads beyond its buffer unless one of the bytes behind the longest line so far was zero when
`dlg_echo` began.

## Main definitions

* `Udp.Echo.View`, `Udp.Cli.View`: what the server, and a client, has sent and received
* `Udp.Echo.Room`: a line leaves room for a NUL that was there before
* `Udp.State`, `Udp.Step`, `Udp.Reach`: the clients and the server together

## Main results

* `Echo.wp_body`, `Cli.wp_body`: a turn of each program
* `reach_good`: the two ends of each dialogue
* `dialogue`: when every line is answered and all indices are in bounds
-/

namespace UnixNetwork

namespace Udp

open Interaction

variable {A : Type}

/-! ## The server -/

namespace Echo

/-- What the server has done. -/
structure View (A : Type) where
  /-- The datagrams received, with the addresses they came from. -/
  received : List (A × List Byte)
  /-- The datagrams sent, with the addresses they went to. -/
  answered : List (A × List Byte)

/-- What has happened once a call has returned. -/
def View.next (v : View A) : (c : Call A) → Res c → View A
  | .recvfrom .., .ok x => { v with received := v.received ++ [(x.2, x.1)] }
  | .sendto _ src mem addr _, _ => { v with answered := v.answered ++ [(addr, src.bytes mem)] }
  | _, _ => v

/-- The surroundings of the server: it receives text, as much of it as it has asked for. -/
def world (A : Type) : World (udp A) (View A) where
  Allows _ c r := match c, r with
    | .recvfrom _ dst _, r => ∃ x, r = .ok x ∧ (x.1.length : ℤ) ≤ dst.len ∧ 0 ∉ x.1
    | _, _ => True
  next := View.next

/-- A line leaves room for a NUL that was in the buffer before. -/
def Room (init : Buf 80) (line : List Byte) : Prop :=
  ∃ j, ∃ h : j < 80, line.length ≤ j ∧ init[j] = 0

theorem Room.length_lt {init : Buf 80} {line : List Byte} (h : Room init line) :
    line.length < 80 := by
  obtain ⟨j, hj, hle, -⟩ := h
  omega

variable {init : Buf 80}

/-- Where every line leaves room, the longest one does. -/
theorem exists_room {l : List (A × List Byte)} (hne : l ≠ []) (h : ∀ x ∈ l, Room init x.2) :
    ∃ j, ∃ hj : j < 80, (∀ x ∈ l, x.2.length ≤ j) ∧ init[j] = 0 := by
  induction l with
  | nil => exact absurd rfl hne
  | cons x l ih =>
    obtain ⟨j, hj, hle, h0⟩ := h x List.mem_cons_self
    by_cases hl : l = []
    · subst hl
      exact ⟨j, hj, by simpa using hle, h0⟩
    · obtain ⟨j', hj', hle', h0'⟩ := ih hl fun y hy => h y (List.mem_cons_of_mem x hy)
      rcases Nat.le_total j j' with hjj | hjj
      · refine ⟨j', hj', fun y hy => ?_, h0'⟩
        rcases List.mem_cons.mp hy with rfl | hy
        · exact hle.trans hjj
        · exact hle' y hy
      · refine ⟨j, hj, fun y hy => ?_, h0⟩
        rcases List.mem_cons.mp hy with rfl | hy
        · exact hle
        · exact (hle' y hy).trans hjj

/-- The zeros in the buffer are those that were there before, behind all that was received. -/
def Overlay (init b : Buf 80) (l : List (A × List Byte)) : Prop :=
  ∀ j, ∀ h : j < 80, b[j] = 0 ↔ (∀ x ∈ l, x.2.length ≤ j) ∧ init[j] = 0

theorem overlay_nil (init : Buf 80) : Overlay init init ([] : List (A × List Byte)) := by
  intro j hj
  simp

/-- Text that is received covers what was there before. -/
theorem Overlay.put {b : Buf 80} {l : List (A × List Byte)} (h : Overlay init b l)
    {bs : List Byte} (h0 : 0 ∉ bs) (a : A) : Overlay init (b.put 0 bs) (l ++ [(a, bs)]) := by
  intro j hj
  have hput : (b.put 0 bs)[j] = bs.getD j b[j] := by simp [Buf.put]
  rw [hput]
  by_cases hlt : j < bs.length
  · have hne : bs[j] ≠ 0 := fun h => h0 (h ▸ List.getElem_mem hlt)
    rw [List.getD_eq_getElem?_getD, List.getElem?_eq_getElem hlt, Option.getD_some]
    constructor
    · intro h
      exact absurd h hne
    · rintro ⟨hle, -⟩
      have := hle (a, bs) (by simp)
      exact absurd this (Nat.not_le_of_lt hlt)
  · rw [List.getD_eq_getElem?_getD, List.getElem?_eq_none (Nat.le_of_not_lt hlt), Option.getD_none,
      h j hj]
    refine and_congr_left fun _ => ?_
    constructor
    · intro hle x hx
      rcases List.mem_append.mp hx with hx | hx
      · exact hle x hx
      · obtain rfl := List.mem_singleton.mp hx
        exact Nat.le_of_not_lt hlt
    · exact fun hle x hx => hle x (List.mem_append_left _ hx)

/-- There is a NUL in the buffer if every line leaves room for one. -/
theorem Overlay.terminated_iff {b : Buf 80} {l : List (A × List Byte)} (h : Overlay init b l)
    (hne : l ≠ []) : CString.Terminated b.toList ↔ ∀ x ∈ l, Room init x.2 := by
  have hmem : CString.Terminated b.toList ↔ ∃ j, ∃ hj : j < 80, b[j] = 0 := by
    rw [CString.Terminated, List.mem_iff_getElem]
    simp
  rw [hmem]
  constructor
  · rintro ⟨j, hj, h0⟩ x hx
    obtain ⟨hle, h0⟩ := (h j hj).mp h0
    exact ⟨j, hj, hle x hx, h0⟩
  · intro hroom
    obtain ⟨j, hj, hle, h0⟩ := exists_room hne hroom
    exact ⟨j, hj, (h j hj).mpr ⟨hle, h0⟩⟩

/-- What holds when the server makes a call. -/
def CallOk (init : Buf 80) (v : View A) : Call A → Prop
  | .recvfrom _ dst _ => dst = Span.whole 80 ∧ v.answered = v.received
  | .printfStr _ arg _ => CString.Terminated arg ↔ ∀ x ∈ v.received, Room init x.2
  | .sendto _ src _ _ _ => src.InBounds
  | .fgets _ => False

/-- What is asked of the server. -/
def guard (init : Buf 80) : Guard (udp A) (View A) :=
  ⟨fun v c => v.answered <+: v.received ∧ CallOk init v c, fun _ => False⟩

/-- The invariant of the loop. -/
structure Inv (init : Buf 80) (s : Locals A) (v : View A) : Prop where
  /-- All that was received has been sent back, to where it came from. -/
  answered : v.answered = v.received
  /-- The zeros in the buffer. -/
  overlay : Overlay init s.sendline v.received

theorem inv_start (init : Buf 80) (a : A) : Inv init ⟨init, a⟩ ⟨[], []⟩ := ⟨rfl, overlay_nil init⟩

variable {s : Locals A} {v : View A}

/-- **A turn of the server** answers what it receives. -/
theorem wp_body (h : Inv init s v) (sockfd : ℤ) (len : ℕ) :
    wp (world A) (guard init) (body sockfd len s) (Sum.elim (Inv init) fun _ _ => False) v := by
  refine ⟨⟨h.answered ▸ List.prefix_refl _, rfl, h.answered⟩, fun r hr => ?_⟩
  obtain ⟨⟨bs, a⟩, rfl, hlen, h0⟩ := hr
  have hlen' : bs.length ≤ 80 := Int.ofNat_le.mp hlen
  have hov := h.overlay.put h0 a
  have htrail : v.answered <+: v.received ++ [(a, bs)] := h.answered ▸ List.prefix_append _ _
  refine ⟨⟨htrail, hov.terminated_iff (by simp)⟩, fun _ _ => ?_⟩
  refine ⟨⟨htrail, Span.inBounds_first hlen'⟩, fun _ _ => ?_⟩
  refine ⟨?_, hov⟩
  show v.answered ++ [(a, (Span.first 80 bs.length).bytes (s.sendline.put 0 bs).toList)] =
    v.received ++ [(a, bs)]
  rw [Span.bytes_first_put hlen', h.answered]

end Echo

/-! ## One client -/

namespace Cli

/-- What a client has done. -/
structure View where
  /-- The lines read from its file. -/
  lines : List (List Byte)
  /-- The datagrams sent. -/
  sent : List (List Byte)
  /-- The datagrams received. -/
  rcvd : List (List Byte)
  /-- The texts printed. -/
  printed : List (List Byte)

/-- Nothing has happened. -/
def View.start : View := ⟨[], [], [], []⟩

/-- What has happened once a call has returned. -/
def View.next (v : View) : (c : Call A) → Res c → View
  | .fgets _, some line => { v with lines := v.lines ++ [line] }
  | .sendto _ src mem _ _, _ => { v with sent := v.sent ++ [src.bytes mem] }
  | .recvfrom .., .ok x => { v with rcvd := v.rcvd ++ [x.1] }
  | .printfStr _ arg _, _ => { v with printed := v.printed ++ [CString.str arg] }
  | _, _ => v

/-- The surroundings of a client whose datagrams come back as they are. -/
def world (A : Type) : World (udp A) View where
  Allows v c r := match c, r with
    | .fgets size, r => ∀ line, r = some line → line.length < size ∧ 0 ∉ line
    | .recvfrom .., r => ∃ x, r = .ok x ∧ v.rcvd ++ [x.1] <+: v.sent
    | _, _ => True
  next := View.next

/-- What holds at every moment. -/
structure View.Sound (v : View) : Prop where
  /-- What has been sent has been read from the file. -/
  sent : v.sent <+: v.lines
  /-- What has been printed has been received. -/
  printed : v.printed <+: v.rcvd
  /-- What has been received has been sent. -/
  rcvd : v.rcvd <+: v.sent

/-- What holds when a client makes a call. -/
def CallOk (servaddr : A) (v : View) : Call A → Prop
  | .fgets size => size = 1024
  | .recvfrom _ dst _ => dst = Span.whole 1024 ∧ v.rcvd.length < v.sent.length
  | .printfStr _ arg _ => CString.Terminated arg
  | .sendto _ src _ addr _ => src.InBounds ∧ addr = servaddr

/-- What is asked of a client. -/
def guard (servaddr : A) : Guard (udp A) View :=
  ⟨fun v c => v.Sound ∧ CallOk servaddr v c, fun _ => False⟩

/-- The invariant of the loop. -/
structure Inv (v : View) : Prop where
  /-- Every line has been sent. -/
  sent : v.sent = v.lines
  /-- Every line has come back. -/
  rcvd : v.rcvd = v.lines
  /-- Every line has been printed. -/
  printed : v.printed = v.lines
  /-- The lines are strings that fit into the buffer. -/
  fits : ∀ line ∈ v.lines, line.length < 1024 ∧ 0 ∉ line

theorem inv_start : Inv View.start := ⟨rfl, rfl, rfl, fun _ h => absurd h List.not_mem_nil⟩

variable {v : View}

theorem Inv.sound (h : Inv v) : v.Sound :=
  ⟨h.sent ▸ List.prefix_refl _, by rw [h.printed, h.rcvd], by rw [h.rcvd, h.sent]⟩

/-- The calls of a turn. -/
theorem exists_turn (sockfd : ℤ) (servaddr : A) (len : ℕ) (buf : Buf 1024) :
    ∃ k, body sockfd servaddr len buf = .call (.fgets 1024) k ∧ k none = .ret (.inr ()) ∧
      ∀ line, line.length < 1024 → 0 ∉ line →
        ∃ k' l, k (some line) = (.call (.sendto sockfd (Span.first 1024 line.length)
          (line ++ l) servaddr len) fun _ => .call (.recvfrom sockfd (Span.whole 1024) 0) k') ∧
        ∀ bs a, bs.length < 1024 → ∃ buf' l, k' (.ok (bs, a)) =
          .call (.printfStr (text "Received: ") (bs ++ 0 :: l) []) fun _ => .ret (.inl buf') := by
  refine ⟨_, Prog.perform_bind _ _, rfl, fun line hlen h0 => ?_⟩
  dsimp only
  rw [strlen_put_line hlen h0, Prog.ret_bind, Buf.toList_put_line hlen]
  refine ⟨_, _, rfl, fun bs a h => ?_⟩
  have hmem := Buf.toList_put_set (buf.put 0 (line ++ [0])) h
  refine ⟨((buf.put 0 (line ++ [0])).put 0 bs).set bs.length 0 h,
    (buf.put 0 (line ++ [0])).toList.drop (bs.length + 1), ?_⟩
  have hstore : (storeAt ((buf.put 0 (line ++ [0])).put 0 bs) bs.length 0 :
      Prog (udp A) (Buf 1024)) = .ret (((buf.put 0 (line ++ [0])).put 0 bs).set bs.length 0 h) :=
    storeAt_of_lt h 0
  rw [← hmem]
  dsimp only [Prog.bind, payload_ok, readValue_ok, readBytes_ok]
  rw [hstore]
  rfl

/-- **A turn of a client** sends a line and prints it when it has come back. -/
theorem wp_body (h : Inv v) (sockfd : ℤ) (servaddr : A) (len : ℕ) (buf : Buf 1024) :
    wp (world A) (guard servaddr) (body sockfd servaddr len buf)
      (Sum.elim (fun _ => Inv) fun _ => Inv) v := by
  obtain ⟨k, hbody, hnone, hsome⟩ := exists_turn sockfd servaddr len buf
  rw [hbody, wp_call]
  refine ⟨⟨h.sound, rfl⟩, fun line hline => ?_⟩
  rcases line with _ | line
  · rw [hnone]
    exact h
  have hfits : line.length < 1024 ∧ 0 ∉ line := hline line rfl
  obtain ⟨k', l, hsend, hprint⟩ := hsome line hfits.1 hfits.2
  rw [hsend, wp_call]
  have hrcvd : v.rcvd <+: v.lines := h.rcvd ▸ List.prefix_refl _
  have hprinted : v.printed <+: v.rcvd := by rw [h.printed, h.rcvd]
  refine ⟨⟨⟨h.sent ▸ List.prefix_append _ _, hprinted, h.sent.symm ▸ hrcvd⟩,
    Span.inBounds_first hfits.1.le, rfl⟩, fun _ _ => ?_⟩
  show wp _ _ _ _ (⟨v.lines ++ [line], v.sent ++ [(Span.first 1024 line.length).bytes
    (line ++ l)], v.rcvd, v.printed⟩ : View)
  rw [Span.bytes_first_append, h.sent, wp_call]
  refine ⟨⟨⟨List.prefix_refl _, hprinted, hrcvd.trans (List.prefix_append _ _)⟩, rfl, ?_⟩,
    fun r hr => ?_⟩
  · simp [h.rcvd]
  obtain ⟨⟨bs, a⟩, rfl, hback⟩ := hr
  -- the datagram that comes back is the one that has just been sent
  obtain rfl : bs = line := by
    have hpre : v.rcvd ++ [bs] <+: v.lines ++ [line] := hback
    rw [h.rcvd] at hpre
    simpa using (List.prefix_append_right_inj _).mp hpre
  obtain ⟨buf', l', hprint⟩ := hprint bs a hfits.1
  rw [hprint, wp_call]
  refine ⟨⟨⟨List.prefix_refl _, hprinted.trans (List.prefix_append _ _), hback⟩,
    CString.terminated_append_zero _ _⟩, fun _ _ => ?_⟩
  refine ⟨rfl, congrArg (· ++ [bs]) h.rcvd, ?_, fun l hl => ?_⟩
  · show v.printed ++ [CString.str (bs ++ 0 :: l')] = v.lines ++ [bs]
    rw [CString.str_append_zero hfits.2, h.printed]
  · rcases List.mem_append.mp hl with hl | hl
    · exact h.fits l hl
    · exact List.mem_singleton.mp hl ▸ hfits

end Cli

/-! ## The system -/

/-- Where a datagram comes from or goes to. -/
inductive Peer (ι : Type) where
  | server
  | client (i : ι)
  | stranger
deriving DecidableEq

/-- The arguments of the programs; `ι` are the clients. -/
structure Setup (ι : Type) where
  /-- The socket of the server. -/
  serverfd : ℤ
  /-- The length of an address. -/
  len : ℕ
  /-- The buffer of the server, which is not initialised. -/
  sendline : Buf 80
  /-- What `client_addr` points to, which is not initialised. -/
  clientAddr : Peer ι
  /-- The socket of each client. -/
  sockfd : ι → ℤ
  /-- The buffer of each client, which is not initialised. -/
  buf : ι → Buf 1024

variable {ι : Type}

/-- The state of all programs and what they have done. -/
structure State (ι : Type) where
  /-- What is left of the server's turn. -/
  server : Prog (udp (Peer ι)) (Echo.Locals (Peer ι) ⊕ Empty)
  /-- What the server has done. -/
  served : Echo.View (Peer ι)
  /-- What is left of each client's turn. -/
  client : ι → Prog (udp (Peer ι)) (Buf 1024 ⊕ Unit)
  /-- What each client has done. -/
  view : ι → Cli.View

/-- All programs at their beginning. -/
def initial (S : Setup ι) : State ι where
  server := .ret (.inl ⟨S.sendline, S.clientAddr⟩)
  served := ⟨[], []⟩
  client i := .ret (.inl (S.buf i))
  view _ := Cli.View.start

variable [DecidableEq ι]

/-- The datagrams of one peer. -/
def ofPeer (a : Peer ι) (l : List (Peer ι × List Byte)) : List (List Byte) :=
  l.filterMap fun x => if x.1 = a then some x.2 else none

theorem ofPeer_append (a : Peer ι) (l l' : List (Peer ι × List Byte)) :
    ofPeer a (l ++ l') = ofPeer a l ++ ofPeer a l' := List.filterMap_append

theorem ofPeer_singleton (a b : Peer ι) (bs : List Byte) :
    ofPeer a [(b, bs)] = if b = a then [bs] else [] := by
  by_cases h : b = a <;> simp [ofPeer, h]

theorem ofPeer_mono {l l' : List (Peer ι × List Byte)} (h : l <+: l') (a : Peer ι) :
    ofPeer a l <+: ofPeer a l' := h.filterMap _

namespace State

variable (st : State ι)

/-- What the server has received from client `i`. -/
def received (i : ι) : List (List Byte) := ofPeer (.client i) st.served.received

/-- What the server has sent to client `i`. -/
def answered (i : ι) : List (List Byte) := ofPeer (.client i) st.served.answered

/-- What a call of the server may return: `recvfrom` the next datagram of any client, cut off at the
length it is handed. -/
def ServerAllows : (c : Call (Peer ι)) → Res c → Prop
  | .recvfrom _ dst _, r => ∃ i bs, r = .ok (bs, .client i) ∧
      st.received i ++ [bs] <+: (st.view i).sent.map (List.take dst.len.toNat)
  | .sendto _ src _ _ _, r => ∃ n : ℕ, r = .ok n ∧ n = src.len
  | _, _ => True

/-- The server begins a turn, or a call of it can return. -/
def ServerGoesOn : Prop :=
  (∃ s, st.server = .ret (.inl s)) ∨ ∃ c k r, st.server = .call c k ∧ st.ServerAllows c r

/-- What a call of client `i` may return: `fgets` a line that satisfies `P`, `recvfrom` the next
answer to the client. -/
def ClientAllows (P : List Byte → Prop) (i : ι) : (c : Call (Peer ι)) → Res c → Prop
  | .fgets size, r => ∀ line, r = some line → line.length < size ∧ 0 ∉ line ∧ P line
  | .recvfrom _ dst _, r => ∃ bs, r = .ok (bs, .server) ∧
      (st.view i).rcvd ++ [bs] <+: (st.answered i).map (List.take dst.len.toNat)
  | .sendto _ src _ _ _, r => ∃ n : ℕ, r = .ok n ∧ n = src.len
  | _, _ => True

end State

/-- One step of one of the programs. The lines of the clients satisfy `P`. -/
inductive Step (S : Setup ι) (P : List Byte → Prop) : State ι → State ι → Prop where
  /-- A call of the server returns. -/
  | server {st : State ι} {c : Call (Peer ι)}
      {k : Res c → Prog (udp (Peer ι)) (Echo.Locals (Peer ι) ⊕ Empty)} {r : Res c}
      (hp : st.server = .call c k) (hr : st.ServerAllows c r) :
      Step S P st { st with server := k r, served := st.served.next c r }
  /-- The server begins a turn. -/
  | serverAgain {st : State ι} {s : Echo.Locals (Peer ι)} (hp : st.server = .ret (.inl s)) :
      Step S P st { st with server := Echo.body S.serverfd S.len s }
  /-- A call of client `i` returns. -/
  | client {st : State ι} {i : ι} {c : Call (Peer ι)}
      {k : Res c → Prog (udp (Peer ι)) (Buf 1024 ⊕ Unit)} {r : Res c}
      (hp : st.client i = .call c k) (hr : st.ClientAllows P i c r) :
      Step S P st { st with
        client := Function.update st.client i (k r)
        view := Function.update st.view i ((st.view i).next c r) }
  /-- Client `i` begins a turn of its loop. -/
  | clientAgain {st : State ι} {i : ι} {buf : Buf 1024} (hp : st.client i = .ret (.inl buf)) :
      Step S P st { st with
        client := Function.update st.client i (Cli.body (S.sockfd i) .server S.len buf) }

/-- `st` is a state of a run of the system. -/
def Reach (S : Setup ι) (P : List Byte → Prop) (st : State ι) : Prop :=
  Relation.ReflTransGen (Step S P) (initial S) st

/-! ## Both ends of each dialogue -/

/-- What the server has yet to do keeps to its invariant. -/
abbrev ServerGood (init : Buf 80) (p : Prog (udp (Peer ι)) (Echo.Locals (Peer ι) ⊕ Empty)) :
    Echo.View (Peer ι) → Prop :=
  wp (Echo.world (Peer ι)) (Echo.guard init) p (Sum.elim (Echo.Inv init) fun _ _ => False)

/-- What a client has yet to do keeps to its invariant. -/
abbrev ClientGood (p : Prog (udp (Peer ι)) (Buf 1024 ⊕ Unit)) : Cli.View → Prop :=
  wp (Cli.world (Peer ι)) (Cli.guard .server) p (Sum.elim (fun _ => Cli.Inv) fun _ => Cli.Inv)

/-- What ties client `i` to the server, for lines that leave room for a NUL. -/
structure Tied (S : Setup ι) (served : Echo.View (Peer ι)) (i : ι)
    (p : Prog (udp (Peer ι)) (Buf 1024 ⊕ Unit)) (v : Cli.View) : Prop where
  /-- The client keeps to its invariant. -/
  good : ClientGood p v
  /-- Its lines leave room. -/
  room : ∀ line ∈ v.lines, 0 ∉ line ∧ Echo.Room S.sendline line
  /-- What the server has received from it has been sent by it. -/
  upstream : ofPeer (.client i) served.received <+: v.sent
  /-- What it has received has been sent to it. -/
  downstream : v.rcvd <+: ofPeer (.client i) served.answered

/-- The invariant of the system. -/
structure Good (S : Setup ι) (st : State ι) : Prop where
  /-- The server keeps to its invariant. -/
  server : ServerGood S.sendline st.server st.served
  /-- All that it has received leaves room. -/
  room : ∀ x ∈ st.served.received, Echo.Room S.sendline x.2
  /-- The clients are tied to it. -/
  client : ∀ i, Tied S st.served i (st.client i) (st.view i)

variable {S : Setup ι} {st : State ι}

theorem good_initial (S : Setup ι) : Good S (initial S) where
  server := Echo.inv_start _ _
  room _ h := absurd h List.not_mem_nil
  client _ := ⟨Cli.inv_start, fun _ h => absurd h List.not_mem_nil, List.prefix_refl _,
    List.prefix_refl _⟩

/-- What holds of every client still does when one of them has changed. -/
theorem forall_update {α β : Type} {P : ι → α → β → Prop} {f : ι → α} {g : ι → β}
    (h : ∀ j, P j (f j) (g j)) {i : ι} {a : α} {b : β} (hi : P i a b) (j : ι) :
    P j (Function.update f i a j) (Function.update g i b j) := by
  by_cases hij : j = i
  · subst hij
    rwa [Function.update_self, Function.update_self]
  · rw [Function.update_of_ne hij, Function.update_of_ne hij]
    exact h j

namespace Good

/-- Something has happened at client `i`. -/
theorem of_client (h : Good S st) {i : ι} {p : Prog (udp (Peer ι)) (Buf 1024 ⊕ Unit)}
    {v : Cli.View} (hi : Tied S st.served i p v) :
    Good S { st with
      client := Function.update st.client i p
      view := Function.update st.view i v } :=
  ⟨h.server, h.room, forall_update h.client hi⟩

/-- The server answers what it has received. -/
theorem answered_received (h : Good S st) : st.served.answered <+: st.served.received := by
  refine wp_now (J := fun v => v.answered <+: v.received) h.server ?_ (fun v c hc => hc.1)
    fun v hv => hv.elim
  rintro (s | e) v hv
  · exact (show Echo.Inv S.sendline s v from hv).answered ▸ List.prefix_refl _
  · exact e.elim

theorem answered_ofPeer (h : Good S st) (i : ι) : st.answered i <+: st.received i :=
  ofPeer_mono h.answered_received _

theorem sound (h : Good S st) (i : ι) : (st.view i).Sound := by
  refine wp_now (J := Cli.View.Sound) (h.client i).good ?_ (fun v c hc => hc.1)
    fun v hv => hv.elim
  rintro (buf | u) v hv
  · exact Cli.Inv.sound hv
  · exact Cli.Inv.sound hv

/-- What the server has sent to a client has been sent by it. -/
theorem answered_sent (h : Good S st) (i : ι) : st.answered i <+: (st.view i).sent :=
  (h.answered_ofPeer i).trans (h.client i).upstream

/-- What has been sent leaves room, so no `recvfrom` cuts any of it off. -/
theorem map_take (h : Good S st) {i : ι} {l : List (List Byte)} (hl : l <+: (st.view i).sent)
    {n : ℕ} (hn : 80 ≤ n) : l.map (List.take (Span.whole n).len.toNat) = l := by
  refine (List.map_congr_left fun line hline => ?_).trans (List.map_id l)
  have hroom := ((h.client i).room line ((hl.trans (h.sound i).sent).subset hline)).2
  exact List.take_of_length_le (hroom.length_lt.le.trans hn)

/-- **A step of the server.** -/
theorem step_server (h : Good S st) {c : Call (Peer ι)}
    {k : Res c → Prog (udp (Peer ι)) (Echo.Locals (Peer ι) ⊕ Empty)} {r : Res c}
    (hp : st.server = .call c k) (hr : st.ServerAllows c r) :
    Good S { st with server := k r, served := st.served.next c r } := by
  have hwp : ServerGood S.sendline (.call c k) st.served := hp ▸ h.server
  cases c with
  | fgets size => exact hwp.1.2.elim
  | printfStr before arg after => exact ⟨hwp.2 r trivial, h.room, h.client⟩
  | sendto fd src mem addr len =>
    refine ⟨hwp.2 r trivial, h.room, fun i => ?_⟩
    obtain ⟨hgood, hroom, hup, hdown⟩ := h.client i
    exact ⟨hgood, hroom, hup, hdown.trans (ofPeer_mono (List.prefix_append _ _) _)⟩
  | recvfrom fd dst len =>
    obtain ⟨i, bs, rfl, hpre⟩ := hr
    obtain rfl : dst = Span.whole 80 := hwp.1.2.1
    have hsent : st.received i ++ [bs] <+: (st.view i).sent := by
      rwa [h.map_take (List.prefix_refl _) (Nat.le_refl 80)] at hpre
    have hbs : bs ∈ (st.view i).lines :=
      (hsent.trans (h.sound i).sent).subset (List.mem_append_right _ (List.mem_singleton_self bs))
    obtain ⟨h0, hroom⟩ := (h.client i).room bs hbs
    refine ⟨hwp.2 _ ⟨_, rfl, Int.ofNat_le.mpr hroom.length_lt.le, h0⟩, fun x hx => ?_, fun j => ?_⟩
    · rcases List.mem_append.mp hx with hx | hx
      · exact h.room x hx
      · exact List.mem_singleton.mp hx ▸ hroom
    obtain ⟨hgood, hroom, hup, hdown⟩ := h.client j
    refine ⟨hgood, hroom, ?_, hdown⟩
    show ofPeer (.client j) (st.served.received ++ [(.client i, bs)]) <+: _
    rw [ofPeer_append, ofPeer_singleton]
    by_cases hij : i = j
    · subst hij
      rw [if_pos rfl]
      exact hsent
    · rw [if_neg fun he => hij (Peer.client.inj he), List.append_nil]
      exact hup

/-- **A step of a client.** -/
theorem step_client (h : Good S st) {i : ι} {c : Call (Peer ι)}
    {k : Res c → Prog (udp (Peer ι)) (Buf 1024 ⊕ Unit)} {r : Res c}
    (hp : st.client i = .call c k)
    (hr : st.ClientAllows (Echo.Room S.sendline) i c r) :
    Good S { st with
      client := Function.update st.client i (k r)
      view := Function.update st.view i ((st.view i).next c r) } := by
  refine h.of_client ?_
  obtain ⟨hgood, hroom, hup, hdown⟩ := h.client i
  have hwp : ClientGood (.call c k) (st.view i) := hp ▸ hgood
  cases c with
  | fgets size =>
    rcases r with _ | line
    · exact ⟨hwp.2 _ fun line hline => (by cases hline), hroom, hup, hdown⟩
    · obtain ⟨hlen, h0, hline⟩ := hr line rfl
      refine ⟨hwp.2 _ fun l hl => Option.some.inj hl ▸ ⟨hlen, h0⟩, fun l hl => ?_, hup, hdown⟩
      rcases List.mem_append.mp hl with hl | hl
      · exact hroom l hl
      · exact List.mem_singleton.mp hl ▸ ⟨h0, hline⟩
  | printfStr before arg after => exact ⟨hwp.2 r trivial, hroom, hup, hdown⟩
  | sendto fd src mem addr len =>
    exact ⟨hwp.2 r trivial, hroom, hup.trans (List.prefix_append _ _), hdown⟩
  | recvfrom fd dst len =>
    obtain ⟨bs, rfl, hpre⟩ := hr
    obtain rfl : dst = Span.whole 1024 := hwp.1.2.1
    have hrcvd : (st.view i).rcvd ++ [bs] <+: st.answered i := by
      rwa [h.map_take (h.answered_sent i) (by decide)] at hpre
    exact ⟨hwp.2 _ ⟨_, rfl, hrcvd.trans (h.answered_sent i)⟩, hroom, hup, hrcvd⟩

/-- **A step of the system.** -/
theorem step (h : Good S st) {st' : State ι} (hs : Step S (Echo.Room S.sendline) st st') :
    Good S st' := by
  cases hs with
  | server hp hr => exact h.step_server hp hr
  | client hp hr => exact h.step_client hp hr
  | @serverAgain s hp =>
    have hinv : ServerGood S.sendline (.ret (.inl s)) st.served := hp ▸ h.server
    exact ⟨Echo.wp_body hinv _ _, h.room, h.client⟩
  | @clientAgain i buf hp =>
    obtain ⟨hgood, hroom, hup, hdown⟩ := h.client i
    have hinv : ClientGood (.ret (.inl buf)) (st.view i) := hp ▸ hgood
    have htied :=
      h.of_client ⟨Cli.wp_body hinv (S.sockfd i) Peer.server S.len buf, hroom, hup, hdown⟩
    rwa [Function.update_eq_self] at htied

end Good

/-- **The two ends of each dialogue.** -/
theorem reach_good (h : Reach S (Echo.Room S.sendline) st) : Good S st := by
  induction h with
  | refl => exact good_initial S
  | tail _ hs ih => exact ih.step hs

/-! ## Every line is answered -/

/-- A range lies in its array, a string in its own. -/
def Call.Proper : Call A → Prop
  | .fgets size => size ≤ 1024
  | .recvfrom _ dst _ => dst.InBounds
  | .sendto _ src _ _ _ => src.InBounds
  | .printfStr _ arg _ => CString.Terminated arg

namespace Good

theorem proper_server (h : Good S st) {c : Call (Peer ι)}
    {k : Res c → Prog (udp (Peer ι)) (Echo.Locals (Peer ι) ⊕ Empty)}
    (hp : st.server = .call c k) : c.Proper := by
  have hwp : ServerGood S.sendline (.call c k) st.served := hp ▸ h.server
  cases c with
  | fgets size => exact hwp.1.2.elim
  | recvfrom fd dst len => exact hwp.1.2.1 ▸ Span.inBounds_first (Nat.le_refl 80)
  | sendto fd src mem addr len => exact hwp.1.2
  | printfStr before arg after => exact hwp.1.2.mpr h.room

theorem proper_client (h : Good S st) {i : ι} {c : Call (Peer ι)}
    {k : Res c → Prog (udp (Peer ι)) (Buf 1024 ⊕ Unit)} (hp : st.client i = .call c k) :
    c.Proper := by
  have hwp : ClientGood (.call c k) (st.view i) := hp ▸ (h.client i).good
  cases c with
  | fgets size => exact (show size = 1024 from hwp.1.2).le
  | recvfrom fd dst len => exact hwp.1.2.1 ▸ Span.inBounds_first (Nat.le_refl 1024)
  | sendto fd src mem addr len => exact hwp.1.2.1
  | printfStr before arg after => exact hwp.1.2

/-- While client `i` waits for its answer, the answer is there or the server can go on. -/
theorem progress (h : Good S st) {i : ι} {fd : ℤ} {dst : Span} {len : ℕ}
    {k : Res (.recvfrom fd dst len) → Prog (udp (Peer ι)) (Buf 1024 ⊕ Unit)}
    (hp : st.client i = .call (.recvfrom fd dst len) k) :
    (∃ r, st.ClientAllows (Echo.Room S.sendline) i (.recvfrom fd dst len) r) ∨ st.ServerGoesOn := by
  have hclient : ClientGood (.call (.recvfrom fd dst len) k) (st.view i) := hp ▸ (h.client i).good
  obtain ⟨rfl, hwaits⟩ := hclient.1.2
  have hdown := (h.client i).downstream
  by_cases hlt : (st.view i).rcvd.length < (st.answered i).length
  · obtain ⟨bs, hbs⟩ : ∃ bs, (st.view i).rcvd ++ [bs] <+: st.answered i :=
      ⟨_, List.concat_get_prefix hdown hlt⟩
    refine Or.inl ⟨.ok (bs, .server), bs, rfl, ?_⟩
    rwa [h.map_take (h.answered_sent i) (by decide)]
  -- all that has been answered has been received, so the last datagram is still to be answered
  refine Or.inr ?_
  have hanswered : (st.answered i).length < (st.view i).sent.length :=
    (Nat.le_of_not_lt hlt).trans_lt hwaits
  rcases hserver : st.server with (s | e) | ⟨c, k⟩ | _
  · exact Or.inl ⟨s, hserver⟩
  · exact e.elim
  · refine Or.inr ⟨c, k, ?_⟩
    have hwp : ServerGood S.sendline (.call c k) st.served := hserver ▸ h.server
    cases c with
    | fgets size => exact hwp.1.2.elim
    | printfStr before arg after => exact ⟨(), hserver, trivial⟩
    | sendto fd src mem addr len =>
      exact ⟨_, hserver, src.len.toNat, rfl, Int.toNat_of_nonneg hwp.1.2.2.1⟩
    | recvfrom fd dst len =>
      obtain ⟨rfl, hall⟩ := hwp.1.2
      have hlen : (st.received i).length < (st.view i).sent.length := by
        rwa [State.received, ← hall]
      obtain ⟨bs, hbs⟩ : ∃ bs, st.received i ++ [bs] <+: (st.view i).sent :=
        ⟨_, List.concat_get_prefix (h.client i).upstream hlen⟩
      refine ⟨.ok (bs, .client i), hserver, i, bs, rfl, ?_⟩
      rwa [h.map_take (List.prefix_refl _) (Nat.le_refl 80)]
  · exact (hserver ▸ h.server : ServerGood S.sendline .fault st.served).elim

/-- Between two turns of client `i`, and after the last, all its lines have been answered and
printed. -/
theorem between_turns (h : Good S st) {i : ι} {x : Buf 1024 ⊕ Unit} (hp : st.client i = .ret x) :
    st.answered i = (st.view i).lines ∧ (st.view i).printed = (st.view i).lines := by
  have hret : ClientGood (.ret x) (st.view i) := hp ▸ (h.client i).good
  have hinv : Cli.Inv (st.view i) := by
    rcases x with buf | u
    · exact hret
    · exact hret
  refine ⟨?_, hinv.printed⟩
  have hup : st.answered i <+: (st.view i).lines := hinv.sent ▸ h.answered_sent i
  have hdown : (st.view i).lines <+: st.answered i := hinv.rcvd ▸ (h.client i).downstream
  exact hup.eq_of_length_le hdown.length_le

end Good

/-- The clients and the server agree. -/
structure State.Agree (S : Setup ι) (st : State ι) : Prop where
  /-- What the server has sent it has received, and it went to where that came from. -/
  answered : st.served.answered <+: st.served.received
  /-- No client is answered but what it has read from its file, and that once. -/
  lines : ∀ i, st.answered i <+: (st.view i).lines
  /-- No client prints but what it has read from its file, and that once. -/
  printed : ∀ i, (st.view i).printed <+: (st.view i).lines
  /-- When a client goes on with the next line it has been answered all that it has read, and has
  printed it. -/
  between : ∀ i x, st.client i = .ret x →
    st.answered i = (st.view i).lines ∧ (st.view i).printed = (st.view i).lines
  /-- Who waits for an answer gets it. -/
  progress : ∀ i fd dst len k, st.client i = .call (.recvfrom fd dst len) k →
    (∃ r, st.ClientAllows (Echo.Room S.sendline) i (.recvfrom fd dst len) r) ∨ st.ServerGoesOn
  /-- Every index the server uses is in bounds. -/
  server : st.server ≠ .fault ∧ ∀ c k, st.server = .call c k → c.Proper
  /-- Every index the clients use is in bounds. -/
  client : ∀ i, st.client i ≠ .fault ∧ ∀ c k, st.client i = .call c k → c.Proper

theorem Good.agree (h : Good S st) : st.Agree S where
  answered := h.answered_received
  lines i := (h.answered_sent i).trans (h.sound i).sent
  printed i := ((h.sound i).printed.trans (h.sound i).rcvd).trans (h.sound i).sent
  between _ _ hp := h.between_turns hp
  progress _ _ _ _ _ hp := h.progress hp
  server := ⟨fun hp => (hp ▸ h.server : ServerGood S.sendline .fault st.served), fun _ _ hp =>
    h.proper_server hp⟩
  client i := ⟨fun hp => (hp ▸ (h.client i).good : ClientGood .fault (st.view i)), fun _ _ hp =>
    h.proper_client hp⟩

/-- **The clients and the server agree on every line** that leaves room for a NUL that was in the
server's buffer when `dlg_echo` began; and when the server prints a datagram, there is a NUL in its
buffer if and only if all that it has received so far left room for one. -/
theorem dialogue (S : Setup ι) :
    (∀ st, Reach S (Echo.Room S.sendline) st → st.Agree S) ∧
    ∀ v before arg after k,
      Interaction.Reach (Echo.world (Peer ι)) (Echo.body S.serverfd S.len)
        (.ret (.inl ⟨S.sendline, S.clientAddr⟩), ⟨[], []⟩)
        (.call (.printfStr before arg after) k, v) →
      (CString.Terminated arg ↔ ∀ x ∈ v.received, Echo.Room S.sendline x.2) := by
  refine ⟨fun st h => (reach_good h).agree, fun v before arg after k h => ?_⟩
  have hwp := h.wp (fun s v hv => Echo.wp_body hv S.serverfd S.len) (Echo.inv_start _ _)
  exact hwp.1.2

/-! ### One line -/

/-- A state of a run, as the server and client `i` see it. -/
def At (S : Setup ι) (P : List Byte → Prop) (i : ι)
    (server : Prog (udp (Peer ι)) (Echo.Locals (Peer ι) ⊕ Empty)) (served : Echo.View (Peer ι))
    (client : Prog (udp (Peer ι)) (Buf 1024 ⊕ Unit)) (view : Cli.View) : Prop :=
  ∃ st, Reach S P st ∧ st.server = server ∧ st.served = served ∧ st.client i = client ∧
    st.view i = view

namespace At

variable {P : List Byte → Prop} {i : ι}
  {server : Prog (udp (Peer ι)) (Echo.Locals (Peer ι) ⊕ Empty)} {served : Echo.View (Peer ι)}
  {client : Prog (udp (Peer ι)) (Buf 1024 ⊕ Unit)} {view : Cli.View}

theorem start (S : Setup ι) (P : List Byte → Prop) (i : ι) :
    At S P i (.ret (.inl ⟨S.sendline, S.clientAddr⟩)) ⟨[], []⟩ (.ret (.inl (S.buf i)))
      Cli.View.start :=
  ⟨initial S, .refl, rfl, rfl, rfl, rfl⟩

theorem serverAgain {s : Echo.Locals (Peer ι)} (h : At S P i (.ret (.inl s)) served client view) :
    At S P i (Echo.body S.serverfd S.len s) served client view := by
  obtain ⟨st, hst, hserver, hserved, hclient, hview⟩ := h
  exact ⟨_, hst.tail (.serverAgain hserver), rfl, hserved, hclient, hview⟩

theorem clientAgain {buf : Buf 1024} (h : At S P i server served (.ret (.inl buf)) view) :
    At S P i server served (Cli.body (S.sockfd i) .server S.len buf) view := by
  obtain ⟨st, hst, hserver, hserved, hclient, hview⟩ := h
  exact ⟨_, hst.tail (.clientAgain hclient), hserver, hserved, Function.update_self .., hview⟩

theorem recvfrom {fd : ℤ} {n len : ℕ}
    {k : Res (.recvfrom fd (Span.whole n) len) →
      Prog (udp (Peer ι)) (Echo.Locals (Peer ι) ⊕ Empty)}
    (h : At S P i (.call (.recvfrom fd (Span.whole n) len) k) served client view) (bs : List Byte)
    (hbs : ofPeer (.client i) served.received ++ [bs] <+: view.sent.map (List.take n)) :
    At S P i (k (.ok (bs, .client i)))
      ⟨served.received ++ [(.client i, bs)], served.answered⟩ client view := by
  obtain ⟨st, hst, hserver, rfl, hclient, rfl⟩ := h
  exact ⟨_, hst.tail (.server hserver ⟨i, bs, rfl, hbs⟩), rfl, rfl, hclient, rfl⟩

theorem print {before arg after : List Byte}
    {k : Unit → Prog (udp (Peer ι)) (Echo.Locals (Peer ι) ⊕ Empty)}
    (h : At S P i (.call (.printfStr before arg after) k) served client view) :
    At S P i (k ()) served client view := by
  obtain ⟨st, hst, hserver, rfl, hclient, hview⟩ := h
  exact ⟨_, hst.tail (.server (c := .printfStr before arg after) (r := ()) hserver trivial),
    rfl, rfl, hclient, hview⟩

theorem sendto {fd : ℤ} {n len bytes : ℕ} {mem : List Byte} {a : Peer ι}
    {k : Except Errno ℕ → Prog (udp (Peer ι)) (Echo.Locals (Peer ι) ⊕ Empty)}
    (h : At S P i (.call (.sendto fd (Span.first n bytes) mem a len) k) served client view) :
    At S P i (k (.ok bytes))
      ⟨served.received, served.answered ++ [(a, (Span.first n bytes).bytes mem)]⟩ client view := by
  obtain ⟨st, hst, hserver, rfl, hclient, hview⟩ := h
  exact ⟨_, hst.tail (.server (c := .sendto fd (Span.first n bytes) mem a len) (r := .ok bytes)
    hserver ⟨bytes, rfl, rfl⟩), rfl, rfl, hclient, hview⟩

theorem call {c : Call (Peer ι)} {k : Res c → Prog (udp (Peer ι)) (Buf 1024 ⊕ Unit)} {r : Res c}
    (h : At S P i server served (.call c k) view)
    (hr : ∀ st : State ι, st.served = served → st.view i = view → st.ClientAllows P i c r) :
    At S P i server served (k r) (view.next c r) := by
  obtain ⟨st, hst, hserver, hserved, hclient, rfl⟩ := h
  exact ⟨_, hst.tail (.client hclient (hr st hserved rfl)), hserver, hserved,
    Function.update_self .., Function.update_self ..⟩

/-- The server has answered the first line of client `i`, with 80 bytes of it at most. -/
theorem first_served (S : Setup ι) (i : ι) (line : List Byte) (hlen : line.length < 1024)
    (h0 : 0 ∉ line) (hP : P line) :
    ∃ server k, At S P i server ⟨[(.client i, line.take 80)], [(.client i, line.take 80)]⟩
        (.call (.recvfrom (S.sockfd i) (Span.whole 1024) 0) k) ⟨[line], [line], [], []⟩ ∧
      ∀ bs a, bs.length < 1024 → ∃ buf l, k (.ok (bs, a)) =
        .call (.printfStr (text "Received: ") (bs ++ 0 :: l) []) fun _ => .ret (.inl buf) := by
  obtain ⟨k, hbody, -, hsome⟩ :=
    Cli.exists_turn (S.sockfd i) (Peer.server : Peer ι) S.len (S.buf i)
  obtain ⟨k', l, hsend, hprint⟩ := hsome line hlen h0
  have hcut : (line.take 80).length ≤ 80 := List.length_take_le _ _
  -- the client sends
  have h := (At.start S P i).clientAgain
  rw [hbody] at h
  have h := h.call (r := some line) fun st _ _ l hl => Option.some.inj hl ▸ ⟨hlen, h0, hP⟩
  rw [hsend] at h
  have h := h.call (r := (Except.ok line.length : Except Errno ℕ)) fun st _ _ => ⟨_, rfl, rfl⟩
  simp only [Cli.View.next, Cli.View.start, Span.bytes_first_append, List.nil_append] at h
  -- the server answers
  have h := (h.serverAgain.recvfrom (line.take 80) (List.prefix_refl _)).print.sendto
  simp only [List.nil_append, payload_ok, readValue_ok, readBytes_ok,
    Span.bytes_first_put hcut] at h
  exact ⟨_, k', h, hprint⟩

/-- Client `i` has printed what came back of its first line. -/
theorem first_printed (S : Setup ι) (i : ι) (line : List Byte) (hlen : line.length < 1024)
    (h0 : 0 ∉ line) (hP : P line) :
    ∃ st, Reach S P st ∧ (∃ x, st.client i = .ret x) ∧ (st.view i).lines = [line] ∧
      (st.view i).printed = [line.take 80] := by
  obtain ⟨server, k, h, hprint⟩ := At.first_served S i line hlen h0 hP
  have hcut : (line.take 80).length < 1024 := (List.length_take_le' _ _).trans_lt hlen
  obtain ⟨buf, l, hprint⟩ := hprint (line.take 80) .server hcut
  have hanswer : ∀ st : State ι, st.served = ⟨[(.client i, line.take 80)],
      [(.client i, line.take 80)]⟩ → st.view i = ⟨[line], [line], [], []⟩ →
      st.ClientAllows P i (.recvfrom (S.sockfd i) (Span.whole 1024) 0)
        (.ok (line.take 80, .server)) := by
    intro st hst hview
    refine ⟨line.take 80, rfl, ?_⟩
    rw [State.answered, hst, hview, ofPeer_singleton, if_pos rfl]
    simp [Span.whole, List.take_of_length_le hcut.le]
  have h := h.call hanswer
  rw [hprint] at h
  have h := h.call (r := ()) fun _ _ _ => trivial
  have hstr : CString.str (line.take 80 ++ 0 :: l) = line.take 80 :=
    CString.str_append_zero (fun h => h0 (List.mem_of_mem_take h)) l
  simp only [Cli.View.next, List.nil_append, hstr] at h
  obtain ⟨st, hst, -, -, hclient, hview⟩ := h
  exact ⟨st, hst, ⟨_, hclient⟩, by rw [hview], by rw [hview]⟩

end At

/-- One client; all bytes are zero at the beginning. -/
def oneClient : Setup Unit where
  serverfd := 3
  len := 16
  sendline := Vector.replicate 80 0
  clientAddr := .stranger
  sockfd _ := 3
  buf _ := Vector.replicate 1024 0

/-- The first line is answered and printed. -/
theorem dialogue_hello : (∃ st, Reach oneClient (Echo.Room oneClient.sendline) st ∧
    (st.view ()).lines = [text "hello\n"] ∧ st.answered () = [text "hello\n"] ∧
    (st.view ()).printed = [text "hello\n"]) ∧
    CString.Terminated (oneClient.sendline.put 0 (text "hello\n")).toList := by
  have hroom : Echo.Room oneClient.sendline (text "hello\n") :=
    ⟨79, by decide, by decide, by decide⟩
  refine ⟨?_, ?_⟩
  · obtain ⟨st, hst, ⟨x, hx⟩, hlines, -⟩ :=
      At.first_printed oneClient () (text "hello\n") (by decide) (by decide) hroom
    have hagree := ((dialogue oneClient).1 st hst).between () x hx
    exact ⟨st, hst, hlines, hagree.1.trans hlines, hagree.2.trans hlines⟩
  · have hallows : (Echo.world (Peer Unit)).Allows ⟨[], []⟩ (.recvfrom 3 (Span.whole 80) 16)
        (.ok (text "hello\n", .client ())) := ⟨_, rfl, by decide, by decide⟩
    have hagain : Interaction.Step (Echo.world (Peer Unit)) (Echo.body 3 16)
        (.ret (.inl ⟨oneClient.sendline, .stranger⟩), ⟨[], []⟩)
        (Echo.body 3 16 ⟨oneClient.sendline, .stranger⟩, ⟨[], []⟩) := .again
    have h := (Relation.ReflTransGen.single hagain).tail (.call hallows)
    refine ((dialogue oneClient).2 _ _ _ _ _ h).mpr fun x hx => ?_
    exact List.mem_singleton.mp hx ▸ hroom

/-- A line of 100 bytes comes back without the last 20. -/
theorem not_agree_long_line :
    ¬ ∀ (S : Setup Unit) (st : State Unit), Reach S (fun _ => True) st → st.Agree S := by
  intro hall
  obtain ⟨st, hst, ⟨x, hx⟩, hlines, hprinted⟩ := At.first_printed (P := fun _ => True) oneClient ()
    (List.replicate 100 97) (by decide) (by decide) trivial
  have h := ((hall oneClient st hst).between () x hx).2
  rw [hlines, hprinted] at h
  exact absurd (congrArg List.length (List.cons.inj h).1) (by decide)

end Udp

end UnixNetwork
