import UnixNetwork.Interaction.Parallel
import UnixNetwork.TextInput
import UnixNetwork.Udp.Dialogue

/-!
# The datagram clients on a network that keeps no promise

The same clients and the same server as in `Udp.Dialogue`, on a network that may lose datagrams,
deliver them several times, or late, or in another order, and on which strangers send the server
what they like. A `recvfrom` returns any datagram that has ever been sent to its socket. The socket
of a client would take datagrams from strangers too, but there are none that send it any.

The clients and the server tell datagrams apart by nothing, so an answer may be printed for another
line than the one it answers, and a line may never be answered. But what is printed is always the
answer to a line of the same client. A line is what `fgets` reads at once, at most 1023 bytes, as
far as its first NUL.

## Main definitions

* `Udp.Lossy.Traffic`, `Udp.Lossy.system`: what has been sent, and the programs on the network

## Main results

* `Udp.Lossy.wpr_server`, `Udp.Lossy.wpr_client`: a turn of each program
* `Udp.Lossy.own_lines`: a client is shown its own lines only, and stays inside its buffer
-/

namespace UnixNetwork

namespace Udp

namespace Lossy

open Interaction
open StrCli01 (nextLine)
open TextInput

/-! ## The system -/

/-- The programs. -/
inductive Node (ι : Type) where
  | server
  | client (i : ι)
deriving DecidableEq

variable {ι : Type}

/-- What the programs have sent and printed. -/
structure Traffic (ι : Type) where
  /-- What each client has not read of its file. -/
  file : ι → List Byte
  /-- The datagrams that each client has sent. -/
  sent : ι → List (List Byte)
  /-- The datagrams that the server has sent to each peer. -/
  answered : Peer ι → List (List Byte)
  /-- The texts that each client has printed. -/
  shown : ι → List (List Byte)

variable [DecidableEq ι]

/-- The surroundings of the server: it receives the beginning of any datagram that has been sent by
a client, or what a stranger has sent. -/
def serverWorld (ι : Type) [DecidableEq ι] : World (udp (Peer ι)) (Traffic ι) where
  Allows m c r := match c, r with
    | .recvfrom _ dst _, r => ∃ bs a, r = .ok (bs, a) ∧ (bs.length : ℤ) ≤ dst.len ∧ a ≠ .server ∧
        ∀ i, a = .client i → ∃ l ∈ m.sent i, bs = l.take dst.len.toNat
    | .sendto _ src _ _ _, r => ∃ n : ℕ, r = .ok n ∧ n = src.len
    | _, _ => True
  next m c _ := match c with
    | .sendto _ src mem a _ =>
      { m with answered := Function.update m.answered a (m.answered a ++ [src.bytes mem]) }
    | _ => m

/-- The surroundings of client `i`: it receives the beginning of any datagram that the server has
sent to it. Nobody else sends it one. -/
def clientWorld (i : ι) : World (udp (Peer ι)) (Traffic ι) where
  Allows m c r := match c, r with
    | .fgets size, r => r = nextLine size (m.file i)
    | .recvfrom _ dst _, r => ∃ l ∈ m.answered (.client i), r = .ok (l.take dst.len.toNat, .server)
    | .sendto _ src _ _ _, r => ∃ n : ℕ, r = .ok n ∧ n = src.len
    | _, _ => True
  next m c r := match c, r with
    | .fgets _, some line =>
      { m with file := Function.update m.file i ((m.file i).drop line.length) }
    | .sendto _ src mem _ _, _ =>
      { m with sent := Function.update m.sent i (m.sent i ++ [src.bytes mem]) }
    | .printfStr _ arg _, _ =>
      { m with shown := Function.update m.shown i (m.shown i ++ [CString.str arg]) }
    | _, _ => m

/-- The clients and the server. -/
def system (S : Setup ι) : System (Node ι) (Traffic ι) where
  I _ := udp (Peer ι)
  σ
    | .server => Echo.Locals (Peer ι)
    | .client _ => Buf 1024
  ρ
    | .server => Empty
    | .client _ => Unit
  world
    | .server => serverWorld ι
    | .client i => clientWorld i
  body
    | .server => Echo.body S.serverfd S.len
    | .client i => Cli.body (S.sockfd i) Peer.server S.len

/-- All programs at their beginning. -/
def start (S : Setup ι) (input : ι → List Byte) : (system S).State where
  fst
    | .server => .ret (.inl ⟨S.sendline, S.clientAddr⟩)
    | .client i => .ret (.inl (S.buf i))
  snd := ⟨input, fun _ => [], fun _ => [], fun _ => []⟩

/-! ## What holds at every moment -/

variable {input : ι → List Byte} {m m' : Traffic ι}

/-- What holds at every moment. -/
structure Sound (input : ι → List Byte) (m : Traffic ι) : Prop where
  /-- What has been sent are lines of the client's file, in order. -/
  sent : ∀ i, m.sent i <+: texts (input i)
  /-- The server has answered a client with the beginnings of its own lines only. -/
  answered : ∀ i, ∀ bs ∈ m.answered (.client i), ∃ l ∈ m.sent i, bs = l.take 80
  /-- A client has printed the beginnings of its own lines only. -/
  shown : ∀ i, ∀ t ∈ m.shown i, ∃ l ∈ m.sent i, t = l.take 80
  /-- A client has printed no more often than it has sent a line. -/
  once : ∀ i, (m.shown i).length ≤ (m.sent i).length

/-- What the server relies on. -/
structure ServerSide (input : ι → List Byte) (m m' : Traffic ι) : Prop where
  /-- What has been sent has been sent. -/
  sent : ∀ i, m.sent i <+: m'.sent i
  /-- What holds at every moment still holds. -/
  sound : Sound input m → Sound input m'

/-- What client `i` relies on. -/
structure ClientSide (input : ι → List Byte) (i : ι) (m m' : Traffic ι) : Prop where
  /-- The file of the client is as before. -/
  file : m'.file i = m.file i
  /-- What the client has sent is as before. -/
  sent : m'.sent i = m.sent i
  /-- What the client has printed is as before. -/
  shown : m'.shown i = m.shown i
  /-- What holds at every moment still holds. -/
  sound : Sound input m → Sound input m'

/-- The contract of the server. -/
def serverContract (input : ι → List Byte) : Contract (udp (Peer ι)) (Traffic ι) where
  Call m _ := Sound input m
  Fault _ := False
  Rely := ServerSide input
  Guarantee m m' := ∀ i, ClientSide input i m m'
  refl _ := ⟨fun _ => List.prefix_refl _, id⟩
  trans h h' := ⟨fun i => (h.sent i).trans (h'.sent i), h'.sound ∘ h.sound⟩

/-- The contract of client `i`. -/
def clientContract (input : ι → List Byte) (i : ι) : Contract (udp (Peer ι)) (Traffic ι) where
  Call m c := Sound input m ∧ c.Proper
  Fault _ := False
  Rely := ClientSide input i
  Guarantee m m' := ServerSide input m m' ∧ ∀ j, j ≠ i → ClientSide input j m m'
  refl _ := ⟨rfl, rfl, rfl, id⟩
  trans h h' := ⟨h'.file.trans h.file, h'.sent.trans h.sent, h'.shown.trans h.shown,
    h'.sound ∘ h.sound⟩

/-- The contracts of the programs. -/
def contract (S : Setup ι) (input : ι → List Byte) :
    ∀ n, Contract ((system S).I n) (Traffic ι)
  | .server => serverContract input
  | .client i => clientContract input i

theorem fits (S : Setup ι) (input : ι → List Byte) :
    System.Fits (Y := system S) (contract S input) := by
  rintro (_ | i) (_ | j) hj m m' h
  · exact absurd rfl hj
  · exact h j
  · exact h.1
  · exact h.2 j fun he => hj (he ▸ rfl)

/-! ## One turn of the server -/

/-- A datagram of the server to a peer that has sent a line with this beginning. -/
theorem Sound.answer (h : Sound input m) {a : Peer ι} {bs : List Byte}
    (ha : ∀ i, a = .client i → ∃ l ∈ m.sent i, bs = l.take 80) :
    Sound input { m with answered := Function.update m.answered a (m.answered a ++ [bs]) } where
  sent := h.sent
  answered i b hb := by
    by_cases hi : a = .client i
    · subst hi
      have hb : b ∈ Function.update m.answered (.client i) (m.answered (.client i) ++ [bs])
        (.client i) := hb
      rw [Function.update_self, List.mem_append, List.mem_singleton] at hb
      rcases hb with hb | rfl
      · exact h.answered i b hb
      · exact ha i rfl
    · have hb : b ∈ Function.update m.answered a (m.answered a ++ [bs]) (.client i) := hb
      rw [Function.update_of_ne (Ne.symm hi)] at hb
      exact h.answered i b hb
  shown := h.shown
  once := h.once

/-- **A turn of the server** sends what it has received to where it came from. -/
theorem wpr_server (h : Sound input m) (sockfd : ℤ) (len : ℕ) (s : Echo.Locals (Peer ι)) :
    wpr (serverWorld ι) (serverContract input) (Echo.body sockfd len s)
      (Sum.elim (fun _ => Sound input) fun _ _ => False) m := by
  refine fun m₁ h₁ => ⟨h₁.sound h, ?_⟩
  rintro r ⟨bs, a, rfl, hlen, -, ha⟩
  have hlen : bs.length ≤ 80 := Int.ofNat_le.mp hlen
  refine ⟨fun i => ⟨rfl, rfl, rfl, id⟩, fun m₂ h₂ => ⟨h₂.sound (h₁.sound h), fun _ _ => ?_⟩⟩
  refine ⟨fun i => ⟨rfl, rfl, rfl, id⟩, fun m₃ h₃ => ?_⟩
  have hsound := h₃.sound (h₂.sound (h₁.sound h))
  refine ⟨hsound, fun r _ => ?_⟩
  have hbytes : (Span.first 80 bs.length).bytes (s.sendline.put 0 bs).toList = bs :=
    Span.bytes_first_put hlen
  have hanswer : Sound input
      { m₃ with answered := Function.update m₃.answered a (m₃.answered a ++ [bs]) } := by
    refine hsound.answer fun i hi => ?_
    obtain ⟨l, hl, hbs⟩ := ha i hi
    exact ⟨l, (h₃.sent i).subset ((h₂.sent i).subset hl), hbs⟩
  rw [← hbytes] at hanswer
  exact ⟨fun i => ⟨rfl, rfl, rfl, fun _ => hanswer⟩, fun m₄ h₄ => h₄.sound hanswer⟩

/-! ## One turn of a client -/

omit [DecidableEq ι] in
/-- The calls of a turn. -/
theorem exists_turn (sockfd : ℤ) (len : ℕ) (buf : Buf 1024) :
    ∃ k, Cli.body sockfd (Peer.server (ι := ι)) len buf = .call (.fgets 1024) k ∧
      k none = .ret (.inr ()) ∧ ∀ line, line.length < 1024 →
        ∃ k' mem, k (some line) = (.call (.sendto sockfd
            (Span.first 1024 (CString.str line).length) mem .server len) fun _ =>
              .call (.recvfrom sockfd (Span.whole 1024) 0) k') ∧
          (Span.first 1024 (CString.str line).length).bytes mem = CString.str line ∧
          ∀ bs a, bs.length < 1024 → ∃ buf' l, k' (.ok (bs, a)) =
            .call (.printfStr (text "Received: ") (bs ++ 0 :: l) []) fun _ => .ret (.inl buf') := by
  refine ⟨_, Prog.perform_bind _ _, rfl, fun line hlen => ?_⟩
  have hmem := Buf.toList_put_line (b := buf) hlen
  have hstrlen : (strlen (buf.put 0 (line ++ [0])) : Prog (udp (Peer ι)) ℕ) =
      .ret (CString.str line).length := by
    rw [strlen, hmem, if_pos (CString.terminated_append_zero _ _), CString.str_append_cons]
  dsimp only
  rw [hstrlen, Prog.ret_bind]
  refine ⟨_, _, rfl, ?_, fun bs a h => ?_⟩
  · obtain ⟨l, hl⟩ := (CString.str_prefix line).trans (List.prefix_append line
      (0 :: buf.toList.drop (line.length + 1)))
    rw [hmem, ← hl]
    exact Span.bytes_first_append _ l
  · have hmem := Buf.toList_put_set (buf.put 0 (line ++ [0])) h
    refine ⟨((buf.put 0 (line ++ [0])).put 0 bs).set bs.length 0 h,
      (buf.put 0 (line ++ [0])).toList.drop (bs.length + 1), ?_⟩
    have hstore : (storeAt ((buf.put 0 (line ++ [0])).put 0 bs) bs.length 0 :
        Prog (udp (Peer ι)) (Buf 1024)) =
          .ret (((buf.put 0 (line ++ [0])).put 0 bs).set bs.length 0 h) := storeAt_of_lt h 0
    rw [← hmem]
    dsimp only [Prog.bind, payload_ok, readValue_ok, readBytes_ok]
    rw [hstore]
    rfl

/-- At the head of its loop a client has sent the lines it has read. -/
structure ClientHead (input : ι → List Byte) (i : ι) (m : Traffic ι) : Prop where
  /-- What holds at every moment. -/
  sound : Sound input m
  /-- All lines that have been read have been sent. -/
  turn : ∃ k, m.sent i = (texts (input i)).take k ∧ Left (input i) k (m.file i)

omit [DecidableEq ι] in
theorem ClientHead.rely {i : ι} (h : ClientHead input i m) (h' : ClientSide input i m m') :
    ClientHead input i m' := by
  refine ⟨h'.sound h.sound, ?_⟩
  rw [h'.sent, h'.file]
  exact h.turn

/-- Behind `fgets` a client has a text to send. -/
structure ClientHas (input : ι → List Byte) (i : ι) (t : List Byte) (m : Traffic ι) : Prop where
  /-- What holds at every moment. -/
  sound : Sound input m
  /-- The text is the next one of its file. -/
  turn : ∃ k, m.sent i ++ [t] = (texts (input i)).take k ∧ Left (input i) k (m.file i)

omit [DecidableEq ι] in
theorem ClientHas.rely {i : ι} {t : List Byte} (h : ClientHas input i t m)
    (h' : ClientSide input i m m') : ClientHas input i t m' := by
  refine ⟨h'.sound h.sound, ?_⟩
  rw [h'.sent, h'.file]
  exact h.turn

/-- Behind `sendto` a client may print one more text. -/
structure ClientWaits (input : ι → List Byte) (i : ι) (m : Traffic ι) : Prop
    extends ClientHead input i m where
  /-- For one line nothing has been printed. -/
  unanswered : (m.shown i).length < (m.sent i).length

omit [DecidableEq ι] in
theorem ClientWaits.rely {i : ι} (h : ClientWaits input i m) (h' : ClientSide input i m m') :
    ClientWaits input i m' := by
  refine ⟨h.toClientHead.rely h', ?_⟩
  rw [h'.shown, h'.sent]
  exact h.unanswered

theorem prefix_update (m : Traffic ι) (i j : ι) (t : List Byte) :
    m.sent j <+: Function.update m.sent i (m.sent i ++ [t]) j := by
  by_cases hj : j = i
  · subst hj
    rw [Function.update_self]
    exact List.prefix_append _ _
  · rw [Function.update_of_ne hj]

/-- A line is sent. -/
theorem ClientHas.send {i : ι} {t : List Byte} (h : ClientHas input i t m) :
    ClientWaits input i { m with sent := Function.update m.sent i (m.sent i ++ [t]) } := by
  obtain ⟨k, hsent, hleft⟩ := h.turn
  have hmono := fun j => prefix_update m i j t
  have hsound : Sound input { m with sent := Function.update m.sent i (m.sent i ++ [t]) } := by
    refine ⟨fun j => ?_, fun j bs hbs => ?_, fun j s hs => ?_, fun j => ?_⟩
    · by_cases hj : j = i
      · subst hj
        dsimp only
        rw [Function.update_self, hsent]
        exact List.take_prefix _ _
      · dsimp only
        rw [Function.update_of_ne hj]
        exact h.sound.sent j
    · exact (h.sound.answered j bs hbs).imp fun l hl => ⟨(hmono j).subset hl.1, hl.2⟩
    · exact (h.sound.shown j s hs).imp fun l hl => ⟨(hmono j).subset hl.1, hl.2⟩
    · exact (h.sound.once j).trans (hmono j).length_le
  refine ⟨⟨hsound, k, ?_, hleft⟩, ?_⟩
  · dsimp only
    rw [Function.update_self, hsent]
  · dsimp only
    rw [Function.update_self, List.length_append, List.length_singleton]
    exact Nat.lt_succ_of_le (h.sound.once i)

/-- The beginning of a line is printed. -/
theorem ClientWaits.print {i : ι} (h : ClientWaits input i m) {t : List Byte}
    (ht : ∃ l ∈ m.sent i, t = l.take 80) :
    ClientHead input i { m with shown := Function.update m.shown i (m.shown i ++ [t]) } := by
  refine ⟨⟨h.sound.sent, h.sound.answered, fun j s hs => ?_, fun j => ?_⟩, h.turn⟩
  · by_cases hj : j = i
    · subst hj
      dsimp only at hs
      rw [Function.update_self, List.mem_append, List.mem_singleton] at hs
      rcases hs with hs | rfl
      · exact h.sound.shown j s hs
      · exact ht
    · dsimp only at hs
      rw [Function.update_of_ne hj] at hs
      exact h.sound.shown j s hs
  · dsimp only
    by_cases hj : j = i
    · subst hj
      rw [Function.update_self, List.length_append, List.length_singleton]
      exact h.unanswered
    · rw [Function.update_of_ne hj]
      exact h.sound.once j

omit [DecidableEq ι] in
/-- What has been answered to a client is a short text. -/
theorem Sound.answer_short {i : ι} (h : Sound input m) {bs : List Byte}
    (hbs : bs ∈ m.answered (.client i)) :
    bs.length < 1024 ∧ 0 ∉ bs ∧ ∃ l ∈ m.sent i, bs = l.take 80 := by
  obtain ⟨l, hl, rfl⟩ := h.answered i bs hbs
  have h0 := zero_notMem_of_mem_texts ((h.sent i).subset hl)
  have hlen := List.length_take_le 80 l
  exact ⟨by omega, fun hmem => h0 (List.mem_of_mem_take hmem), l, hl, rfl⟩

/-- An answer is printed. -/
theorem wpr_receive {i : ι} (h : ClientWaits input i m) (sockfd : ℤ)
    {k : Except Errno (List Byte × Peer ι) → Prog (udp (Peer ι)) (Buf 1024 ⊕ Unit)}
    (hk : ∀ bs a, bs.length < 1024 → ∃ buf' l, k (.ok (bs, a)) =
      .call (.printfStr (text "Received: ") (bs ++ 0 :: l) []) fun _ => .ret (.inl buf')) :
    wpr (clientWorld i) (clientContract input i)
      (.call (I := udp (Peer ι)) (.recvfrom sockfd (Span.whole 1024) 0) k)
      (Sum.elim (fun _ => ClientHead input i) fun _ => Sound input) m := by
  refine fun m₁ h₁ => ?_
  have hm₁ := h.rely h₁
  refine ⟨⟨hm₁.sound, ⟨le_rfl, by decide, le_rfl⟩⟩, ?_⟩
  rintro r ⟨bs, hbs, rfl⟩
  obtain ⟨hlen, h0, hline⟩ := hm₁.sound.answer_short hbs
  have htake : bs.take (Span.whole 1024).len.toNat = bs := List.take_of_length_le hlen.le
  rw [htake]
  obtain ⟨buf', l, hprint⟩ := hk bs .server hlen
  rw [hprint]
  refine ⟨⟨⟨fun _ => List.prefix_refl _, id⟩, fun _ _ => ⟨rfl, rfl, rfl, id⟩⟩, fun m₂ h₂ => ?_⟩
  have hm₂ := hm₁.rely h₂
  refine ⟨⟨hm₂.sound, CString.terminated_append_zero bs l⟩, fun _ _ => ?_⟩
  have hhead := hm₂.print (t := bs) (h₂.sent ▸ hline)
  rw [← CString.str_append_zero h0 l] at hhead
  exact ⟨⟨⟨fun _ => List.prefix_refl _, fun _ => hhead.sound⟩, fun j hj =>
    ⟨rfl, rfl, Function.update_of_ne hj _ _, fun _ => hhead.sound⟩⟩, fun m₃ h₃ => hhead.rely h₃⟩

/-- A line is sent and an answer printed. -/
theorem wpr_send {i : ι} {t mem : List Byte} (h : ClientHas input i t m) (hlen : t.length ≤ 1024)
    (hmem : (Span.first 1024 t.length).bytes mem = t) (sockfd : ℤ) (len : ℕ)
    {k : Except Errno (List Byte × Peer ι) → Prog (udp (Peer ι)) (Buf 1024 ⊕ Unit)}
    (hk : ∀ bs a, bs.length < 1024 → ∃ buf' l, k (.ok (bs, a)) =
      .call (.printfStr (text "Received: ") (bs ++ 0 :: l) []) fun _ => .ret (.inl buf')) :
    wpr (clientWorld i) (clientContract input i)
      (.call (I := udp (Peer ι)) (.sendto sockfd (Span.first 1024 t.length) mem .server len)
        fun _ => .call (I := udp (Peer ι)) (.recvfrom sockfd (Span.whole 1024) 0) k)
      (Sum.elim (fun _ => ClientHead input i) fun _ => Sound input) m := by
  refine fun m₁ h₁ => ?_
  have hm₁ := h.rely h₁
  refine ⟨⟨hm₁.sound, Span.inBounds_first hlen⟩, fun r _ => ?_⟩
  have hmono := fun j => prefix_update m₁ i j t
  have hwaits := hm₁.send
  have hnext : (clientWorld i).next m₁
      (.sendto sockfd (Span.first 1024 t.length) mem .server len) r =
        { m₁ with sent := Function.update m₁.sent i (m₁.sent i ++ [t]) } :=
    congrArg (fun bs => { m₁ with sent := Function.update m₁.sent i (m₁.sent i ++ [bs]) }) hmem
  rw [hnext]
  exact ⟨⟨⟨hmono, fun _ => hwaits.sound⟩, fun j hj =>
    ⟨rfl, Function.update_of_ne hj _ _, rfl, fun _ => hwaits.sound⟩⟩, wpr_receive hwaits sockfd hk⟩

/-- **A turn of a client** sends the next line of its file and prints the beginning of one that it
has sent. -/
theorem wpr_client {i : ι} (h : ClientHead input i m) (sockfd : ℤ) (len : ℕ) (buf : Buf 1024) :
    wpr (clientWorld i) (clientContract input i) (Cli.body sockfd Peer.server len buf)
      (Sum.elim (fun _ => ClientHead input i) fun _ => Sound input) m := by
  obtain ⟨k, hbody, hnone, hsome⟩ := exists_turn (ι := ι) sockfd len buf
  rw [hbody]
  refine fun m₁ h₁ => ⟨⟨(h.rely h₁).sound, le_rfl⟩, ?_⟩
  rintro line rfl
  obtain ⟨hsound, n, hsent, hleft⟩ := h.rely h₁
  obtain ⟨htake, hleft'⟩ := hleft.next
  cases hline : nextLine 1024 (m₁.file i) with
  | none =>
    rw [hnone]
    exact ⟨⟨⟨fun _ => List.prefix_refl _, id⟩, fun _ _ => ⟨rfl, rfl, rfl, id⟩⟩,
      fun m' hm' => hm'.sound hsound⟩
  | some line =>
    rw [hline] at htake hleft'
    have hlen := length_of_nextLine hline
    obtain ⟨k', mem, hsend, hmem, hprint⟩ := hsome line hlen
    have hhas : ClientHas input i (CString.str line)
        { m₁ with file := Function.update m₁.file i ((m₁.file i).drop line.length) } := by
      refine ⟨⟨hsound.sent, hsound.answered, hsound.shown, hsound.once⟩, n + 1, ?_, ?_⟩
      · rw [htake, ← hsent]
        rfl
      · dsimp only
        rw [Function.update_self]
        exact hleft'
    refine ⟨⟨⟨fun _ => List.prefix_refl _, fun _ => hhas.sound⟩, fun j hj =>
      ⟨Function.update_of_ne hj _ _, rfl, rfl, fun _ => hhas.sound⟩⟩, ?_⟩
    rw [hsend]
    exact wpr_send hhas ((CString.length_str_le line).trans hlen.le) hmem sockfd len hprint

/-! ## All programs -/

variable {S : Setup ι}

/-- What the rounds of each program end with. -/
def Ends (S : Setup ι) (input : ι → List Byte) :
    ∀ n, (system S).σ n ⊕ (system S).ρ n → Traffic ι → Prop
  | .server => Sum.elim (fun _ => Sound input) fun _ _ => False
  | .client i => Sum.elim (fun _ => ClientHead input i) fun _ => Sound input

theorem kept_start (S : Setup ι) (input : ι → List Byte) :
    (system S).Kept (contract S input) (Ends S input) (start S input) := by
  have hsound : Sound input (start S input).2 :=
    ⟨fun _ => List.nil_prefix, fun _ _ h => absurd h List.not_mem_nil,
      fun _ _ h => absurd h List.not_mem_nil, fun _ => le_rfl⟩
  rintro (_ | i) m hm
  · exact hm.sound hsound
  · have hhead : ClientHead input i (start S input).2 := ⟨hsound, 0, rfl, left_zero (input i)⟩
    exact hhead.rely hm

theorem kept_of_reach {a : (system S).State} (h : (system S).Reach (start S input) a) :
    (system S).Kept (contract S input) (Ends S input) a := by
  refine h.wpr (fits S input) ?_ (kept_start S input)
  rintro (_ | i) s m hs
  · exact wpr_server hs S.serverfd S.len s
  · exact wpr_client hs (S.sockfd i) S.len s

/-- What a program does next is defined and stays inside its arrays. -/
def Safe {A α : Type} : Prog (udp A) α → Prop
  | .ret _ => True
  | .call c _ => c.Proper
  | .fault => False

/-- Each client is shown its own lines only. -/
structure OwnLines (S : Setup ι) (input : ι → List Byte) : Prop where
  /-- What a client has sent are lines of its file, in order. -/
  sent : ∀ a i, (system S).Reach (start S input) a → a.2.sent i <+: texts (input i)
  /-- Each text it prints is the beginning of a line that it has sent before. -/
  shown : ∀ a i, (system S).Reach (start S input) a →
    ∀ t ∈ a.2.shown i, ∃ l ∈ a.2.sent i, t = l.take 80
  /-- It prints no more texts than it has sent lines. -/
  once : ∀ a i, (system S).Reach (start S input) a →
    (a.2.shown i).length ≤ (a.2.sent i).length
  /-- It stays inside its buffer. -/
  safe : ∀ a i, (system S).Reach (start S input) a → Safe (a.1 (.client i))

theorem sound_of_reach {a : (system S).State} (h : (system S).Reach (start S input) a) :
    Sound input a.2 := by
  refine wp_now ((kept_of_reach h).wp .server) ?_ (fun _ _ hc => hc) fun _ hf => hf.elim
  rintro (s | r) m hQ
  · exact hQ
  · exact hQ.elim

/-- **A client is shown its own lines only**, whatever the network does and whatever strangers send
to the server. -/
theorem own_lines (S : Setup ι) (input : ι → List Byte) : OwnLines S input where
  sent a i h := (sound_of_reach h).sent i
  shown a i h := (sound_of_reach h).shown i
  once a i h := (sound_of_reach h).once i
  safe a i h := by
    have hwp := (kept_of_reach h).wp (.client i)
    generalize a.1 (.client i) = p at hwp
    cases p with
    | ret x => trivial
    | call c k => exact hwp.1.2
    | fault => exact hwp

end Lossy

end Udp

end UnixNetwork
