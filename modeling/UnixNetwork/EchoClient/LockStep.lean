import Mathlib.Data.Finite.Defs
import UnixNetwork.EchoClient
import UnixNetwork.Interaction.Channel
import UnixNetwork.Interaction.Parallel
import UnixNetwork.TextInput

/-!
# The first echo client and its server

`main` of `05/client.c` and `main` of `05/server.c`, each in its loop, over a connection that loses
nothing and cuts the two streams as it likes. The client reads once for each line it writes, however
much of the answers that read returns: what has been written and has not come back can add up. Once
it fills the buffer a read of either program can leave no NUL in it.

The client does not see the end of its input and goes on with empty lines, for which nothing is
written. So it waits for more than will ever come.

## Main definitions

* `EchoClient.texts`: what the client writes in its turns
* `EchoClient.Medium`, `EchoClient.pair`: what the two loops share, and the two loops
* `EchoClient.Paced`: what has not come back never fills the buffer

## Main results

* `EchoClient.safe_iff`: when both programs stay inside their buffers
* `EchoClient.ends_in_deadlock`: then both come to wait for each other
-/

namespace UnixNetwork

namespace EchoClient

open Interaction Encoding
open EchoServer (filled)
open StrCli01 (nextLine)
open TextInput

/-! ## The two loops -/

/-- What the two loops share. -/
structure Medium where
  /-- What the client has not read of its input. -/
  file : List Byte
  /-- From the client to the server. -/
  up : Channel Byte
  /-- From the server to the client. -/
  down : Channel Byte
  /-- What the client has printed after `Received: `. -/
  shown : List (List Byte)

/-- The two loops. -/
inductive Party where
  | client
  | server
deriving DecidableEq

instance : Finite Party :=
  Finite.of_injective (fun | .client => false | .server => true) fun i j h => by
    cases i <;> cases j <;> first | rfl | cases h

/-- The surroundings of the client. Writes are complete, and reads do not fail. -/
def clientWorld (sockfd : ℤ) : World stdio Medium where
  Allows m c r := match c, r with
    | .fgets size, r => r = nextLine size m.file
    | .read fd dst, r => fd = sockfd ∧ ∃ bs, r = .ok bs ∧ m.down.Offers bs ∧
        (bs.length : ℤ) ≤ dst.len
    | .write fd src _, r => fd = sockfd ∧ r = .ok src.len.toNat
    | _, _ => True
  next m c r := match c, r with
    | .fgets _, some line => { m with file := m.file.drop line.length }
    | .read .., r => { m with down := m.down.pop (readBytes r).length }
    | .write _ src mem, _ => { m with up := m.up.push (src.bytes mem) }
    | .printfStr _ arg _, _ => { m with shown := m.shown ++ [CString.str arg] }
    | _, _ => m

/-- The surroundings of the server. -/
def serverWorld (connfd : ℤ) : World stdio Medium where
  Allows m c r := match c, r with
    | .read fd dst, r => fd = connfd ∧ ∃ bs, r = .ok bs ∧ m.up.Offers bs ∧
        (bs.length : ℤ) ≤ dst.len
    | .write fd src _, r => fd = connfd ∧ r = .ok src.len.toNat
    | _, _ => True
  next m c r := match c, r with
    | .read .., r => { m with up := m.up.pop (readBytes r).length }
    | .write _ src mem, _ => { m with down := m.down.push (src.bytes mem) }
    | _, _ => m

/-- The client on its socket `sockfd` and the server on its connection `connfd`. Neither of them
closes its descriptor inside its loop, so no stream ends. -/
def pair (sockfd connfd : ℤ) : System Party Medium where
  I _ := stdio
  σ _ := Buf 1024
  ρ _ := Unit
  world
    | .client => clientWorld sockfd
    | .server => serverWorld connfd
  body
    | .client => body sockfd
    | .server => EchoServer.body connfd

/-- Both programs at the heads of their loops; the buffers are not initialised. -/
def start (sockfd connfd : ℤ) (buf : Party → Buf 1024) (input : List Byte) :
    (pair sockfd connfd).State :=
  (fun i => .ret (.inl (buf i)), ⟨input, .empty, .empty, []⟩)

/-- What the client has written in its first `k` turns. -/
def total (input : List Byte) (k : ℕ) : ℕ := ((texts input).take k).flatten.length

/-- What has not come back never fills the buffer: in each turn that the client gets to, what has
been written so far is at most 1023 bytes more than there have been turns before. -/
def Paced (input : List Byte) : Prop :=
  ∀ k, (∀ i ≤ k, i ≤ total input i) → total input (k + 1) ≤ 1023 + k

/-! ## What holds at every moment -/

variable {input : List Byte} {m m' : Medium}

/-- What holds at every moment. -/
structure Sound (input : List Byte) (m : Medium) : Prop where
  /-- The client has written no more than it has read of its input. -/
  written : m.up.sent <+: (texts input).flatten
  /-- The server has written no more than it has read. -/
  echoed : m.down.sent <+: m.up.delivered
  /-- The client has printed no more than it has read. -/
  shown : m.shown.flatten <+: m.down.delivered
  /-- What has not come back does not fill the buffer. -/
  bounded : m.up.sent.length ≤ m.down.delivered.length + 1023

namespace Sound

/-- From the client to the server and back. -/
theorem delivered_down (h : Sound input m) : m.down.delivered <+: m.up.delivered :=
  m.down.delivered_prefix_sent.trans h.echoed

theorem delivered_up (h : Sound input m) : m.up.delivered <+: (texts input).flatten :=
  m.up.delivered_prefix_sent.trans h.written

theorem shown_prefix (h : Sound input m) : m.shown.flatten <+: (texts input).flatten :=
  h.shown.trans (h.delivered_down.trans h.delivered_up)

/-- What the server reads has no NUL in it and does not fill the buffer. -/
theorem offers_up (h : Sound input m) {bs : List Byte} (hbs : m.up.Offers bs) :
    0 ∉ bs ∧ bs.length < 1024 := by
  constructor
  · intro h0
    have hsent : 0 ∈ m.up.sent := List.mem_append_right _ (hbs.2.subset h0)
    exact zero_notMem_flatten_texts (h.written.subset hsent)
  · have hle := hbs.length_le
    have hback := h.delivered_down.length_le
    have hlen := m.up.length_sent
    have hbound := h.bounded
    omega

/-- What the client reads has no NUL in it and does not fill the buffer. -/
theorem offers_down (h : Sound input m) {bs : List Byte} (hbs : m.down.Offers bs) :
    0 ∉ bs ∧ bs.length < 1024 := by
  have hup : m.up.sent.length ≤ m.down.delivered.length + 1023 := h.bounded
  constructor
  · intro h0
    have hsent : 0 ∈ m.down.sent := List.mem_append_right _ (hbs.2.subset h0)
    exact zero_notMem_flatten_texts ((h.echoed.trans h.delivered_up).subset hsent)
  · have hle := hbs.length_le
    have hback := h.echoed.length_le
    have hlen := m.down.length_sent
    have hlen' := m.up.length_sent
    omega

end Sound

/-! ## What the two loops tell each other -/

/-- What the client relies on, and the server guarantees. -/
structure ClientSide (input : List Byte) (m m' : Medium) : Prop where
  /-- The file is as before. -/
  file : m'.file = m.file
  /-- What has been printed is as before. -/
  shown : m'.shown = m.shown
  /-- What the client has read is as before. -/
  delivered : m'.down.delivered = m.down.delivered
  /-- What the client has written is as before. -/
  sent : m'.up.sent = m.up.sent
  /-- What holds at every moment still holds. -/
  sound : Sound input m → Sound input m'

/-- What the server relies on, and the client guarantees. -/
structure ServerSide (input : List Byte) (m m' : Medium) : Prop where
  /-- What the server has read is as before. -/
  delivered : m'.up.delivered = m.up.delivered
  /-- What the server has written is as before. -/
  sent : m'.down.sent = m.down.sent
  /-- What holds at every moment still holds. -/
  sound : Sound input m → Sound input m'

/-- How far the client has come: `k` turns are over, `i` texts have been written and `j` lines have
been read. -/
structure Progress (input : List Byte) (k i j : ℕ) (m : Medium) : Prop where
  /-- Each turn has read something. -/
  turns : k ≤ m.down.delivered.length
  /-- In each turn there was something to read. -/
  enough : ∀ n ≤ k, n ≤ total input n
  /-- What has been written. -/
  sent : m.up.sent = ((texts input).take i).flatten
  /-- What has not been read of the input. -/
  file : Left input j m.file

/-- What is asked of the client when it makes a call. Unless there are NULs in its input, it reads
only if its input has come to an end or not all that it has written has come back. -/
def ClientCall (input : List Byte) (sockfd : ℤ) (m : Medium) : Stdio.Call → Prop
  | .fgets size => size = 1024
  | .write fd src _ => fd = sockfd ∧ src.InBounds
  | .read fd dst => fd = sockfd ∧ dst = Span.whole 1024 ∧ m.shown.flatten = m.down.delivered ∧
      (∃ k, Progress input k (k + 1) (k + 1) m) ∧
      (0 ∈ input ∨ m.file = [] ∨ m.down.delivered.length < m.up.sent.length)
  | .printfStr _ arg _ => CString.Terminated arg
  | _ => False

/-- What is asked of the server when it makes a call. -/
def ServerCall (connfd : ℤ) (m : Medium) : Stdio.Call → Prop
  | .read fd dst => fd = connfd ∧ dst = Span.whole 1024 ∧ m.down.sent = m.up.delivered
  | .write fd src _ => fd = connfd ∧ src.InBounds
  | .printfStr _ arg _ => CString.Terminated arg
  | _ => False

/-- The contract of the client. -/
def clientContract (input : List Byte) (sockfd : ℤ) : Contract stdio Medium where
  Call m c := Sound input m ∧ ClientCall input sockfd m c
  Fault _ := False
  Rely := ClientSide input
  Guarantee := ServerSide input
  refl _ := ⟨rfl, rfl, rfl, rfl, id⟩
  trans h h' := ⟨h'.file.trans h.file, h'.shown.trans h.shown, h'.delivered.trans h.delivered,
    h'.sent.trans h.sent, h'.sound ∘ h.sound⟩

/-- The contract of the server. -/
def serverContract (input : List Byte) (connfd : ℤ) : Contract stdio Medium where
  Call m c := Sound input m ∧ ServerCall connfd m c
  Fault _ := False
  Rely := ServerSide input
  Guarantee := ClientSide input
  refl _ := ⟨rfl, rfl, id⟩
  trans h h' := ⟨h'.delivered.trans h.delivered, h'.sent.trans h.sent, h'.sound ∘ h.sound⟩

/-- The contracts of the two loops. -/
def contract (input : List Byte) (sockfd connfd : ℤ) :
    ∀ i, Contract ((pair sockfd connfd).I i) Medium
  | .client => clientContract input sockfd
  | .server => serverContract input connfd

theorem fits (input : List Byte) (sockfd connfd : ℤ) :
    System.Fits (Y := pair sockfd connfd) (contract input sockfd connfd) := by
  intro i j hj m m' h
  cases i <;> cases j
  · exact absurd rfl hj
  · exact h
  · exact h
  · exact absurd rfl hj

/-! ## One turn of the server -/

/-- How much the server has not read yet of what will ever be written. -/
def serverLeft (input : List Byte) (m : Medium) : ℕ :=
  (texts input).flatten.length - m.up.delivered.length

/-- A read of the server. -/
theorem Sound.read_up (h : Sound input m) {bs : List Byte} (hbs : m.up.Offers bs) :
    Sound input { m with up := m.up.pop bs.length } where
  written := m.up.sent_pop _ ▸ h.written
  echoed := by
    rw [hbs.delivered_pop]
    exact h.echoed.trans (List.prefix_append _ _)
  shown := h.shown
  bounded := m.up.sent_pop _ ▸ h.bounded

/-- A write of the server. -/
theorem Sound.write_down (h : Sound input m) {bs : List Byte}
    (hbs : m.down.sent ++ bs <+: m.up.delivered) :
    Sound input { m with down := m.down.push bs } where
  written := h.written
  echoed := Channel.sent_push ▸ hbs
  shown := h.shown
  bounded := h.bounded

theorem Sound.serverLeft_lt (h : Sound input m) {bs : List Byte} (hbs : m.up.Offers bs) :
    serverLeft input { m with up := m.up.pop bs.length } < serverLeft input m := by
  have hle := (h.read_up hbs).delivered_up.length_le
  have hpos := hbs.length_pos
  rw [hbs.delivered_pop, List.length_append] at hle
  rw [serverLeft, serverLeft, hbs.delivered_pop, List.length_append]
  omega

/-- At the head of its loop the server has written what it has read. -/
structure ServerHead (input : List Byte) (m : Medium) : Prop where
  /-- What holds at every moment. -/
  sound : Sound input m
  /-- All that has been read has been written. -/
  echoed : m.down.sent = m.up.delivered

theorem ServerHead.rely (h : ServerHead input m) (h' : ServerSide input m m') :
    ServerHead input m' :=
  ⟨h'.sound h.sound, by rw [h'.sent, h'.delivered, h.echoed]⟩

/-- Behind its read the server has `bs` to write, and less to read than `n`. -/
structure ServerHas (input bs : List Byte) (n : ℕ) (m : Medium) : Prop where
  /-- What holds at every moment. -/
  sound : Sound input m
  /-- All that has been read but `bs` has been written. -/
  echoed : m.down.sent ++ bs = m.up.delivered
  /-- Something has been read. -/
  left : serverLeft input m < n

theorem ServerHas.rely {bs : List Byte} {n : ℕ} (h : ServerHas input bs n m)
    (h' : ServerSide input m m') : ServerHas input bs n m' where
  sound := h'.sound h.sound
  echoed := by rw [h'.sent, h'.delivered, h.echoed]
  left := by
    rw [serverLeft, h'.delivered]
    exact h.left

/-- What the server writes is what it has read. -/
theorem wpr_answer {bs : List Byte} {n : ℕ} (hbs : 0 ∉ bs ∧ bs.length < 1024)
    (h : ServerHas input bs n m) (connfd : ℤ) :
    wpr (serverWorld connfd) (serverContract input connfd) (EchoServer.answer connfd bs)
      (Sum.elim (fun _ m' => ServerHead input m' ∧ serverLeft input m' < n) fun _ _ => False)
        m := by
  rw [EchoServer.answer_of_terminated hbs.2.le (.inr hbs.2)]
  have hbytes := EchoServer.bytes_filled hbs.2.le
  rw [CString.str_eq_self_iff.mpr hbs.1] at hbytes ⊢
  refine fun m₁ h₁ => ⟨⟨(h.rely h₁).sound, ?_⟩, fun _ _ => ⟨⟨rfl, rfl, rfl, rfl, id⟩, ?_⟩⟩
  · exact (EchoServer.terminated_filled hbs.2.le).mpr (.inr hbs.2)
  refine fun m₂ h₂ => ?_
  have hm₂ := (h.rely h₁).rely h₂
  refine ⟨⟨hm₂.sound, rfl, Span.inBounds_first hbs.2.le⟩, fun r _ => ?_⟩
  have hnext : (serverWorld connfd).next m₂
      (.write connfd (Span.first 1024 bs.length) (filled bs).toList) r =
        { m₂ with down := m₂.down.push bs } :=
    congrArg (fun l => { m₂ with down := m₂.down.push l }) hbytes
  have hsound := hm₂.sound.write_down ⟨[], by rw [List.append_nil, hm₂.echoed]⟩
  rw [hnext]
  refine ⟨⟨rfl, rfl, rfl, rfl, fun _ => hsound⟩, fun m₃ h₃ => ?_⟩
  have hhead : ServerHead input { m₂ with down := m₂.down.push bs } :=
    ⟨hsound, Channel.sent_push.trans hm₂.echoed⟩
  refine ⟨hhead.rely h₃, ?_⟩
  rw [serverLeft, h₃.delivered]
  exact hm₂.left

/-- **A turn of the server** writes what it reads. -/
theorem wpr_server (h : ServerHead input m) (connfd : ℤ) (buf : Buf 1024) :
    wpr (serverWorld connfd) (serverContract input connfd) (EchoServer.body connfd buf)
      (Sum.elim (fun _ m' => ServerHead input m' ∧ serverLeft input m' < serverLeft input m)
        fun _ _ => False) m := by
  rw [EchoServer.body_eq]
  refine fun m₁ h₁ => ⟨⟨h₁.sound h.sound, rfl, rfl, (h.rely h₁).echoed⟩, ?_⟩
  rintro r ⟨-, bs, rfl, hbs, -⟩
  have hm₁ := h.rely h₁
  have hread := hm₁.sound.read_up hbs
  refine ⟨⟨rfl, rfl, rfl, m₁.up.sent_pop _, fun _ => hread⟩, ?_⟩
  refine wpr_answer (hm₁.sound.offers_up hbs) ⟨hread, ?_, ?_⟩ connfd
  · show m₁.down.sent ++ bs = (m₁.up.pop bs.length).delivered
    rw [hbs.delivered_pop, hm₁.echoed]
  · have hlt := hm₁.sound.serverLeft_lt hbs
    have hsame : serverLeft input m₁ = serverLeft input m := by
      rw [serverLeft, h₁.delivered, serverLeft]
    exact hsame ▸ hlt

/-! ## One turn of the client -/

theorem Progress.rely {k i j : ℕ} (h : Progress input k i j m) (h' : ClientSide input m m') :
    Progress input k i j m' :=
  ⟨h'.delivered ▸ h.turns, h.enough, h'.sent ▸ h.sent, h'.file ▸ h.file⟩

/-- How much the client has not read yet of what will ever be written. -/
def clientLeft (input : List Byte) (m : Medium) : ℕ :=
  (texts input).flatten.length - m.down.delivered.length

/-- A write of the client, where what has not come back does not fill the buffer. -/
theorem Sound.write_up (h : Sound input m) {t : List Byte}
    (ht : m.up.sent ++ t <+: (texts input).flatten)
    (hlen : (m.up.sent ++ t).length ≤ m.down.delivered.length + 1023) :
    Sound input { m with up := m.up.push t } where
  written := Channel.sent_push ▸ ht
  echoed := h.echoed
  shown := h.shown
  bounded := Channel.sent_push ▸ hlen

/-- A read of the client. -/
theorem Sound.read_down (h : Sound input m) {bs : List Byte} (hbs : m.down.Offers bs) :
    Sound input { m with down := m.down.pop bs.length } where
  written := h.written
  echoed := m.down.sent_pop _ ▸ h.echoed
  shown := by
    rw [hbs.delivered_pop]
    exact h.shown.trans (List.prefix_append _ _)
  bounded := by
    rw [hbs.delivered_pop, List.length_append]
    exact h.bounded.trans (by omega)

/-- The client prints what it has read. -/
theorem Sound.print (h : Sound input m) {bs : List Byte}
    (hbs : m.shown.flatten ++ bs = m.down.delivered) :
    Sound input { m with shown := m.shown ++ [bs] } where
  written := h.written
  echoed := h.echoed
  shown := by
    rw [List.flatten_append, List.flatten_singleton]
    exact ⟨[], by rw [List.append_nil, hbs]⟩
  bounded := h.bounded

theorem Sound.clientLeft_lt (h : Sound input m) {bs : List Byte} (hbs : m.down.Offers bs) :
    clientLeft input { m with down := m.down.pop bs.length } < clientLeft input m := by
  have hread := h.read_down hbs
  have hle := (hread.delivered_down.trans hread.delivered_up).length_le
  have hpos := hbs.length_pos
  rw [hbs.delivered_pop, List.length_append] at hle
  rw [clientLeft, clientLeft, hbs.delivered_pop, List.length_append]
  omega

/-- At the head of its loop the client has printed what it has read. -/
structure ClientHead (input : List Byte) (m : Medium) : Prop where
  /-- What holds at every moment. -/
  sound : Sound input m
  /-- All that has been read has been printed. -/
  shown : m.shown.flatten = m.down.delivered
  /-- All lines that have been read have been written. -/
  turn : ∃ k, Progress input k k k m

theorem ClientHead.rely (h : ClientHead input m) (h' : ClientSide input m m') :
    ClientHead input m' :=
  ⟨h'.sound h.sound, by rw [h'.shown, h'.delivered, h.shown], h.turn.imp fun _ ht => ht.rely h'⟩

/-- Behind `fgets` the client has a text to write. -/
structure ClientHas (input t : List Byte) (n : ℕ) (m : Medium) : Prop where
  /-- What holds at every moment. -/
  sound : Sound input m
  /-- All that has been read has been printed. -/
  shown : m.shown.flatten = m.down.delivered
  /-- The text is what is to be written in this turn. -/
  turn : ∃ k, Progress input k k (k + 1) m ∧
    ((texts input).take (k + 1)).flatten = ((texts input).take k).flatten ++ t
  /-- The text is empty only at the end of the input or if it begins with a NUL. -/
  some : 0 ∈ input ∨ m.file = [] ∨ t ≠ []
  /-- Nothing has been read. -/
  left : clientLeft input m = n

theorem ClientHas.rely {t : List Byte} {n : ℕ} (h : ClientHas input t n m)
    (h' : ClientSide input m m') : ClientHas input t n m' where
  sound := h'.sound h.sound
  shown := by rw [h'.shown, h'.delivered, h.shown]
  turn := h.turn.imp fun _ ht => ⟨ht.1.rely h', ht.2⟩
  some := h'.file ▸ h.some
  left := by rw [clientLeft, h'.delivered]; exact h.left

/-- Behind its write the client waits for an answer. -/
structure ClientWaits (input : List Byte) (n : ℕ) (m : Medium) : Prop where
  /-- What holds at every moment. -/
  sound : Sound input m
  /-- All that has been read has been printed. -/
  shown : m.shown.flatten = m.down.delivered
  /-- The text of this turn has been written. -/
  turn : ∃ k, Progress input k (k + 1) (k + 1) m
  /-- Not all has come back, but at the end of the input or behind a NUL. -/
  some : 0 ∈ input ∨ m.file = [] ∨ m.down.delivered.length < m.up.sent.length
  /-- Nothing has been read. -/
  left : clientLeft input m = n

theorem ClientWaits.rely {n : ℕ} (h : ClientWaits input n m) (h' : ClientSide input m m') :
    ClientWaits input n m' where
  sound := h'.sound h.sound
  shown := by rw [h'.shown, h'.delivered, h.shown]
  turn := h.turn.imp fun _ ht => ht.rely h'
  some := by rw [h'.file, h'.delivered, h'.sent]; exact h.some
  left := by rw [clientLeft, h'.delivered]; exact h.left

/-- Behind its read the client has `bs` to print. -/
structure ClientPrints (input bs : List Byte) (n : ℕ) (m : Medium) : Prop where
  /-- What holds at every moment. -/
  sound : Sound input m
  /-- All that has been read but `bs` has been printed. -/
  shown : m.shown.flatten ++ bs = m.down.delivered
  /-- The turn is as good as over. -/
  turn : ∃ k, Progress input k k k m
  /-- Something has been read. -/
  left : clientLeft input m < n

theorem ClientPrints.rely {bs : List Byte} {n : ℕ} (h : ClientPrints input bs n m)
    (h' : ClientSide input m m') : ClientPrints input bs n m' where
  sound := h'.sound h.sound
  shown := by rw [h'.shown, h'.delivered, h.shown]
  turn := h.turn.imp fun _ ht => ht.rely h'
  left := by rw [clientLeft, h'.delivered]; exact h.left

/-- What the client reads is printed. -/
theorem wpr_print {bs : List Byte} {n : ℕ} (hne : bs ≠ []) (hbs : 0 ∉ bs ∧ bs.length < 1024)
    (h : ClientPrints input bs n m) (sockfd : ℤ) :
    wpr (clientWorld sockfd) (clientContract input sockfd) (print (.ok bs))
      (Sum.elim (fun _ m' => ClientHead input m' ∧ clientLeft input m' < n) fun _ _ => False)
        m := by
  have hterm := (EchoServer.terminated_filled hbs.2.le).mpr (.inr hbs.2)
  have hzero : readValue (.ok bs) ≠ 0 := fun h => hne (readValue_ok_eq_zero.mp h)
  rw [print, if_neg hzero, readBytes_ok]
  refine fun m₁ h₁ => ⟨⟨(h.rely h₁).sound, hterm⟩, fun r _ => ?_⟩
  have hm₁ := h.rely h₁
  have hstr : CString.str (filled bs).toList = bs := by
    rw [EchoServer.str_filled hbs.2.le, CString.str_eq_self_iff.mpr hbs.1]
  have hnext : (clientWorld sockfd).next m₁
      (.printfStr (text "Received: ") (filled bs).toList (text "\n")) r =
        { m₁ with shown := m₁.shown ++ [bs] } :=
    congrArg (fun l => { m₁ with shown := m₁.shown ++ [l] }) hstr
  have hsound := hm₁.sound.print hm₁.shown
  rw [hnext]
  refine ⟨⟨rfl, rfl, fun _ => hsound⟩, fun m₂ h₂ => ⟨?_, ?_⟩⟩
  · refine ClientHead.rely ⟨hsound, ?_, ?_⟩ h₂
    · rw [List.flatten_append, List.flatten_singleton, hm₁.shown]
    · exact hm₁.turn.imp fun _ ht => ⟨ht.turns, ht.enough, ht.sent, ht.file⟩
  · rw [clientLeft, h₂.delivered]
    exact hm₁.left

/-- What comes back is printed. -/
theorem wpr_receive {n : ℕ} (h : ClientWaits input n m) (sockfd : ℤ) :
    wpr (clientWorld sockfd) (clientContract input sockfd)
      (.call (I := stdio) (.read sockfd (Span.whole 1024)) print)
      (Sum.elim (fun _ m' => ClientHead input m' ∧ clientLeft input m' < n) fun _ _ => False)
        m := by
  refine fun m₁ h₁ => ?_
  have hm₁ := h.rely h₁
  refine ⟨⟨hm₁.sound, rfl, rfl, hm₁.shown, hm₁.turn, hm₁.some⟩, ?_⟩
  rintro r ⟨-, bs, rfl, hbs, -⟩
  have hread := hm₁.sound.read_down hbs
  obtain ⟨k, hk⟩ := hm₁.turn
  have hlen : k + 1 ≤ (m₁.down.pop bs.length).delivered.length := by
    have hpos := hbs.length_pos
    have hturns := hk.turns
    rw [hbs.delivered_pop, List.length_append]
    omega
  refine ⟨⟨rfl, m₁.down.sent_pop _, fun _ => hread⟩, ?_⟩
  refine wpr_print hbs.1 (hm₁.sound.offers_down hbs)
    ⟨hread, ?_, ⟨k + 1, hlen, ?_, hk.sent, hk.file⟩, ?_⟩ sockfd
  · show m₁.shown.flatten ++ bs = (m₁.down.pop bs.length).delivered
    rw [hbs.delivered_pop, hm₁.shown]
  · -- what has been read had been written
    intro i hi
    rcases Nat.lt_or_eq_of_le hi with hi | rfl
    · exact hk.enough i (Nat.le_of_lt_succ hi)
    · have hle : (m₁.down.pop bs.length).delivered.length ≤ m₁.up.sent.length :=
        (hread.delivered_down.trans m₁.up.delivered_prefix_sent).length_le
      have hsent : m₁.up.sent.length = total input (k + 1) := congrArg List.length hk.sent
      omega
  · exact hm₁.left ▸ hm₁.sound.clientLeft_lt hbs

/-- The text of a turn is written. -/
theorem wpr_send (hpaced : Paced input) {t line : List Byte} {n : ℕ} (h : ClientHas input t n m)
    (ht : CString.str line = t) (hline : line.length < 1024) (sockfd : ℤ) :
    wpr (clientWorld sockfd) (clientContract input sockfd)
      (.call (I := stdio) (.write sockfd (Span.first 1024 t.length) (filled line).toList) fun _ =>
        .call (I := stdio) (.read sockfd (Span.whole 1024)) print)
      (Sum.elim (fun _ m' => ClientHead input m' ∧ clientLeft input m' < n) fun _ _ => False)
        m := by
  have hbytes := EchoServer.bytes_filled hline.le
  rw [ht] at hbytes
  have htlen : t.length ≤ 1024 := ht ▸ (CString.length_str_le line).trans hline.le
  refine fun m₁ h₁ => ?_
  have hm₁ := h.rely h₁
  refine ⟨⟨hm₁.sound, rfl, Span.inBounds_first htlen⟩, fun r _ => ?_⟩
  obtain ⟨k, hk, htext⟩ := hm₁.turn
  have hnext : (clientWorld sockfd).next m₁
      (.write sockfd (Span.first 1024 t.length) (filled line).toList) r =
        { m₁ with up := m₁.up.push t } :=
    congrArg (fun l => { m₁ with up := m₁.up.push l }) hbytes
  have hsent : m₁.up.sent ++ t = ((texts input).take (k + 1)).flatten := by
    rw [htext, hk.sent]
  have hwrite : Sound input { m₁ with up := m₁.up.push t } := by
    refine hm₁.sound.write_up ?_ ?_
    · rw [hsent]
      exact (List.take_prefix _ _).flatten
    · rw [hsent]
      have htotal := hpaced k hk.enough
      have hturns := hk.turns
      rw [total] at htotal
      omega
  rw [hnext]
  refine ⟨⟨rfl, rfl, fun _ => hwrite⟩, wpr_receive ⟨hwrite, hm₁.shown, ?_, ?_, hm₁.left⟩ sockfd⟩
  · exact ⟨k, hk.turns, hk.enough, Channel.sent_push.trans hsent, hk.file⟩
  · -- all that has come back had been written before this turn
    refine hm₁.some.imp_right (Or.imp_right fun hne => ?_)
    have hle := (hm₁.sound.delivered_down.trans m₁.up.delivered_prefix_sent).length_le
    have hpos := List.length_pos_iff.mpr hne
    show m₁.down.delivered.length < (m₁.up.push t).sent.length
    rw [Channel.sent_push, List.length_append]
    omega

theorem next_fgets (sockfd : ℤ) (m : Medium) (size : ℕ) (line : Option (List Byte)) :
    (clientWorld sockfd).next m (.fgets size) line =
      { m with file := m.file.drop (line.getD []).length } := by
  cases line with
  | none => rfl
  | some l => rfl

/-- **A turn of the client**, where what has not come back does not fill the buffer. -/
theorem wpr_client (hpaced : Paced input) (h : ClientHead input m) (sockfd : ℤ) (buf : Buf 1024) :
    wpr (clientWorld sockfd) (clientContract input sockfd) (body sockfd buf)
      (Sum.elim (fun _ m' => ClientHead input m' ∧ clientLeft input m' < clientLeft input m)
        fun _ _ => False) m := by
  obtain ⟨k, hbody, hk⟩ := body_eq sockfd buf
  rw [hbody]
  refine fun m₁ h₁ => ⟨⟨(h.rely h₁).sound, rfl⟩, ?_⟩
  rintro line rfl
  have hm₁ := h.rely h₁
  obtain ⟨i, hi⟩ := hm₁.turn
  obtain ⟨htext, hfile⟩ := hi.file.flatten_next
  have hleft : clientLeft input m₁ = clientLeft input m := by
    rw [clientLeft, h₁.delivered, clientLeft]
  rw [hk _ fun _ => length_of_nextLine]
  generalize ht : CString.str ((nextLine 1024 m₁.file).getD []) = t at htext
  have hhas : ClientHas input t (clientLeft input m)
      { m₁ with file := m₁.file.drop ((nextLine 1024 m₁.file).getD []).length } := by
    refine ⟨⟨hm₁.sound.written, hm₁.sound.echoed, hm₁.sound.shown, hm₁.sound.bounded⟩, hm₁.shown,
      ⟨i, ⟨hi.turns, hi.enough, hi.sent, hfile⟩, htext⟩, ?_, hleft⟩
    by_cases h0 : 0 ∈ input
    · exact .inl h0
    by_cases hend : m₁.file = []
    · exact .inr (.inl (by rw [hend, List.drop_nil]))
    · exact .inr (.inr (ht ▸ str_nextLine_ne_nil (fun h => h0 (hi.file.mem_input h)) hend))
  rw [next_fgets]
  exact ⟨⟨rfl, rfl, fun _ => hhas.sound⟩, wpr_send hpaced hhas ht
    (length_getD_nextLine m₁.file) sockfd⟩

/-! ## The pair -/

variable {sockfd connfd : ℤ} {buf : Party → Buf 1024}

/-- What holds at the head of each loop. -/
def Head (input : List Byte) : Party → Medium → Prop
  | .client => ClientHead input
  | .server => ServerHead input

/-- How much each loop has not read yet. -/
def left (input : List Byte) : Party → Medium → ℕ
  | .client => clientLeft input
  | .server => serverLeft input

/-- A turn of each loop. -/
theorem wpr_pair (hpaced : Paced input) (i : Party) (s : (pair sockfd connfd).σ i) (m : Medium)
    (h : Head input i m) : wpr ((pair sockfd connfd).world i) (contract input sockfd connfd i)
      ((pair sockfd connfd).body i s)
      (Sum.elim (fun _ m' => Head input i m' ∧ left input i m' < left input i m)
        fun _ _ => False) m := by
  cases i with
  | client => exact wpr_client hpaced h sockfd s
  | server => exact wpr_server h connfd s

/-- Both loops keep to their contracts. -/
abbrev Keeping (input : List Byte) (a : (pair sockfd connfd).State) : Prop :=
  (pair sockfd connfd).Kept (contract input sockfd connfd)
    (fun i => Sum.elim (fun _ => Head input i) fun _ _ => False) a

theorem keeping_start (input : List Byte) : Keeping input (start sockfd connfd buf input) := by
  have hsound : Sound input ⟨input, .empty, .empty, []⟩ :=
    ⟨List.nil_prefix, List.nil_prefix, List.nil_prefix, Nat.zero_le _⟩
  intro i m hm
  cases i with
  | client =>
    have hprogress : Progress input 0 0 0 ⟨input, .empty, .empty, []⟩ :=
      ⟨Nat.zero_le _, fun n hn => hn.trans (Nat.zero_le _), rfl, rfl⟩
    have hhead : ClientHead input ⟨input, .empty, .empty, []⟩ := ⟨hsound, rfl, 0, hprogress⟩
    exact hhead.rely hm
  | server =>
    have hhead : ServerHead input ⟨input, .empty, .empty, []⟩ := ⟨hsound, rfl⟩
    exact hhead.rely hm

theorem keeping_of_reach (hpaced : Paced input) {a : (pair sockfd connfd).State}
    (h : (pair sockfd connfd).Reach (start sockfd connfd buf input) a) : Keeping input a :=
  h.wpr_of_lt (fun i _ => Head input i) (fun _ _ _ => False) (left input)
    (fits input sockfd connfd) (wpr_pair hpaced) (keeping_start input)

theorem ClientCall.inBounds {c : Stdio.Call} (h : ClientCall input sockfd m c) :
    Stdio.InBounds c := by
  cases c with
  | read fd dst =>
    obtain ⟨-, rfl, -⟩ := h
    exact ⟨le_rfl, by decide, le_rfl⟩
  | write fd src mem => exact h.2
  | printfStr _ arg _ => exact h
  | fputs arg => exact h.elim
  | _ => trivial

theorem ServerCall.inBounds {c : Stdio.Call} (h : ServerCall connfd m c) : Stdio.InBounds c := by
  cases c with
  | read fd dst =>
    obtain ⟨-, rfl, -⟩ := h
    exact ⟨le_rfl, by decide, le_rfl⟩
  | write fd src mem => exact h.2
  | printfStr _ arg _ => exact h
  | fputs arg => exact h.elim
  | _ => trivial

/-- What keeps to the contracts stays inside its buffers. -/
theorem Keeping.safe {a : (pair sockfd connfd).State} (h : Keeping input a) (i : Party) :
    Stdio.Safe (a.1 i) := by
  cases i with
  | client =>
    exact Stdio.safe_of_wp (G := (clientContract input sockfd).toGuard)
      (fun _ _ hc => hc.2.inBounds) (fun _ => id) (h.wp .client)
  | server =>
    exact Stdio.safe_of_wp (G := (serverContract input connfd).toGuard)
      (fun _ _ hc => hc.2.inBounds) (fun _ => id) (h.wp .server)

/-- What keeps to the contracts is sound. -/
theorem Keeping.sound {a : (pair sockfd connfd).State} (h : Keeping input a) : Sound input a.2 := by
  refine wp_now (h.wp .client) ?_ (fun _ _ hc => hc.1) fun _ hf => hf.elim
  rintro (_ | _) m hQ
  · exact hQ.sound
  · exact hQ.elim

/-- What keeps to the contracts is not over. -/
theorem Keeping.not_left {a : (pair sockfd connfd).State} (h : Keeping input a) (i : Party)
    (r : (pair sockfd connfd).ρ i) : a.1 i ≠ .ret (.inr r) := by
  intro hr
  have hwp := h.wp i
  rw [hr] at hwp
  exact hwp

/-! ## When both programs stay inside their buffers -/

/-- The server writes what has been written to it. -/
theorem reach_server (b : Buf 1024) {bs : List Byte} (hbs : m.up.Offers bs) (h0 : 0 ∉ bs)
    (hlen : bs.length < 1024) :
    Interaction.Reach (serverWorld connfd) (EchoServer.body connfd) (.ret (.inl b), m)
      (.ret (.inl (filled bs)), { m with up := m.up.pop bs.length, down := m.down.push bs }) := by
  have hbytes := EchoServer.bytes_filled hlen.le
  rw [CString.str_eq_self_iff.mpr h0] at hbytes
  refine .head .again (Executes.reach ?_)
  rw [EchoServer.body_eq]
  refine ⟨.ok bs, ⟨rfl, bs, rfl, hbs, Int.ofNat_le.mpr hlen.le⟩, ?_⟩
  show Executes _ (EchoServer.answer connfd bs) _ _ _
  rw [EchoServer.answer_of_terminated hlen.le (.inr hlen), CString.str_eq_self_iff.mpr h0]
  refine ⟨(), trivial, .ok bs.length, ⟨rfl, rfl⟩, rfl, ?_⟩
  exact congrArg (fun l => { m with up := m.up.pop bs.length, down := m.down.push l }) hbytes.symm

/-- The client writes its next text and reads. -/
theorem reach_send (b : Buf 1024) {t : List Byte}
    (ht : CString.str ((nextLine 1024 m.file).getD []) = t) :
    Interaction.Reach (clientWorld sockfd) (body sockfd) (.ret (.inl b), m)
      (.call (I := stdio) (.read sockfd (Span.whole 1024)) print,
        { m with
          file := m.file.drop ((nextLine 1024 m.file).getD []).length
          up := m.up.push t }) := by
  obtain ⟨k, hbody, hk⟩ := body_eq sockfd b
  have hbytes := EchoServer.bytes_filled (length_getD_nextLine m.file).le
  have hfgets : Interaction.Step (clientWorld sockfd) (body sockfd)
      (.call (I := stdio) (.fgets 1024) k, m)
      (k (nextLine 1024 m.file),
        { m with file := m.file.drop ((nextLine 1024 m.file).getD []).length }) :=
    next_fgets sockfd m 1024 _ ▸ .call (I := stdio) (c := .fgets 1024) rfl
  rw [hk _ fun _ => length_of_nextLine, ht] at hfgets
  rw [ht] at hbytes
  generalize filled ((nextLine 1024 m.file).getD []) = b' at hfgets hbytes
  have hwrite : Interaction.Step (clientWorld sockfd) (body sockfd)
      (.call (I := stdio) (.write sockfd (Span.first 1024 t.length) b'.toList) fun _ =>
        .call (I := stdio) (.read sockfd (Span.whole 1024)) print,
        { m with file := m.file.drop ((nextLine 1024 m.file).getD []).length })
      (.call (I := stdio) (.read sockfd (Span.whole 1024)) print,
        { m with
          file := m.file.drop ((nextLine 1024 m.file).getD []).length
          up := m.up.push ((Span.first 1024 t.length).bytes b'.toList) }) :=
    .call (I := stdio) (c := .write ..) (r := .ok _) ⟨rfl, rfl⟩
  rw [hbytes] at hwrite
  refine .head .again ?_
  rw [hbody]
  exact .head hfgets (.single hwrite)

/-- The client prints what it reads. -/
theorem reach_print {bs : List Byte} (hbs : m.down.Offers bs) (h0 : 0 ∉ bs)
    (hlen : bs.length < 1024) :
    Interaction.Reach (clientWorld sockfd) (body sockfd)
      (.call (I := stdio) (.read sockfd (Span.whole 1024)) print, m)
      (.ret (.inl (filled bs)),
        { m with down := m.down.pop bs.length, shown := m.shown ++ [bs] }) := by
  have hstr : CString.str (filled bs).toList = bs := by
    rw [EchoServer.str_filled hlen.le, CString.str_eq_self_iff.mpr h0]
  have hzero : readValue (.ok bs) ≠ 0 := fun h => hbs.1 (readValue_ok_eq_zero.mp h)
  refine Executes.reach ⟨.ok bs, ⟨rfl, bs, rfl, hbs, Int.ofNat_le.mpr hlen.le⟩, ?_⟩
  rw [print, if_neg hzero, readBytes_ok]
  refine ⟨(), trivial, rfl, ?_⟩
  exact congrArg
    (fun l => { m with down := m.down.pop bs.length, shown := m.shown ++ [l] }) hstr.symm

/-- A read that fills the buffer leaves no NUL in it. -/
theorem reach_unsafe (sockfd : ℤ) {bs : List Byte} (hbs : m.down.Offers bs) (h0 : 0 ∉ bs)
    (hlen : bs.length = 1024) :
    ∃ q m', Interaction.Reach (clientWorld sockfd) (body sockfd)
      (.call (I := stdio) (.read sockfd (Span.whole 1024)) print, m) (q, m') ∧
        ¬ Stdio.Safe q := by
  have hzero : readValue (.ok bs) ≠ 0 := fun h => hbs.1 (readValue_ok_eq_zero.mp h)
  have hread : (clientWorld sockfd).Allows m (.read sockfd (Span.whole 1024)) (.ok bs) :=
    ⟨rfl, bs, rfl, hbs, Int.ofNat_le.mpr hlen.le⟩
  refine ⟨_, _, .single (.call hread), ?_⟩
  rw [print, if_neg hzero, readBytes_ok]
  intro hsafe
  rcases (EchoServer.terminated_filled hlen.le).mp hsafe with hmem | hlt
  · exact h0 hmem
  · omega

/-- `k` turns are over, in each of which the client has read one byte, and all that it has written
has been written back. -/
structure Lagging (input : List Byte) (k i : ℕ) (m : Medium) : Prop where
  /-- The server has read all. -/
  up : m.up.queue = []
  /-- It has written it. -/
  down : m.down.sent = ((texts input).take i).flatten
  /-- The client has read one byte in each turn. -/
  delivered : m.down.delivered.length = k
  /-- What has not been read of the input. -/
  file : Left input i m.file

section Lagging

variable {a : (pair sockfd connfd).State} {k : ℕ}

/-- In its next turn the client writes, and the server answers. -/
theorem exists_reach_read {b b' : Buf 1024} (hc : a.1 .client = .ret (.inl b))
    (hs : a.1 .server = .ret (.inl b')) (h : Lagging input k k a.2) :
    ∃ a' : (pair sockfd connfd).State, (pair sockfd connfd).Reach a a' ∧
      a'.1 .client = .call (I := stdio) (.read sockfd (Span.whole 1024)) print ∧
      (∃ b', a'.1 .server = .ret (.inl b')) ∧ Lagging input k (k + 1) a'.2 := by
  obtain ⟨htext, hfile⟩ := h.file.flatten_next
  have hlen := (CString.length_str_le _).trans_lt (length_getD_nextLine a.2.file)
  have h0 := CString.zero_notMem_str ((nextLine 1024 a.2.file).getD [])
  generalize ht : CString.str ((nextLine 1024 a.2.file).getD []) = t at htext hlen h0
  obtain ⟨a₁, hsent, hc₁, hothers, hm₁⟩ := System.exists_reach hc (reach_send b ht)
  have hs₁ := (hothers .server (by decide)).trans hs
  by_cases hnil : t = []
  · -- there is nothing to answer
    subst hnil
    refine ⟨a₁, hsent, hc₁, ⟨b', hs₁⟩, hm₁ ▸ ⟨?_, ?_, h.delivered, hfile⟩⟩
    · exact (List.append_nil _).trans h.up
    · rw [htext, List.append_nil]
      exact h.down
  · have hoffers : a₁.2.up.Offers t := by
      refine ⟨hnil, ?_⟩
      rw [hm₁, Channel.queue_push, h.up]
      exact List.prefix_refl _
    obtain ⟨a₂, hanswered, hs₂, hothers, hm₂⟩ :=
      System.exists_reach hs₁ (reach_server b' hoffers h0 hlen)
    have hc₂ := (hothers .client (by decide)).trans hc₁
    rw [hm₁] at hm₂
    refine ⟨a₂, hsent.trans hanswered, hc₂, ⟨_, hs₂⟩, hm₂ ▸ ⟨?_, ?_, h.delivered, hfile⟩⟩
    · show (a.2.up.queue ++ t).drop t.length = []
      rw [h.up, List.nil_append, List.drop_length]
    · show (a.2.down.push t).sent = _
      rw [Channel.sent_push, h.down, htext]

theorem Lagging.length_queue {i : ℕ} (h : Lagging input k i m) :
    m.down.queue.length = total input i - k := by
  have hlen := m.down.length_sent
  rw [h.down, h.delivered] at hlen
  rw [total]
  omega

theorem Lagging.zero_notMem {i : ℕ} (h : Lagging input k i m) {bs : List Byte}
    (hbs : m.down.Offers bs) : 0 ∉ bs := by
  intro h0
  have hsent : 0 ∈ m.down.sent := List.mem_append_right _ (hbs.2.subset h0)
  rw [h.down] at hsent
  exact zero_notMem_flatten_texts ((List.take_prefix _ _).flatten.subset hsent)

/-- A client that waits for an answer can read one byte of it and print that. -/
theorem exists_reach_head {b' : Buf 1024}
    (hc : a.1 .client = .call (I := stdio) (.read sockfd (Span.whole 1024)) print)
    (hs : a.1 .server = .ret (.inl b')) (h : Lagging input k (k + 1) a.2)
    (htotal : k + 1 ≤ total input (k + 1)) :
    ∃ (a' : (pair sockfd connfd).State) (b : Buf 1024), (pair sockfd connfd).Reach a a' ∧
      a'.1 .client = .ret (.inl b) ∧ a'.1 .server = .ret (.inl b') ∧
      Lagging input (k + 1) (k + 1) a'.2 := by
  have hqueue := h.length_queue
  have hone : (a.2.down.queue.take 1).length = 1 := by
    rw [List.length_take]
    omega
  have hoffers : a.2.down.Offers (a.2.down.queue.take 1) :=
    ⟨List.ne_nil_of_length_pos (by omega), List.take_prefix _ _⟩
  obtain ⟨a', hread, hc', hothers, hm⟩ :=
    System.exists_reach hc (reach_print hoffers (h.zero_notMem hoffers) (by omega))
  refine ⟨a', _, hread, hc', (hothers .server (by decide)).trans hs, hm ▸ ⟨h.up, ?_, ?_, h.file⟩⟩
  · exact (Channel.sent_pop _).trans h.down
  · show (a.2.down.pop _).delivered.length = k + 1
    rw [hoffers.delivered_pop, List.length_append, hone, h.delivered]

/-- The client comes to every turn that it can come to. -/
theorem exists_reach_lagging (hk : ∀ i ≤ k, i ≤ total input i) (sockfd connfd : ℤ)
    (buf : Party → Buf 1024) :
    ∃ (a : (pair sockfd connfd).State) (b b' : Buf 1024),
      (pair sockfd connfd).Reach (start sockfd connfd buf input) a ∧
        a.1 .client = .ret (.inl b) ∧ a.1 .server = .ret (.inl b') ∧ Lagging input k k a.2 := by
  induction k with
  | zero => exact ⟨_, _, _, .refl, rfl, rfl, rfl, rfl, rfl, rfl⟩
  | succ k ih =>
    obtain ⟨a, b, b', h, hc, hs, hlag⟩ := ih fun i hi => hk i (Nat.le_succ_of_le hi)
    obtain ⟨a₁, h₁, hc₁, ⟨b₁, hs₁⟩, hlag₁⟩ := exists_reach_read hc hs hlag
    obtain ⟨a₂, b₂, h₂, hc₂, hs₂, hlag₂⟩ := exists_reach_head hc₁ hs₁ hlag₁ (hk _ le_rfl)
    exact ⟨a₂, b₂, b₁, (h.trans h₁).trans h₂, hc₂, hs₂, hlag₂⟩

end Lagging

/-- **When both programs stay inside their buffers**: if and only if what has not come back never
fills the buffer. -/
theorem safe_iff (sockfd connfd : ℤ) (buf : Party → Buf 1024) (input : List Byte) :
    (∀ a, (pair sockfd connfd).Reach (start sockfd connfd buf input) a →
      ∀ i, Stdio.Safe (a.1 i)) ↔ Paced input := by
  constructor
  · intro h k hk
    by_contra htotal
    obtain ⟨a, b, b', hreach, hc, hs, hlag⟩ :=
      exists_reach_lagging hk sockfd connfd buf
    obtain ⟨a₁, h₁, hc₁, -, hlag₁⟩ := exists_reach_read hc hs hlag
    have hqueue := hlag₁.length_queue
    have hfull : (a₁.2.down.queue.take 1024).length = 1024 := by
      rw [List.length_take]
      omega
    have hoffers : a₁.2.down.Offers (a₁.2.down.queue.take 1024) :=
      ⟨List.ne_nil_of_length_pos (by omega), List.take_prefix _ _⟩
    obtain ⟨q, m', hread, hunsafe⟩ :=
      reach_unsafe sockfd hoffers (hlag₁.zero_notMem hoffers) hfull
    obtain ⟨a₂, h₂, hc₂, -, -⟩ := System.exists_reach hc₁ hread
    exact hunsafe (hc₂ ▸ h a₂ ((hreach.trans h₁).trans h₂) .client)
  · exact fun hpaced a ha i => (keeping_of_reach hpaced ha).safe i

/-! ## Both wait for each other -/

/-- What fits into the buffer as a whole can be sent in any number of lines. -/
theorem paced_of_length_le (h : input.length ≤ 1023) : Paced input := by
  intro k _
  have htake : total input (k + 1) ≤ (texts input).flatten.length :=
    (List.take_prefix _ _).flatten.length_le
  have hall := length_flatten_texts_le input
  omega

/-- A call of the client that does not return is a read, with nothing under way. -/
theorem ClientCall.waits {c : Stdio.Call} (h : ClientCall input sockfd m c)
    (hno : ∀ r, ¬ (clientWorld sockfd).Allows m c r) :
    c = .read sockfd (Span.whole 1024) ∧ m.down.queue = [] := by
  cases c with
  | select => exact h.elim
  | read fd dst =>
    obtain ⟨rfl, rfl, -⟩ := h
    refine ⟨rfl, ?_⟩
    by_contra hne
    obtain ⟨bs, hbs, hlen⟩ := Channel.exists_offers (n := 1024) (by omega) hne
    exact hno (.ok bs) ⟨rfl, bs, rfl, hbs, Int.ofNat_le.mpr hlen⟩
  | write fd src mem => exact absurd ⟨h.1, rfl⟩ (hno (.ok src.len.toNat))
  | fgets size => exact absurd rfl (hno (nextLine size m.file))
  | printf t => exact h.elim
  | printfStr b arg e => exact absurd trivial (hno ())
  | fputs arg => exact h.elim

theorem ServerCall.waits {c : Stdio.Call} (h : ServerCall connfd m c)
    (hno : ∀ r, ¬ (serverWorld connfd).Allows m c r) :
    c = .read connfd (Span.whole 1024) ∧ m.up.queue = [] := by
  cases c with
  | select => exact h.elim
  | read fd dst =>
    obtain ⟨rfl, rfl, -⟩ := h
    refine ⟨rfl, ?_⟩
    by_contra hne
    obtain ⟨bs, hbs, hlen⟩ := Channel.exists_offers (n := 1024) (by omega) hne
    exact hno (.ok bs) ⟨rfl, bs, rfl, hbs, Int.ofNat_le.mpr hlen⟩
  | write fd src mem => exact absurd ⟨h.1, rfl⟩ (hno (.ok src.len.toNat))
  | fgets size => exact h.elim
  | printf t => exact h.elim
  | printfStr b arg e => exact absurd trivial (hno ())
  | fputs arg => exact h.elim

/-- Where both loops wait, all has been printed. -/
theorem Keeping.stuck (h0 : 0 ∉ input) {a : (pair sockfd connfd).State} (h : Keeping input a)
    (hstuck : (pair sockfd connfd).Stuck a) :
    a.2.shown.flatten = input ∧
      (∃ k, a.1 .client = .call (I := stdio) (.read sockfd (Span.whole 1024)) k) ∧
      ∃ k, a.1 .server = .call (I := stdio) (.read connfd (Span.whole 1024)) k := by
  rcases hstuck.waits h (i := .client) fun _ => id with ⟨_, -, hdone⟩ | ⟨c, k, hc, hcall, hno⟩
  · exact hdone.elim
  rcases hstuck.waits h (i := .server) fun _ => id with ⟨_, -, hdone⟩ | ⟨c', k', hs, hcall', hno'⟩
  · exact hdone.elim
  obtain ⟨rfl, hdown⟩ := ClientCall.waits hcall.2 hno
  obtain ⟨rfl, hup⟩ := ServerCall.waits hcall'.2 hno'
  obtain ⟨-, -, hshown, ⟨n, hprogress⟩, hwait⟩ := hcall.2
  have hechoed : a.2.down.sent = a.2.up.delivered := hcall'.2.2.2
  -- nothing is under way, so all that has been written has come back
  have hback : a.2.down.delivered = a.2.up.sent := by
    rw [Channel.sent, hdown, List.append_nil] at hechoed
    rw [hechoed, Channel.sent, hup, List.append_nil]
  have hfile : a.2.file = [] := by
    rcases hwait with h | h | h
    · exact absurd h h0
    · exact h
    · rw [hback] at h
      exact absurd h (lt_irrefl _)
  have hlen := length_texts_le_of_left_nil (hfile ▸ hprogress.file)
  refine ⟨?_, ⟨k, hc⟩, ⟨k', hs⟩⟩
  rw [hshown, hback, hprogress.sent, List.take_of_length_le hlen, flatten_texts h0]

/-- Both programs come to wait for each other. -/
structure Deadlocks (sockfd connfd : ℤ) (buf : Party → Buf 1024) (input : List Byte) : Prop where
  /-- The client prints nothing but its input, in order. -/
  printed : ∀ a, (pair sockfd connfd).Reach (start sockfd connfd buf input) a →
    a.2.shown.flatten <+: input
  /-- Neither loop is ever left. -/
  inside : ∀ a, (pair sockfd connfd).Reach (start sockfd connfd buf input) a →
    ∀ i r, a.1 i ≠ .ret (.inr r)
  /-- No run goes on for ever. -/
  ends : Acc (fun b a => (pair sockfd connfd).Step a b) (start sockfd connfd buf input)
  /-- Where a run ends, both wait in `read`, and the whole input has been printed. -/
  waits : ∀ a, (pair sockfd connfd).Reach (start sockfd connfd buf input) a →
    (pair sockfd connfd).Stuck a → a.2.shown.flatten = input ∧
      (∃ k, a.1 .client = .call (I := stdio) (.read sockfd (Span.whole 1024)) k) ∧
      ∃ k, a.1 .server = .call (I := stdio) (.read connfd (Span.whole 1024)) k

/-- **Both come to wait for each other**, in every run, as long as what has not come back never
fills the buffer. -/
theorem ends_in_deadlock (sockfd connfd : ℤ) (buf : Party → Buf 1024) (h0 : 0 ∉ input)
    (hpaced : Paced input) : Deadlocks sockfd connfd buf input where
  printed _ ha := flatten_texts h0 ▸ (keeping_of_reach hpaced ha).sound.shown_prefix
  inside _ ha := (keeping_of_reach hpaced ha).not_left
  ends := System.acc (fun i _ => Head input i) (fun _ _ _ => False) (left input)
    (fits input sockfd connfd) (wpr_pair hpaced) (keeping_start input)
  waits _ ha := (keeping_of_reach hpaced ha).stuck h0

theorem ends_in_deadlock_lines :
    Deadlocks 3 4 (fun _ => Buf.zeros 1024) (text "hi\nwho is there\n\nbye\n") :=
  ends_in_deadlock 3 4 (fun _ => Buf.zeros 1024) (by decide) (paced_of_length_le (by decide))

end EchoClient

end UnixNetwork
