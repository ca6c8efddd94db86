import Mathlib.Data.Finite.Defs
import UnixNetwork.Interaction.Channel
import UnixNetwork.Interaction.Parallel
import UnixNetwork.StrCli01

/-!
# The sum client and its server

A call of `str_cli_01` and a call of `str_echo_sum`, over a connection on which a read returns all
that is under way, as far as there is room for it. The client asks only when it has its last answer,
so there is never more than one request or one answer under way, and the requests that run into each
other in `StrEchoSum.not_answers_cut` do not come about.

A line here is what `fgets` reads at once, at most 1023 bytes up to a newline. A longer line of the
file is several of them.

The connection is at any moment in one of four phases, and each call of a program that changes the
connection takes it from one phase to the next.

## Main definitions

* `SumSystem.Phase`, `SumSystem.Medium`, `SumSystem.pair`: whose turn it is, what the two programs
  share, and the two programs
* `SumSystem.expected`: what the client is to put out for a line

## Main results

* `SumSystem.wpr_server`, `SumSystem.wpr_client`: a turn of each program
* `SumSystem.answered_iff`: when each line is answered by its own sum, and both functions return
-/

namespace UnixNetwork

namespace SumSystem

open Interaction Encoding
open StrCli01 (newline nextLine numbers sumText Output)
open StrEchoSum (Args Long longBytes longOf resultMem)

/-! ## The two programs -/

/-- Whose turn it is. -/
inductive Phase where
  /-- Nothing has been asked. -/
  | idle
  /-- A request is under way. -/
  | asked (arg : Args)
  /-- The server has read a request. -/
  | held (arg : Args)
  /-- An answer is under way. -/
  | answered (arg : Args)

/-- What the two programs share. -/
structure Medium where
  /-- What the client has not read of its file. -/
  file : List Byte
  /-- The client has found the end of its file. It returns then, and its process ends. -/
  ended : Prop
  /-- From the client to the server. -/
  up : Channel Byte
  /-- From the server to the client. -/
  down : Channel Byte
  /-- What the client has put out. -/
  outs : List Output
  /-- Whose turn it is. -/
  phase : Phase

/-- The two programs. -/
inductive Party where
  | client
  | server
deriving DecidableEq

instance : Finite Party :=
  Finite.of_injective (fun | .client => false | .server => true) fun i j h => by
    cases i <;> cases j <;> first | rfl | cases h

variable (o : ByteOrder)

/-- The request that some bytes represent. -/
def argOf (bs : List Byte) : Args := Args.ofMem o ((Buf.zeros 16).put 0 bs)

/-- The request has been read. -/
def Phase.onTaken : Phase → Phase
  | .asked arg => .held arg
  | p => p

/-- The answer has been written. -/
def Phase.onAnswer : Phase → Phase
  | .held arg => .answered arg
  | p => p

/-- The surroundings of the client. Writes are complete. -/
def clientWorld (sockfd : ℤ) : World stdio Medium where
  Allows m c r := match c, r with
    | .fgets size, r => r = nextLine size m.file
    | .read fd dst, r => fd = sockfd ∧ m.down.queue ≠ [] ∧
        r = .ok (m.down.queue.take dst.len.toNat)
    | .write fd src _, r => fd = sockfd ∧ r = .ok src.len.toNat
    | _, _ => True
  next m c r := match c, r with
    | .fgets _, some line => { m with file := m.file.drop line.length }
    | .fgets _, none => { m with ended := True }
    | .read .., r => { m with down := m.down.pop (readBytes r).length, phase := .idle }
    | .write _ src mem, _ =>
      { m with
        up := m.up.push (src.bytes mem)
        outs := m.outs ++ [.request (src.bytes mem)]
        phase := .asked (argOf o (src.bytes mem)) }
    | .printf text, _ => { m with outs := m.outs ++ [.printed text] }
    | _, _ => m

/-- The surroundings of the server. It finds the end of the stream once the client has found the end
of its file and all that has been written has been read. -/
def serverWorld (connfd : ℤ) : World posix Medium where
  Allows m c r := match c, r with
    | .read fd dst, r => fd = connfd ∧
        (m.up.queue ≠ [] ∧ r = .ok (m.up.queue.take dst.len.toNat) ∨
          m.up.queue = [] ∧ m.ended ∧ r = .ok [])
    | .write fd src _, r => fd = connfd ∧ r = .ok src.len.toNat
    | _, _ => True
  next m c r := match c, r with
    | .read .., r => { m with
        up := m.up.pop (readBytes r).length
        phase := if readBytes r = [] then m.phase else m.phase.onTaken }
    | .write _ src mem, _ =>
      { m with down := m.down.push (src.bytes mem), phase := m.phase.onAnswer }
    | _, _ => m

/-- The two programs. -/
def pair (sockfd connfd : ℤ) : System Party Medium where
  I
    | .client => stdio
    | .server => posix
  σ
    | .client => StrCli01.Locals
    | .server => Buf 16
  ρ _ := Unit
  world
    | .client => clientWorld o sockfd
    | .server => serverWorld connfd
  body
    | .client => StrCli01.body o sockfd
    | .server => StrEchoSum.body o connfd

/-- Both programs at their beginning; their variables are not initialised. -/
def start (sockfd connfd : ℤ) (s : StrCli01.Locals) (arg : Buf 16) (content : List Byte) :
    (pair o sockfd connfd).State where
  fst
    | .client => .ret (.inl s)
    | .server => .ret (.inl arg)
  snd := ⟨content, False, .empty, .empty, [], .idle⟩

/-- What the client is to put out for a line: a request and the sum of its own numbers, or one
`input error` if the line has no two numbers. -/
def expected (line : List Byte) : List Output :=
  match numbers line with
  | none => [.printed (text "input error\n")]
  | some arg => [.request (arg.bytes o), .printed (sumText arg arg.sum)]

/-- What the client is to put out for a file. -/
def transcript (content : List Byte) : List Output :=
  (pieces newline 1023 content).flatMap (expected o)

/-! ## What holds at every moment -/

variable {o} {content : List Byte} {m m' : Medium}

/-- What is under way in each phase. -/
def Phase.Flow (o : ByteOrder) : Phase → List Byte → List Byte → Prop
  | .asked arg, up, down => up = arg.bytes o ∧ down = []
  | .answered arg, up, down => up = [] ∧ down = longBytes o arg.sum
  | _, up, down => up = [] ∧ down = []

/-- The question is not answered yet, or the answer has not been read. -/
def Phase.Pending (arg : Args) (p : Phase) : Prop :=
  p = .asked arg ∨ p = .held arg ∨ p = .answered arg

/-- Something has been asked. -/
def isRequest : Output → Bool
  | .request _ => true
  | .printed _ => false

/-- What holds at every moment. -/
structure Sound (o : ByteOrder) (content : List Byte) (m : Medium) : Prop where
  /-- What is under way. -/
  flow : m.phase.Flow o m.up.queue m.down.queue
  /-- At the end of the file nothing is. -/
  ended : m.ended → m.phase = .idle
  /-- The client has put out nothing but what it is to put out, in order. -/
  outs : m.outs <+: transcript o content
  /-- The requests are what has been written. -/
  sent : m.up.sent.length = 16 * m.outs.countP isRequest

/-- What the client relies on, and the server guarantees. -/
structure ClientSide (o : ByteOrder) (content : List Byte) (m m' : Medium) : Prop where
  /-- The file is as before. -/
  file : m'.file = m.file
  /-- Whether the end of the file has been found is as before. -/
  ended : m'.ended ↔ m.ended
  /-- What has been put out is as before. -/
  outs : m'.outs = m.outs
  /-- Where nothing has been asked nothing is answered. -/
  idle : m.phase = .idle → m'.phase = .idle
  /-- What has been asked stays so until the answer is read. -/
  pending : ∀ arg, m.phase.Pending arg → m'.phase.Pending arg
  /-- What holds at every moment still holds. -/
  sound : Sound o content m → Sound o content m'

/-- What the server relies on, and the client guarantees. -/
structure ServerSide (o : ByteOrder) (content : List Byte) (m m' : Medium) : Prop where
  /-- What has been read is as before. -/
  delivered : m'.up.delivered = m.up.delivered
  /-- Only the server reads requests, and only the server answers them. -/
  held : ∀ arg, m'.phase = .held arg ↔ m.phase = .held arg
  /-- The end of the file has been found for good. -/
  ended : m.ended → m'.ended
  /-- What holds at every moment still holds. -/
  sound : Sound o content m → Sound o content m'

/-- What is asked of the client when it makes a call. -/
def ClientCall (sockfd : ℤ) (m : Medium) : Stdio.Call → Prop
  | .fgets size => size = 1024
  | .write fd src _ => fd = sockfd ∧ src.InBounds
  | .read fd dst => fd = sockfd ∧ dst = Span.whole 8 ∧ ∃ arg, m.phase.Pending arg
  | .printf _ => True
  | _ => False

/-- What is asked of the server when it makes a call. -/
def ServerCall (connfd : ℤ) (m : Medium) : Call → Prop
  | .read fd dst => fd = connfd ∧ dst = Span.whole 16 ∧ ∀ arg, m.phase ≠ .held arg
  | .write fd src _ => fd = connfd ∧ src.InBounds
  | .printf _ => True
  | _ => False

/-- A line of the file begins with a NUL. -/
def Spoilt (content : List Byte) : Prop := ∃ p ∈ pieces newline 1023 content, p.head? = some 0

/-- The contract of the client. It may go outside its buffer where a line begins with a NUL. -/
def clientContract (o : ByteOrder) (content : List Byte) (sockfd : ℤ) : Contract stdio Medium where
  Call m c := Sound o content m ∧ ClientCall sockfd m c
  Fault _ := Spoilt content
  Rely := ClientSide o content
  Guarantee := ServerSide o content
  refl _ := ⟨rfl, .rfl, rfl, id, fun _ => id, id⟩
  trans h h' := ⟨h'.file.trans h.file, h'.ended.trans h.ended, h'.outs.trans h.outs,
    h'.idle ∘ h.idle, fun arg => h'.pending arg ∘ h.pending arg, h'.sound ∘ h.sound⟩

/-- The contract of the server. -/
def serverContract (o : ByteOrder) (content : List Byte) (connfd : ℤ) : Contract posix Medium where
  Call m c := Sound o content m ∧ ServerCall connfd m c
  Fault _ := False
  Rely := ServerSide o content
  Guarantee := ClientSide o content
  refl _ := ⟨rfl, fun _ => .rfl, id, id⟩
  trans h h' := ⟨h'.delivered.trans h.delivered, fun arg => (h'.held arg).trans (h.held arg),
    h'.ended ∘ h.ended, h'.sound ∘ h.sound⟩

/-- The contracts of the two programs. -/
def contract (o : ByteOrder) (content : List Byte) (sockfd connfd : ℤ) :
    ∀ i, Contract ((pair o sockfd connfd).I i) Medium
  | .client => clientContract o content sockfd
  | .server => serverContract o content connfd

theorem fits (o : ByteOrder) (content : List Byte) (sockfd connfd : ℤ) :
    System.Fits (Y := pair o sockfd connfd) (contract o content sockfd connfd) := by
  intro i j hj m m' h
  cases i <;> cases j
  · exact absurd rfl hj
  · exact h
  · exact h
  · exact absurd rfl hj

/-! ## One turn of the server -/

/-- How much the server has not read yet of all requests. -/
def serverLeft (o : ByteOrder) (content : List Byte) (m : Medium) : ℕ :=
  16 * (transcript o content).countP isRequest - m.up.delivered.length

/-- At the head of its loop the server holds no request. -/
structure ServerHead (o : ByteOrder) (content : List Byte) (m : Medium) : Prop where
  /-- What holds at every moment. -/
  sound : Sound o content m
  /-- No request is held. -/
  free : ∀ arg, m.phase ≠ .held arg

theorem ServerHead.rely (h : ServerHead o content m) (h' : ServerSide o content m m') :
    ServerHead o content m' :=
  ⟨h'.sound h.sound, fun arg he => h.free arg ((h'.held arg).mp he)⟩

/-- Behind its read the server holds a request. -/
structure ServerHas (o : ByteOrder) (content : List Byte) (arg : Args) (n : ℕ) (m : Medium) :
    Prop where
  /-- What holds at every moment. -/
  sound : Sound o content m
  /-- The request is held. -/
  held : m.phase = .held arg
  /-- Something has been read. -/
  left : serverLeft o content m < n

theorem ServerHas.rely {arg : Args} {n : ℕ} (h : ServerHas o content arg n m)
    (h' : ServerSide o content m m') : ServerHas o content arg n m' := by
  refine ⟨h'.sound h.sound, (h'.held arg).mpr h.held, ?_⟩
  rw [serverLeft, h'.delivered]
  exact h.left

/-- The server reads a request. -/
theorem Sound.take {arg : Args} (h : Sound o content m) (hasked : m.phase = .asked arg) :
    ServerHas o content arg (serverLeft o content m)
      { m with up := m.up.pop (arg.bytes o).length, phase := .held arg } := by
  have hflow := h.flow
  rw [hasked] at hflow
  obtain ⟨hup, hdown⟩ : m.up.queue = arg.bytes o ∧ m.down.queue = [] := hflow
  have hlen := StrEchoSum.length_bytes o arg
  have hoffers : m.up.Offers (arg.bytes o) :=
    ⟨List.ne_nil_of_length_pos (by omega), hup ▸ List.prefix_refl _⟩
  have hsound : Sound o content
      { m with up := m.up.pop (arg.bytes o).length, phase := .held arg } := by
    refine ⟨⟨?_, hdown⟩, fun he => ?_, h.outs, ?_⟩
    · show m.up.queue.drop _ = []
      rw [hup, List.drop_length]
    · cases hasked.symm.trans (h.ended he)
    · rw [Channel.sent_pop]
      exact h.sent
  refine ⟨hsound, rfl, ?_⟩
  have hle := h.outs.sublist.countP_le (p := isRequest)
  have hsent := h.sent
  rw [Channel.length_sent, hup, hlen] at hsent
  show _ - (m.up.pop (arg.bytes o).length).delivered.length < _
  rw [serverLeft, hoffers.delivered_pop, List.length_append, hlen]
  omega

/-- A request under way is the only one. -/
theorem Sound.exists_asked (h : Sound o content m) (hne : m.up.queue ≠ []) :
    ∃ arg, m.phase = .asked arg ∧ m.up.queue = arg.bytes o := by
  have hflow := h.flow
  cases hphase : m.phase with
  | asked arg =>
    rw [hphase] at hflow
    exact ⟨arg, rfl, hflow.1⟩
  | idle | held arg | answered arg =>
    rw [hphase] at hflow
    exact absurd hflow.1 hne

/-- The server answers a request. -/
theorem Sound.answer {arg : Args} (h : Sound o content m) (hheld : m.phase = .held arg) :
    Sound o content
      { m with down := m.down.push (longBytes o arg.sum), phase := .answered arg } := by
  have hflow := h.flow
  rw [hheld] at hflow
  obtain ⟨hup, hdown⟩ : m.up.queue = [] ∧ m.down.queue = [] := hflow
  refine ⟨⟨hup, ?_⟩, fun he => ?_, h.outs, h.sent⟩
  · rw [Channel.queue_push, hdown, List.nil_append]
  · cases hheld.symm.trans (h.ended he)

/-- Behind its read the server prints the sum and sends it. -/
theorem wpr_answer {arg : Args} {n : ℕ} (h : ServerHas o content arg n m) (connfd : ℤ)
    (mem : Buf 16) (line : List Byte) :
    wpr (serverWorld connfd) (serverContract o content connfd)
      (Prog.call (I := posix) (.printf line) fun _ => .call (I := posix)
        (.write connfd (Span.whole 8) (resultMem o arg.sum).toList) fun _ => .ret (.inl mem))
      (Sum.elim (fun _ m' => ServerHead o content m' ∧ serverLeft o content m' < n)
        fun (_ : Unit) m' => Sound o content m' ∧ m'.ended) m := by
  refine fun m₁ h₁ => ⟨⟨(h.rely h₁).sound, trivial⟩, fun _ _ =>
    ⟨⟨rfl, .rfl, rfl, id, fun _ => id, id⟩, fun m₂ h₂ => ?_⟩⟩
  have hm₂ := (h.rely h₁).rely h₂
  refine ⟨⟨hm₂.sound, rfl, by decide⟩, fun r _ => ?_⟩
  have hnext : (serverWorld connfd).next m₂
      (.write connfd (Span.whole 8) (resultMem o arg.sum).toList) r =
        { m₂ with down := m₂.down.push (longBytes o arg.sum), phase := .answered arg } := by
    show { m₂ with down := m₂.down.push _, phase := m₂.phase.onAnswer } = _
    rw [StrEchoSum.bytes_resultMem, hm₂.held, Phase.onAnswer]
  have hsound := hm₂.sound.answer hm₂.held
  rw [hnext]
  refine ⟨⟨rfl, .rfl, rfl, fun hidle => ?_, fun arg' hpend => ?_, fun _ => hsound⟩,
    fun m₃ h₃ => ?_⟩
  · cases hm₂.held.symm.trans hidle
  · rw [hm₂.held] at hpend
    rcases hpend with hp | hp | hp <;> cases hp
    exact .inr (.inr rfl)
  · refine ⟨ServerHead.rely ⟨hsound, fun _ => nofun⟩ h₃, ?_⟩
    rw [serverLeft, h₃.delivered]
    exact hm₂.left

/-- **A turn of the server** answers one request, or finds that no more will come. -/
theorem wpr_server (h : ServerHead o content m) (connfd : ℤ) (mem : Buf 16) :
    wpr (serverWorld connfd) (serverContract o content connfd) (StrEchoSum.body o connfd mem)
      (Sum.elim (fun _ m' => ServerHead o content m' ∧
        serverLeft o content m' < serverLeft o content m)
          fun _ m' => Sound o content m' ∧ m'.ended) m := by
  rw [StrEchoSum.body_eq]
  refine fun m₁ h₁ => ⟨⟨h₁.sound h.sound, rfl, rfl, (h.rely h₁).free⟩, ?_⟩
  have hm₁ := h.rely h₁
  rintro r ⟨-, ⟨hne, rfl⟩ | ⟨hnil, hended, rfl⟩⟩
  · obtain ⟨arg, hasked, hqueue⟩ := hm₁.sound.exists_asked hne
    have hlen := StrEchoSum.length_bytes o arg
    have hwhole : m₁.up.queue.take (Span.whole 16).len.toNat = arg.bytes o := by
      rw [hqueue]
      exact List.take_of_length_le hlen.le
    rw [hwhole]
    have hbytes : arg.bytes o ≠ [] := List.ne_nil_of_length_pos (by omega)
    have hpos : readValue (.ok (arg.bytes o)) ≠ 0 := mt readValue_ok_eq_zero.mp hbytes
    have hnext : (serverWorld connfd).next m₁ (.read connfd (Span.whole 16)) (.ok (arg.bytes o)) =
        { m₁ with up := m₁.up.pop (arg.bytes o).length, phase := .held arg } := by
      show { m₁ with up := _, phase := ite (arg.bytes o = []) _ _ } = _
      rw [if_neg hbytes, hasked, Phase.onTaken]
      rfl
    have htake := hm₁.sound.take hasked
    have hleft : serverLeft o content m₁ = serverLeft o content m := by
      rw [serverLeft, h₁.delivered, serverLeft]
    rw [hnext]
    refine ⟨⟨rfl, .rfl, rfl, fun hidle => ?_, fun arg' hpend => ?_, fun _ => htake.sound⟩, ?_⟩
    · cases hasked.symm.trans hidle
    · rw [hasked] at hpend
      rcases hpend with hp | hp | hp <;> cases hp
      exact .inr (.inl rfl)
    · dsimp only
      rw [if_neg hpos, readBytes_ok, StrEchoSum.ofMem_put, ← hleft]
      exact wpr_answer htake connfd _ _
  · have hzero : readValue (.ok []) = 0 := readValue_ok_eq_zero.mpr rfl
    have hpop : m₁.up.pop 0 = m₁.up := by
      show Channel.mk _ _ = _
      rw [List.take_zero, List.append_nil, List.drop_zero]
    have hnext : (serverWorld connfd).next m₁ (.read connfd (Span.whole 16)) (.ok []) = m₁ :=
      congrArg (fun c => { m₁ with up := c }) hpop
    rw [hnext]
    dsimp only
    rw [if_pos hzero]
    refine ⟨⟨rfl, .rfl, rfl, id, fun _ => id, id⟩, fun m₂ h₂ => ⟨⟨h₂.sound hm₁.sound, trivial⟩,
      fun _ _ => ⟨⟨rfl, .rfl, rfl, id, fun _ => id, id⟩, fun m₃ h₃ => ?_⟩⟩⟩
    exact ⟨h₃.sound (h₂.sound hm₁.sound), h₃.ended (h₂.ended hended)⟩

/-! ## One turn of the client -/

/-- In its turn the client is still to put out `os`, and then what belongs to the rest of its
file. -/
structure Owes (o : ByteOrder) (content : List Byte) (os : List Output) (m : Medium) : Prop where
  /-- What holds at every moment. -/
  sound : Sound o content m
  /-- The end of the file has not been found. -/
  inside : ¬ m.ended
  /-- What has been put out and what will be. -/
  todo : m.outs ++ os ++ transcript o m.file = transcript o content
  /-- The lines to come are lines of the file. -/
  among : ∀ p ∈ pieces newline 1023 m.file, p ∈ pieces newline 1023 content
  /-- No line of the file begins with a NUL but those to come. -/
  heads : ∀ p ∈ pieces newline 1023 content, p.head? = some 0 → p ∈ pieces newline 1023 m.file

theorem Owes.rely {os : List Output} (h : Owes o content os m) (h' : ClientSide o content m m') :
    Owes o content os m' where
  sound := h'.sound h.sound
  inside := mt h'.ended.mp h.inside
  todo := by
    rw [h'.outs, h'.file]
    exact h.todo
  among := h'.file ▸ h.among
  heads := h'.file ▸ h.heads

/-- The client may put out what comes next. -/
theorem Owes.outs_next {x : Output} {os : List Output} (h : Owes o content (x :: os) m) :
    m.outs ++ [x] <+: transcript o content :=
  ⟨os ++ transcript o m.file, by rw [← h.todo]; simp⟩

/-- The client asks. -/
theorem Owes.request {arg : Args} {os : List Output}
    (h : Owes o content (.request (arg.bytes o) :: os) m) (hidle : m.phase = .idle) :
    Owes o content os { m with
      up := m.up.push (arg.bytes o)
      outs := m.outs ++ [.request (arg.bytes o)]
      phase := .asked arg } := by
  have hflow := h.sound.flow
  rw [hidle] at hflow
  obtain ⟨hup, hdown⟩ : m.up.queue = [] ∧ m.down.queue = [] := hflow
  refine ⟨⟨⟨?_, hdown⟩, fun he => absurd he h.inside, h.outs_next, ?_⟩, h.inside, ?_, h.among,
    h.heads⟩
  · rw [Channel.queue_push, hup, List.nil_append]
  · rw [Channel.sent_push, List.length_append, h.sound.sent, StrEchoSum.length_bytes,
      List.countP_append, List.countP_singleton, isRequest, if_pos rfl]
    omega
  · rw [← h.todo, List.append_assoc _ [_], List.singleton_append]

/-- The client reads the answer. -/
theorem Owes.receive {arg : Args} {os : List Output} (h : Owes o content os m)
    (hanswered : m.phase = .answered arg) :
    Owes o content os
      { m with down := m.down.pop (longBytes o arg.sum).length, phase := .idle } := by
  have hflow := h.sound.flow
  rw [hanswered] at hflow
  obtain ⟨hup, hdown⟩ : m.up.queue = [] ∧ m.down.queue = longBytes o arg.sum := hflow
  refine ⟨⟨⟨hup, ?_⟩, fun _ => rfl, h.sound.outs, h.sound.sent⟩, h.inside, h.todo, h.among, h.heads⟩
  show m.down.queue.drop _ = []
  rw [hdown, List.drop_length]

/-- The client prints. -/
theorem Owes.print {t : List Byte} {os : List Output} (h : Owes o content (.printed t :: os) m) :
    Owes o content os { m with outs := m.outs ++ [.printed t] } := by
  refine ⟨⟨h.sound.flow, h.sound.ended, h.outs_next, ?_⟩, h.inside, ?_, h.among, h.heads⟩
  · rw [List.countP_append, List.countP_singleton, isRequest, if_neg (by decide)]
    exact h.sound.sent
  · rw [← h.todo, List.append_assoc _ [_], List.singleton_append]

/-- At the head of its loop the client has put out what belongs to the lines it has read, and waits
for nothing. -/
structure ClientHead (o : ByteOrder) (content : List Byte) (m : Medium) : Prop
    extends Owes o content [] m where
  /-- Nothing has been asked. -/
  idle : m.phase = .idle

theorem ClientHead.rely (h : ClientHead o content m) (h' : ClientSide o content m m') :
    ClientHead o content m' :=
  ⟨h.toOwes.rely h', h'.idle h.idle⟩

/-- When the client has returned it has put out all. -/
structure ClientDone (o : ByteOrder) (content : List Byte) (m : Medium) : Prop where
  /-- What holds at every moment. -/
  sound : Sound o content m
  /-- The end of the file has been found. -/
  ended : m.ended
  /-- All has been put out. -/
  outs : m.outs = transcript o content
  /-- No line began with a NUL. -/
  clean : ¬ Spoilt content

theorem ClientDone.rely (h : ClientDone o content m) (h' : ClientSide o content m m') :
    ClientDone o content m' :=
  ⟨h'.sound h.sound, h'.ended.mpr h.ended, h'.outs.trans h.outs, h.clean⟩

/-- What is asked of a turn of the client: it ends with less of the file than `n` bytes, or all has
been put out. -/
abbrev ClientPost (o : ByteOrder) (content : List Byte) (n : ℕ) :
    StrCli01.Locals ⊕ Unit → Medium → Prop :=
  Sum.elim (fun _ m => ClientHead o content m ∧ m.file.length < n) fun _ => ClientDone o content

/-- The last text of a turn. -/
theorem wpr_print {t : List Byte} {n : ℕ} (h : Owes o content [.printed t] m)
    (hidle : m.phase = .idle) (hlt : m.file.length < n) (sockfd : ℤ) (s : StrCli01.Locals) :
    wpr (clientWorld o sockfd) (clientContract o content sockfd)
      (.call (I := stdio) (.printf t) fun _ => .ret (.inl s)) (ClientPost o content n) m := by
  refine fun m₁ h₁ => ⟨⟨(h.rely h₁).sound, trivial⟩, fun _ _ => ?_⟩
  have hprint := (h.rely h₁).print
  refine ⟨⟨rfl, fun _ => .rfl, id, fun _ => hprint.sound⟩, fun m₂ h₂ => ?_⟩
  refine ⟨ClientHead.rely ⟨hprint, h₁.idle hidle⟩ h₂, ?_⟩
  rw [h₂.file]
  exact h₁.file ▸ hlt

/-- A request is sent, and the sum that comes back is printed. -/
theorem wpr_ask {sendBuf : Buf 1024} {arg : Args} {n : ℕ}
    (hnumbers : StrCli01.numbers (CString.str sendBuf.toList) = some arg)
    (h : Owes o content [.request (arg.bytes o), .printed (sumText arg arg.sum)] m)
    (hidle : m.phase = .idle) (hlt : m.file.length < n) (sockfd : ℤ) (s : StrCli01.Locals) :
    wpr (clientWorld o sockfd) (clientContract o content sockfd)
      (StrCli01.handle o sockfd sendBuf s) (ClientPost o content n) m := by
  rw [StrCli01.handle_of_numbers o sockfd hnumbers]
  refine fun m₁ h₁ => ⟨⟨(h.rely h₁).sound, rfl, by decide⟩, fun r _ => ?_⟩
  have hnext : (clientWorld o sockfd).next m₁
      (.write sockfd (Span.whole 16) (arg.bytes o)) r = { m₁ with
        up := m₁.up.push (arg.bytes o)
        outs := m₁.outs ++ [.request (arg.bytes o)]
        phase := .asked arg } := by
    have harg : argOf o (arg.bytes o) = arg := StrEchoSum.ofMem_put o _ arg
    show { m₁ with
      up := m₁.up.push ((Span.whole 16).bytes _)
      outs := m₁.outs ++ [Output.request ((Span.whole 16).bytes _)]
      phase := .asked (argOf o ((Span.whole 16).bytes _)) } = _
    rw [StrCli01.bytes_request, harg]
  have hask := (h.rely h₁).request (h₁.idle hidle)
  rw [hnext]
  refine ⟨⟨rfl, fun arg' => ⟨nofun, fun he => ?_⟩, id, fun _ => hask.sound⟩, fun m₂ h₂ => ?_⟩
  · cases he.symm.trans (h₁.idle hidle)
  have hm₂ := hask.rely h₂
  have hpending := h₂.pending arg (.inl rfl)
  refine ⟨⟨hm₂.sound, rfl, rfl, arg, hpending⟩, ?_⟩
  rintro r ⟨-, hne, rfl⟩
  -- something has come, so it is the answer
  have hflow := hm₂.sound.flow
  obtain ⟨hanswered, hqueue⟩ : m₂.phase = .answered arg ∧ m₂.down.queue = longBytes o arg.sum := by
    rcases hpending with hp | hp | hp <;> rw [hp] at hflow
    · exact absurd hflow.2 hne
    · exact absurd hflow.2 hne
    · exact ⟨hp, hflow.2⟩
  have hwhole : m₂.down.queue.take (Span.whole 8).len.toNat = longBytes o arg.sum := by
    rw [hqueue]
    exact List.take_of_length_le (StrEchoSum.length_longBytes o _).le
  have hreceive := hm₂.receive hanswered
  rw [hwhole]
  refine ⟨⟨rfl, fun arg' => ⟨nofun, fun he => ?_⟩, id, fun _ => hreceive.sound⟩, ?_⟩
  · cases he.symm.trans hanswered
  · dsimp only
    rw [if_neg (StrCli01.readValue_answer o _), readBytes_ok, StrCli01.longOf_answer]
    refine wpr_print hreceive rfl ?_ sockfd _
    show m₂.file.length < n
    rw [h₂.file]
    exact h₁.file ▸ hlt

/-- The next line, without its newline, unless it begins with a NUL. -/
theorem chomp_cases (b : Buf 1024) {file : List Byte} (hfile : file ≠ []) :
    (piece newline 1023 file).head? = some 0 ∧
        StrCli01.chomp (b.put 0 (piece newline 1023 file ++ [0])) = .fault ∨
      (piece newline 1023 file).head? ≠ some 0 ∧ ∃ sendBuf,
        StrCli01.chomp (b.put 0 (piece newline 1023 file ++ [0])) = .ret sendBuf ∧
          numbers (CString.str sendBuf.toList) = numbers (piece newline 1023 file) := by
  have hlen := length_piece_le newline 1023 file
  by_cases hhead : (piece newline 1023 file).head? = some 0
  · exact .inl ⟨hhead, StrCli01.chomp_of_zero b hlen hhead⟩
  · exact .inr ⟨hhead, StrCli01.exists_chomp_eq b hlen (piece_ne_nil (by decide) hfile) hhead⟩

/-- What is done for a line. -/
theorem wpr_line (h : ClientHead o content m) (hfile : m.file ≠ []) {n : ℕ}
    (hn : m.file.length = n) (sockfd : ℤ) (s : StrCli01.Locals) {x : Prog stdio (Buf 1024)}
    (hx : StrCli01.chomp (s.sendBuf.put 0 (piece newline 1023 m.file ++ [0])) = x) :
    wpr (clientWorld o sockfd) (clientContract o content sockfd)
      (x >>= fun sendBuf => StrCli01.handle o sockfd sendBuf s) (ClientPost o content n)
      { m with file := m.file.drop (piece newline 1023 m.file).length } := by
  have hroom : 0 < 1023 := by decide
  have hpieces := pieces_of_ne_nil newline hroom hfile
  have hlt := hn ▸ length_drop_piece_lt newline hroom hfile
  have hcases := chomp_cases s.sendBuf hfile
  rw [hx] at hcases
  rcases hcases with ⟨hhead, rfl⟩ | ⟨hhead, sendBuf, rfl, hnumbers⟩
  · exact fun m₁ _ => ⟨_, h.among _ (hpieces ▸ List.mem_cons_self), hhead⟩
  have howes : Owes o content (expected o (piece newline 1023 m.file))
      { m with file := m.file.drop (piece newline 1023 m.file).length } := by
    refine ⟨⟨h.sound.flow, h.sound.ended, h.sound.outs, h.sound.sent⟩, h.inside, ?_,
      fun p hp => h.among p (hpieces ▸ List.mem_cons_of_mem _ hp), fun p hp hzero => ?_⟩
    · have htodo := h.todo
      rw [List.append_nil, transcript, hpieces, List.flatMap_cons, ← List.append_assoc] at htodo
      exact htodo
    · have hrest := h.heads p hp hzero
      rw [hpieces] at hrest
      rcases List.mem_cons.mp hrest with rfl | hrest
      · exact absurd hzero hhead
      · exact hrest
  rw [expected, ← hnumbers] at howes
  show wpr _ _ (StrCli01.handle o sockfd sendBuf s) _ _
  cases hn : numbers (CString.str sendBuf.toList) with
  | none =>
    rw [hn] at howes
    obtain ⟨s', hs'⟩ := StrCli01.handle_of_numbers_eq_none o sockfd hn s
    rw [hs']
    exact wpr_print howes h.idle hlt sockfd s'
  | some arg =>
    rw [hn] at howes
    exact wpr_ask hn howes h.idle hlt sockfd s

/-- **A turn of the client** handles one line, or finds that there are no more. -/
theorem wpr_client (h : ClientHead o content m) (sockfd : ℤ) (s : StrCli01.Locals) :
    wpr (clientWorld o sockfd) (clientContract o content sockfd) (StrCli01.body o sockfd s)
      (ClientPost o content m.file.length) m := by
  obtain ⟨k, hbody, hnone, hsome⟩ := StrCli01.exists_body_eq o sockfd s
  rw [hbody]
  refine fun m₁ h₁ => ⟨⟨(h.rely h₁).sound, rfl⟩, ?_⟩
  rintro line rfl
  have hm₁ := h.rely h₁
  by_cases hfile : m₁.file = []
  · have hnext : nextLine 1024 m₁.file = none := if_pos hfile
    have hdone : ClientDone o content { m₁ with ended := True } := by
      refine ⟨⟨hm₁.sound.flow, fun _ => hm₁.idle, hm₁.sound.outs, hm₁.sound.sent⟩, trivial, ?_, ?_⟩
      · rw [← hm₁.todo, hfile, List.append_nil, transcript, pieces_nil, List.flatMap_nil,
          List.append_nil]
      · rintro ⟨p, hp, hzero⟩
        have hmem := hm₁.heads p hp hzero
        rw [hfile, pieces_nil] at hmem
        exact List.not_mem_nil hmem
    rw [hnext, hnone]
    exact ⟨⟨rfl, fun _ => .rfl, fun _ => trivial, fun _ => hdone.sound⟩, fun m₂ h₂ => hdone.rely h₂⟩
  · have hsound : Sound o content
        { m₁ with file := m₁.file.drop (piece newline 1023 m₁.file).length } :=
      ⟨hm₁.sound.flow, hm₁.sound.ended, hm₁.sound.outs, hm₁.sound.sent⟩
    rw [StrCli01.nextLine_of_ne_nil hfile, hsome]
    refine ⟨⟨rfl, fun _ => .rfl, id, fun _ => hsound⟩, ?_⟩
    generalize hx : StrCli01.chomp _ = x
    exact wpr_line hm₁ hfile (congrArg List.length h₁.file) sockfd s hx

/-! ## The pair -/

variable {sockfd connfd : ℤ} {s : StrCli01.Locals} {mem : Buf 16}

/-- What holds at the head of each loop. -/
def Head (o : ByteOrder) (content : List Byte) : Party → Medium → Prop
  | .client => ClientHead o content
  | .server => ServerHead o content

/-- What holds when a function has returned. -/
def Done (o : ByteOrder) (content : List Byte) : Party → Medium → Prop
  | .client => ClientDone o content
  | .server => fun m => Sound o content m ∧ m.ended

/-- How much each loop has not read yet. -/
def left (o : ByteOrder) (content : List Byte) : Party → Medium → ℕ
  | .client => fun m => m.file.length
  | .server => serverLeft o content

/-- A turn of each loop. -/
theorem wpr_pair (i : Party) (t : (pair o sockfd connfd).σ i) (m : Medium)
    (h : Head o content i m) : wpr ((pair o sockfd connfd).world i)
      (contract o content sockfd connfd i) ((pair o sockfd connfd).body i t)
      (Sum.elim (fun _ m' => Head o content i m' ∧ left o content i m' < left o content i m)
        fun _ => Done o content i) m := by
  cases i with
  | client => exact wpr_client h sockfd t
  | server => exact wpr_server h connfd t

/-- Both programs keep to their contracts. -/
abbrev Keeping (o : ByteOrder) (content : List Byte) (a : (pair o sockfd connfd).State) : Prop :=
  (pair o sockfd connfd).Kept (contract o content sockfd connfd)
    (fun i => Sum.elim (fun _ => Head o content i) fun _ => Done o content i) a

theorem keeping_start (o : ByteOrder) (content : List Byte) :
    Keeping o content (start o sockfd connfd s mem content) := by
  have hsound : Sound o content ⟨content, False, .empty, .empty, [], .idle⟩ :=
    ⟨⟨rfl, rfl⟩, fun _ => rfl, List.nil_prefix, rfl⟩
  intro i
  cases i with
  | client =>
    have hhead : ClientHead o content ⟨content, False, .empty, .empty, [], .idle⟩ :=
      ⟨⟨hsound, id, rfl, fun _ => id, fun _ hp _ => hp⟩, rfl⟩
    exact fun m hm => hhead.rely hm
  | server =>
    have hhead : ServerHead o content ⟨content, False, .empty, .empty, [], .idle⟩ :=
      ⟨hsound, fun _ => nofun⟩
    exact fun m hm => hhead.rely hm

theorem keeping_of_reach {a : (pair o sockfd connfd).State}
    (h : (pair o sockfd connfd).Reach (start o sockfd connfd s mem content) a) :
    Keeping o content a :=
  h.wpr_of_lt (fun i _ => Head o content i) (fun i _ => Done o content i)
    (left o content) (fits o content sockfd connfd) wpr_pair (keeping_start o content)

theorem acc_start : Acc (fun b a => (pair o sockfd connfd).Step a b)
    (start o sockfd connfd s mem content) :=
  System.acc (fun i _ => Head o content i) (fun i _ => Done o content i)
    (left o content) (fits o content sockfd connfd) wpr_pair (keeping_start o content)

/-- What keeps to the contracts is sound, unless a line begins with a NUL. -/
theorem Keeping.sound (hclean : ¬ Spoilt content) {a : (pair o sockfd connfd).State}
    (h : Keeping o content a) : Sound o content a.2 := by
  refine wp_now (h.wp .client) ?_ (fun _ _ hc => hc.1) fun _ hf => absurd hf hclean
  rintro (_ | _) m hQ
  · exact hQ.sound
  · exact hQ.sound

/-- A call of the client that does not return is a read, with nothing under way. -/
theorem ClientCall.waits {c : Stdio.Call} (h : ClientCall sockfd m c)
    (hno : ∀ r, ¬ (clientWorld o sockfd).Allows m c r) :
    m.down.queue = [] ∧ ∃ arg, m.phase.Pending arg := by
  cases c with
  | select | printfStr | fputs => exact h.elim
  | read fd dst =>
    obtain ⟨rfl, rfl, hpending⟩ := h
    refine ⟨?_, hpending⟩
    by_contra hne
    exact hno _ ⟨rfl, hne, rfl⟩
  | write fd src mem => exact absurd ⟨h.1, rfl⟩ (hno (.ok src.len.toNat))
  | fgets size => exact absurd rfl (hno (nextLine size m.file))
  | printf t => exact absurd trivial (hno ())

/-- A call of the server that does not return is a read, with nothing under way and more to come. -/
theorem ServerCall.waits {c : Call} (h : ServerCall connfd m c)
    (hno : ∀ r, ¬ (serverWorld connfd).Allows m c r) :
    m.up.queue = [] ∧ ¬ m.ended ∧ ∀ arg, m.phase ≠ .held arg := by
  cases c with
  | read fd dst =>
    obtain ⟨rfl, rfl, hfree⟩ := h
    have hnil : m.up.queue = [] := by
      by_contra hne
      exact hno _ ⟨rfl, .inl ⟨hne, rfl⟩⟩
    exact ⟨hnil, fun he => hno _ ⟨rfl, .inr ⟨hnil, he, rfl⟩⟩, hfree⟩
  | write fd src mem => exact absurd ⟨h.1, rfl⟩ (hno (.ok src.len.toNat))
  | printf t => exact absurd trivial (hno ())
  | _ => exact h.elim

/-- Where no function takes a step both have returned. -/
theorem Keeping.stuck (hclean : ¬ Spoilt content) {a : (pair o sockfd connfd).State}
    (h : Keeping o content a) (hstuck : (pair o sockfd connfd).Stuck a) :
    (∀ i, a.1 i = .ret (.inr ())) ∧ a.2.outs = transcript o content := by
  have hclient := hstuck.waits h (i := .client) fun _ => hclean
  have hserver := hstuck.waits h (i := .server) fun _ => id
  rcases hclient with ⟨_, hc, hcdone⟩ | ⟨c, k, -, hcall, hno⟩
  · rcases hserver with ⟨_, hs, -⟩ | ⟨c, k, -, hcall, hno⟩
    · exact ⟨fun i => by cases i <;> assumption, hcdone.outs⟩
    · exact absurd hcdone.ended (ServerCall.waits hcall.2 hno).2.1
  · obtain ⟨hdown, arg, hpending⟩ := ClientCall.waits hcall.2 hno
    have hsound : Sound o content a.2 := hcall.1
    have hflow := hsound.flow
    rcases hserver with ⟨_, -, hsdone⟩ | ⟨c, k, -, hcall', hno'⟩
    · rcases hpending with hp | hp | hp <;> cases hp.symm.trans (hsound.ended hsdone.2)
    · obtain ⟨hup, -, hfree⟩ := ServerCall.waits hcall'.2 hno'
      have h8 := StrEchoSum.length_longBytes o arg.sum
      have h16 := StrEchoSum.length_bytes o arg
      -- a question that nobody works at is neither under way nor answered
      rcases hpending with hp | hp | hp
      · rw [hp] at hflow
        have hnil := congrArg List.length (hup.symm.trans hflow.1)
        rw [h16] at hnil
        cases hnil
      · exact absurd hp (hfree arg)
      · rw [hp] at hflow
        have hnil := congrArg List.length (hdown.symm.trans hflow.2)
        rw [h8] at hnil
        cases hnil

/-- Each line is answered by its own sum. -/
structure Answered (o : ByteOrder) (sockfd connfd : ℤ) (s : StrCli01.Locals) (mem : Buf 16)
    (content : List Byte) : Prop where
  /-- The client stays inside its buffers. -/
  safe : ∀ a, (pair o sockfd connfd).Reach (start o sockfd connfd s mem content) a →
    Stdio.Safe (a.1 .client)
  /-- It puts out nothing but what it is to put out, in order. -/
  outs : ∀ a, (pair o sockfd connfd).Reach (start o sockfd connfd s mem content) a →
    a.2.outs <+: transcript o content
  /-- No run goes on for ever. -/
  ends : Acc (fun b a => (pair o sockfd connfd).Step a b) (start o sockfd connfd s mem content)
  /-- Where a run ends, both functions have returned, and all has been put out. -/
  returns : ∀ a, (pair o sockfd connfd).Reach (start o sockfd connfd s mem content) a →
    (pair o sockfd connfd).Stuck a →
      (∀ i, a.1 i = .ret (.inr ())) ∧ a.2.outs = transcript o content

/-- **Each line is answered by its own sum**, in every run, if and only if no line begins with a
NUL, where a line is what `fgets` reads at once. -/
theorem answered_iff (o : ByteOrder) (sockfd connfd : ℤ) (s : StrCli01.Locals) (mem : Buf 16)
    (content : List Byte) : Answered o sockfd connfd s mem content ↔
      ∀ p ∈ pieces newline 1023 content, p.head? ≠ some 0 := by
  constructor
  · intro h p hp hzero
    obtain ⟨a, hreach, hstuck⟩ := System.exists_stuck h.ends
    have hclient : Interaction.wpr _ _ (a.1 .client) _ a.2 := keeping_of_reach hreach .client
    rw [(h.returns a hreach hstuck).1] at hclient
    exact (hclient a.2 ((clientContract o content sockfd).refl a.2)).clean ⟨p, hp, hzero⟩
  · intro h
    have hclean : ¬ Spoilt content := fun ⟨p, hp, hzero⟩ => h p hp hzero
    refine ⟨fun a ha => ?_, fun a ha => ((keeping_of_reach ha).sound hclean).outs, acc_start,
      fun a ha => (keeping_of_reach ha).stuck hclean⟩
    refine Stdio.safe_of_wp (G := (clientContract o content sockfd).toGuard) ?_
      (fun _ => hclean) ((keeping_of_reach ha).wp .client)
    rintro m (_ | _ | _ | _ | _ | _ | _) hc
    · trivial
    · obtain ⟨-, -, rfl, -⟩ := hc
      exact ⟨le_rfl, by decide, le_rfl⟩
    · exact hc.2.2
    · trivial
    · trivial
    · exact hc.2.elim
    · exact hc.2.elim

end SumSystem

end UnixNetwork
