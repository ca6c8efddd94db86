import UnixNetwork.Interaction.Live
import UnixNetwork.TextInput

/-!
# The client of the SCTP server

`sctpstr_cli` of `10/sctp-client.c`. It reads its input with `getline`, which allocates the buffer
for each line, sends the line as one message and frees the buffer.

The allocator may place a block where no block is and may move a block that it is handed. It may run
out of memory, and a message may be refused. At the end of the input `getline` may have allocated a
buffer all the same.

## Main definitions

* `SctpClient.body`: one turn of the loop
* `SctpClient.Memory`, `SctpClient.world`: the blocks that are allocated, the input and the messages
* `SctpClient.Sound`: what has been sent is the beginning of the input

## Main results

* `SctpClient.wp_body`: a turn of the loop
* `SctpClient.sends_lines`: what is sent, and what is left in memory, in every run
-/

namespace UnixNetwork

namespace SctpClient

open Interaction Encoding
open StrCli01 (newline)

/-! ## The program -/

/-- The address of a block. -/
abbrev Ptr : Type := ℕ

/-- What `getline` stores and returns. -/
structure Line where
  /-- `*lineptr`. -/
  buffer : Option Ptr
  /-- `*n`. -/
  len : ℕ
  /-- Its value. -/
  read : ℤ

/-- The calls of `sctpstr_cli`. A null pointer is `none`. -/
inductive Call where
  | getline (buffer : Option Ptr) (len : ℕ)
  | sctpSendmsg (fd : ℤ) (msg : Option Ptr) (len : ℤ) (ppid : ℕ) (stream : ℕ)
  | perror (msg : List Byte)
  | free (p : Option Ptr)

/-- The result of each call. -/
@[reducible] def Res : Call → Type
  | .getline .. => Line
  | .sctpSendmsg .. => Except Errno ℕ
  | _ => Unit

/-- The interface of `sctpstr_cli`. -/
abbrev sctp : Interface := ⟨Call, Res⟩

/-- The variables of `sctpstr_cli` that live from one turn of the loop to the next. -/
structure Locals where
  /-- `buffer`. -/
  buffer : Option Ptr
  /-- `len`. -/
  len : ℕ

/-- `htonl`. -/
def htonl (o : ByteOrder) (x : ℕ) : ℕ := o.decode (ByteOrder.big.encode 4 x)

/-- The body of `while`, for a line that has been read. -/
def send (o : ByteOrder) (sockFd : ℤ) (l : Line) : Prog sctp (Locals ⊕ Locals) := do
  let r ← Prog.perform (I := sctp) (.sctpSendmsg sockFd l.buffer l.read (htonl o 1) 0)
  if countValue r < 0 then do
    let _ ← Prog.perform (I := sctp) (.perror (text "sctp_sendmsg"))
    return .inr ⟨l.buffer, l.len⟩
  else do
    let _ ← Prog.perform (I := sctp) (.free l.buffer)
    return .inl ⟨none, l.len⟩

/-- One turn of `while`. The loop is left with its variables. -/
def body (o : ByteOrder) (sockFd : ℤ) (s : Locals) : Prog sctp (Locals ⊕ Locals) := do
  let l ← Prog.perform (I := sctp) (.getline s.buffer s.len)
  if l.read > 0 then send o sockFd l else return .inr ⟨l.buffer, l.len⟩

/-- The variables when the loop begins. -/
def start : Locals := ⟨none, 0⟩

/-! ## The memory, the input and the messages -/

/-- What is there besides the program. -/
structure Memory where
  /-- The blocks that are allocated, with what has been stored in them. -/
  heap : Ptr → Option (List Byte)
  /-- What has not been read of the input. -/
  input : List Byte
  /-- The messages that have been handed over, and whether each has been accepted. -/
  messages : List (List Byte × Bool)

namespace Memory

/-- Nothing is allocated, and nothing has been read. -/
def start (input : List Byte) : Memory := ⟨fun _ => none, input, []⟩

/-- What is in the block. -/
def block (w : Memory) (p : Option Ptr) : Option (List Byte) := p.bind w.heap

/-- The block is given back. -/
def release (w : Memory) (p : Option Ptr) : Memory :=
  { w with heap := p.elim w.heap fun p => Function.update w.heap p none }

/-- The block, which may have been moved, holds these bytes. -/
def store (w : Memory) (old new : Option Ptr) (bs : List Byte) : Memory :=
  { w with heap := new.elim w.heap fun p => Function.update (w.release old).heap p (some bs) }

/-- What `getline` may do. -/
inductive Getline (w : Memory) (old : Option Ptr) : Line → Prop where
  /-- A line has been read, with room for it and for a NUL. -/
  | line {p : Ptr} {len : ℕ} (hinput : w.input ≠ [])
      (hp : old = some p ∨ w.heap p = none) (hlen : (firstLine newline w.input).length < len) :
      Getline w old ⟨some p, len, (firstLine newline w.input).length⟩
  /-- The input is at its end. A buffer may have been allocated. -/
  | ended {p : Ptr} {len : ℕ} (hinput : w.input = []) (hp : old = some p ∨ w.heap p = none) :
      Getline w old ⟨some p, len, -1⟩
  /-- Nothing has been read, for want of memory or at the end of the input. -/
  | failed {len : ℕ} : Getline w old ⟨old, len, -1⟩

/-- The memory after a call. -/
def next (w : Memory) : (c : Call) → Res c → Memory
  | .getline old _, l =>
    if l.read > 0 then
      let line := firstLine newline w.input
      { w.store old l.buffer (line ++ [0]) with input := w.input.drop line.length }
    else w.store old l.buffer []
  | .sctpSendmsg _ p len _ _, r =>
    { w with messages :=
      w.messages ++ [(((w.block p).getD []).take len.toNat, decide (0 ≤ countValue r))] }
  | .free p, _ => w.release p
  | .perror _, _ => w

end Memory

/-- What the calls return. -/
def Allows (w : Memory) : (c : Call) → Res c → Prop
  | .getline old _, l => w.Getline old l
  | _, _ => True

/-- The surroundings of the loop. -/
def world : World sctp Memory := ⟨Allows, Memory.next⟩

/-! ## What is asked of it -/

/-- What has been sent: whole lines of the input, in order, of which none but the last one has been
refused. No more than one block is allocated. -/
structure Sound (input : List Byte) (w : Memory) : Prop where
  /-- The messages are lines of the input. -/
  lines : w.messages.map Prod.fst <+: lines newline input
  /-- A message that has been refused is the last one. -/
  accepted : ∀ m ∈ w.messages.dropLast, m.2 = true
  /-- There are not two blocks. -/
  single : ∀ p q, w.heap p ≠ none → w.heap q ≠ none → p = q

/-- No block is used or given back that is not allocated, and what is sent of a block is in it. -/
def Proper (w : Memory) : Call → Prop
  | .getline old _ => ∀ p, old = some p → w.heap p ≠ none
  | .sctpSendmsg _ p len _ _ => 0 ≤ len ∧ ∃ bs, w.block p = some bs ∧ len ≤ bs.length
  | .free p => ∀ q, p = some q → w.heap q ≠ none
  | .perror _ => True

/-- What is asked of the function on its way. -/
def guard (input : List Byte) : Guard sctp Memory :=
  ⟨fun w c => Sound input w ∧ Proper w c, fun _ => False⟩

/-- The invariant of the loop: what has been sent and what has not been read is the input. -/
structure Inv (input : List Byte) (s : Locals) (w : Memory) : Prop where
  /-- There is no buffer. -/
  buffer : s.buffer = none
  /-- There is no block. -/
  heap : w.heap = fun _ => none
  /-- The messages are the lines that have been read. -/
  lines : w.messages.map Prod.fst ++ lines newline w.input = lines newline input
  /-- All of them have been accepted. -/
  accepted : ∀ m ∈ w.messages, m.2 = true

/-- How the function has ended. -/
structure Ended (input : List Byte) (s : Locals) (w : Memory) : Prop where
  /-- The messages are sound. -/
  sound : Sound input w
  /-- What is still allocated is what `buffer` points to. -/
  leaked : ∀ p, w.heap p ≠ none ↔ s.buffer = some p
  /-- The last message has been refused, and its buffer is still there; or all messages have been
  accepted, and it is all lines unless memory has run out. -/
  last : (∃ line, w.messages.getLast? = some (line, false) ∧ s.buffer ≠ none) ∨
    (∀ m ∈ w.messages, m.2 = true) ∧
      (w.input = [] → w.messages.map Prod.fst = Encoding.lines newline input)

/-! ## A turn -/

variable {input : List Byte} {s : Locals} {w : Memory}

theorem Inv.sound (h : Inv input s w) : Sound input w where
  lines := ⟨_, h.lines⟩
  accepted m hm := h.accepted m (List.dropLast_subset _ hm)
  single p _ hp := absurd (congrFun h.heap p) hp

theorem inv_start (input : List Byte) : Inv input start (Memory.start input) :=
  ⟨rfl, rfl, rfl, fun _ hm => absurd hm List.not_mem_nil⟩

/-- The one block that is allocated, when there was none. -/
theorem heap_store (h : w.heap = fun _ => none) (p : Ptr) (bs : List Byte) (q : Ptr) :
    (w.store none (some p) bs).heap q = if q = p then some bs else none := by
  show Function.update w.heap p (some bs) q = _
  rw [h, Function.update_apply]

/-- A line that has been read is in the only block, and is not among the messages yet. -/
structure Read (input line : List Byte) (p : Ptr) (w : Memory) : Prop where
  /-- It is in the block, behind it a NUL. -/
  heap : ∀ q, w.heap q = if q = p then some (line ++ [0]) else none
  /-- It is the line that comes next. -/
  lines : w.messages.map Prod.fst ++ line :: lines newline w.input = lines newline input
  /-- All messages have been accepted. -/
  accepted : ∀ m ∈ w.messages, m.2 = true

/-- Where there is one block. -/
theorem eq_of_heap {p : Ptr} {bs : List Byte}
    (h : ∀ q, w.heap q = if q = p then some bs else none) {q : Ptr} (hq : w.heap q ≠ none) :
    q = p := by
  by_contra hne
  exact hq ((h q).trans (if_neg hne))

theorem heap_self {p : Ptr} {bs : List Byte}
    (h : ∀ q, w.heap q = if q = p then some bs else none) : w.heap p = some bs :=
  (h p).trans (if_pos rfl)

theorem heap_ne_none_iff {p : Ptr} {bs : List Byte}
    (h : ∀ q, w.heap q = if q = p then some bs else none) (q : Ptr) :
    w.heap q ≠ none ↔ some p = some q := by
  constructor
  · exact fun hq => congrArg some (eq_of_heap h hq).symm
  · intro hq
    obtain rfl := Option.some.inj hq
    rw [heap_self h]
    exact Option.some_ne_none _

namespace Read

variable {line : List Byte} {p : Ptr}

theorem sound (h : Read input line p w) : Sound input w where
  lines := ⟨_, h.lines⟩
  accepted m hm := h.accepted m (List.dropLast_subset _ hm)
  single _ _ hq hq' := (eq_of_heap h.heap hq).trans (eq_of_heap h.heap hq').symm

/-- The message is the line. -/
theorem message (h : Read input line p w) :
    ((w.block (some p)).getD []).take (line.length : ℤ).toNat = line := by
  show ((w.heap p).getD []).take line.length = line
  rw [heap_self h.heap, Option.getD_some, List.take_left]

theorem proper (h : Read input line p w) (fd : ℤ) (ppid stream : ℕ) :
    Proper w (.sctpSendmsg fd (some p) line.length ppid stream) := by
  refine ⟨Int.natCast_nonneg _, _, heap_self h.heap, ?_⟩
  rw [List.length_append]
  exact Int.ofNat_le.mpr (Nat.le_add_right _ _)

end Read

/-- The line has been handed over. -/
structure Sent (input : List Byte) (p : Ptr) (ok : Bool) (w : Memory) : Prop where
  /-- It is in the block. -/
  heap : ∃ bs, ∀ q, w.heap q = if q = p then some bs else none
  /-- The messages are the lines that have been read. -/
  lines : w.messages.map Prod.fst ++ Encoding.lines newline w.input = Encoding.lines newline input
  /-- Only this one may have been refused. -/
  messages : ∃ ms line, w.messages = ms ++ [(line, ok)] ∧ ∀ m ∈ ms, m.2 = true

theorem Read.sent {line : List Byte} {p : Ptr} (h : Read input line p w) (fd : ℤ)
    (ppid stream : ℕ) (r : Except Errno ℕ) :
    Sent input p (decide (0 ≤ countValue r))
      (w.next (.sctpSendmsg fd (some p) line.length ppid stream) r) where
  heap := ⟨_, h.heap⟩
  lines := by
    have hlines := h.lines
    rw [Memory.next, h.message, List.map_append, List.append_assoc]
    exact hlines
  messages := by
    rw [Memory.next, h.message]
    exact ⟨_, _, rfl, h.accepted⟩

namespace Sent

variable {p : Ptr} {ok : Bool}

theorem sound (h : Sent input p ok w) : Sound input w where
  lines := ⟨_, h.lines⟩
  accepted m hm := by
    obtain ⟨ms, line, hms, hok⟩ := h.messages
    rw [hms, List.dropLast_concat] at hm
    exact hok m hm
  single _ _ hq hq' := by
    obtain ⟨bs, hheap⟩ := h.heap
    exact (eq_of_heap hheap hq).trans (eq_of_heap hheap hq').symm

/-- When the message has been refused. -/
theorem ended (h : Sent input p false w) (len : ℕ) : Ended input ⟨some p, len⟩ w where
  sound := h.sound
  leaked q := by
    obtain ⟨bs, hheap⟩ := h.heap
    exact heap_ne_none_iff hheap q
  last := by
    obtain ⟨ms, line, hms, -⟩ := h.messages
    refine .inl ⟨line, ?_, Option.some_ne_none p⟩
    rw [hms, List.getLast?_concat]

/-- When the buffer has been freed. -/
theorem inv (h : Sent input p true w) (len : ℕ) : Inv input ⟨none, len⟩ (w.release (some p)) where
  buffer := rfl
  heap := by
    obtain ⟨bs, hheap⟩ := h.heap
    funext q
    show Function.update w.heap p none q = none
    rw [Function.update_apply]
    by_cases hq : q = p
    · rw [if_pos hq]
    · rw [if_neg hq, hheap q, if_neg hq]
  lines := h.lines
  accepted m hm := by
    obtain ⟨ms, line, hms, hok⟩ := h.messages
    have hm' : m ∈ ms ++ [(line, true)] := hms ▸ hm
    rcases List.mem_append.mp hm' with hm' | hm'
    · exact hok m hm'
    · exact congrArg Prod.snd (List.mem_singleton.mp hm')

end Sent

/-- A line has been read. -/
theorem Inv.read (h : Inv input s w) (hinput : w.input ≠ []) (p : Ptr) :
    Read input (firstLine newline w.input) p
      { w.store none (some p) (firstLine newline w.input ++ [0]) with
        input := w.input.drop (firstLine newline w.input).length } where
  heap := heap_store h.heap p _
  lines := by
    have hlines := h.lines
    rw [lines_of_ne_nil hinput] at hlines
    exact hlines
  accepted := h.accepted

/-- Nothing more is read. -/
theorem Inv.ended (h : Inv input s w) {p : Option Ptr} {len : ℕ} :
    Ended input ⟨p, len⟩ (w.store none p []) where
  sound := by
    refine ⟨⟨_, h.lines⟩, fun m hm => h.accepted m (List.dropLast_subset _ hm), ?_⟩
    intro q q' hq hq'
    cases p with
    | none => exact absurd (congrFun h.heap q) hq
    | some p =>
      have hheap := heap_store h.heap p []
      exact (eq_of_heap hheap hq).trans (eq_of_heap hheap hq').symm
  leaked q := by
    cases p with
    | none => exact iff_of_false (not_not_intro (congrFun h.heap q)) (nomatch ·)
    | some p => exact heap_ne_none_iff (heap_store h.heap p []) q
  last := by
    refine .inr ⟨h.accepted, fun hinput => ?_⟩
    have hlines := h.lines
    have hnil : Encoding.lines newline w.input = [] := by
      rw [show w.input = [] from hinput, Encoding.lines]
    rwa [hnil, List.append_nil] at hlines

variable (o : ByteOrder) (sockFd : ℤ)

/-- What follows when a line has been read. -/
theorem wp_send {line : List Byte} {p : Ptr} {n : ℕ} (len : ℕ) (h : Read input line p w)
    (hn : w.input.length < n) :
    wp world (guard input) (send o sockFd ⟨some p, len, line.length⟩)
      (Sum.elim (fun s' w' => Inv input s' w' ∧ w'.input.length < n) (Ended input)) w := by
  refine ⟨⟨h.sound, h.proper sockFd _ 0⟩, fun r _ => ?_⟩
  have hsent := h.sent sockFd (htonl o 1) 0 r
  show wp _ _ (ite _ _ _) _ _
  by_cases hr : countValue r < 0
  · rw [decide_eq_false (Int.not_le.mpr hr)] at hsent
    rw [if_pos hr]
    exact ⟨⟨hsent.sound, trivial⟩, fun _ _ => hsent.ended len⟩
  · rw [decide_eq_true (Int.not_lt.mp hr)] at hsent
    rw [if_neg hr]
    refine ⟨⟨hsent.sound, fun q hq => ?_⟩, fun _ _ => ⟨hsent.inv len, hn⟩⟩
    obtain ⟨bs, hheap⟩ := hsent.heap
    exact (heap_ne_none_iff hheap q).mpr hq

/-- **A turn of the loop** sends the next line, or is the last one. -/
theorem wp_body (s : Locals) (w : Memory) (h : Inv input s w) :
    wp world (guard input) (body o sockFd s)
      (Sum.elim (fun s' w' => Inv input s' w' ∧ w'.input.length < w.input.length)
        (Ended input)) w := by
  obtain ⟨buffer, n⟩ := s
  obtain rfl : buffer = none := h.buffer
  refine ⟨⟨h.sound, fun p hp => nomatch hp⟩, fun l hl => ?_⟩
  show wp _ _ (ite _ _ _) _ _
  cases hl with
  | @line p len hinput hp hlen =>
    have hpos : 0 < (firstLine newline w.input).length :=
      List.length_pos_iff.mpr (firstLine_ne_nil hinput)
    have hdrop : (w.input.drop (firstLine newline w.input).length).length < w.input.length := by
      have := List.length_pos_iff.mpr hinput
      rw [List.length_drop]
      omega
    have hread : ((firstLine newline w.input).length : ℤ) > 0 := Int.natCast_pos.mpr hpos
    have hsend := wp_send o sockFd len (h.read hinput p) hdrop
    rw [if_pos hread]
    show wp _ _ _ _ (w.next (.getline none n) _)
    rw [Memory.next, if_pos hread]
    exact hsend
  | ended hinput hp =>
    rw [if_neg (by decide : ¬ (-1 : ℤ) > 0)]
    exact h.ended
  | failed =>
    rw [if_neg (by decide : ¬ (-1 : ℤ) > 0)]
    exact h.ended

/-! ## A run -/

theorem live (input : List Byte) : (guard input).Live world where
  call _ c _ := match c with
    | .getline old n => ⟨⟨old, n, -1⟩, .failed⟩
    | .sctpSendmsg .. => ⟨.ok 0, trivial⟩
    | .perror _ => ⟨(), trivial⟩
    | .free _ => ⟨(), trivial⟩
  fault _ := id

/-- A run of the function. -/
abbrev Run (input : List Byte) : Prog sctp (Locals ⊕ Locals) × Memory → Prop :=
  Reach world (body o sockFd) (.ret (.inl start), Memory.start input)

/-- The next call is made as it should be, and nothing undefined happens. -/
def Next (w : Memory) : Prog sctp (Locals ⊕ Locals) → Prop
  | .ret _ => True
  | .call c _ => Proper w c
  | .fault => False

/-- What is asked of all runs. -/
structure SendsLines (input : List Byte) : Prop where
  /-- Memory is used as it should be. -/
  proper : ∀ p w, Run o sockFd input (p, w) → Next w p
  /-- What has been sent is sound. -/
  sound : ∀ p w, Run o sockFd input (p, w) → Sound input w
  /-- The function can be left at any time. -/
  ends : ∀ p w, Run o sockFd input (p, w) →
    ∃ s w', Reach world (body o sockFd) (p, w) (.ret (.inr s), w')
  /-- How the function is left. -/
  ended : ∀ s w, Run o sockFd input (.ret (.inr s), w) → Ended input s w

/-- **Every line is sent as it is**, as long as messages are accepted and memory is there. -/
theorem sends_lines (o : ByteOrder) (sockFd : ℤ) (input : List Byte) :
    SendsLines o sockFd input := by
  have hwp : ∀ p w, Run o sockFd input (p, w) →
      wp world (guard input) p (Sum.elim (Inv input) (Ended input)) w := fun p w h =>
    h.wp_of_lt (wp_body o sockFd) (inv_start input)
  refine ⟨fun p w h => ?_, fun p w h => ?_, fun p w h => ?_, fun s w h => hwp _ w h⟩
  · have hp := hwp p w h
    cases p with
    | ret _ => trivial
    | call c k => exact hp.1.2
    | fault => exact hp
  · refine wp_now (hwp p w h) ?_ (fun w c hc => hc.1) fun w hno => hno.elim
    rintro (s | s) w hw
    · exact Inv.sound hw
    · exact Ended.sound hw
  · exact (live input).returns (wp_body o sockFd) (inv_start input) h

end SctpClient

end UnixNetwork
