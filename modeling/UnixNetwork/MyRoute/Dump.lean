import UnixNetwork.MyRoute
import Mathlib.Data.List.TakeWhile

/-!
# The dump of the routing table

What `query_route_table` makes of the replies of the kernel. A reply is a datagram of whole, aligned
netlink messages, and the dump ends with the first `NLMSG_DONE`. A `recvmsg` stores at most
`iov_len` bytes of a datagram and discards the rest.

Since `iov_len` is 28, the length of the request, of every reply only the first 28 bytes are seen.
A message takes 16 bytes at least, so only the first message of a reply can be handled, and only if
it is not longer than 28 bytes. Whether the loop then goes on is decided by the two bytes where the
type of a message behind it would stand; they may not belong to the reply at all.

## Main definitions

* `MyRoute.Nlmsg`, `MyRoute.datagram`: messages and replies
* `MyRoute.Dump`, `MyRoute.world`: the replies to come and the messages handled
* `MyRoute.Processed`: every message before the first `NLMSG_DONE` is handled, and the loop stops
* `MyRoute.Complete`: the replies of which this is true

## Main results

* `executes_body_iff`: one turn of the receive loop
* `processed_iff`: when a dump is processed
-/

namespace UnixNetwork

namespace MyRoute

open Interaction Encoding

/-! ## Messages -/

/-- A netlink message, with the padding behind it. -/
structure Nlmsg where
  /-- `nlmsg_type`. -/
  type : UInt16
  /-- `nlmsg_flags`. -/
  flags : UInt16
  /-- `nlmsg_seq`. -/
  seq : UInt32
  /-- `nlmsg_pid`. -/
  pid : UInt32
  /-- What follows the header. -/
  payload : List Byte
  /-- The padding. -/
  pad : List Byte
  /-- The padding reaches to the next multiple of `NLMSG_ALIGNTO`. -/
  aligned : sizeofNlmsghdr + payload.length + pad.length =
    nlmsgAlign (sizeofNlmsghdr + payload.length)

namespace Nlmsg

/-- `nlmsg_len`. -/
def len (m : Nlmsg) : ℕ := sizeofNlmsghdr + m.payload.length

/-- The message ends the dump. -/
def isDone (m : Nlmsg) : Bool := m.type.toNat = nlmsgDone

/-- The bytes of the message. -/
def bytes (o : ByteOrder) (m : Nlmsg) : List Byte :=
  o.encode 4 m.len ++ (o.encode 2 m.type.toNat ++ (o.encode 2 m.flags.toNat ++
    (o.encode 4 m.seq.toNat ++ (o.encode 4 m.pid.toNat ++ m.payload))))

/-- The bytes of the message and of its padding. -/
def padded (o : ByteOrder) (m : Nlmsg) : List Byte := m.bytes o ++ m.pad

variable {o : ByteOrder} {m : Nlmsg}

theorem length_bytes (o : ByteOrder) (m : Nlmsg) : (m.bytes o).length = m.len := by
  simp only [bytes, List.length_append, ByteOrder.length_encode, len, sizeofNlmsghdr]
  omega

theorem length_padded (o : ByteOrder) (m : Nlmsg) : (m.padded o).length = nlmsgAlign m.len := by
  rw [padded, List.length_append, length_bytes]
  exact m.aligned

theorem sixteen_le_len (m : Nlmsg) : 16 ≤ m.len := Nat.le_add_right _ _

end Nlmsg

/-- The bytes of a reply. -/
def datagram (o : ByteOrder) (ms : List Nlmsg) : List Byte := ms.flatMap (Nlmsg.padded o)

/-! ## The surroundings -/

/-- The surroundings of the receive loop. -/
structure Dump where
  /-- The replies that have not been received. -/
  queue : List (List Byte)
  /-- The messages that `handle_route_message` has been called on. -/
  handled : List (List Byte)

/-- The message at a pointer, as long as its header says. -/
def messageAt (o : ByteOrder) (nlh : List Byte) : List Byte := nlh.take (o.decode (nlh.take 4))

/-- What the surroundings return: `recvmsg` the next reply, or the part of it that there is room
for. -/
def Allows (w : Dump) : (c : Call) → Res c → Prop
  | .recvmsg _ dst, r => ∃ d, w.queue.head? = some d ∧ r = .ok (d.take dst.len.toNat)
  | _, _ => True

/-- What has happened once a call has returned. -/
def Dump.next (o : ByteOrder) (w : Dump) : (c : Call) → Res c → Dump
  | .recvmsg _ _, _ => { w with queue := w.queue.tail }
  | .handleRouteMessage nlh, _ => { w with handled := w.handled ++ [messageAt o nlh] }
  | _, _ => w

/-- The surroundings of the receive loop. -/
def world (o : ByteOrder) : World netlink Dump := ⟨Allows, Dump.next o⟩

/-! ## What the loop is to do -/

/-- The messages before the first `NLMSG_DONE`. -/
def before (ms : List Nlmsg) : List Nlmsg := ms.takeWhile fun m => !m.isDone

/-- The messages to be handled. -/
def expected (replies : List (List Nlmsg)) : List Nlmsg := before replies.flatten

/-- The replies behind the one with the first `NLMSG_DONE`. -/
def rest (replies : List (List Nlmsg)) : List (List Nlmsg) :=
  (replies.dropWhile fun d => !d.any Nlmsg.isDone).tail

/-- The dump ends with one of the replies. -/
def Ends (replies : List (List Nlmsg)) : Prop := ∃ d ∈ replies, d.any Nlmsg.isDone = true

/-- The receive loop, begun with the variables `s`, handles every message before the first
`NLMSG_DONE`, in order and whole, and no other, and then stops. -/
def Processed (o : ByteOrder) (s : Locals) (replies : List (List Nlmsg)) : Prop :=
  ∃ w, Reach (world o) (body o) (.ret (.inl s), ⟨replies.map (datagram o), []⟩)
      (.ret (.inr ()), w) ∧
    w.handled = (expected replies).map (Nlmsg.bytes o) ∧ w.queue = (rest replies).map (datagram o)

/-- The buffer once the first 28 bytes of a reply have been stored in it. -/
def received (o : ByteOrder) (b : Buf sizeofBuffer) (d : List Nlmsg) : Buf sizeofBuffer :=
  b.put 0 ((datagram o d).take 28)

/-- The replies that are processed when they are received into the buffer `b`. Of each of them one
message at most comes before the end of the dump, and it has 28 bytes at most. The two bytes behind
it where a type would stand are not `NLMSG_DONE` in the buffer if the dump goes on, and if the dump
ends they are, unless the reply reaches so far. -/
def Complete (o : ByteOrder) : Buf sizeofBuffer → List (List Nlmsg) → Prop
  | _, [] => True
  | b, d :: ds =>
    (before d).length ≤ 1 ∧ (∀ m ∈ before d, m.len ≤ 28) ∧
      if d.any Nlmsg.isDone then 20 < (datagram o (before d)).length →
        typeAt o b (datagram o (before d)).length = nlmsgDone
      else typeAt o b (datagram o d).length ≠ nlmsgDone ∧ Complete o (received o b d) ds

/-! ## What the buffer holds -/

section Memory

variable {o : ByteOrder} {b : Buf sizeofBuffer} {l : List Byte}

/-- What has been received can be read back, up to 28 bytes. -/
theorem slice_received {i k : ℕ} (h : i + k ≤ 28) (hl : i + k ≤ l.length) :
    (b.put 0 (l.take 28)).slice i k = (l.drop i).take k := by
  have hmin : (l.take 28).length = min 28 l.length := List.length_take
  have hslice : (b.put 0 (l.take 28)).slice (0 + i) k = ((l.take 28).drop i).take k :=
    Buf.slice_put_of_le (by rw [hmin, sizeofBuffer]; omega) (by rw [hmin]; omega)
  rw [Nat.zero_add] at hslice
  rw [hslice, List.drop_take, List.take_take, Nat.min_eq_left (by omega)]

/-- Behind what has been received the buffer is as it was. -/
theorem slice_received_behind {i k : ℕ} (h : min 28 l.length ≤ i) :
    (b.put 0 (l.take 28)).slice i k = b.slice i k :=
  Buf.slice_put_of_disjoint (.inr (by rw [List.length_take]; omega))

/-- The length of a message at the beginning of some bytes. -/
theorem decode_len (m : Nlmsg) (hm : m.len < 256 ^ 4) (l : List Byte) :
    o.decode ((m.padded o ++ l).take 4) = m.len := by
  have h : (m.padded o ++ l).take 4 = o.encode 4 m.len := by
    rw [Nlmsg.padded, Nlmsg.bytes, List.append_assoc, List.append_assoc,
      List.take_left' (o.length_encode 4 _)]
  rw [h, o.decode_encode hm]

/-- The type of a message at the beginning of some bytes. -/
theorem decode_type (m : Nlmsg) (l : List Byte) :
    o.decode (((m.padded o ++ l).drop 4).take 2) = m.type.toNat := by
  have h : ((m.padded o ++ l).drop 4).take 2 = o.encode 2 m.type.toNat := by
    rw [Nlmsg.padded, Nlmsg.bytes, List.append_assoc, List.append_assoc,
      List.drop_left' (o.length_encode 4 _), List.append_assoc,
      List.take_left' (o.length_encode 2 _)]
  rw [h, o.decode_encode (by simpa using m.type.toNat_lt)]

end Memory

/-! ## One turn -/

/-- The messages of a reply that are handled: the first one, if it is short enough and does not end
the dump. -/
def seen : List Nlmsg → List Nlmsg
  | [] => []
  | m :: _ => if m.len ≤ 28 ∧ m.isDone = false then [m] else []

section Turn

variable {o : ByteOrder} {b : Buf sizeofBuffer} {d ms : List Nlmsg} {m : Nlmsg} {α : Type}

theorem datagram_cons : datagram o (m :: ms) = m.padded o ++ datagram o ms := List.flatMap_cons

theorem len_le_length (o : ByteOrder) (m : Nlmsg) (ms : List Nlmsg) :
    m.len ≤ (datagram o (m :: ms)).length := by
  rw [datagram_cons, List.length_append, m.length_padded]
  exact (le_nlmsgAlign m.len).trans (Nat.le_add_right _ _)

theorem lenAt_received (h : (datagram o (m :: ms)).length ≤ sizeofBuffer) :
    lenAt o (received o b (m :: ms)) 0 = m.len := by
  have hmin := m.sixteen_le_len
  have hle := len_le_length o m ms
  have hlen : m.len < 256 ^ 4 := by
    rw [sizeofBuffer] at h
    omega
  rw [lenAt, received, slice_received (by decide) (by omega), List.drop_zero, datagram_cons,
    decode_len m hlen]

theorem typeAt_received : typeAt o (received o b (m :: ms)) 0 = m.type.toNat := by
  have hmin := m.sixteen_le_len
  have hle := len_le_length o m ms
  rw [typeAt, received, slice_received (by decide) (by omega), datagram_cons, decode_type]

theorem messageAt_drop {n : ℕ} (b : Buf n) (nlh : ℕ) :
    messageAt o (b.toList.drop nlh) = b.slice nlh (lenAt o b nlh) := rfl

/-- What is handed to `handle_route_message` is the whole message. -/
theorem messageAt_received (h : (datagram o (m :: ms)).length ≤ sizeofBuffer) (hm : m.len ≤ 28) :
    messageAt o ((received o b (m :: ms)).toList.drop 0) = m.bytes o := by
  have hle := len_le_length o m ms
  rw [messageAt_drop, lenAt_received h, received, slice_received (by omega) (by omega),
    List.drop_zero, datagram_cons, Nlmsg.padded, List.append_assoc,
    List.take_left' (m.length_bytes o)]

theorem executes_printf {t : String} {k : Unit → Prog netlink α} {w w' : Dump} {a : α} :
    Executes (world o) (.call (I := netlink) (.printf t) k) w a w' ↔
      Executes (world o) (k ()) w a w' :=
  executes_call_of_unique fun _ => iff_of_true trivial rfl

theorem executes_handleRouteMessage {nlh : List Byte} {k : Unit → Prog netlink α} {w w' : Dump}
    {a : α} : Executes (world o) (.call (I := netlink) (.handleRouteMessage nlh) k) w a w' ↔
      Executes (world o) (k ()) { w with handled := w.handled ++ [messageAt o nlh] } a w' :=
  executes_call_of_unique fun _ => iff_of_true trivial rfl

theorem executes_leave {sockfd : ℤ} {w w' : Dump} {x : Locals ⊕ Unit} :
    Executes (world o) (leave sockfd) w x w' ↔ x = .inr () ∧ w' = w := by
  have hclose : ∀ r : Unit, (world o).Allows w (.close sockfd) r ↔ r = () := fun _ =>
    iff_of_true trivial rfl
  exact executes_call_of_unique hclose

theorem executes_recvmsg {fd : ℤ} {dst : Span} {k : Except Errno (List Byte) → Prog netlink α}
    {w' : Dump} {a : α} {queue handled : List (List Byte)} {l : List Byte} :
    Executes (world o) (.call (I := netlink) (.recvmsg fd dst) k) ⟨l :: queue, handled⟩ a w' ↔
      Executes (world o) (k (.ok (l.take dst.len.toNat))) ⟨queue, handled⟩ a w' := by
  refine executes_call_of_unique ?_
  intro r
  constructor
  · rintro ⟨l', hl, rfl⟩
    cases hl
    rfl
  · rintro rfl
    exact ⟨l, rfl, rfl⟩

/-- The loop over the messages of a reply handles those that are seen, and ends behind them. -/
theorem executes_messages (h : (datagram o d).length ≤ sizeofBuffer) {w w' : Dump} {nlh : ℕ} :
    Executes (world o) (messages o (received o b d) 0 ((datagram o d).take 28).length) w nlh w' ↔
      nlh = (datagram o (seen d)).length ∧
        w' = { w with handled := w.handled ++ (seen d).map (Nlmsg.bytes o) } := by
  cases d with
  | nil =>
    rw [messages_of_lt (by simp [datagram]), executes_ret]
    simp [seen, datagram]
  | cons m ms =>
    have hmin := m.sixteen_le_len
    have halign := le_nlmsgAlign m.len
    have hle := len_le_length o m ms
    have hn : ((datagram o (m :: ms)).take 28).length = min 28 (datagram o (m :: ms)).length :=
      List.length_take
    rw [messages_of_le (by rw [hn]; omega) (by decide), lenAt_received h, typeAt_received]
    by_cases hm : m.len ≤ 28
    · rw [if_pos ⟨hmin, by rw [hn]; omega⟩]
      cases hdone : m.isDone with
      | true =>
        rw [if_pos (of_decide_eq_true hdone), executes_printf, executes_ret]
        simp [seen, hdone, datagram]
      | false =>
        rw [if_neg (of_decide_eq_false hdone), executes_handleRouteMessage,
          messageAt_received h hm, messages_of_lt (by rw [hn]; omega), executes_ret]
        simp [seen, hm, hdone, datagram, m.length_padded]
    · rw [if_neg (fun hle => hm (by rw [hn] at hle; omega)), executes_ret]
      simp [seen, hm, datagram]

theorem length_seen_le : (datagram o (seen d)).length ≤ 28 := by
  cases d with
  | nil => exact Nat.zero_le _
  | cons m ms =>
    rw [seen]
    split
    · rename_i hm
      have hle : m.len ≤ 28 := hm.1
      rw [datagram_cons, List.length_append, m.length_padded, nlmsgAlign]
      show (m.len + 3) / 4 * 4 + 0 ≤ 28
      omega
    · exact Nat.zero_le _

/-- What follows the loop over the messages. -/
theorem executes_type {s s' : Locals} {nlh : ℕ} (hnlh : nlh ≤ 28) {w w' : Dump}
    {x : Locals ⊕ Unit} :
    Executes (world o) ((nlmsgType o b nlh : Prog netlink ℕ) >>= fun type =>
      if type = nlmsgDone then leave s.sockfd else .ret (.inl s')) w x w' ↔
      w' = w ∧ x = if typeAt o b nlh = nlmsgDone then .inr () else .inl s' := by
  rw [nlmsgType_of_le (by rw [sizeofBuffer]; omega), Prog.ret_bind]
  split
  · rw [executes_leave, and_comm]
  · rw [executes_ret, and_comm]

/-- **One turn** of the receive loop. It handles the messages that are seen, and the loop goes on
unless the buffer holds the type `NLMSG_DONE` behind them. -/
theorem executes_body_iff {s : Locals} (hiov : s.iov = ⟨sizeofBuffer, 0, 28⟩)
    (h : (datagram o d).length ≤ sizeofBuffer) {queue handled : List (List Byte)}
    {x : Locals ⊕ Unit} {w : Dump} :
    Executes (world o) (body o s) ⟨datagram o d :: queue, handled⟩ x w ↔
      w = ⟨queue, handled ++ (seen d).map (Nlmsg.bytes o)⟩ ∧
      x = if typeAt o (received o s.buffer d) (datagram o (seen d)).length = nlmsgDone then .inr ()
        else .inl { s with buffer := received o s.buffer d } := by
  have hstore : (s.buffer.storeBytes 0 ((datagram o d).take 28) : Prog netlink _) =
      .ret (received o s.buffer d) := if_pos (.inr ⟨le_rfl, by
        rw [List.length_take, sizeofBuffer]
        omega⟩)
  rw [body, perform_bind, executes_printf, perform_bind, executes_recvmsg, hiov]
  show Executes _ (s.buffer.storeBytes 0 ((datagram o d).take 28) >>= _) _ _ _ ↔ _
  rw [hstore, Prog.ret_bind, perform_bind, executes_printf, executes_bind]
  constructor
  · rintro ⟨nlh, w₁, hmsg, hrest⟩
    obtain ⟨rfl, rfl⟩ := (executes_messages h).mp hmsg
    exact (executes_type length_seen_le).mp hrest
  · intro hx
    exact ⟨_, _, (executes_messages h).mpr ⟨rfl, rfl⟩, (executes_type length_seen_le).mpr hx⟩

end Turn

/-! ## Whole dumps -/

/-- What the receive loop makes of some replies: the messages it handles and the replies it leaves,
if it stops. -/
def outcome (o : ByteOrder) :
    Buf sizeofBuffer → List (List Nlmsg) → Option (List Nlmsg × List (List Nlmsg))
  | _, [] => none
  | b, d :: ds =>
    if typeAt o (received o b d) (datagram o (seen d)).length = nlmsgDone then some (seen d, ds)
    else (outcome o (received o b d) ds).map fun x => (seen d ++ x.1, x.2)

section Dumps

variable {o : ByteOrder} {b : Buf sizeofBuffer} {d : List Nlmsg} {ds : List (List Nlmsg)}

theorem outcome_of_stop
    (h : typeAt o (received o b d) (datagram o (seen d)).length = nlmsgDone) :
    outcome o b (d :: ds) = some (seen d, ds) := if_pos h

theorem outcome_of_not_stop
    (h : typeAt o (received o b d) (datagram o (seen d)).length ≠ nlmsgDone) :
    outcome o b (d :: ds) = (outcome o (received o b d) ds).map fun x => (seen d ++ x.1, x.2) :=
  if_neg h

/-- The loop waits for replies. -/
theorem not_executes_body_nil {s : Locals} {handled : List (List Byte)} {x : Locals ⊕ Unit}
    {w : Dump} : ¬ Executes (world o) (body o s) ⟨[], handled⟩ x w := by
  rw [body, perform_bind, executes_printf, perform_bind, executes_call]
  rintro ⟨r, ⟨l, hl, -⟩, -⟩
  cases hl

/-- The runs of the receive loop that end. -/
theorem reach_done_iff_outcome {s : Locals} (hiov : s.iov = ⟨sizeofBuffer, 0, 28⟩)
    (hsize : ∀ d ∈ ds, (datagram o d).length ≤ sizeofBuffer) {handled : List (List Byte)}
    {w : Dump} :
    Reach (world o) (body o) (.ret (.inl s), ⟨ds.map (datagram o), handled⟩) (.ret (.inr ()), w) ↔
      ∃ x, outcome o s.buffer ds = some x ∧
        w = ⟨x.2.map (datagram o), handled ++ x.1.map (Nlmsg.bytes o)⟩ := by
  induction ds generalizing s handled with
  | nil =>
    constructor
    · intro h
      rcases reach_done_iff.mp h with h | ⟨_, _, h, -⟩
      · exact absurd h not_executes_body_nil
      · exact absurd h not_executes_body_nil
    · rintro ⟨x, hx, -⟩
      cases hx
  | cons d ds ih =>
    have hd := hsize d List.mem_cons_self
    have ih' := @ih { s with buffer := received o s.buffer d } hiov
      (fun d' hd' => hsize d' (List.mem_cons_of_mem d hd'))
      (handled ++ (seen d).map (Nlmsg.bytes o))
    rw [List.map_cons, reach_done_iff]
    simp only [executes_body_iff hiov hd]
    by_cases hstop : typeAt o (received o s.buffer d) (datagram o (seen d)).length = nlmsgDone
    · rw [outcome_of_stop hstop, if_pos hstop]
      constructor
      · rintro (⟨rfl, -⟩ | ⟨s₁, w₁, ⟨-, h⟩, -⟩)
        · exact ⟨(seen d, ds), rfl, rfl⟩
        · cases h
      · rintro ⟨x, hx, rfl⟩
        cases hx
        exact .inl ⟨rfl, rfl⟩
    · rw [outcome_of_not_stop hstop, if_neg hstop]
      constructor
      · rintro (⟨-, h⟩ | ⟨s₁, w₁, ⟨rfl, h⟩, hrest⟩)
        · cases h
        · cases h
          obtain ⟨x, hx, rfl⟩ := ih'.mp hrest
          exact ⟨_, by rw [hx]; rfl, by rw [List.map_append, List.append_assoc]⟩
      · rintro ⟨x, hx, rfl⟩
        obtain ⟨y, hy, rfl⟩ := Option.map_eq_some_iff.mp hx
        refine .inr ⟨_, _, ⟨rfl, rfl⟩, ih'.mpr ⟨y, hy, ?_⟩⟩
        rw [List.map_append, List.append_assoc]

/-! ## The two bytes behind what is handled -/

theorem length_seen_le_before : (seen d).length ≤ (before d).length := by
  cases d with
  | nil => exact le_rfl
  | cons m ms =>
    rw [seen]
    split
    · rename_i hm
      simp [before, hm.2]
    · exact Nat.zero_le _

/-- All that comes before the end is seen if it is short enough. -/
theorem seen_eq_before (hone : (before d).length ≤ 1) (hlen : ∀ m ∈ before d, m.len ≤ 28) :
    seen d = before d := by
  cases d with
  | nil => rfl
  | cons m ms =>
    cases hdone : m.isDone with
    | true => simp [seen, before, hdone]
    | false =>
      have hbefore : before (m :: ms) = m :: before ms := by simp [before, hdone]
      rw [hbefore] at hone hlen ⊢
      have hnil : before ms = [] := List.eq_nil_of_length_eq_zero (by simpa using hone)
      simp [seen, hnil, hdone, hlen m List.mem_cons_self]

/-- Only then. -/
theorem short_of_length_le (h : (before d).length ≤ (seen d).length) :
    (before d).length ≤ 1 ∧ ∀ m ∈ before d, m.len ≤ 28 := by
  cases d with
  | nil => simp [before]
  | cons m ms =>
    cases hdone : m.isDone with
    | true => simp [before, hdone]
    | false =>
      have hbefore : before (m :: ms) = m :: before ms := by simp [before, hdone]
      rw [hbefore] at h ⊢
      rw [seen] at h
      split at h
      · rename_i hm
        have hnil : before ms = [] := List.eq_nil_of_length_eq_zero (by simpa using h)
        simp [hnil, hm.1]
      · simp at h

theorem four_dvd_length (ms : List Nlmsg) : 4 ∣ (datagram o ms).length := by
  induction ms with
  | nil => exact dvd_zero 4
  | cons m ms ih =>
    rw [datagram_cons, List.length_append, m.length_padded]
    exact (Dvd.intro_left _ rfl).add ih

theorem before_of_not_any (h : d.any Nlmsg.isDone = false) : before d = d := by
  rw [before, List.takeWhile_eq_self_iff]
  intro m hm
  rw [Bool.not_eq_true', ← Bool.not_eq_true]
  exact List.any_eq_false.mp h m hm

theorem eq_before_append (h : d.any Nlmsg.isDone = true) :
    ∃ m ms, d = before d ++ m :: ms ∧ m.isDone = true := by
  induction d with
  | nil => cases h
  | cons m ms ih =>
    cases hdone : m.isDone with
    | true => exact ⟨m, ms, by simp [before, hdone], hdone⟩
    | false =>
      obtain ⟨m', ms', he, hdone'⟩ := ih (by simpa [hdone] using h)
      refine ⟨m', ms', ?_, hdone'⟩
      have hbefore : before (m :: ms) = m :: before ms := by simp [before, hdone]
      rw [hbefore, List.cons_append, ← he]

/-- A reply that does not end the dump and is seen as a whole does not reach the two bytes behind
it. -/
theorem typeAt_of_not_any (hlen : (datagram o d).length ≤ 28) :
    typeAt o (received o b d) (datagram o d).length = typeAt o b (datagram o d).length := by
  rw [typeAt, received, slice_received_behind (by omega), typeAt]

/-- A reply that ends the dump reaches the type of the message that ends it if what is before that
message has 20 bytes at most. -/
theorem typeAt_of_any (h : d.any Nlmsg.isDone = true)
    (hlen : (datagram o (before d)).length ≤ 28) :
    typeAt o (received o b d) (datagram o (before d)).length = nlmsgDone ↔
      (20 < (datagram o (before d)).length →
        typeAt o b (datagram o (before d)).length = nlmsgDone) := by
  obtain ⟨m, ms, he, hdone⟩ := eq_before_append h
  have hsplit : datagram o d = datagram o (before d) ++ (m.padded o ++ datagram o ms) := by
    conv_lhs => rw [he]
    rw [datagram, List.flatMap_append, List.flatMap_cons]
    rfl
  have hm := m.sixteen_le_len
  have hle := le_nlmsgAlign m.len
  have hlong : (datagram o (before d)).length + 16 ≤ (datagram o d).length := by
    rw [hsplit, List.length_append, List.length_append, m.length_padded]
    omega
  by_cases hoff : 20 < (datagram o (before d)).length
  · have hdvd := four_dvd_length (o := o) (before d)
    rw [typeAt, received, slice_received_behind (by omega), ← typeAt]
    exact ⟨fun hb _ => hb, fun hb => hb hoff⟩
  · refine ⟨fun _ hlt => absurd hlt hoff, ?_⟩
    intro _
    rw [typeAt, received, slice_received (by omega) (by omega), ← List.drop_drop, hsplit,
      List.drop_left, decode_type]
    exact of_decide_eq_true hdone

/-! ## When a dump is processed -/

theorem expected_of_any (h : d.any Nlmsg.isDone = true) : expected (d :: ds) = before d := by
  obtain ⟨m, ms, he, -⟩ := eq_before_append h
  have hne : (before d).length ≠ d.length := by
    have := congrArg List.length he
    rw [List.length_append, List.length_cons] at this
    omega
  rw [expected, before, List.flatten_cons, List.takeWhile_append, ← before, if_neg hne]

theorem expected_of_not_any (h : d.any Nlmsg.isDone = false) :
    expected (d :: ds) = d ++ expected ds := by
  have hlen : (before d).length = d.length := congrArg List.length (before_of_not_any h)
  rw [expected, before, List.flatten_cons, List.takeWhile_append, ← before, if_pos hlen]
  rfl

theorem rest_of_any (h : d.any Nlmsg.isDone = true) : rest (d :: ds) = ds := by
  simp [rest, h]

theorem rest_of_not_any (h : d.any Nlmsg.isDone = false) : rest (d :: ds) = rest ds := by
  simp [rest, h]

theorem Ends.tail (h : Ends (d :: ds)) (hd : d.any Nlmsg.isDone = false) : Ends ds := by
  obtain ⟨d', hmem, hany⟩ := h
  rcases List.mem_cons.mp hmem with rfl | hmem
  · rw [hd] at hany
    cases hany
  · exact ⟨d', hmem, hany⟩

theorem length_rest_lt (h : Ends ds) : (rest ds).length < ds.length := by
  induction ds with
  | nil =>
    obtain ⟨d, hd, -⟩ := h
    cases hd
  | cons d ds ih =>
    cases hany : d.any Nlmsg.isDone with
    | true =>
      rw [rest_of_any hany]
      exact Nat.lt_succ_self _
    | false =>
      rw [rest_of_not_any hany]
      exact (ih (h.tail hany)).trans (Nat.lt_succ_self _)

theorem length_outcome_lt {x : List Nlmsg × List (List Nlmsg)} (h : outcome o b ds = some x) :
    x.2.length < ds.length := by
  induction ds generalizing b x with
  | nil => cases h
  | cons d ds ih =>
    by_cases hstop : typeAt o (received o b d) (datagram o (seen d)).length = nlmsgDone
    · rw [outcome_of_stop hstop] at h
      cases h
      exact Nat.lt_succ_self _
    · rw [outcome_of_not_stop hstop] at h
      obtain ⟨y, hy, rfl⟩ := Option.map_eq_some_iff.mp h
      exact (ih hy).trans (Nat.lt_succ_self _)

/-- What the condition is enough for. -/
theorem outcome_of_complete (hends : Ends ds) (h : Complete o b ds) :
    outcome o b ds = some (expected ds, rest ds) := by
  induction ds generalizing b with
  | nil =>
    obtain ⟨d, hd, -⟩ := hends
    cases hd
  | cons d ds ih =>
    obtain ⟨hone, hlen, hrest⟩ := h
    have hseen : seen d = before d := seen_eq_before hone hlen
    have hoff : (datagram o (before d)).length ≤ 28 := hseen ▸ length_seen_le
    cases hany : d.any Nlmsg.isDone with
    | true =>
      rw [hany, if_pos rfl, ← typeAt_of_any hany hoff, ← hseen] at hrest
      rw [outcome_of_stop hrest, expected_of_any hany, rest_of_any hany, hseen]
    | false =>
      have hd : before d = d := before_of_not_any hany
      rw [hany, if_neg Bool.false_ne_true] at hrest
      rw [hd] at hseen hoff
      have hgo : typeAt o (received o b d) (datagram o (seen d)).length ≠ nlmsgDone := by
        rw [hseen, typeAt_of_not_any hoff]
        exact hrest.1
      rw [outcome_of_not_stop hgo, ih (hends.tail hany) hrest.2, expected_of_not_any hany,
        rest_of_not_any hany, hseen]
      rfl

/-- What it is needed for: a run that leaves the right replies handles no more messages than it
should, and as many only under the condition. -/
theorem complete_of_outcome (hends : Ends ds) {x : List Nlmsg × List (List Nlmsg)}
    (h : outcome o b ds = some x) (hleft : x.2.length = (rest ds).length) :
    x.1.length ≤ (expected ds).length ∧
      ((expected ds).length ≤ x.1.length → Complete o b ds) := by
  induction ds generalizing b x with
  | nil => cases h
  | cons d ds ih =>
    have hle := length_seen_le_before (d := d)
    cases hany : d.any Nlmsg.isDone with
    | true =>
      rw [rest_of_any hany] at hleft
      rw [expected_of_any hany]
      by_cases hstop : typeAt o (received o b d) (datagram o (seen d)).length = nlmsgDone
      · rw [outcome_of_stop hstop] at h
        cases h
        refine ⟨hle, ?_⟩
        intro hge
        obtain ⟨hone, hlen⟩ := short_of_length_le hge
        have hseen : seen d = before d := seen_eq_before hone hlen
        refine ⟨hone, hlen, ?_⟩
        rw [hany, if_pos rfl, ← typeAt_of_any hany (hseen ▸ length_seen_le), ← hseen]
        exact hstop
      · rw [outcome_of_not_stop hstop] at h
        obtain ⟨y, hy, rfl⟩ := Option.map_eq_some_iff.mp h
        exact absurd hleft (length_outcome_lt hy).ne
    | false =>
      have hd : before d = d := before_of_not_any hany
      rw [rest_of_not_any hany] at hleft
      rw [expected_of_not_any hany, List.length_append]
      rw [hd] at hle
      by_cases hstop : typeAt o (received o b d) (datagram o (seen d)).length = nlmsgDone
      · rw [outcome_of_stop hstop] at h
        cases h
        exact absurd hleft (length_rest_lt (hends.tail hany)).ne'
      · rw [outcome_of_not_stop hstop] at h
        obtain ⟨y, hy, rfl⟩ := Option.map_eq_some_iff.mp h
        obtain ⟨hy₁, hy₂⟩ := ih (hends.tail hany) hy hleft
        rw [List.length_append]
        refine ⟨Nat.add_le_add hle hy₁, ?_⟩
        intro hge
        obtain ⟨hone, hlen⟩ := short_of_length_le (d := d) (by rw [hd]; omega)
        have hseen : seen d = before d := seen_eq_before hone hlen
        refine ⟨hone, hlen, ?_⟩
        rw [hany, if_neg Bool.false_ne_true]
        rw [hseen, hd, typeAt_of_not_any (by rw [← hd, ← hseen]; exact length_seen_le)] at hstop
        exact ⟨hstop, hy₂ (by omega)⟩

theorem processed_iff_complete {s : Locals} (hiov : s.iov = ⟨sizeofBuffer, 0, 28⟩)
    (hsize : ∀ d ∈ ds, (datagram o d).length ≤ sizeofBuffer) (hends : Ends ds) :
    Processed o s ds ↔ Complete o s.buffer ds := by
  constructor
  · rintro ⟨w, hrun, hhandled, hqueue⟩
    obtain ⟨x, hx, rfl⟩ := (reach_done_iff_outcome hiov hsize).mp hrun
    have hleft : x.2.length = (rest ds).length := by
      simpa using congrArg List.length hqueue
    have hall : x.1.length = (expected ds).length := by
      simpa using congrArg List.length hhandled
    exact (complete_of_outcome hends hx hleft).2 hall.ge
  · intro h
    exact ⟨_, (reach_done_iff_outcome hiov hsize).mpr ⟨_, outcome_of_complete hends h, rfl⟩,
      rfl, rfl⟩

/-- A message of the type `RTM_NEWROUTE` with a header and `4 * n` bytes behind it. -/
def newroute (n : ℕ) : Nlmsg where
  type := 24
  flags := 2
  seq := 1
  pid := 0
  payload := List.replicate (4 * n) 0
  pad := []
  aligned := by
    simp only [nlmsgAlign, sizeofNlmsghdr, List.length_replicate, List.length_nil]
    omega

/-- The message that ends a dump. -/
def done : Nlmsg where
  type := 3
  flags := 2
  seq := 1
  pid := 0
  payload := [0, 0, 0, 0]
  pad := []
  aligned := rfl

/-- **When a dump is processed.** The receive loop, begun with the variables that
`query_route_table` has set up, handles every message before the first `NLMSG_DONE` and then stops
if and only if the replies are such that 28 bytes of each of them are enough. -/
theorem processed_iff {buffer : Buf sizeofBuffer} {t : List (Event netlink)} {s : Locals}
    (hs : (setup o buffer).After t (.ret (.inl s))) {replies : List (List Nlmsg)}
    (hsize : ∀ d ∈ replies, (datagram o d).length ≤ sizeofBuffer) (hends : Ends replies) :
    Processed o s replies ↔ Complete o s.buffer replies :=
  processed_iff_complete (setup_iov hs) hsize hends

/-- A short message and the end of the dump, in one reply. -/
theorem processed_iff_short : ∃ t s, (setup .little (Buf.zeros _)).After t (.ret (.inl s)) ∧
    Processed .little s [[newroute 0, done]] := by
  obtain ⟨t, s, hs⟩ := exists_setup .little (Buf.zeros _)
  have hbefore : before [newroute 0, done] = [newroute 0] := rfl
  have hlen : (datagram .little [newroute 0]).length = 16 := rfl
  refine ⟨t, s, hs, (processed_iff hs ?_ ⟨_, List.mem_cons_self, rfl⟩).mpr ⟨le_rfl, ?_, ?_⟩⟩
  · intro d hd
    obtain rfl := List.mem_singleton.mp hd
    decide
  · intro m hm
    obtain rfl := List.mem_singleton.mp hm
    decide
  · show 20 < (datagram .little (before [newroute 0, done])).length → _
    rw [hbefore, hlen]
    omega

/-- A message of 52 bytes and the end of the dump, in two replies. -/
theorem not_processed_long : ∃ t s, (setup .little (Buf.zeros _)).After t (.ret (.inl s)) ∧
    (∀ d ∈ [[newroute 9], [done]], (datagram .little d).length ≤ sizeofBuffer) ∧
    Ends [[newroute 9], [done]] ∧ ¬ Processed .little s [[newroute 9], [done]] := by
  obtain ⟨t, s, hs⟩ := exists_setup .little (Buf.zeros _)
  have hsize : ∀ d ∈ [[newroute 9], [done]], (datagram .little d).length ≤ sizeofBuffer := by
    intro d hd
    rcases List.mem_pair.mp hd with rfl | rfl <;> decide
  have hends : Ends [[newroute 9], [done]] := ⟨[done], by simp, rfl⟩
  refine ⟨t, s, hs, hsize, hends, ?_⟩
  intro h
  obtain ⟨-, hlen, -⟩ := (processed_iff_complete (setup_iov hs) hsize hends).mp h
  exact absurd (hlen (newroute 9) List.mem_cons_self) (by decide)

end Dumps

end MyRoute

end UnixNetwork
