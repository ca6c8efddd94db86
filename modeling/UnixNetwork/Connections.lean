import UnixNetwork.Posix
import UnixNetwork.Interaction.World
import Mathlib.Data.Finset.Card
import Mathlib.Logic.Function.Basic
import Mathlib.Data.List.Infix

/-!
# The connections of a server

What the system calls of a server have done to its connections. A connection is identified by its
accept event, the `k`-th successful `accept` being connection `k`, and not by its descriptor, which
a later connection can be given again. A call on a descriptor is a call on the connection that was
accepted last on that descriptor, closed or not, so a call on a stale descriptor would show up in
the record of the wrong connection.

`Plausible` is what any kernel does: `select` reports a non-empty part of the watched descriptors
or fails and leaves its sets alone, `accept` fails or returns a descriptor that is not open, and
reads and writes fail or transfer at most what they are asked to. A theorem that assumes more says
so with a further condition on the results.

## Main definitions

* `Conn`, `Net`: the record of one connection, and of all of them
* `Net.next`, `Net.Plausible`, `serverWorld`: the world of a server

## Main results

* `Net.WellFormed.next`: descriptors and connections stay in step
* `Net.Delivered.next`: where every write is complete, all that was written has been delivered
-/

namespace UnixNetwork

open Interaction

/-- A connection, as the calls of the server have treated it. -/
structure Conn where
  /-- The descriptor `accept` returned. -/
  fd : ℤ
  /-- The bytes read from it, in order. -/
  rd : List Byte
  /-- The bytes handed to `write` or `send` for it, in order. -/
  offered : List Byte
  /-- Those that were accepted, in order. -/
  wr : List Byte
  /-- A read has returned 0. -/
  eof : Bool
  /-- A read has failed. -/
  failed : Bool
  /-- How often it has been closed. -/
  closes : ℕ

/-- A connection that has just been accepted. -/
def Conn.fresh (fd : ℤ) : Conn := ⟨fd, [], [], [], false, false, 0⟩

/-- The connections of a server. -/
structure Net where
  /-- The number of connections accepted so far; they are numbered in that order. -/
  count : ℕ
  /-- The record of each connection. -/
  conn : ℕ → Conn
  /-- The connection accepted last on a descriptor. -/
  holder : ℤ → Option ℕ

namespace Net

/-- Nothing has been accepted. -/
def start : Net := ⟨0, fun _ => Conn.fresh (-1), fun _ => none⟩

/-- Connection `k` has been accepted and not yet closed. -/
def Live (net : Net) (k : ℕ) : Prop := k < net.count ∧ (net.conn k).closes = 0

/-- `fd` is the descriptor of a connection that has not yet been closed. -/
def Open (net : Net) (fd : ℤ) : Prop := ∃ k, net.Live k ∧ (net.conn k).fd = fd

/-- Change the record of the connection accepted last on `fd`. -/
def on (net : Net) (fd : ℤ) (f : Conn → Conn) : Net :=
  match net.holder fd with
  | some k => { net with conn := Function.update net.conn k (f (net.conn k)) }
  | none => net

/-- A new connection on `fd`. -/
def add (net : Net) (fd : ℤ) : Net where
  count := net.count + 1
  conn := Function.update net.conn net.count (Conn.fresh fd)
  holder := Function.update net.holder fd (some net.count)

end Net

/-- The record of a connection after a read. -/
def Conn.onRead (c : Conn) : Except Errno (List Byte) → Conn
  | .ok [] => { c with eof := true }
  | .ok (b :: bs) => { c with rd := c.rd ++ b :: bs }
  | .error _ => { c with failed := true }

/-- The record of a connection after these bytes have been handed to a write. -/
def Conn.onWrite (c : Conn) (bs : List Byte) : Except Errno ℕ → Conn
  | .ok n => { c with offered := c.offered ++ bs, wr := c.wr ++ bs.take n }
  | .error _ => { c with offered := c.offered ++ bs }

/-- The record of a connection after a `close`. -/
def Conn.onClose (c : Conn) : Conn := { c with closes := c.closes + 1 }

/-- The connections after a call. -/
def Net.next (net : Net) : (c : Call) → Res c → Net
  | .accept _, .ok fd => net.add fd
  | .read fd _, r => net.on fd fun c => c.onRead r
  | .write fd src mem, r => net.on fd fun c => c.onWrite (src.bytes mem) r
  | .send fd src mem, r => net.on fd fun c => c.onWrite (src.bytes mem) r
  | .close fd, _ => net.on fd Conn.onClose
  | _, _ => net

namespace Net

@[simp] theorem next_accept_ok (net : Net) (l : ℤ) (fd : ℕ) :
    net.next (.accept l) (.ok fd : Except Errno ℕ) = net.add fd := rfl

@[simp] theorem next_accept_error (net : Net) (l : ℤ) (e : Errno) :
    net.next (.accept l) (.error e : Except Errno ℕ) = net := rfl

@[simp] theorem next_read (net : Net) (fd : ℤ) (dst : Span) (r : Res (.read fd dst)) :
    net.next (.read fd dst) r = net.on fd fun c => c.onRead r := rfl

@[simp] theorem next_write (net : Net) (fd : ℤ) (src : Span) (mem : List Byte)
    (r : Res (.write fd src mem)) :
    net.next (.write fd src mem) r = net.on fd fun c => c.onWrite (src.bytes mem) r := rfl

@[simp] theorem next_send (net : Net) (fd : ℤ) (src : Span) (mem : List Byte)
    (r : Res (.send fd src mem)) :
    net.next (.send fd src mem) r = net.on fd fun c => c.onWrite (src.bytes mem) r := rfl

@[simp] theorem next_close (net : Net) (fd : ℤ) (r : Res (.close fd)) :
    net.next (.close fd) r = net.on fd Conn.onClose := rfl

@[simp] theorem next_select (net : Net) (nfds : ℤ) (rset wset : FdSet)
    (r : Res (.select nfds rset wset)) : net.next (.select nfds rset wset) r = net := rfl

@[simp] theorem next_printf (net : Net) (text : List Byte) (r : Res (.printf text)) :
    net.next (.printf text) r = net := rfl

end Net

/-- `select` has found a non-empty part of the watched descriptors ready. -/
structure Selected.Ready (sel : Selected) (rset wset : FdSet) : Prop where
  /-- Only watched descriptors are reported readable. -/
  rset_sub : ∀ fd ∈ sel.rset, fd ∈ rset
  /-- Only watched descriptors are reported writable. -/
  wset_sub : ∀ fd ∈ sel.wset, fd ∈ wset
  /-- The value is the number of reports. -/
  value_eq : sel.value = sel.rset.bits.card + sel.wset.bits.card
  /-- There is at least one. -/
  value_pos : 0 < sel.value

/-- A report of one descriptor. -/
def Selected.only (fd : ℤ) (h : InRange fd) : Selected := ⟨1, FdSet.single fd h, FdSet.zero⟩

theorem Selected.ready_only {fd : ℤ} (h : InRange fd) {rset wset : FdSet} (hfd : fd ∈ rset) :
    (Selected.only fd h).Ready rset wset where
  rset_sub _ hx := (FdSet.mem_single h).mp hx ▸ hfd
  wset_sub _ hx := absurd hx FdSet.notMem_zero
  value_eq := rfl
  value_pos := Int.one_pos

/-- `select` has failed and left its sets alone. -/
structure Selected.Failed (sel : Selected) (rset wset : FdSet) : Prop where
  /-- The value of a failed call. -/
  value_eq : sel.value = -1
  /-- The read set is as it was passed. -/
  rset_eq : sel.rset = rset
  /-- The write set is as it was passed. -/
  wset_eq : sel.wset = wset

/-- The results any kernel may return to a server that listens on `listenfd`. -/
def Net.Plausible (listenfd : ℤ) (net : Net) : (c : Call) → Res c → Prop
  | .select _ rset wset, sel => Selected.Ready sel rset wset ∨ Selected.Failed sel rset wset
  | .accept _, .ok fd => (fd : ℤ) ≠ listenfd ∧ ¬ net.Open fd
  | .read _ dst, .ok bs => (bs.length : ℤ) ≤ dst.len
  | .write _ src _, .ok n => (n : ℤ) ≤ src.len
  | .send _ src _, .ok n => (n : ℤ) ≤ src.len
  | _, _ => True

/-- The world of a server, with a further condition on the results of its calls. -/
def serverWorld (listenfd : ℤ) (Extra : (c : Call) → Res c → Prop) : World posix Net where
  Allows net c r := net.Plausible listenfd c r ∧ Extra c r
  next := Net.next

@[simp] theorem serverWorld_next (listenfd : ℤ) (Extra : (c : Call) → Res c → Prop) :
    (serverWorld listenfd Extra).next = Net.next := rfl

/-- Every `accept` succeeds with a descriptor that fits into an `fd_set`. -/
def AcceptsInRange : (c : Call) → Res c → Prop
  | .accept _, r => ∃ fd : ℕ, r = .ok fd ∧ InRange fd
  | _, _ => True

/-- Every write delivers all its bytes. -/
def WritesComplete : (c : Call) → Res c → Prop
  | .write _ src _, r => ∃ n : ℕ, r = .ok n ∧ n = src.len
  | .send _ src _, r => ∃ n : ℕ, r = .ok n ∧ n = src.len
  | _, _ => True

/-- A result that says nothing about the other side: of a message, a `close`, a `shutdown` or a
write that is complete. -/
def Routine : (c : Call) → Res c → Prop
  | .write _ src _, r => ∃ n : ℕ, r = .ok n ∧ n = src.len
  | .close _, _ => True
  | .shutdownWr _, _ => True
  | .printf _, _ => True
  | _, _ => False

/-- The descriptor that a read, a write or a close is issued on. -/
def Call.target : Call → Option ℤ
  | .read fd _ => some fd
  | .write fd _ _ => some fd
  | .send fd _ _ => some fd
  | .close fd => some fd
  | _ => none

/-- The span a read or a write is handed. -/
def Call.span : Call → Option Span
  | .read _ dst => some dst
  | .write _ src _ => some src
  | .send _ src _ => some src
  | _ => none

/-! ## The record of one connection -/

namespace Conn

@[simp] theorem fd_onRead (c : Conn) (r : Except Errno (List Byte)) : (c.onRead r).fd = c.fd := by
  rcases r with e | _ | _ <;> rfl

@[simp] theorem closes_onRead (c : Conn) (r : Except Errno (List Byte)) :
    (c.onRead r).closes = c.closes := by
  rcases r with e | _ | _ <;> rfl

@[simp] theorem offered_onRead (c : Conn) (r : Except Errno (List Byte)) :
    (c.onRead r).offered = c.offered := by
  rcases r with e | _ | _ <;> rfl

@[simp] theorem wr_onRead (c : Conn) (r : Except Errno (List Byte)) : (c.onRead r).wr = c.wr := by
  rcases r with e | _ | _ <;> rfl

@[simp] theorem rd_onRead (c : Conn) (r : Except Errno (List Byte)) :
    (c.onRead r).rd = c.rd ++ readBytes r := by
  rcases r with e | _ | _ <;> simp [onRead]

/-- A read that returns nothing is recorded as the end of the connection or as a failure. -/
theorem ended_onRead (c : Conn) {r : Except Errno (List Byte)} (h : readValue r ≤ 0) :
    (c.onRead r).eof = true ∨ (c.onRead r).failed = true := by
  rcases r with e | _ | ⟨b, bs⟩
  · exact .inr rfl
  · exact .inl rfl
  · rw [readValue_ok, List.length_cons] at h
    omega

@[simp] theorem fd_onWrite (c : Conn) (bs : List Byte) (r : Except Errno ℕ) :
    (c.onWrite bs r).fd = c.fd := by
  cases r <;> rfl

@[simp] theorem closes_onWrite (c : Conn) (bs : List Byte) (r : Except Errno ℕ) :
    (c.onWrite bs r).closes = c.closes := by
  cases r <;> rfl

@[simp] theorem offered_onWrite (c : Conn) (bs : List Byte) (r : Except Errno ℕ) :
    (c.onWrite bs r).offered = c.offered ++ bs := by
  cases r <;> rfl

@[simp] theorem rd_onWrite (c : Conn) (bs : List Byte) (r : Except Errno ℕ) :
    (c.onWrite bs r).rd = c.rd := by
  cases r <;> rfl

@[simp] theorem eof_onWrite (c : Conn) (bs : List Byte) (r : Except Errno ℕ) :
    (c.onWrite bs r).eof = c.eof := by
  cases r <;> rfl

@[simp] theorem failed_onWrite (c : Conn) (bs : List Byte) (r : Except Errno ℕ) :
    (c.onWrite bs r).failed = c.failed := by
  cases r <;> rfl

end Conn

/-! ## Descriptors and connections -/

namespace Net

/-- Descriptors and connections are in step. -/
structure WellFormed (net : Net) : Prop where
  /-- The connection accepted last on a descriptor was accepted, and on that descriptor. -/
  holder : ∀ fd k, net.holder fd = some k → k < net.count ∧ (net.conn k).fd = fd
  /-- A live connection is the one accepted last on its descriptor. -/
  live : ∀ k, net.Live k → net.holder (net.conn k).fd = some k

theorem wellFormed_start : WellFormed start :=
  ⟨fun _ _ h => by simp [start] at h, fun _ h => absurd h.1 (Nat.not_lt_zero _)⟩

theorem WellFormed.open_iff {net : Net} (h : net.WellFormed) {fd : ℤ} :
    net.Open fd ↔ ∃ k, net.holder fd = some k ∧ (net.conn k).closes = 0 := by
  constructor
  · rintro ⟨k, hk, rfl⟩
    exact ⟨k, h.live k hk, hk.2⟩
  · rintro ⟨k, hk, hc⟩
    exact ⟨k, ⟨(h.holder fd k hk).1, hc⟩, (h.holder fd k hk).2⟩

theorem WellFormed.not_open {net : Net} (h : net.WellFormed) {fd : ℤ}
    (hfree : net.holder fd = none) : ¬ net.Open fd := by
  intro hopen
  obtain ⟨k, hk, -⟩ := h.open_iff.mp hopen
  cases hfree.symm.trans hk

/-- The connection an open descriptor belongs to is not closed. -/
theorem WellFormed.closes_of_open {net : Net} (h : net.WellFormed) {fd : ℤ} (hopen : net.Open fd)
    {k : ℕ} (hk : net.holder fd = some k) : (net.conn k).closes = 0 := by
  obtain ⟨m, hm, hc⟩ := h.open_iff.mp hopen
  obtain rfl : m = k := Option.some.inj (hm.symm.trans hk)
  exact hc

@[simp] theorem count_on (net : Net) (fd : ℤ) (f : Conn → Conn) :
    (net.on fd f).count = net.count := by
  unfold on
  split <;> rfl

@[simp] theorem holder_on (net : Net) (fd : ℤ) (f : Conn → Conn) :
    (net.on fd f).holder = net.holder := by
  unfold on
  split <;> rfl

theorem conn_on_of_holder {net : Net} {fd : ℤ} {k : ℕ} (h : net.holder fd = some k)
    (f : Conn → Conn) : (net.on fd f).conn = Function.update net.conn k (f (net.conn k)) := by
  simp [on, h]

theorem on_of_none {net : Net} {fd : ℤ} (h : net.holder fd = none) (f : Conn → Conn) :
    net.on fd f = net := by
  simp [on, h]

/-- A connection either is the one a call is on, or keeps its record. -/
theorem conn_on (net : Net) (fd : ℤ) (f : Conn → Conn) (k : ℕ) :
    (net.on fd f).conn k = if net.holder fd = some k then f (net.conn k) else net.conn k := by
  cases h : net.holder fd with
  | none => simp [on_of_none h]
  | some m =>
    rw [conn_on_of_holder h, Function.update_apply]
    by_cases hk : k = m
    · simp [hk]
    · simp [hk, Ne.symm hk]

/-- What happens on an open descriptor leaves the closed connections alone. -/
theorem WellFormed.conn_on_of_closed {net : Net} (h : net.WellFormed) {fd : ℤ}
    (hopen : net.Open fd) (f : Conn → Conn) {k : ℕ} (hk : 0 < (net.conn k).closes) :
    (net.on fd f).conn k = net.conn k := by
  rw [conn_on, if_neg]
  intro hh
  have hlive := h.closes_of_open hopen hh
  omega

/-- What `f` does not change is what it was on every connection. -/
theorem conn_on_congr {β : Type*} {net : Net} {fd : ℤ} {f : Conn → Conn} (g : Conn → β)
    (hg : ∀ c, g (f c) = g c) (k : ℕ) : g ((net.on fd f).conn k) = g (net.conn k) := by
  rw [conn_on]
  split
  · exact hg _
  · rfl

/-- What `f` keeps holds of every connection if it did. -/
theorem forall_conn_on {P : Conn → Prop} {net : Net} (h : ∀ k, P (net.conn k)) (fd : ℤ)
    {f : Conn → Conn} (hf : ∀ c, P c → P (f c)) (k : ℕ) : P ((net.on fd f).conn k) := by
  rw [conn_on]
  split
  · exact hf _ (h k)
  · exact h k

theorem conn_add_of_ne {net : Net} {k : ℕ} (hk : k ≠ net.count) (fd : ℤ) :
    (net.add fd).conn k = net.conn k :=
  Function.update_of_ne hk _ _

/-- What holds of a fresh connection holds of every connection if it did. -/
theorem forall_conn_add {P : Conn → Prop} {net : Net} (h : ∀ k, P (net.conn k)) {fd : ℤ}
    (hfd : P (Conn.fresh fd)) (k : ℕ) : P ((net.add fd).conn k) := by
  by_cases hk : k = net.count
  · rw [hk]
    exact (congrArg P (Function.update_self _ _ _)).mpr hfd
  · rw [conn_add_of_ne hk]
    exact h k

/-- A call on a connection keeps descriptors and connections in step, provided it changes neither
its descriptor nor reopens it. -/
theorem WellFormed.on {net : Net} (h : net.WellFormed) (fd : ℤ) {f : Conn → Conn}
    (hfd : ∀ c, (f c).fd = c.fd) (hcl : ∀ c, (f c).closes = 0 → c.closes = 0) :
    (net.on fd f).WellFormed := by
  have hfd' : ∀ k, ((net.on fd f).conn k).fd = (net.conn k).fd := conn_on_congr Conn.fd hfd
  constructor
  · intro x k hk
    rw [holder_on] at hk
    rw [count_on, hfd']
    exact h.holder x k hk
  · intro k hk
    rw [holder_on, hfd']
    refine h.live k ⟨by simpa using hk.1, ?_⟩
    have hclosed := hk.2
    rw [conn_on] at hclosed
    split at hclosed
    · exact hcl _ hclosed
    · exact hclosed

theorem WellFormed.add {net : Net} (h : net.WellFormed) {fd : ℤ} (hfd : ¬ net.Open fd) :
    (net.add fd).WellFormed := by
  constructor
  · intro x k hk
    by_cases hx : x = fd
    · subst hx
      obtain rfl : net.count = k := by simpa [Net.add] using hk
      exact ⟨Nat.lt_succ_self _, by simp [Net.add, Conn.fresh]⟩
    · have hk' : net.holder x = some k := by simpa [Net.add, Function.update_of_ne hx] using hk
      obtain ⟨hlt, he⟩ := h.holder x k hk'
      exact ⟨Nat.lt_succ_of_lt hlt, by rwa [conn_add_of_ne hlt.ne]⟩
  · rintro k ⟨hlt, hcl⟩
    rcases Nat.lt_succ_iff_lt_or_eq.mp hlt with hlt | rfl
    · rw [conn_add_of_ne hlt.ne] at hcl ⊢
      have hne : (net.conn k).fd ≠ fd := fun he => hfd ⟨k, ⟨hlt, hcl⟩, he⟩
      simpa [Net.add, Function.update_of_ne hne] using h.live k ⟨hlt, hcl⟩
    · simp [Net.add, Conn.fresh]

theorem WellFormed.next {listenfd : ℤ} {net : Net} (h : net.WellFormed) {c : Call} {r : Res c}
    (hr : net.Plausible listenfd c r) : (net.next c r).WellFormed := by
  cases c with
  | accept fd =>
    cases r with
    | ok fd' => exact h.add hr.2
    | error e => exact h
  | read fd dst =>
    rw [next_read]
    exact h.on fd (fun c => c.fd_onRead r) fun c hc => c.closes_onRead r ▸ hc
  | write fd src mem =>
    rw [next_write]
    exact h.on fd (fun c => c.fd_onWrite _ r) fun c hc => c.closes_onWrite _ r ▸ hc
  | send fd src mem =>
    rw [next_send]
    exact h.on fd (fun c => c.fd_onWrite _ r) fun c hc => c.closes_onWrite _ r ▸ hc
  | close fd => exact h.on fd (fun c => rfl) fun c hc => absurd hc (Nat.succ_ne_zero _)
  | select | shutdownWr | printf | eprintf | time => exact h

/-- A call that neither moves nor closes a connection leaves the same descriptors open. -/
theorem open_on_iff {net : Net} {fd : ℤ} {f : Conn → Conn} (hfd : ∀ c, (f c).fd = c.fd)
    (hcl : ∀ c, (f c).closes = c.closes) {x : ℤ} : (net.on fd f).Open x ↔ net.Open x := by
  refine exists_congr ?_
  intro k
  rw [Live, Live, count_on, conn_on_congr Conn.fd hfd, conn_on_congr Conn.closes hcl]

/-- Closing a descriptor leaves the other ones open. -/
theorem WellFormed.open_on_close {net : Net} (h : net.WellFormed) {fd x : ℤ} :
    (net.on fd Conn.onClose).Open x ↔ x ≠ fd ∧ net.Open x := by
  have h' : (net.on fd Conn.onClose).WellFormed :=
    h.on fd (fun _ => rfl) fun _ hc => absurd hc (Nat.succ_ne_zero _)
  rw [h'.open_iff, h.open_iff]
  simp only [holder_on, conn_on]
  constructor
  · rintro ⟨k, hk, hc⟩
    split at hc
    · exact absurd hc (Nat.succ_ne_zero _)
    · rename_i hne
      exact ⟨by rintro rfl; exact hne hk, k, hk, hc⟩
  · rintro ⟨hne, k, hk, hc⟩
    refine ⟨k, hk, ?_⟩
    rw [if_neg, hc]
    intro hk'
    exact hne ((h.holder x k hk).2.symm.trans (h.holder fd k hk').2)

/-- Accepting a descriptor opens it and no other. -/
theorem open_add_iff {net : Net} {fd x : ℤ} : (net.add fd).Open x ↔ x = fd ∨ net.Open x := by
  constructor
  · rintro ⟨k, ⟨hlt, hcl⟩, rfl⟩
    rcases Nat.lt_succ_iff_lt_or_eq.mp hlt with hlt | rfl
    · rw [conn_add_of_ne hlt.ne] at hcl ⊢
      exact .inr ⟨k, ⟨hlt, hcl⟩, rfl⟩
    · exact .inl (by simp [Net.add, Conn.fresh])
  · rintro (rfl | ⟨k, ⟨hlt, hcl⟩, rfl⟩)
    · exact ⟨net.count, ⟨Nat.lt_succ_self _, by simp [Net.add, Conn.fresh]⟩,
        by simp [Net.add, Conn.fresh]⟩
    · have hc : (net.add fd).conn k = net.conn k := conn_add_of_ne hlt.ne fd
      exact ⟨k, ⟨Nat.lt_succ_of_lt hlt, hc ▸ hcl⟩, by rw [hc]⟩

/-! ## Complete writes -/

/-- All that was handed to a write has been delivered. -/
def Delivered (net : Net) : Prop := ∀ k, (net.conn k).wr = (net.conn k).offered

theorem delivered_start : Delivered start := fun _ => rfl

theorem Delivered.on {net : Net} (h : net.Delivered) (fd : ℤ) {f : Conn → Conn}
    (hf : ∀ c : Conn, c.wr = c.offered → (f c).wr = (f c).offered) : (net.on fd f).Delivered :=
  forall_conn_on (P := fun c => c.wr = c.offered) h fd hf

theorem Delivered.next {net : Net} (h : net.Delivered) {c : Call} {r : Res c}
    (hr : WritesComplete c r) : (net.next c r).Delivered := by
  have hwrite : ∀ (fd : ℤ) (src : Span) (mem : List Byte) (n : ℕ), (n : ℤ) = src.len →
      (net.on fd fun c => c.onWrite (src.bytes mem) (.ok n)).Delivered := by
    intro fd src mem n hn
    refine h.on fd ?_
    intro c hc
    have hlen : (src.bytes mem).length ≤ n := by
      have := src.length_bytes_le mem
      omega
    simp [Conn.onWrite, hc, List.take_of_length_le hlen]
  cases c with
  | accept fd =>
    cases r with
    | ok fd' => exact forall_conn_add (P := fun c => c.wr = c.offered) h rfl
    | error e => exact h
  | read fd dst =>
    refine h.on fd ?_
    intro c hc
    rcases r with e | _ | _ <;> exact hc
  | write fd src mem =>
    obtain ⟨n, rfl, hn⟩ := hr
    exact hwrite fd src mem n hn
  | send fd src mem =>
    obtain ⟨n, rfl, hn⟩ := hr
    exact hwrite fd src mem n hn
  | close fd => exact h.on fd fun c hc => hc
  | select | shutdownWr | printf | eprintf | time => exact h

end Net

end UnixNetwork
