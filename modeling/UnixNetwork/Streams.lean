import UnixNetwork.Posix
import UnixNetwork.Interaction.World
import Mathlib.Logic.Function.Basic
import Mathlib.Data.List.Infix

/-!
# What goes over each descriptor

A monitor that asks nothing of a program: it keeps the bytes read from each descriptor, the bytes
handed to `write` or `send` for it, and those of them that were accepted. Any number of the bytes
handed over may be accepted, and any call may fail.

A write is short when it accepts less than it was handed. `Streams.CaughtUp` says that none has been
so far, and `Streams.prefix_offered` why that matters: as long as a program writes only then, what
has been accepted on a descriptor is the beginning of what it was handed.

## Main definitions

* `Streams`, `Streams.world`: the three streams of each descriptor, and the surroundings that keep
  them
* `Streams.CaughtUp`, `Streams.Waits`: all that was handed over has been accepted, and a call that
  is made only then

## Main results

* `Streams.sublist_offered`: what is accepted has been handed over
* `Streams.prefix_offered`: without a write after a short one there is no gap
-/

namespace UnixNetwork

open Interaction

/-- The bytes that have gone over each descriptor. -/
structure Streams where
  /-- The bytes read from it, in order. -/
  rd : ℤ → List Byte
  /-- The bytes handed to `write` or `send` for it, in order. -/
  offered : ℤ → List Byte
  /-- Those that were accepted, in order. -/
  wr : ℤ → List Byte

namespace Streams

/-- Nothing has happened. -/
def start : Streams := ⟨fun _ => [], fun _ => [], fun _ => []⟩

variable (w : Streams) (fd : ℤ) (bs : List Byte)

/-- These bytes have been read from `fd`. -/
def onRead : Streams := { w with rd := Function.update w.rd fd (w.rd fd ++ bs) }

/-- These bytes have been handed to a write to `fd`. -/
def onWrite (r : Except Errno ℕ) : Streams :=
  { w with
    offered := Function.update w.offered fd (w.offered fd ++ bs)
    wr := Function.update w.wr fd (w.wr fd ++ taken bs r) }

/-- The streams after a call. -/
def next : (c : Call) → Res c → Streams
  | .read fd _, r => w.onRead fd (readBytes r)
  | .write fd src mem, r => w.onWrite fd (src.bytes mem) r
  | .send fd src mem, r => w.onWrite fd (src.bytes mem) r
  | _, _ => w

/-- What the surroundings may return: `select` any part of the sets it is handed, a read no more
bytes than it was asked for, a write no more than it was given, and each of them any error. -/
def Feasible : (c : Call) → Res c → Prop
  | .select _ rset wset, sel => (∀ fd ∈ sel.rset, fd ∈ rset) ∧ ∀ fd ∈ sel.wset, fd ∈ wset
  | .read _ dst, .ok bs => (bs.length : ℤ) ≤ dst.len
  | .write _ src _, .ok n => (n : ℤ) ≤ src.len
  | .send _ src _, .ok n => (n : ℤ) ≤ src.len
  | _, _ => True

/-- Surroundings that keep the streams. -/
def world : World posix Streams := ⟨fun _ => Feasible, next⟩

variable {w fd bs}

@[simp] theorem rd_onRead (x : ℤ) :
    (w.onRead fd bs).rd x = w.rd x ++ if x = fd then bs else [] := by
  by_cases h : x = fd
  · subst h
    simp [onRead]
  · simp [onRead, h]

@[simp] theorem offered_onRead : (w.onRead fd bs).offered = w.offered := rfl

@[simp] theorem wr_onRead : (w.onRead fd bs).wr = w.wr := rfl

@[simp] theorem rd_onWrite (r : Except Errno ℕ) : (w.onWrite fd bs r).rd = w.rd := rfl

@[simp] theorem offered_onWrite (r : Except Errno ℕ) (x : ℤ) :
    (w.onWrite fd bs r).offered x = w.offered x ++ if x = fd then bs else [] := by
  by_cases h : x = fd
  · subst h
    simp [onWrite]
  · simp [onWrite, h]

@[simp] theorem wr_onWrite (r : Except Errno ℕ) (x : ℤ) :
    (w.onWrite fd bs r).wr x = w.wr x ++ if x = fd then taken bs r else [] := by
  by_cases h : x = fd
  · subst h
    simp [onWrite]
  · simp [onWrite, h]

/-- What a read has returned is what the first bytes of the array are afterwards; a read that has
failed has a negative result, and nothing stands for it. -/
theorem bytes_first_readValue {n : ℕ} {b : Buf n} {r : Except Errno (List Byte)}
    (h : (readBytes r).length ≤ n) :
    (Span.first n (readValue r)).bytes (b.put 0 (readBytes r)).toList = readBytes r := by
  cases r with
  | ok bs => exact Span.bytes_first_put h
  | error e => rfl

/-- Reading nothing changes nothing. -/
theorem onRead_nil (w : Streams) (fd : ℤ) : w.onRead fd [] = w := by
  simp [onRead]

/-- What a read has returned fits into the array it was to be stored in. -/
theorem length_readBytes_le_of_feasible {n : ℕ} {r : Except Errno (List Byte)}
    (h : Feasible (.read fd (Span.whole n)) r) : (readBytes r).length ≤ n := by
  cases r with
  | ok bs => exact Int.ofNat_le.mp h
  | error e => exact Nat.zero_le _

/-! ## What is accepted -/

/-- What is accepted on a descriptor has been handed over for it. -/
theorem sublist_offered {σ ρ : Type} {body : σ → Prog posix (σ ⊕ ρ)} {p q : Prog posix (σ ⊕ ρ)}
    (h : Reach world body (p, start) (q, w)) (fd : ℤ) : (w.wr fd).Sublist (w.offered fd) := by
  refine Reach.world (J := fun w => ∀ fd, (w.wr fd).Sublist (w.offered fd)) ?_ h
    (fun _ => .refl _) fd
  intro w c r hw _ x
  have hwrite : ∀ fd bs r, ((w.onWrite fd bs r).wr x).Sublist ((w.onWrite fd bs r).offered x) := by
    intro fd bs r
    rw [wr_onWrite, offered_onWrite]
    refine (hw x).append ?_
    split
    · exact List.take_sublist _ _
    · exact .refl _
  cases c with
  | write fd src mem => exact hwrite fd _ r
  | send fd src mem => exact hwrite fd _ r
  | _ => exact hw x

/-- All that was handed over for a descriptor has been accepted. -/
def CaughtUp (w : Streams) (fd : ℤ) : Prop := w.wr fd = w.offered fd

/-- A write to `fd` is made only if none to it has been short. -/
def Waits (fd : ℤ) (w : Streams) : Call → Prop
  | .write fd' _ _ => fd' = fd → w.CaughtUp fd
  | .send fd' _ _ => fd' = fd → w.CaughtUp fd
  | _ => True

/-- **Without a write after a short one there is no gap.** -/
theorem prefix_offered {σ ρ : Type} {body : σ → Prog posix (σ ⊕ ρ)} {p q : Prog posix (σ ⊕ ρ)}
    (h : Reach (world.when (Waits fd)) body (p, start) (q, w)) : w.wr fd <+: w.offered fd := by
  refine Reach.world (J := fun w => w.wr fd <+: w.offered fd) ?_ h (List.prefix_refl _)
  intro w c r hw hc
  have hwrite : ∀ fd' bs r, (fd' = fd → w.CaughtUp fd) →
      (w.onWrite fd' bs r).wr fd <+: (w.onWrite fd' bs r).offered fd := by
    intro fd' bs r hfd
    rw [wr_onWrite, offered_onWrite]
    split
    · rename_i heq
      rw [hfd heq.symm]
      exact (List.prefix_append_right_inj _).mpr (List.take_prefix _ _)
    · simpa using hw
  cases c with
  | write fd' src mem => exact hwrite fd' _ r hc.2
  | send fd' src mem => exact hwrite fd' _ r hc.2
  | _ => exact hw

end Streams

end UnixNetwork
