import UnixNetwork.Posix
import UnixNetwork.Interaction.World

/-!
# A connection whose reads are given

The world of a program that serves one connection: the results its reads will return, in order, and
what it has written, write by write. How a stream is cut into the results of successive reads is the
choice of these results. Once there are none left every read returns the end of the stream. Writes
are complete.

## Main definitions

* `Feed`, `Feed.world`: the connection and its world
-/

namespace UnixNetwork

open Interaction

/-- A connection as the program on it sees it. -/
structure Feed where
  /-- What the reads to come will return. -/
  reads : List (Except Errno (List Byte))
  /-- What each write has written, in order. -/
  writes : List (List Byte)

namespace Feed

/-- What the connection returns to a call on `fd`. -/
def Allows (fd : ℤ) (f : Feed) : (c : Call) → Res c → Prop
  | .read x _, r => x = fd ∧ r = f.reads.headD (.ok [])
  | .write x src _, r => x = fd ∧ r = .ok src.len.toNat
  | _, _ => True

/-- The connection after a call. -/
def next (f : Feed) : (c : Call) → Res c → Feed
  | .read _ _, _ => { f with reads := f.reads.tail }
  | .write _ src mem, _ => { f with writes := f.writes ++ [src.bytes mem] }
  | _, _ => f

/-- The world of a program that serves the connection `fd`. -/
def world (fd : ℤ) : World posix Feed := ⟨Allows fd, next⟩

variable {α : Type} {fd : ℤ} {f : Feed} {n : ℕ}

@[simp] theorem executes_read {dst : Span} {k : Except Errno (List Byte) → Prog posix α} {a : α}
    {f' : Feed} : Executes (world fd) (Prog.call (I := posix) (.read fd dst) k) f a f' ↔
      Executes (world fd) (k (f.reads.headD (.ok []))) { f with reads := f.reads.tail } a f' :=
  executes_call_of_unique fun _ => and_iff_right rfl

@[simp] theorem executes_write {src : Span} {mem : List Byte} {k : Except Errno ℕ → Prog posix α}
    {a : α} {f' : Feed} :
    Executes (world fd) (Prog.call (I := posix) (.write fd src mem) k) f a f' ↔
      Executes (world fd) (k (.ok src.len.toNat)) { f with writes := f.writes ++ [src.bytes mem] }
        a f' :=
  executes_call_of_unique fun _ => and_iff_right rfl

@[simp] theorem executes_printf {t : List Byte} {k : Unit → Prog posix α} {a : α} {f' : Feed} :
    Executes (world fd) (Prog.call (I := posix) (.printf t) k) f a f' ↔
      Executes (world fd) (k ()) f a f' :=
  executes_call_of_unique fun _ => iff_of_true trivial rfl

end Feed

end UnixNetwork
