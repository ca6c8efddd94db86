import UnixNetwork.Posix
import UnixNetwork.Interaction.World

/-!
# The programs that use the standard library's streams

The calls of the programs that read lines with `fgets` or print strings with `%s` and `fputs`.

A call that prints a string carries the contents of the array it is handed. Whether there is a NUL
in it is a fact about the call, not a condition on making it.

## Main definitions

* `Stdio.Call`, `stdio`: the calls
* `Stdio.Safe`: what a program does next stays inside its arrays
-/

namespace UnixNetwork

open Interaction

namespace Stdio

/-- The calls. -/
inductive Call where
  | select (nfds : ℤ) (rset wset : FdSet)
  | read (fd : ℤ) (dst : Span)
  | write (fd : ℤ) (src : Span) (mem : List Byte)
  | fgets (size : ℕ)
  | printf (text : List Byte)
  | printfStr (before arg after : List Byte)
  | fputs (arg : List Byte)

/-- The result of each call. `fgets` returns the bytes it has read, or `NULL`. -/
@[reducible] def Res : Call → Type
  | .select .. => Selected
  | .read .. => Except Errno (List Byte)
  | .write .. => Except Errno ℕ
  | .fgets _ => Option (List Byte)
  | _ => Unit

/-- What the surroundings may return: `select` any part of the sets it is handed, a read no more
bytes than it was asked for, a write no more than it was given, and both any error; `fgets` a line
that leaves room for its NUL. -/
def Feasible : (c : Call) → Res c → Prop
  | .select _ rset wset, sel => (∀ fd ∈ sel.rset, fd ∈ rset) ∧ ∀ fd ∈ sel.wset, fd ∈ wset
  | .read _ dst, .ok bs => (bs.length : ℤ) ≤ dst.len
  | .write _ src _, .ok n => (n : ℤ) ≤ src.len
  | .fgets size, some line => line.length < size
  | _, _ => True

end Stdio

/-- The interface of these programs. -/
abbrev stdio : Interface := ⟨Stdio.Call, Stdio.Res⟩

namespace Stdio

/-- The call stays inside the array it is handed. -/
def InBounds : Call → Prop
  | .read _ dst => dst.InBounds
  | .write _ src _ => src.InBounds
  | .printfStr _ arg _ => CString.Terminated arg
  | .fputs arg => CString.Terminated arg
  | _ => True

/-- What the program does next is defined and stays inside its arrays. -/
def Safe {α : Type} : Prog stdio α → Prop
  | .ret _ => True
  | .call c _ => InBounds c
  | .fault => False

/-- A program whose guard lets it make such calls only is safe. -/
theorem safe_of_wp {S α : Type} {W : World stdio S} {G : Guard stdio S}
    (hcall : ∀ w c, G.Call w c → InBounds c) (hfault : ∀ w, ¬ G.Fault w) {p : Prog stdio α}
    {Q : α → S → Prop} {w : S} (h : wp W G p Q w) : Safe p := by
  cases p with
  | ret _ => trivial
  | call c k => exact hcall w c h.1
  | fault => exact absurd h (hfault w)

end Stdio

end UnixNetwork
