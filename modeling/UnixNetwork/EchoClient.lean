import UnixNetwork.EchoServer

/-!
# The first echo client

The loop of `main` of `05/client.c`, which is also the loop of `main` of `06/udp-client.c`: it reads
a line of its input, writes it, reads what comes back and prints it. The result of `fgets` is not
looked at, so at the end of the input it goes on with an empty line; of the results of `read` only
zero is.

What is read may fill the buffer, and then no NUL is left in it for `printf`.

## Main definitions

* `EchoClient.body`: one turn of the loop

## Main results

* `EchoClient.body_eq`: the calls of a turn
-/

namespace UnixNetwork

namespace EchoClient

open Interaction
open EchoServer (filled)

/-- What `fgets` leaves in an array: at the end of the input it stays as it was. -/
def gets {n : ℕ} (buf : Buf n) : Option (List Byte) → Buf n
  | some line => buf.put 0 (line ++ [0])
  | none => buf

/-- One turn of `while (1)`. What the array holds at its beginning plays no part. -/
def body (sockfd : ℤ) : Buf 1024 → Prog stdio (Buf 1024 ⊕ Unit) := fun _ => do
  let buf := Buf.zeros 1024
  let line ← Prog.perform (I := stdio) (.fgets 1024)
  let buf := gets buf line
  let len ← strlen buf
  let _ ← Prog.perform (I := stdio) (.write sockfd (Span.first 1024 len) buf.toList)
  let buf := Buf.zeros 1024
  let r ← Prog.perform (I := stdio) (.read sockfd (Span.whole 1024))
  let n := readValue r
  let buf := buf.put 0 (readBytes r)
  if n = 0 then do
    let _ ← Prog.perform (I := stdio) (.printf (text "Server closed\n"))
    return .inr ()
  else do
    let _ ← Prog.perform (I := stdio) (.printfStr (text "Received: ") buf.toList (text "\n"))
    return .inl buf

/-- A turn after its read. -/
def print (r : Except Errno (List Byte)) : Prog stdio (Buf 1024 ⊕ Unit) :=
  if readValue r = 0 then
    Prog.call (I := stdio) (.printf (text "Server closed\n")) fun _ => .ret (.inr ())
  else
    Prog.call (I := stdio) (.printfStr (text "Received: ") (filled (readBytes r)).toList
      (text "\n")) fun _ => .ret (.inl (filled (readBytes r)))

/-- What is in the buffer when `fgets` has returned. -/
theorem gets_zeros {line : Option (List Byte)} (hlen : ∀ l, line = some l → l.length < 1024) :
    gets (Buf.zeros 1024) line = filled (line.getD []) := by
  refine Vector.toList_inj.mp ?_
  cases line with
  | none =>
    rw [Option.getD_none, EchoServer.toList_filled (Nat.zero_le _), gets, Buf.zeros,
      Vector.toList_replicate]
    rfl
  | some l =>
    have hl := hlen l rfl
    rw [Option.getD_some, gets, Buf.toList_put_line hl, EchoServer.toList_filled hl.le, Buf.zeros,
      Vector.toList_replicate, List.drop_replicate, ← List.replicate_succ]
    congr 2
    omega

/-- The calls of a turn. -/
theorem body_eq (sockfd : ℤ) (buf : Buf 1024) :
    ∃ k, body sockfd buf = Prog.call (I := stdio) (.fgets 1024) k ∧
      ∀ line, (∀ l, line = some l → l.length < 1024) →
        k line = Prog.call (I := stdio)
          (.write sockfd (Span.first 1024 (CString.str (line.getD [])).length)
            (filled (line.getD [])).toList) fun _ =>
          Prog.call (I := stdio) (.read sockfd (Span.whole 1024)) print := by
  refine ⟨_, rfl, fun line hline => ?_⟩
  have hlen : (line.getD []).length < 1024 := by
    cases line with
    | none => exact Nat.zero_lt_succ _
    | some l => exact hline l rfl
  have hstrlen : (strlen (filled (line.getD [])) : Prog stdio ℕ) =
      .ret (CString.str (line.getD [])).length := by
    rw [strlen, if_pos ((EchoServer.terminated_filled hlen.le).mpr (.inr hlen)),
      EchoServer.str_filled hlen.le]
  show (strlen (gets (Buf.zeros 1024) line) >>= _) = _
  rw [gets_zeros hline, hstrlen, Prog.ret_bind]
  rfl

end EchoClient

end UnixNetwork
