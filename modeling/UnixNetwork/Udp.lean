import UnixNetwork.Posix

/-!
# The datagram programs

`dlg_echo` of `08/udp-server.c` and `dlg_cli` of `08/udp-client.c`: the server sends every datagram
back to where it came from, the client sends a line and prints what comes back.

The two buffers have different sizes, 80 bytes and 1024. The server prints what it has received with
`%s` without having put a NUL behind it. The result of `recvfrom` is used as it is, -1 included.

A `printf` with `%s` is modelled with the contents of the array it is handed. Whether there is a NUL
in it is a fact about the call, not a condition on making it.

## Main definitions

* `Udp.Call`, `Udp.udp`: the calls; `A` are the addresses
* `Udp.Echo.body`: one turn of the loop of `dlg_echo`
* `Udp.Cli.body`: one turn of the loop of `dlg_cli`
-/

namespace UnixNetwork

namespace Udp

open Interaction

variable {A : Type}

/-- The calls of the two programs. -/
inductive Call (A : Type) where
  | fgets (size : ℕ)
  | recvfrom (fd : ℤ) (dst : Span) (addrlen : ℕ)
  | sendto (fd : ℤ) (src : Span) (mem : List Byte) (addr : A) (addrlen : ℕ)
  | printfStr (before arg after : List Byte)

/-- The result of each call. `fgets` returns the bytes it has read, or `NULL`; `recvfrom` returns
the bytes it has stored and the address they came from. -/
@[reducible] def Res : Call A → Type
  | .fgets _ => Option (List Byte)
  | .recvfrom .. => Except Errno (List Byte × A)
  | .sendto .. => Except Errno ℕ
  | .printfStr .. => Unit

/-- The interface of the two programs. -/
abbrev udp (A : Type) : Interface := ⟨Call A, Res⟩

/-- The bytes of a datagram, without its address. -/
def payload : Except Errno (List Byte × A) → Except Errno (List Byte)
  | .ok x => .ok x.1
  | .error e => .error e

@[simp] theorem payload_ok (x : List Byte × A) : payload (.ok x) = .ok x.1 := rfl

@[simp] theorem payload_error (e : Errno) :
    payload (.error e : Except Errno (List Byte × A)) = .error e := rfl

/-! ## The server -/

namespace Echo

/-- The variables of `dlg_echo` that live from one turn of the loop to the next. -/
structure Locals (A : Type) where
  /-- The buffer. -/
  sendline : Buf 80
  /-- What `client_addr` points to. -/
  clientAddr : A

/-- One turn of `while(1)` of `dlg_echo(sockfd, client_addr, len)`. -/
def body (sockfd : ℤ) (len : ℕ) (s : Locals A) : Prog (udp A) (Locals A ⊕ Empty) := do
  let r ← Prog.perform (I := udp A) (.recvfrom sockfd (Span.whole 80) len)
  let n := readValue (payload r)
  let s : Locals A := {
    sendline := s.sendline.put 0 (readBytes (payload r))
    clientAddr := match r with
      | .ok x => x.2
      | .error _ => s.clientAddr }
  let _ ← Prog.perform (I := udp A)
    (.printfStr (text "recvfrom message: ") s.sendline.toList (text "\n"))
  let _ ← Prog.perform (I := udp A)
    (.sendto sockfd (Span.first 80 n) s.sendline.toList s.clientAddr len)
  return .inl s

end Echo

/-! ## The client -/

namespace Cli

/-- One turn of the loop of `dlg_cli(fp, sockfd, servaddr, len)`; the buffer is its only
variable. -/
def body (sockfd : ℤ) (servaddr : A) (len : ℕ) (buf : Buf 1024) :
    Prog (udp A) (Buf 1024 ⊕ Unit) := do
  let line ← Prog.perform (I := udp A) (.fgets 1024)
  match line with
  | none => return .inr ()
  | some line => do
    let buf := buf.put 0 (line ++ [0])
    let l ← strlen buf
    let _ ← Prog.perform (I := udp A) (.sendto sockfd (Span.first 1024 l) buf.toList servaddr len)
    let r ← Prog.perform (I := udp A) (.recvfrom sockfd (Span.whole 1024) 0)
    let n := readValue (payload r)
    let buf := buf.put 0 (readBytes (payload r))
    let buf ← storeAt buf n 0
    let _ ← Prog.perform (I := udp A) (.printfStr (text "Received: ") buf.toList [])
    return .inl buf

end Cli

end Udp

end UnixNetwork
