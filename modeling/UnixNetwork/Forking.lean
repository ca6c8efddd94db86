import UnixNetwork.Posix
import UnixNetwork.Interaction.World

/-!
# The servers with one process for each connection

`main01` of `07/server.c` and `main` of `15/tcp_unix_server.c`, from where they begin to accept,
with their handlers of `SIGCHLD` and with `str_echo`, which the children of the first run. The
children of the second become `wc`.

Parent and child run the same program: `fork` returns 0 in the child, and what the program does
with a 0 is what the child does. `execlp` returns only if it has failed; a process in which it has
not is over as far as these programs are concerned.

`errno` is read by a call of its own, because a handler may run between a call that has failed and
the test of `errno`.

## Main definitions

* `Forking.Call`, `Forking.process`: the calls
* `Forking.strEcho`, `Forking.main01`, `Forking.tcpUnix`: the programs
* `Forking.sigChld`, `Forking.sigchldHandler`: the handlers
* `Forking.Server`: a program with its handler
-/

namespace UnixNetwork

namespace Forking

open Interaction

/-- The calls of the programs and of the handlers. -/
inductive Call where
  | accept (fd : ℤ)
  | errno
  | printf (msg : List Byte)
  | printfInt (before : List Byte) (n : ℤ) (after : List Byte)
  | printfErrno (before : List Byte) (errno : Errno) (after : List Byte)
  | printfAddr (before : List Byte) (addr : List Byte) (after : List Byte)
  | printfStr (before arg after : List Byte)
  | perror (msg : List Byte)
  | fork
  | close (fd : ℤ)
  | dup2 (old new : ℤ)
  | execlp (file : List Byte) (args : List (List Byte))
  | read (fd : ℤ) (dst : Span)
  | write (fd : ℤ) (src : Span) (mem : List Byte)
  | waitpid (pid : ℤ) (nohang : Bool)

/-- The result of each call. `accept` returns a descriptor and the address of the peer. -/
@[reducible] def Res : Call → Type
  | .accept _ => Except Errno (ℕ × List Byte)
  | .errno => Errno
  | .fork | .write .. | .waitpid .. => Except Errno ℕ
  | .close _ | .dup2 .. | .execlp .. => Except Errno Unit
  | .read .. => Except Errno (List Byte)
  | _ => Unit

/-- The interface of the programs and of the handlers. -/
abbrev process : Interface := ⟨Call, Res⟩

/-! ## The programs -/

/-- One turn of the loop of `str_echo`. A read that has been interrupted leads back to it. -/
def strEcho (socketfd : ℤ) (buf : Buf 1024) : Prog process (Buf 1024 ⊕ Unit) := do
  let r ← Prog.perform (I := process) (.read socketfd (Span.whole 1024))
  let n := readValue r
  let buf := buf.put 0 (readBytes r)
  if n > 0 then do
    let buf ← storeAt buf n 0
    let _ ← Prog.perform (I := process)
      (.printfStr (text "read from client: ") buf.toList (text "\n"))
    let _ ← Prog.perform (I := process) (.write socketfd (Span.first 1024 n) buf.toList)
    return .inl buf
  else if n < 0 then do
    let errno ← Prog.perform (I := process) .errno
    if errno = .eintr then return .inl buf
    else do
      let _ ← Prog.perform (I := process) (.printf (text "write rrror\n"))
      return .inr ()
  else do
    let _ ← Prog.perform (I := process)
      (.printf (text "client socket closed because read return 0\n"))
    return .inr ()

/-- Where a process of `main01` is: at the head of its loop, or in `str_echo`. -/
inductive Main01 where
  | head
  | echo (connfd : ℕ) (buf : Buf 1024)

/-- One turn of `for(;;)` of `main01`, or of the loop of `str_echo`; `buf` is what the array of
`str_echo` holds before it has been written. -/
def main01 (listenfd : ℤ) (buf : Buf 1024) : Main01 → Prog process (Main01 ⊕ Unit)
  | .head => do
    match ← Prog.perform (I := process) (.accept listenfd) with
    | .error _ => do
      let errno ← Prog.perform (I := process) .errno
      if errno = .eintr then do
        let _ ← Prog.perform (I := process) (.printf (text "EINTR\n"))
        return .inl .head
      else do
        let errno ← Prog.perform (I := process) .errno
        let _ ← Prog.perform (I := process) (.printfErrno (text "errno is ") errno (text "\n"))
        return .inr ()
    | .ok (connfd, cliddr) => do
      let _ ← Prog.perform (I := process) (.printfAddr (text "connect from:") cliddr (text "\n"))
      let r ← Prog.perform (I := process) .fork
      let childPid := countValue r
      if childPid = 0 then do
        let _ ← Prog.perform (I := process) (.close listenfd)
        return .inl (.echo connfd buf)
      else do
        let _ ← Prog.perform (I := process) (.close connfd)
        return .inl .head
  | .echo connfd buf => do
    match ← strEcho connfd buf with
    | .inl buf => return .inl (.echo connfd buf)
    | .inr () => return .inr ()

/-- One turn of `for (;;)` of `main` of `15/tcp_unix_server.c`. -/
def tcpUnix (listenfd : ℤ) : Unit → Prog process (Unit ⊕ Unit) := fun _ => do
  match ← Prog.perform (I := process) (.accept listenfd) with
  | .error _ => do
    let _ ← Prog.perform (I := process) (.perror (text "accept error"))
    return .inl ()
  | .ok (connfd, _) => do
    let r ← Prog.perform (I := process) .fork
    let childpid := countValue r
    if childpid = 0 then do
      let _ ← Prog.perform (I := process) (.close listenfd)
      let _ ← Prog.perform (I := process) (.dup2 connfd 0)
      match ← Prog.perform (I := process) (.execlp (text "wc") [text "wc", text "-l"]) with
      | .error _ => do
        let _ ← Prog.perform (I := process) (.perror (text "execlp error"))
        return .inr ()
      | .ok _ => return .inr ()
    else do
      let _ ← Prog.perform (I := process) (.close connfd)
      return .inl ()

/-! ## The handlers -/

/-- One turn of the loop of `sig_chld`. -/
def sigChld : Unit → Prog process (Unit ⊕ Unit) := fun _ => do
  let r ← Prog.perform (I := process) (.waitpid (-1) true)
  let pid := countValue r
  if pid > 0 then do
    let _ ← Prog.perform (I := process)
      (.printfInt (text "got SIGCHLD interrupt!  child pid is ") pid (text "\n"))
    return .inl ()
  else return .inr ()

/-- One turn of the loop of `sigchld_handler`. -/
def sigchldHandler : Unit → Prog process (Unit ⊕ Unit) := fun _ => do
  let r ← Prog.perform (I := process) (.waitpid (-1) true)
  let pid := countValue r
  if pid > 0 then return .inl ()
  else return .inr ()

/-- A program with its handler of `SIGCHLD`. -/
structure Server where
  /-- The variables of the program. -/
  Locals : Type
  /-- Where the program begins. -/
  head : Locals
  /-- One turn of its loop. -/
  body : Locals → Prog process (Locals ⊕ Unit)
  /-- One turn of the loop of its handler. -/
  handler : Unit → Prog process (Unit ⊕ Unit)

/-- `07/server.c`. -/
def Server.main01 (listenfd : ℤ) (buf : Buf 1024) : Server :=
  ⟨Main01, .head, Forking.main01 listenfd buf, sigChld⟩

/-- `15/tcp_unix_server.c`. -/
def Server.tcpUnix (listenfd : ℤ) : Server := ⟨Unit, (), Forking.tcpUnix listenfd, sigchldHandler⟩

end Forking

end UnixNetwork
