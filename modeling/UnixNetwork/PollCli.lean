import UnixNetwork.Posix

/-!
# The client that polls

`str_cli` of `14/str_cli.c`. It registers two descriptors, the one of its file and the socket, and
then asks for the ready ones of them with the `ioctl` command `DP_POLL`, which stores one entry for
each and returns their number. The entries are stored over the array that was registered.

`stdineof` is set at the end of the file and looked at nowhere. Nothing takes the file out of the
registered descriptors, and there is no `shutdown`.

`err_sys` is not in the repository; it prints a message and ends the program.

## Main definitions

* `PollCli.Pollfd`, `PollCli.Call`, `PollCli.devPoll`: the array and the calls of the program
* `PollCli.Locals`, `PollCli.Exit`: the variables of the loop, and the ways it ends
* `PollCli.serve`, `PollCli.scan`, `PollCli.body`, `PollCli.strCli`: one entry, the loop over the
  entries, one turn of `while(1)`, and the function up to it
-/

namespace UnixNetwork

namespace PollCli

open Interaction

/-- `MAXLINE`. -/
def maxline : ℕ := 4096

/-- `POLLIN`. -/
def pollin : ℤ := 1

/-- `struct pollfd`. -/
structure Pollfd where
  /-- The descriptor. -/
  fd : ℤ
  /-- The events that are asked for. -/
  events : ℤ
  /-- The events that have happened. -/
  revents : ℤ

/-- `struct dvpoll`, with the contents of the array it points to. -/
structure Dvpoll where
  /-- `dp_fds`. -/
  fds : Vector Pollfd 2
  /-- `dp_nfds`. -/
  nfds : ℤ
  /-- `dp_timeout`. -/
  timeout : ℤ

/-- What `DP_POLL` returns: its value, and the array as it leaves it. -/
structure Polled where
  /-- The number of ready descriptors, or `-1`. -/
  value : ℤ
  /-- The array. -/
  fds : Vector Pollfd 2

/-- The calls: those of the other programs, the opening of a file for reading and writing, the
`write` of the array that registers it, and `DP_POLL`. -/
inductive Call where
  | posix (c : UnixNetwork.Call)
  | openRdwr (path : String)
  | register (fd : ℤ) (fds : Vector Pollfd 2)
  | dpPoll (fd : ℤ) (dpoll : Dvpoll)

/-- The result of each call. -/
@[reducible] def Res : Call → Type
  | .posix c => UnixNetwork.Res c
  | .openRdwr _ => Except Errno ℕ
  | .register .. => Except Errno ℕ
  | .dpPoll .. => Polled

/-- The interface of the program. -/
abbrev devPoll : Interface := ⟨Call, Res⟩

/-- The variables of `str_cli` that live from one turn of the loop to the next. -/
structure Locals where
  /-- The file has ended. -/
  stdineof : Bool
  /-- The buffer of both directions. -/
  buf : Buf maxline
  /-- What `open` has returned. -/
  wfd : ℤ
  /-- The registered array. -/
  pfd : Vector Pollfd 2

/-- How `str_cli` ends. -/
inductive Exit where
  /-- It returns. -/
  | returned
  /-- It calls `err_sys`. -/
  | errSys (message : String)
deriving DecidableEq

/-- `read(fd, buf, MAXLINE)`. -/
def read (fd : ℤ) : Prog devPoll (Except Errno (List Byte)) :=
  Prog.perform (I := devPoll) (.posix (.read fd (Span.whole maxline)))

/-- `write(fd, buf, n)`. -/
def write (fd n : ℤ) (buf : Buf maxline) : Prog devPoll (Except Errno ℕ) :=
  Prog.perform (I := devPoll) (.posix (.write fd (Span.first maxline n) buf.toList))

/-- What is done about the entry of `fd`; `fp` is `fileno(fp)`. -/
def serve (fp sockfd fd : ℤ) (s : Locals) : Prog devPoll (Locals ⊕ Exit) := do
  if fd = sockfd then do
    let r ← read sockfd
    let n := readValue r
    let s := { s with buf := s.buf.put 0 (readBytes r) }
    if n = 0 then return .inr .returned
    else do
      let r' ← write stdoutFileno n s.buf
      if countValue r' ≠ n then return .inr (.errSys "write error to stdout")
      else return .inl s
  else if fd = fp then do
    let r ← read fp
    let n := readValue r
    let s := { s with buf := s.buf.put 0 (readBytes r) }
    if n = 0 then return .inl { s with stdineof := true }
    else do
      let r' ← write sockfd n s.buf
      if countValue r' ≠ n then return .inr (.errSys "write error to socket")
      else return .inl s
  else return .inl s

/-- The loop `for(i = 0 ; i < result ; i++)` over the entries, with `left` turns to go. -/
def scan (fp sockfd : ℤ) : (left i : ℕ) → Locals → Prog devPoll (Locals ⊕ Exit)
  | 0, _, s => .ret (.inl s)
  | left + 1, i, s => do
    let entry ← load s.pfd i
    match ← serve fp sockfd entry.fd s with
    | .inr e => return .inr e
    | .inl s => scan fp sockfd left (i + 1) s

/-- One turn of `while(1)`. -/
def body (fp sockfd : ℤ) (s : Locals) : Prog devPoll (Locals ⊕ Exit) := do
  let result ← Prog.perform (I := devPoll) (.dpPoll s.wfd ⟨s.pfd, 2, -1⟩)
  scan fp sockfd result.value.toNat 0 { s with pfd := result.fds }

/-- `str_cli(fp, sockfd)`; `buf` is not initialised. -/
def strCli (fp sockfd : ℤ) (buf : Buf maxline) : Prog devPoll (Locals ⊕ Exit) := do
  let r ← Prog.perform (I := devPoll) (.openRdwr "/dev/null")
  let wfd := countValue r
  let pfd : Vector Pollfd 2 := #v[⟨fp, pollin, 0⟩, ⟨sockfd, pollin, 0⟩]
  let _ ← Prog.perform (I := devPoll) (.register wfd pfd)
  return .inl { stdineof := false, buf := buf, wfd := wfd, pfd := pfd }

end PollCli

end UnixNetwork
