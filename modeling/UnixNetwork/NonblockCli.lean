import UnixNetwork.Posix

/-!
# The client with non-blocking calls

`str_cli` of `16/str_cli.c`. It keeps a buffer for each direction, `to` from the standard input to
the socket and `from` from the socket to the standard output, with two pointers into each of them:
input is stored at the first and output is taken from the second. Pointers are offsets into their
array here, and may be negative.

The two input branches read `if (n < 0) if (errno != EWOULDBLOCK) ... else if (n == 0) ... else ...`
without braces around the inner `if`. In C both `else` belong to the inner `if`, so they are reached
only when the call has failed with `EWOULDBLOCK`, and nothing is done about a call that has returned
data or the end of the stream. The layout of the source says otherwise.

The calls of `fcntl` before the loop, which make the descriptors non-blocking, are left out.

The last `if` of the function has no body; it is read as an empty statement. `MAXLINE` is not
defined in the file and is a parameter. `err_sys` and `err_quit` are not in the repository either;
they print a message and end the program.

## Main definitions

* `NonblockCli.Locals`, `NonblockCli.Exit`: the variables of the loop, and the ways it ends
* `NonblockCli.watch`, `NonblockCli.fromStdin`, `NonblockCli.fromSocket`, `NonblockCli.toStdout`,
  `NonblockCli.toSocket`: the parts of a turn
* `NonblockCli.body`, `NonblockCli.start`: one turn of the loop, and the variables at its beginning
-/

namespace UnixNetwork

namespace NonblockCli

open Interaction

/-- The variables of `str_cli` that live from one turn of the loop to the next. -/
structure Locals (maxline : ℕ) where
  /-- The standard input has ended. -/
  stdineof : Bool
  /-- The buffer `to`. -/
  toBuf : Buf maxline
  /-- The buffer `from`. -/
  fromBuf : Buf maxline
  /-- Where input from the standard input is stored. -/
  toiptr : ℤ
  /-- Where output to the socket is taken from. -/
  tooptr : ℤ
  /-- Where input from the socket is stored. -/
  fromiptr : ℤ
  /-- Where output to the standard output is taken from. -/
  fromoptr : ℤ

/-- How `str_cli` ends. -/
inductive Exit where
  /-- It returns. -/
  | returned
  /-- It calls `err_sys`. -/
  | errSys (message : String)
  /-- It calls `err_quit`. -/
  | errQuit (message : String)
deriving DecidableEq

variable {maxline : ℕ}

/-- A call has failed with `EWOULDBLOCK`. -/
def wouldBlock {α : Type} : Except Errno α → Bool
  | .error .ewouldblock => true
  | _ => false

/-- `if (c) FD_SET(fd, &s)`. -/
def fdSetIf (c : Prop) [Decidable c] (fd : ℤ) (s : FdSet) : Prog posix FdSet :=
  if c then fdSet fd s else .ret s

theorem silent_fdSetIf (c : Prop) [Decidable c] (fd : ℤ) (s : FdSet) :
    (fdSetIf c fd s).Silent := .ite (silent_fdSet fd s) trivial

/-- From the head of the loop to `select`. -/
def watch (sockfd : ℤ) (s : Locals maxline) : Prog posix Selected := do
  let rset ← fdSetIf (s.stdineof = false ∧ s.toiptr < maxline) stdinFileno FdSet.zero
  let rset ← fdSetIf (s.fromoptr < maxline) sockfd rset
  let wset ← fdSetIf (s.tooptr ≠ s.toiptr) sockfd FdSet.zero
  let wset ← fdSetIf (s.fromiptr ≠ s.fromoptr) stdoutFileno wset
  select (max stdoutFileno stdinFileno + 1) rset wset

/-- The branch of a readable standard input, with the `else` as C attaches them. It returns the
variables and the write set. -/
def fromStdin (sockfd : ℤ) (rset wset : FdSet) (s : Locals maxline) :
    Prog posix ((Locals maxline × FdSet) ⊕ Exit) := do
  let ready ← fdIsSet stdinFileno rset
  if ready then do
    let r ← read stdinFileno ⟨maxline, s.toiptr, maxline - s.toiptr⟩
    let toBuf ← s.toBuf.storeBytes s.toiptr (readBytes r)
    let s := { s with toBuf := toBuf }
    let n := readValue r
    if n < 0 then
      if wouldBlock r = false then return .inr (.errSys "read error")
      else if n = 0 then do
        let s := { s with stdineof := true }
        if s.tooptr = s.toiptr then do
          let _ ← shutdownWr sockfd
          return .inl (s, wset)
        else return .inl (s, wset)
      else do
        let now ← time
        let _ ← eprintf (now ++ text (" : read " ++ toString n ++ " bytes from stdin \n"))
        let wset ← fdSet sockfd wset
        return .inl ({ s with toiptr := s.toiptr + n }, wset)
    else return .inl (s, wset)
  else return .inl (s, wset)

/-- The branch of a readable socket, with the `else` as C attaches them. -/
def fromSocket (sockfd : ℤ) (rset wset : FdSet) (s : Locals maxline) :
    Prog posix ((Locals maxline × FdSet) ⊕ Exit) := do
  let ready ← fdIsSet sockfd rset
  if ready then do
    let r ← read sockfd ⟨maxline, s.fromiptr, maxline - s.fromiptr⟩
    let fromBuf ← s.fromBuf.storeBytes s.fromiptr (readBytes r)
    let s := { s with fromBuf := fromBuf }
    let n := readValue r
    if n < 0 then
      if wouldBlock r = false then return .inr (.errSys "read error")
      else if n = 0 then do
        let now ← time
        let _ ← eprintf (now ++ text " : read 0 bytes from socket \n")
        if s.stdineof then return .inr .returned
        else return .inr (.errQuit "server terminated prematurely")
      else do
        let now ← time
        let _ ← eprintf (now ++ text (" : read " ++ toString n ++ " bytes from socket \n"))
        let wset ← fdSet stdoutFileno wset
        return .inl ({ s with fromiptr := s.fromiptr + n }, wset)
    else return .inl (s, wset)
  else return .inl (s, wset)

/-- The branch of a writable standard output. It takes its output from the buffer `to`. It returns
whether the turn goes on. -/
def toStdout (sockfd : ℤ) (wset : FdSet) (s : Locals maxline) :
    Prog posix ((Locals maxline × Bool) ⊕ Exit) := do
  let ready ← fdIsSet stdoutFileno wset
  let n := s.toiptr - s.tooptr
  if ready ∧ n > 0 then do
    let r ← write stdoutFileno ⟨maxline, s.tooptr, n⟩ s.toBuf
    let nwritten := countValue r
    if nwritten < 0 then
      if wouldBlock r then return .inl (s, false)
      else return .inr (.errSys "write error")
    else do
      let now ← time
      let _ ← eprintf (now ++ text (" : write " ++ toString nwritten ++ " bytes to stdout \n"))
      let s := { s with fromoptr := s.fromoptr + nwritten }
      if s.fromoptr = s.fromiptr then do
        let s := { s with fromoptr := 0, fromiptr := 0 }
        if s.stdineof then do
          let _ ← shutdownWr sockfd
          return .inl (s, true)
        else return .inl (s, true)
      else return .inl (s, true)
  else return .inl (s, true)

/-- The branch of a writable socket. It ends the turn in any case. -/
def toSocket (sockfd : ℤ) (wset : FdSet) (s : Locals maxline) :
    Prog posix (Locals maxline ⊕ Exit) := do
  let ready ← fdIsSet sockfd wset
  let n := s.toiptr - s.tooptr
  if ready ∧ n > 0 then do
    let r ← write sockfd ⟨maxline, s.tooptr, n⟩ s.toBuf
    let nwritten := countValue r
    if nwritten < 0 then
      if wouldBlock r then return .inl s
      else return .inr (.errSys "write error")
    else do
      let now ← time
      let _ ← eprintf (now ++ text (" : write " ++ toString nwritten ++ " bytes to socket \n"))
      return .inl { s with tooptr := s.tooptr + nwritten }
  else return .inl s

/-- What a turn does once `select` has returned. -/
def handle (sockfd : ℤ) (sel : Selected) (s : Locals maxline) :
    Prog posix (Locals maxline ⊕ Exit) := do
  if sel.value < 0 then return .inr (.errSys "select error")
  else do
    match ← fromStdin sockfd sel.rset sel.wset s with
    | .inr e => return .inr e
    | .inl (s, wset) => do
      match ← fromSocket sockfd sel.rset wset s with
      | .inr e => return .inr e
      | .inl (s, wset) => do
        match ← toStdout sockfd wset s with
        | .inr e => return .inr e
        | .inl (s, false) => return .inl s
        | .inl (s, true) => toSocket sockfd wset s

/-- One turn of `for ( ; ; )`. -/
def body (sockfd : ℤ) (s : Locals maxline) : Prog posix (Locals maxline ⊕ Exit) := do
  let sel ← watch sockfd s
  handle sockfd sel s

/-- The variables when the loop begins; the buffers are not initialised. -/
def start (toBuf fromBuf : Buf maxline) : Locals maxline where
  stdineof := false
  toBuf := toBuf
  fromBuf := fromBuf
  toiptr := 0
  tooptr := 0
  fromiptr := 0
  fromoptr := 0

end NonblockCli

end UnixNetwork
