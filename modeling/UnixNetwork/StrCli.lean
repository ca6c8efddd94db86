import UnixNetwork.Posix

/-!
# The client that waits for both sides

`str_cli` of `07/client.c` in its last version, the one with `select` and `shutdown`; the same text
stands in `15/tcp_unix_client.c`. It copies a file to the server and what the server sends back to
the descriptor of that file, and it goes on reading from the server once the file has ended.

`rset` is never cleared. What one turn of the loop leaves in it is what the next one adds to, so
the turns are not independent. The result of `select` is not looked at.

## Main definitions

* `StrCli.Locals`, `StrCli.Exit`: the variables of the loop, and the two ways it ends
* `StrCli.watch`, `StrCli.fromServer`, `StrCli.fromFile`: the three parts of a turn
* `StrCli.body`, `StrCli.strCli`: one turn of the loop, and the function up to the loop
-/

namespace UnixNetwork

namespace StrCli

open Interaction

/-- The variables of `str_cli` that live from one turn of the loop to the next. -/
structure Locals where
  /-- The file has ended. -/
  stdineof : Bool
  /-- The descriptors that `select` reported in the last turn. -/
  rset : FdSet
  /-- The buffer of both directions. -/
  buf : Buf 1024

/-- How `str_cli` ends. -/
inductive Exit where
  /-- It returns. -/
  | returned
  /-- It calls `exit(1)`. -/
  | exit1
deriving DecidableEq

/-- From the head of the loop to `select`; `fp` is `fileno(fp)`. -/
def watch (fp sockfd : ℤ) (s : Locals) : Prog posix Locals := do
  let rset ← if s.stdineof then .ret s.rset else fdSet fp s.rset
  let rset ← fdSet sockfd rset
  let sel ← select (max fp sockfd + 1) rset FdSet.zero
  return { s with rset := sel.rset }

/-- The branch of a readable socket. -/
def fromServer (fp sockfd : ℤ) (s : Locals) : Prog posix (Locals ⊕ Exit) := do
  let ready ← fdIsSet sockfd s.rset
  if ready then do
    let r ← read sockfd (Span.whole 1024)
    let n := readValue r
    let buf := s.buf.put 0 (readBytes r)
    if n = 0 then
      if s.stdineof then do
        let _ ← printf (text "normal termination\n")
        return .inr .returned
      else do
        let _ ← printf (text "server terninate prematurely\n")
        return .inr .exit1
    else do
      let _ ← write fp (Span.first 1024 n) buf
      return .inl { s with buf := buf }
  else return .inl s

/-- The branch of a readable file. -/
def fromFile (fp sockfd : ℤ) (s : Locals) : Prog posix Locals := do
  let ready ← fdIsSet fp s.rset
  if ready then do
    let r ← read fp (Span.whole 1024)
    let n := readValue r
    let buf := s.buf.put 0 (readBytes r)
    if n = 0 then do
      let _ ← printf (text "end of file\n")
      let _ ← shutdownWr sockfd
      let rset ← fdClr fp s.rset
      return { stdineof := true, rset := rset, buf := buf }
    else do
      let _ ← write sockfd (Span.first 1024 n) buf
      return { s with buf := buf }
  else return s

/-- One turn of `for(;;)`. -/
def body (fp sockfd : ℤ) (s : Locals) : Prog posix (Locals ⊕ Exit) := do
  let s ← watch fp sockfd s
  match ← fromServer fp sockfd s with
  | .inl s => do
    let s ← fromFile fp sockfd s
    return .inl s
  | .inr e => return .inr e

/-- `str_cli(fp, sockfd)`; `buf` is not initialised. -/
def strCli (buf : Buf 1024) : Prog posix (Locals ⊕ Exit) := do
  let _ ← printf (text "final version !\n")
  return .inl { stdineof := false, rset := FdSet.zero, buf := buf }

theorem watch_eq {fp sockfd : ℤ} (hfp : InRange fp) (hsock : InRange sockfd) (s : Locals) :
    watch fp sockfd s = Prog.call (I := posix) (.select (max fp sockfd + 1)
      ((if s.stdineof then s.rset else s.rset.insert fp hfp).insert sockfd hsock) FdSet.zero)
      fun sel => .ret { s with rset := sel.rset } := by
  rw [watch]
  cases s.stdineof with
  | true => simp [hsock]
  | false => simp [hfp, hsock]

theorem fromServer_of_mem {fp sockfd : ℤ} {s : Locals} (h : sockfd ∈ s.rset) :
    fromServer fp sockfd s = Prog.call (I := posix) (.read sockfd (Span.whole 1024)) fun r =>
      if readValue r = 0 then
        if s.stdineof then Prog.call (I := posix) (.printf (text "normal termination\n")) fun _ =>
          .ret (.inr .returned)
        else Prog.call (I := posix) (.printf (text "server terninate prematurely\n")) fun _ =>
          .ret (.inr .exit1)
      else Prog.call (I := posix)
        (.write fp (Span.first 1024 (readValue r)) (s.buf.put 0 (readBytes r)).toList) fun _ =>
          .ret (.inl { s with buf := s.buf.put 0 (readBytes r) }) := by
  rw [fromServer, fdIsSet_of_inRange (FdSet.inRange_of_mem h), Prog.ret_bind,
    if_pos (decide_eq_true h)]
  rfl

theorem fromFile_of_mem {fp sockfd : ℤ} {s : Locals} (h : fp ∈ s.rset) :
    fromFile fp sockfd s = Prog.call (I := posix) (.read fp (Span.whole 1024)) fun r =>
      if readValue r = 0 then Prog.call (I := posix) (.printf (text "end of file\n")) fun _ =>
        Prog.call (I := posix) (.shutdownWr sockfd) fun _ =>
          .ret { stdineof := true, rset := s.rset.erase fp, buf := s.buf.put 0 (readBytes r) }
      else Prog.call (I := posix)
        (.write sockfd (Span.first 1024 (readValue r)) (s.buf.put 0 (readBytes r)).toList) fun _ =>
          .ret { s with buf := s.buf.put 0 (readBytes r) } := by
  have hr : InRange fp := FdSet.inRange_of_mem h
  rw [fromFile, fdIsSet_of_inRange hr, Prog.ret_bind, if_pos (decide_eq_true h),
    fdClr_of_inRange hr]
  rfl

theorem fromServer_of_notMem {fp sockfd : ℤ} {s : Locals} (hr : InRange sockfd)
    (h : sockfd ∉ s.rset) : fromServer fp sockfd s = .ret (.inl s) := by
  simp [fromServer, hr, h]

theorem fromFile_of_notMem {fp sockfd : ℤ} {s : Locals} (hr : InRange fp) (h : fp ∉ s.rset) :
    fromFile fp sockfd s = .ret s := by
  simp [fromFile, hr, h]

end StrCli

end UnixNetwork
