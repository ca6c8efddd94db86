import UnixNetwork.Stdio

/-!
# The client with `select` and lines

`str_cli02` of `07/client.c`, the second version of the client. It copies lines of its file to the
server, and what the server sends to the standard output with `fputs`, without having put a NUL
behind it.

`rset` is cleared once, before the loop, and the result of `select` is not looked at. The result of
`read` is tested for 0 only.

## Main definitions

* `StrCli02.Locals`, `StrCli02.Exit`: the variables of the loop, and the ways it ends
* `StrCli02.fromServer`, `StrCli02.fromFile`: the two branches of a turn
* `StrCli02.body`, `StrCli02.strCli02`: one turn of the loop, and the function up to the loop
-/

namespace UnixNetwork

namespace StrCli02

open Interaction

/-- The variables of `str_cli02` that live from one turn of the loop to the next. -/
structure Locals where
  /-- The descriptors that `select` reported in the last turn. -/
  rset : FdSet
  /-- The buffer for lines of the file. -/
  sendline : Buf 1024
  /-- The buffer for what the server sends. -/
  recvline : Buf 1024

/-- How `str_cli02` ends. -/
inductive Exit where
  /-- It calls `exit(0)`. -/
  | exit0
  /-- It calls `exit(1)`. -/
  | exit1
deriving DecidableEq

/-- The branch of a readable socket. -/
def fromServer (sockfd : ℤ) (s : Locals) : Prog stdio (Locals ⊕ Exit) := do
  let ready ← fdIsSet sockfd s.rset
  if ready then do
    let r ← Prog.perform (I := stdio) (.read sockfd (Span.whole 1024))
    let recvline := s.recvline.put 0 (readBytes r)
    if readValue r = 0 then do
      let _ ← Prog.perform (I := stdio) (.printf (text "server terminated prematurely\n"))
      return .inr .exit1
    else do
      let _ ← Prog.perform (I := stdio) (.fputs recvline.toList)
      return .inl { s with recvline := recvline }
  else return .inl s

/-- The branch of a readable file; `fp` is `fileno(fp)`. -/
def fromFile (fp sockfd : ℤ) (s : Locals) : Prog stdio (Locals ⊕ Exit) := do
  let ready ← fdIsSet fp s.rset
  if ready then do
    match ← Prog.perform (I := stdio) (.fgets 1024) with
    | none => return .inr .exit0
    | some line => do
      let sendline := s.sendline.put 0 (line ++ [0])
      let n ← strlen sendline
      let _ ← Prog.perform (I := stdio) (.write sockfd (Span.first 1024 n) sendline.toList)
      return .inl { s with sendline := sendline }
  else return .inl s

/-- One turn of `for(;;)`. -/
def body (fp sockfd : ℤ) (s : Locals) : Prog stdio (Locals ⊕ Exit) := do
  let rset ← fdSet fp s.rset
  let rset ← fdSet sockfd rset
  let sel ← Prog.perform (I := stdio) (.select (max fp sockfd + 1) rset FdSet.zero)
  match ← fromServer sockfd { s with rset := sel.rset } with
  | .inl s => fromFile fp sockfd s
  | .inr e => return .inr e

/-- `str_cli02(fp, sockfd)`; the buffers are not initialised. -/
def strCli02 (sendline recvline : Buf 1024) : Prog stdio (Locals ⊕ Exit) := do
  let _ ← Prog.perform (I := stdio) (.printf (text "use select\n"))
  return .inl { rset := FdSet.zero, sendline := sendline, recvline := recvline }

/-- A turn of the loop up to the call of `select`. -/
theorem body_eq {fp sockfd : ℤ} (hfp : InRange fp) (hsock : InRange sockfd) (s : Locals) :
    body fp sockfd s = Prog.call (I := stdio) (.select (max fp sockfd + 1)
      ((s.rset.insert fp hfp).insert sockfd hsock) FdSet.zero) fun sel =>
        fromServer sockfd { s with rset := sel.rset } >>= Sum.elim (fromFile fp sockfd)
          fun e => .ret (.inr e) := by
  rw [body, fdSet_of_inRange hfp, Prog.ret_bind, fdSet_of_inRange hsock, Prog.ret_bind,
    Prog.perform_bind]
  congr 1
  funext sel
  congr 1
  funext x
  cases x <;> rfl

/-- The server has sent something. -/
theorem fromServer_of_mem {sockfd : ℤ} {s : Locals} (h : sockfd ∈ s.rset) :
    fromServer sockfd s = Prog.call (I := stdio) (.read sockfd (Span.whole 1024)) fun r =>
      if readValue r = 0 then Prog.call (I := stdio)
        (.printf (text "server terminated prematurely\n")) fun _ => .ret (.inr .exit1)
      else Prog.call (I := stdio) (.fputs (s.recvline.put 0 (readBytes r)).toList) fun _ =>
        .ret (.inl { s with recvline := s.recvline.put 0 (readBytes r) }) := by
  rw [fromServer, fdIsSet_of_inRange (FdSet.inRange_of_mem h), Prog.ret_bind,
    if_pos (decide_eq_true h)]
  rfl

theorem fromFile_of_notMem {fp sockfd : ℤ} {s : Locals} (hr : InRange fp) (h : fp ∉ s.rset) :
    fromFile fp sockfd s = .ret (.inl s) := by
  simp [fromFile, hr, h]

end StrCli02

end UnixNetwork
