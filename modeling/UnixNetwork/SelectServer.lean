import UnixNetwork.Posix

/-!
# The select server

`main` of `07/server.c`: one process serves every client. It keeps the accepted descriptors in a
table `client[FD_SETSIZE]` whose free slots hold `-1`, watches them together with the listening
descriptor in `allset`, and remembers the largest descriptor and the largest used slot in `maxfd`
and `maxi`. The four are updated in different branches and never recomputed.

A round is one turn of the `for(;;)` loop. It ends early in two places, after an `accept` that was
the only event and inside the scan once `nready` descriptors have been served.

`main` never returns, so its loop has no way to be done: the type of its result is `Empty`.

## Main definitions

* `SelectServer.Locals`: the variables that live from one round to the next
* `SelectServer.acceptClient`: the branch that accepts a connection
* `SelectServer.serve`, `SelectServer.scan`: one slot, and the loop over the slots
* `SelectServer.round`, `SelectServer.main`: one turn of the loop, and the program
-/

namespace UnixNetwork

namespace SelectServer

open Interaction

/-- The variables of `main` that live from one round to the next. -/
structure Locals where
  /-- `client[]`: the accepted descriptors, `-1` in a free slot. -/
  client : Vector ℤ fdSetsize
  /-- The largest slot that was ever used. -/
  maxi : ℤ
  /-- The largest descriptor that was ever watched. -/
  maxfd : ℤ
  /-- The watched descriptors. -/
  allset : FdSet
  /-- The buffer all clients share. -/
  buf : Buf 1024

/-- The search for a free slot, `for(i = 0; i <= FD_SETSIZE; i++) if(client[i] == -1) ...`, with
`left` turns to go. It returns the slot and the table with `connfd` in it. -/
def findSlot (connfd : ℤ) (client : Vector ℤ fdSetsize) :
    (left i : ℕ) → Prog posix (ℕ × Vector ℤ fdSetsize)
  | 0, i => .ret (i, client)
  | left + 1, i => do
    let c ← load client i
    if c = -1 then do
      let client' ← store client i connfd
      return (i, client')
    else findSlot connfd client left (i + 1)

/-- Put the result of `accept` into the table. It is used as it is, `-1` included. -/
def install (connfd : ℤ) (s : Locals) : Prog posix Locals := do
  let (i, client) ← findSlot connfd s.client (fdSetsize + 1) 0
  let _ ← if (i : ℤ) = fdSetsize - 1 then printf (text "too many clients\n") else .ret ()
  let allset ← fdSet connfd s.allset
  return { s with
    client := client
    allset := allset
    maxfd := if connfd > s.maxfd then connfd else s.maxfd
    maxi := if (i : ℤ) > s.maxi then i else s.maxi }

/-- The branch of a ready listening descriptor, up to the test of `nready`. -/
def acceptClient (listenfd : ℤ) (s : Locals) : Prog posix Locals := do
  let r ← accept listenfd
  install (countValue r) s

/-- The client in slot `i` is ready: one `read`, then either the end of the connection or the
echo. -/
def serve (i : ℕ) (sockfd : ℤ) (s : Locals) : Prog posix Locals := do
  let r ← read sockfd (Span.whole 1024)
  let n := readValue r
  let buf := s.buf.put 0 (readBytes r)
  if n ≤ 0 then do
    let _ ← close sockfd
    let allset ← fdClr sockfd s.allset
    let client ← store s.client i (-1)
    return { s with client := client, allset := allset, buf := buf }
  else do
    let _ ← write sockfd (Span.first 1024 n) buf
    return { s with buf := buf }

/-- The loop `for(i = 0; i <= maxi; i++)` over the slots, with `left` turns to go. -/
def scan (rset : FdSet) : (left i : ℕ) → (nready : ℤ) → Locals → Prog posix Locals
  | 0, _, _, s => .ret s
  | left + 1, i, nready, s => do
    let sockfd ← load s.client i
    if sockfd < 0 then scan rset left (i + 1) nready s
    else do
      let ready ← fdIsSet sockfd rset
      if ready then do
        let s' ← serve i sockfd s
        if nready - 1 ≤ 0 then return s'
        else scan rset left (i + 1) (nready - 1) s'
      else scan rset left (i + 1) nready s

/-- The number of turns of the loop over the slots. -/
def turns (s : Locals) : ℕ := (s.maxi + 1).toNat

/-- What a round does once `select` has returned. -/
def handle (listenfd : ℤ) (s : Locals) (sel : Selected) : Prog posix Locals := do
  let ready ← fdIsSet listenfd sel.rset
  if ready then do
    let s' ← acceptClient listenfd s
    if sel.value - 1 ≤ 0 then return s'
    else scan sel.rset (turns s') 0 (sel.value - 1) s'
  else scan sel.rset (turns s) 0 sel.value s

/-- One turn of `for(;;)`. The sets of `select` that the program passes as `NULL` are empty. -/
def round (listenfd : ℤ) (s : Locals) : Prog posix Locals := do
  let sel ← select (s.maxfd + 1) s.allset FdSet.zero
  handle listenfd s sel

/-- The call with which the round of `s` begins, and a result of it. -/
def selectEvent (s : Locals) (sel : Selected) : Event posix :=
  ⟨.select (s.maxfd + 1) s.allset FdSet.zero, sel⟩

/-- The loop of `main`. -/
def body (listenfd : ℤ) (s : Locals) : Prog posix (Locals ⊕ Empty) := do
  let s' ← round listenfd s
  return .inl s'

/-- The variables when the loop begins; `buf` is not initialised. -/
def start (listenfd : ℤ) (h : InRange listenfd) (buf : Buf 1024) : Locals where
  client := Vector.replicate fdSetsize (-1)
  maxi := -1
  maxfd := listenfd
  allset := FdSet.zero.insert listenfd h
  buf := buf

/-- `main`, from `FD_ZERO` on: `socket`, `bind` and `listen` have made `listenfd`. -/
def main (listenfd : ℤ) (buf : Buf 1024) : Prog posix (Locals ⊕ Empty) := do
  let allset ← fdSet listenfd FdSet.zero
  return .inl ⟨Vector.replicate fdSetsize (-1), -1, listenfd, allset, buf⟩

/-- The variables of a server that listens on descriptor 3 and has no clients. -/
def idle : Locals := start 3 inRange_three (Vector.replicate 1024 0)

theorem main_eq_start {listenfd : ℤ} (h : InRange listenfd) (buf : Buf 1024) :
    main listenfd buf = .ret (.inl (start listenfd h buf)) := by
  simp [main, start, h]

theorem handle_of_mem {listenfd : ℤ} {s : Locals} {sel : Selected} (hl : InRange listenfd)
    (h : listenfd ∈ sel.rset) :
    handle listenfd s sel = acceptClient listenfd s >>= fun s' =>
      if sel.value - 1 ≤ 0 then .ret s'
      else scan sel.rset (turns s') 0 (sel.value - 1) s' := by
  simp [handle, hl, h]

end SelectServer

end UnixNetwork
