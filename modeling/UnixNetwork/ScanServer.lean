import UnixNetwork.Posix

/-!
# The server that scans descriptors

`main` of `06/server.c`: the select server without a table. It keeps the watched descriptors in
`read_fds` alone and, after every `select`, tries all descriptors from `listen_fd + 1` to `max_fd`.

## Main definitions

* `ScanServer.Locals`: the variables that live from one round to the next
* `ScanServer.acceptClient`, `ScanServer.serve`: a new connection, and a client that is ready
* `ScanServer.scan`, `ScanServer.round`: the loop over the descriptors, and one turn of `while(1)`
-/

namespace UnixNetwork

namespace ScanServer

open Interaction

/-- The variables of `main` that live from one round to the next. -/
structure Locals where
  /-- The watched descriptors. -/
  readFds : FdSet
  /-- The largest descriptor that was ever watched. -/
  maxFd : ℤ

/-- Watch the result of `accept`, whatever it is. -/
def addClient (connFd : ℤ) (s : Locals) : Prog posix Locals := do
  let readFds ← fdSet connFd s.readFds
  return { readFds := readFds, maxFd := if connFd > s.maxFd then connFd else s.maxFd }

/-- The branch of a ready listening descriptor. -/
def acceptClient (listenFd : ℤ) (s : Locals) : Prog posix Locals := do
  let r ← accept listenFd
  addClient (countValue r) s

/-- Descriptor `i` is ready: one `read`, then either the end of the connection or the echo. The
buffer is cleared before, and what was read is ended with a NUL. -/
def serve (i : ℤ) (s : Locals) : Prog posix Locals := do
  let r ← read i (Span.whole 1024)
  let ret := readValue r
  let buffer := (Buf.zeros 1024).put 0 (readBytes r)
  if ret = 0 then do
    let _ ← printf (text "Client disconnected\n")
    let _ ← close i
    let readFds ← fdClr i s.readFds
    return { s with readFds := readFds }
  else do
    let buffer ← storeAt buffer ret 0
    let _ ← printf (text "Received message: " ++ CString.str buffer.toList ++ text "\n")
    let _ ← send i (Span.first 1024 ret) buffer
    return s

/-- The loop `for(int i = listen_fd + 1; i <= max_fd; i++)`, with `left` turns to go. -/
def scan (tempFds : FdSet) : (left : ℕ) → (i : ℤ) → Locals → Prog posix Locals
  | 0, _, s => .ret s
  | left + 1, i, s => do
    let ready ← fdIsSet i tempFds
    if ready then do
      let s' ← serve i s
      scan tempFds left (i + 1) s'
    else scan tempFds left (i + 1) s

/-- What a round does once `select` has returned. -/
def handle (listenFd : ℤ) (s : Locals) (sel : Selected) : Prog posix Locals := do
  if sel.value > 0 then do
    let _ ← printf (text "Select returned above zero\n")
    let ready ← fdIsSet listenFd sel.rset
    let s' ← if ready then acceptClient listenFd s else .ret s
    scan sel.rset (s'.maxFd - listenFd).toNat (listenFd + 1) s'
  else return s

/-- One turn of `while(1)`. -/
def round (listenFd : ℤ) (s : Locals) : Prog posix Locals := do
  let sel ← select (s.maxFd + 1) s.readFds FdSet.zero
  handle listenFd s sel

/-- The loop of `main`. -/
def body (listenFd : ℤ) (s : Locals) : Prog posix (Locals ⊕ Empty) := do
  let s' ← round listenFd s
  return .inl s'

/-- The variables when the loop begins. -/
def start (listenFd : ℤ) (h : InRange listenFd) : Locals where
  readFds := FdSet.zero.insert listenFd h
  maxFd := listenFd

/-- `main`, from `FD_ZERO` on. -/
def main (listenFd : ℤ) : Prog posix (Locals ⊕ Empty) := do
  let readFds ← fdSet listenFd FdSet.zero
  return .inl { readFds := readFds, maxFd := listenFd }

theorem main_eq_start {listenFd : ℤ} (h : InRange listenFd) :
    main listenFd = .ret (.inl (start listenFd h)) := by
  simp [main, start, h]

/-- Serving a client on data that leave room for the NUL. -/
theorem serve_eq {i : ℤ} (hi : InRange i) (s : Locals) :
    serve i s = Prog.call (I := posix) (.read i (Span.whole 1024)) fun r =>
      if readValue r = 0 then
        Prog.call (I := posix) (.printf (text "Client disconnected\n")) fun _ =>
          Prog.call (I := posix) (.close i) fun _ => .ret { s with readFds := s.readFds.erase i }
      else storeAt ((Buf.zeros 1024).put 0 (readBytes r)) (readValue r) 0 >>= fun buffer =>
        Prog.call (I := posix)
          (.printf (text "Received message: " ++ CString.str buffer.toList ++ text "\n")) fun _ =>
            Prog.call (I := posix) (.send i (Span.first 1024 (readValue r)) buffer.toList) fun _ =>
              .ret s := by
  rw [serve, fdClr_of_inRange hi]
  rfl

theorem handle_of_mem {listenFd : ℤ} {s : Locals} {sel : Selected} (hl : InRange listenFd)
    (hpos : sel.value > 0) (h : listenFd ∈ sel.rset) :
    handle listenFd s sel = Prog.call (I := posix) (.printf (text "Select returned above zero\n"))
      fun _ => acceptClient listenFd s >>= fun s' =>
        scan sel.rset (s'.maxFd - listenFd).toNat (listenFd + 1) s' := by
  simp [handle, hpos, hl, h]

theorem handle_of_notMem {listenFd : ℤ} {s : Locals} {sel : Selected} (hl : InRange listenFd)
    (hpos : sel.value > 0) (h : listenFd ∉ sel.rset) :
    handle listenFd s sel = Prog.call (I := posix) (.printf (text "Select returned above zero\n"))
      fun _ => scan sel.rset (s.maxFd - listenFd).toNat (listenFd + 1) s := by
  simp [handle, hpos, hl, h]

end ScanServer

end UnixNetwork
