import UnixNetwork.Posix
import UnixNetwork.Encoding.Chunks
import UnixNetwork.Interaction.Live

/-!
# The client that fetches a page

`home_page` of `16/web.c`. It puts its request together with `snprintf` and sends as many bytes as
`snprintf` says there are, also where the array has cut them off. Its loop reads until a read
returns 0, which a read that fails again and again never does.

The `printf` in the loop has no argument for its `%d`. It is modelled as a call without the
argument; what it prints is left open.

## Main definitions

* `HomePage.snprintf`, `HomePage.start`, `HomePage.body`: the program
* `HomePage.Page`, `HomePage.world`: the server
* `HomePage.Fetches`: the request is sent exactly, and the function ends with the stream

## Main results

* `HomePage.wp_start`: what is sent
* `HomePage.wp_turn`: a turn on a stream that ends, and `HomePage.wp_stuck`: on one that does not
* `HomePage.fetches_iff`: when the page is fetched
-/

namespace UnixNetwork

namespace HomePage

open Interaction Encoding

variable {n : ℕ}

/-! ## The program -/

/-- `SERV`. -/
def serv : List Byte := text "80"

/-- `GET_CMD` with this page name in the place of its `%s`. -/
def getCmd (fname : List Byte) : List Byte := text "GET " ++ fname ++ text " HTTP/1.0\r\n\r\n"

/-- The calls of the function. -/
inductive Call where
  | tcpConnect (host service : List Byte)
  | read (fd : ℤ) (dst : Span)
  | write (fd : ℤ) (src : Span) (mem : List Byte)
  | printf (text : List Byte)
  | printfInt (before : List Byte) (arg : Option ℤ) (after : List Byte)
  | close (fd : ℤ)

/-- The result of each call. -/
@[reducible] def Res : Call → Type
  | .tcpConnect .. => ℤ
  | .read .. => Except Errno (List Byte)
  | .write .. => Except Errno ℕ
  | _ => Unit

/-- The interface of the function. -/
abbrev web : Interface := ⟨Call, Res⟩

/-- `snprintf(line, sizeof(line), ...)` where the format makes these bytes: its value, and what is
then in the array. The value is the number of the bytes, also if they do not fit, and -1 if it is no
`int`. -/
def snprintf (line : Buf n) (bytes : List Byte) : ℤ × Buf n :=
  (if bytes.length < 2 ^ 31 then bytes.length else -1, line.put 0 (bytes.take (n - 1) ++ [0]))

/-- The variables that the loop uses. -/
structure Locals where
  /-- The connection. -/
  fd : ℤ
  /-- The buffer. -/
  line : Buf 1024

/-- `home_page(host, fname)` up to the head of the loop. -/
def start (host fname : List Byte) (line : Buf 1024) : Prog web (Locals ⊕ Unit) := do
  let fd ← Prog.perform (I := web) (.tcpConnect host serv)
  let (n, line) := snprintf line (getCmd fname)
  let _ ← Prog.perform (I := web) (.write fd (Span.first 1024 n) line.toList)
  return .inl ⟨fd, line⟩

/-- One turn of the loop, and what follows it once it is left. -/
def body (s : Locals) : Prog web (Locals ⊕ Unit) := do
  let r ← Prog.perform (I := web) (.read s.fd (Span.whole 1024))
  let line := s.line.put 0 (readBytes r)
  if readValue r = 0 then do
    let _ ← Prog.perform (I := web) (.printf (text "end - of file on home page\n"))
    let _ ← Prog.perform (I := web) (.close s.fd)
    return .inr ()
  else do
    let _ ← Prog.perform (I := web) (.printfInt (text "read ") none (text " bytes\n"))
    return .inl ⟨s.fd, line⟩

/-! ## The server -/

/-- A connection: what it will bring, and what has been done with it. -/
structure Page where
  /-- The chunks that the reads to come will return. -/
  reads : List (List Byte)
  /-- How many reads have found that there are no more. -/
  ended : ℕ
  /-- What each write has sent. -/
  sent : List (List Byte)
  /-- The descriptors that have been closed. -/
  closed : List ℤ

section World

variable (fd : ℤ) (last : Except Errno Unit)

/-- What a read returns: the next chunk, and after the last one always the same, the end of the
stream or an error. -/
def nextRead (chunks : List (List Byte)) : Except Errno (List Byte) :=
  match chunks, last with
  | bs :: _, _ => .ok bs
  | [], .ok () => .ok []
  | [], .error e => .error e

/-- What the calls return. `tcp_connect` returns the connection, and writes are complete. -/
def Allows (w : Page) : (c : Call) → Res c → Prop
  | .tcpConnect .., r => r = fd
  | .read x _, r => x = fd ∧ r = nextRead last w.reads
  | .write x src _, r => x = fd ∧ r = .ok src.len.toNat
  | _, _ => True

/-- The connection after a call. -/
def next (w : Page) : (c : Call) → Res c → Page
  | .read .., _ => { w with
      reads := w.reads.tail
      ended := if w.reads = [] then w.ended + 1 else w.ended }
  | .write _ src mem, _ => { w with sent := w.sent ++ [src.bytes mem] }
  | .close x, _ => { w with closed := w.closed ++ [x] }
  | _, _ => w

/-- The surroundings of the function. -/
def world : World web Page := ⟨Allows fd last, next⟩

variable (host fname : List Byte) (line : Buf 1024) (chunks : List (List Byte))

/-- A run of the function; `line` is not initialised. -/
abbrev Run : Prog web (Locals ⊕ Unit) × Page → Prop :=
  Reach (world fd last) body (start host fname line, ⟨chunks, 0, [], []⟩)

end World

/-- The call stays inside the array it is handed. -/
def InBounds : Call → Prop
  | .read _ dst => dst.InBounds
  | .write _ src _ => src.InBounds
  | _ => True

/-- The page is fetched: the request is sent exactly, and the function ends with the stream. -/
structure Fetches (fd : ℤ) (last : Except Errno Unit) (host fname : List Byte) (line : Buf 1024)
    (chunks : List (List Byte)) : Prop where
  /-- No byte comes from outside the array. -/
  safe : ∀ p w, Run fd last host fname line chunks (p, w) → p.Within InBounds
  /-- The function can return at any time. -/
  returns : ∀ p w, Run fd last host fname line chunks (p, w) →
    ∃ w', Reach (world fd last) body (p, w) (.ret (.inr ()), w')
  /-- When it returns it has sent the request in one piece, read the stream up to its end and not
  beyond, and closed the connection. -/
  done : ∀ w, Run fd last host fname line chunks (.ret (.inr ()), w) →
    w = ⟨[], 1, [getCmd fname], [fd]⟩

/-! ## The request -/

theorem length_getCmd (fname : List Byte) : (getCmd fname).length = fname.length + 17 := by
  have h₁ : (text "GET ").length = 4 := by decide
  have h₂ : (text " HTTP/1.0\r\n\r\n").length = 13 := by decide
  rw [getCmd, List.length_append, List.length_append, h₁, h₂]
  omega

/-- What the function writes. -/
theorem exists_start_eq (host fname : List Byte) (line : Buf 1024) :
    ∃ (n : ℤ) (line' : Buf 1024), snprintf line (getCmd fname) = (n, line') ∧
      start host fname line = Prog.call (I := web) (.tcpConnect host serv) fun fd =>
        Prog.call (I := web) (.write fd (Span.first 1024 n) line'.toList) fun _ =>
          .ret (.inl ⟨fd, line'⟩) := by
  generalize hx : snprintf line (getCmd fname) = x
  refine ⟨x.1, x.2, rfl, ?_⟩
  rw [start, hx]
  rfl

/-- A request that fits into the array is what is written. -/
theorem snprintf_of_le {fname : List Byte} (h : fname.length ≤ 1006) (line : Buf 1024) :
    ∃ line', snprintf line (getCmd fname) = (((getCmd fname).length : ℤ), line') ∧
      (Span.first 1024 (getCmd fname).length).bytes line'.toList = getCmd fname := by
  have hlen := length_getCmd fname
  refine ⟨line.put 0 ((getCmd fname).take 1023 ++ [0]), ?_, ?_⟩
  · rw [snprintf, if_pos (by omega)]
  · rw [List.take_of_length_le (by omega), Buf.toList_put_line (by omega), Span.bytes_first_append]

/-- A longer one is not: either bytes behind the array are written, or the last one is a NUL. -/
theorem snprintf_of_lt {fname : List Byte} (h : 1006 < fname.length) (line : Buf 1024) :
    (Span.first 1024 (snprintf line (getCmd fname)).1).InBounds →
      (Span.first 1024 (snprintf line (getCmd fname)).1).bytes
        (snprintf line (getCmd fname)).2.toList ≠ getCmd fname := by
  have hlen := length_getCmd fname
  rw [snprintf]
  dsimp only
  split
  · rintro ⟨-, -, hle⟩ heq
    have h1024 : (getCmd fname).length = 1024 := by
      simp only [Span.first] at hle
      omega
    have hcut : ((getCmd fname).take 1023 ++ [0]).length = 1024 := by
      rw [List.length_append, List.length_take, h1024]
      rfl
    have hwritten : getCmd fname = (getCmd fname).take 1023 ++ [0] := by
      refine heq.symm.trans (Eq.trans ?_ (Span.bytes_first_put (b := line) hcut.le))
      rw [h1024, hcut]
    have hlast : (getCmd fname).getLast? = some 10 := by
      have htext : text " HTTP/1.0\r\n\r\n" = text " HTTP/1.0\r\n\r" ++ [10] := by decide
      rw [getCmd, htext, ← List.append_assoc, List.getLast?_concat]
    rw [hwritten, List.getLast?_concat] at hlast
    exact absurd hlast (by decide)
  · rintro ⟨-, hneg, -⟩
    exact absurd hneg (by decide)

/-! ## A turn -/

section Turn

variable {fd : ℤ} {last : Except Errno Unit} {out : List Byte}

/-- The calls of a turn. -/
theorem exists_body_eq (s : Locals) : ∃ k : Except Errno (List Byte) → _,
    body s = Prog.call (I := web) (.read s.fd (Span.whole 1024)) k ∧
    k (.ok []) = (Prog.call (I := web) (.printf (text "end - of file on home page\n")) fun _ =>
      Prog.call (I := web) (.close s.fd) fun _ => .ret (.inr ())) ∧
    ∀ r, readValue r ≠ 0 → ∃ line, k r = Prog.call (I := web)
      (.printfInt (text "read ") none (text " bytes\n")) fun _ => .ret (.inl ⟨s.fd, line⟩) := by
  rw [body, Prog.perform_bind]
  refine ⟨_, rfl, rfl, fun r hr => ⟨s.line.put 0 (readBytes r), ?_⟩⟩
  dsimp only
  rw [if_neg hr]
  rfl

/-- At the head of the loop: the bytes `out` have been written, and the stream has not ended. -/
structure Inv (fd : ℤ) (out : List Byte) (s : Locals) (w : Page) : Prop where
  /-- The connection. -/
  fd : s.fd = fd
  /-- What has been written. -/
  sent : w.sent = [out]
  /-- No read has found the end. -/
  ended : w.ended = 0
  /-- Nothing has been closed. -/
  closed : w.closed = []
  /-- No chunk to come looks like the end. -/
  reads : ∀ bs ∈ w.reads, bs ≠ []

/-- A turn that reads a chunk. -/
theorem Inv.tail {s : Locals} {bs : List Byte} {w : Page} (hw : Inv fd out s w)
    (hreads : w.reads = bs :: w.reads.tail) (line : Buf 1024) :
    Inv fd out ⟨s.fd, line⟩ (next w (.read s.fd (Span.whole 1024)) (.ok bs)) := by
  have hne : w.reads ≠ [] := hreads ▸ List.cons_ne_nil _ _
  refine ⟨hw.fd, hw.sent, ?_, hw.closed, fun bs' hbs' => hw.reads bs' (List.mem_of_mem_tail hbs')⟩
  show (if w.reads = [] then w.ended + 1 else w.ended) = 0
  rw [if_neg hne, hw.ended]

/-- **A turn** on a stream that ends. -/
theorem wp_turn (s : Locals) (w : Page) (hw : Inv fd out s w) :
    wp (world fd (.ok ())) (Guard.within (world fd (.ok ())) InBounds) (body s)
      (Sum.elim (fun s' w' => Inv fd out s' w' ∧ w'.reads.length < w.reads.length)
        fun _ w' => w' = ⟨[], 1, [out], [fd]⟩) w := by
  obtain ⟨k, hbody, hend, hchunk⟩ := exists_body_eq s
  have hspan : (Span.whole 1024).InBounds := by decide
  rw [hbody]
  refine ⟨⟨hspan, _, hw.fd, rfl⟩, ?_⟩
  rintro r ⟨-, rfl⟩
  cases hreads : w.reads with
  | nil =>
    rw [nextRead, hend]
    refine ⟨⟨trivial, (), trivial⟩, fun _ _ => ⟨⟨trivial, (), trivial⟩, fun _ _ => ?_⟩⟩
    show (⟨w.reads.tail, if w.reads = [] then w.ended + 1 else w.ended, w.sent,
      w.closed ++ [s.fd]⟩ : Page) = _
    rw [if_pos hreads, hreads, hw.ended, hw.sent, hw.closed, hw.fd]
    rfl
  | cons bs reads =>
    have hne : bs ≠ [] := hw.reads bs (hreads ▸ List.mem_cons_self)
    obtain ⟨line, hk⟩ := hchunk (.ok bs) (mt readValue_ok_eq_zero.mp hne)
    rw [nextRead, hk]
    refine ⟨⟨trivial, (), trivial⟩, fun _ _ => ⟨hw.tail (by rw [hreads]; rfl) line, ?_⟩⟩
    show w.reads.tail.length < (bs :: reads).length
    rw [hreads]
    exact Nat.lt_succ_self _

/-- A stream that ends is read to its end. -/
theorem reach_left {s : Locals} {w : Page} (hw : Inv fd out s w) :
    Reach (world fd (.ok ())) body (.ret (.inl s), w) (.ret (.inr ()), ⟨[], 1, [out], [fd]⟩) := by
  obtain ⟨_, w', h, rfl⟩ := (Guard.live_within (world fd (.ok ())) InBounds).exists_done
    (μ := fun _ w => w.reads.length) (fun s w hw => wp_turn s w hw) hw
  exact h

/-- A turn on a stream that fails. -/
theorem wp_stuck (fd : ℤ) (e : Errno) (s : Locals) (w : Page) (hw : ∀ bs ∈ w.reads, bs ≠ []) :
    wp (world fd (.error e)) Guard.none (body s)
      (Sum.elim (fun _ w' => ∀ bs ∈ w'.reads, bs ≠ []) fun _ _ => False) w := by
  obtain ⟨k, hbody, -, hchunk⟩ := exists_body_eq s
  rw [hbody]
  refine ⟨trivial, ?_⟩
  rintro r ⟨-, rfl⟩
  have hvalue : readValue (nextRead (.error e) w.reads) ≠ 0 := by
    cases hreads : w.reads with
    | nil => exact (by decide : (-1 : ℤ) ≠ 0)
    | cons bs reads => exact mt readValue_ok_eq_zero.mp (hw bs (hreads ▸ List.mem_cons_self))
  obtain ⟨line, hk⟩ := hchunk _ hvalue
  rw [hk]
  exact ⟨trivial, fun _ _ bs hbs => hw bs (List.mem_of_mem_tail hbs)⟩

end Turn

/-! ## The whole function -/

section Function

variable (fd : ℤ) (last : Except Errno Unit) (host fname : List Byte) (line : Buf 1024)
  {chunks : List (List Byte)}

/-- A request that fits into the array is sent as it is. -/
theorem wp_start {fname : List Byte} (h : fname.length ≤ 1006) (hchunks : ∀ bs ∈ chunks, bs ≠ []) :
    wp (world fd last) (Guard.within (world fd last) InBounds) (start host fname line)
      (Sum.elim (Inv fd (getCmd fname)) fun _ w' => w' = ⟨[], 1, [getCmd fname], [fd]⟩)
      ⟨chunks, 0, [], []⟩ := by
  obtain ⟨n, line', hn, hstart⟩ := exists_start_eq host fname line
  obtain ⟨line'', hfits, hbytes⟩ := snprintf_of_le h line
  obtain ⟨rfl, rfl⟩ := Prod.mk.inj (hn.symm.trans hfits)
  have hspan : (Span.first 1024 (getCmd fname).length).InBounds :=
    Span.inBounds_first (by rw [length_getCmd]; omega)
  rw [hstart]
  refine ⟨⟨trivial, fd, rfl⟩, ?_⟩
  rintro _ rfl
  refine ⟨⟨hspan, _, rfl, rfl⟩, fun _ _ => ⟨rfl, ?_, rfl, rfl, hchunks⟩⟩
  exact congrArg (fun bs => [bs]) hbytes

/-- The head of the loop is reached, with what has been written. -/
theorem exists_reach_head (chunks : List (List Byte)) : ∃ n line',
    snprintf line (getCmd fname) = (n, line') ∧
    (∃ k, Run fd last host fname line chunks
      (Prog.call (I := web) (.write fd (Span.first 1024 n) line'.toList) k, ⟨chunks, 0, [], []⟩)) ∧
    Run fd last host fname line chunks
      (.ret (.inl ⟨fd, line'⟩), ⟨chunks, 0, [(Span.first 1024 n).bytes line'.toList], []⟩) := by
  obtain ⟨n, line', hn, hstart⟩ := exists_start_eq host fname line
  have hconnect : Run fd last host fname line chunks
      (Prog.call (I := web) (.write fd (Span.first 1024 n) line'.toList)
        fun _ => .ret (.inl ⟨fd, line'⟩), ⟨chunks, 0, [], []⟩) := by
    rw [Run, hstart]
    exact .single (.call (I := web) (c := .tcpConnect host serv) (r := fd) rfl)
  exact ⟨n, line', hn, ⟨_, hconnect⟩,
    hconnect.tail (.call (I := web) (c := .write ..) (r := .ok _) ⟨rfl, rfl⟩)⟩

/-- **The page is fetched** if and only if its name has at most 1006 bytes and the stream ends
without an error. -/
theorem fetches_iff {s : List Byte} (hcs : Cutting 1024 s chunks) :
    Fetches fd last host fname line chunks ↔ fname.length ≤ 1006 ∧ last = .ok () := by
  have hchunks : ∀ bs ∈ chunks, bs ≠ [] := fun bs hbs =>
    List.length_pos_iff.mp (hcs.length bs hbs).1
  constructor
  · intro h
    obtain ⟨n, line', hn, ⟨k, hwrite⟩, hhead⟩ := exists_reach_head fd last host fname line chunks
    rcases last with e | ⟨⟩
    · obtain ⟨w', hleft⟩ := h.returns _ _ hhead
      exact (Reach.wp (wp_stuck fd e) hleft hchunks : False).elim
    · refine ⟨?_, rfl⟩
      by_contra hlt
      have hin : (Span.first 1024 n).InBounds := h.safe _ _ hwrite
      have hdone := h.done _ (hhead.trans (reach_left ⟨rfl, rfl, rfl, rfl, hchunks⟩))
      have hsent := snprintf_of_lt (Nat.lt_of_not_le hlt) line
      rw [hn] at hsent
      exact hsent hin (List.cons.inj (Page.mk.inj hdone).2.2.1).1
  · rintro ⟨hlen, rfl⟩
    have hstart := wp_start fd (.ok ()) host line hlen hchunks
    have hwp : ∀ p w, Run fd (.ok ()) host fname line chunks (p, w) →
        wp (world fd (.ok ())) (Guard.within (world fd (.ok ())) InBounds) p
          (Sum.elim (Inv fd (getCmd fname)) fun _ w' => w' = ⟨[], 1, [getCmd fname], [fd]⟩) w :=
      fun p w hrun => Reach.wp_of_lt (μ := fun _ w => w.reads.length)
        (fun s w hw => wp_turn s w hw) hrun hstart
    refine ⟨fun p w hrun => Prog.within_of_wp (hwp p w hrun), fun p w hrun => ?_,
      fun w hrun => hwp _ w hrun⟩
    obtain ⟨_, w', hleft, -⟩ := (Guard.live_within (world fd (.ok ())) InBounds).returns_of_wp
      (μ := fun _ w => w.reads.length) (fun s w hw => wp_turn s w hw) hstart hrun
    exact ⟨w', hleft⟩

theorem fetches_iff_index :
    Fetches 3 (.ok ()) (text "host") (text "/index.html") (Buf.zeros 1024) [text "hello"] ↔
      (text "/index.html").length ≤ 1006 ∧ (.ok () : Except Errno Unit) = .ok () :=
  fetches_iff 3 (.ok ()) (text "host") (text "/index.html") (Buf.zeros 1024)
    (cutting_singleton (s := text "hello") (by decide))

end Function

/-- A connection that has been reset. -/
theorem not_fetches_reset : ¬ Fetches 3 (.error (.other 104)) (text "host") (text "/index.html")
    (Buf.zeros 1024) [] := by
  intro h
  obtain ⟨n, line', -, -, hhead⟩ := exists_reach_head 3 (.error (.other 104)) (text "host")
    (text "/index.html") (Buf.zeros 1024) []
  obtain ⟨w', hleft⟩ := h.returns _ _ hhead
  exact Reach.wp (wp_stuck 3 (.other 104)) hleft fun bs hbs => absurd hbs List.not_mem_nil

end HomePage

end UnixNetwork
