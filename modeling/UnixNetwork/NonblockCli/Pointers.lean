import UnixNetwork.NonblockCli
import UnixNetwork.Interaction.World

/-!
# The pointers of the client with non-blocking calls

The two buffers of `str_cli` are meant to conserve bytes: what has been written to one end of a
direction and what lies between its two pointers is what has been read at the other end. This
module says exactly when they do. Data that is read is stored but the pointer behind it is not
moved, because the branch that moves it is attached to `errno != EWOULDBLOCK`; a read that fails
with `EWOULDBLOCK` takes that branch and moves the pointer one byte back. So the books balance at a
head of the loop if and only if every read before it has returned 0.

`sockfd` may be any number, `select` may leave any part of the sets it is handed, reads and writes
may be short or fail.

## Main definitions

* `NonblockCli.Traffic`, `NonblockCli.world`: what has been read and written, and the surroundings
* `NonblockCli.Conserved`: the pointers are in order and no byte is lost
* `NonblockCli.Inv`: what the loop keeps

## Main results

* `wp_fromStdin`, `wp_fromSocket`, `wp_body`: each part of a turn keeps the invariant
* `conserved_iff_quiet`: when bytes are conserved
-/

namespace UnixNetwork

namespace NonblockCli

open Interaction

variable {maxline : ℕ}

/-! ## The surroundings -/

/-- What has gone over the four descriptors. -/
structure Traffic where
  /-- The results of the reads from the standard input, in order. -/
  stdin : List (Except Errno (List Byte))
  /-- The results of the reads from the socket, in order. -/
  sock : List (Except Errno (List Byte))
  /-- The bytes written to the socket. -/
  toSock : List Byte
  /-- The bytes written to the standard output. -/
  toStdout : List Byte

namespace Traffic

/-- Nothing has happened. -/
def start : Traffic := ⟨[], [], [], []⟩

/-- What has happened once a call has returned. -/
def next (sockfd : ℤ) (w : Traffic) : (c : Call) → Res c → Traffic
  | .read fd _, r =>
    { w with
      stdin := if fd = stdinFileno then w.stdin ++ [r] else w.stdin
      sock := if fd = sockfd then w.sock ++ [r] else w.sock }
  | .write fd src mem, r =>
    { w with
      toSock := if fd = sockfd then w.toSock ++ taken (src.bytes mem) r else w.toSock
      toStdout := if fd = stdoutFileno then w.toStdout ++ taken (src.bytes mem) r else w.toStdout }
  | _, _ => w

/-- Every read has returned 0: no data and no `EWOULDBLOCK`. -/
def Quiet (w : Traffic) : Prop := ∀ r ∈ w.stdin ++ w.sock, r = .ok []

end Traffic

/-- What the surroundings may return: `select` any part of the sets it is handed, a read no more
bytes than it was asked for, a write no more than it was given, and each of them any error. -/
def Allows : (c : Call) → Res c → Prop
  | .select _ rset wset, sel => (∀ fd ∈ sel.rset, fd ∈ rset) ∧ ∀ fd ∈ sel.wset, fd ∈ wset
  | .read _ dst, r => ∀ bs, r = .ok bs → (bs.length : ℤ) ≤ dst.len
  | .write _ src _, r => ∀ n, r = .ok n → (n : ℤ) ≤ src.len
  | _, _ => True

/-- The surroundings of the client on the socket `sockfd`. -/
def world (sockfd : ℤ) : World posix Traffic := ⟨fun _ => Allows, Traffic.next sockfd⟩

/-- What lies between the two pointers of a buffer. -/
def pending (b : Buf maxline) (optr iptr : ℤ) : List Byte := b.slice optr.toNat (iptr - optr).toNat

/-- The pointers are in order, and every byte read has been written or lies between them. -/
structure Conserved (s : Locals maxline) (w : Traffic) : Prop where
  /-- The pointers into `to`. -/
  to_le : 0 ≤ s.tooptr ∧ s.tooptr ≤ s.toiptr ∧ s.toiptr ≤ maxline
  /-- The pointers into `from`. -/
  from_le : 0 ≤ s.fromoptr ∧ s.fromoptr ≤ s.fromiptr ∧ s.fromiptr ≤ maxline
  /-- The bytes from the standard input to the socket. -/
  upload : w.toSock ++ pending s.toBuf s.tooptr s.toiptr = w.stdin.flatMap readBytes
  /-- The bytes from the socket to the standard output. -/
  download : w.toStdout ++ pending s.fromBuf s.fromoptr s.fromiptr = w.sock.flatMap readBytes

/-- The range a call is given lies in its buffer. -/
def SpanOk : Call → Prop
  | .read _ dst => dst.InBounds
  | .write _ src _ => src.InBounds
  | _ => True

/-- What is asked of the client on its way: no call of `write` or `shutdown` at all, and proper
ranges as long as every read has returned 0. Its behaviour may be undefined. -/
def guard : Guard posix Traffic where
  Call w c := (w.Quiet → SpanOk c) ∧ match c with
    | .write .. => False
    | .shutdownWr _ => False
    | _ => True
  Fault _ := True

/-! ## The invariant -/

/-- The invariant of the loop. -/
structure Inv (s : Locals maxline) (w : Traffic) : Prop where
  /-- The end of the standard input is never noticed. -/
  stdineof : s.stdineof = false
  /-- The pointers for output stay where they are. -/
  tooptr : s.tooptr = 0
  /-- The pointers for output stay where they are. -/
  fromoptr : s.fromoptr = 0
  /-- The pointer for what comes from the standard input only moves back. -/
  toiptr : s.toiptr ≤ 0
  /-- The pointer for what comes from the socket only moves back. -/
  fromiptr : s.fromiptr ≤ 0
  /-- The pointers move when a read fails with `EWOULDBLOCK`, and only then. -/
  unmoved : s.toiptr = 0 ∧ s.fromiptr = 0 ↔ ∀ r ∈ w.stdin ++ w.sock, wouldBlock r = false
  /-- No other failure is survived. -/
  failed : ∀ r ∈ w.stdin ++ w.sock, ∀ e, r = .error e → wouldBlock r = true
  /-- Nothing is written to the socket. -/
  sent : w.toSock = []
  /-- Nothing is written to the standard output. -/
  shown : w.toStdout = []

theorem inv_start (toBuf fromBuf : Buf maxline) : Inv (start toBuf fromBuf) Traffic.start where
  stdineof := rfl
  tooptr := rfl
  fromoptr := rfl
  toiptr := le_rfl
  fromiptr := le_rfl
  unmoved := by simp [start, Traffic.start]
  failed := by simp [Traffic.start]
  sent := rfl
  shown := rfl

/-- The reads that have been made, once one more has been made from either descriptor. -/
theorem mem_next_read {sockfd fd : ℤ} {w : Traffic} {dst : Span} {r : Res (.read fd dst)}
    (hfd : fd = stdinFileno ∨ fd = sockfd) {x : Except Errno (List Byte)} :
    x ∈ (w.next sockfd (.read fd dst) r).stdin ++ (w.next sockfd (.read fd dst) r).sock ↔
      x ∈ w.stdin ++ w.sock ∨ x = r := by
  simp only [Traffic.next, List.mem_append]
  by_cases h₁ : fd = stdinFileno <;> by_cases h₂ : fd = sockfd
  · simp only [if_pos h₁, if_pos h₂, List.mem_append, List.mem_singleton]
    tauto
  · simp only [if_pos h₁, if_neg h₂, List.mem_append, List.mem_singleton]
    tauto
  · simp only [if_neg h₁, if_pos h₂, List.mem_append, List.mem_singleton]
    tauto
  · exact absurd hfd (not_or.mpr ⟨h₁, h₂⟩)

namespace Inv

variable {s : Locals maxline} {w : Traffic} {sockfd fd : ℤ} {dst : Span}

/-- Only the pointers and `stdineof` matter. -/
theorem with_buf (h : Inv s w) (toBuf fromBuf : Buf maxline) :
    Inv { s with toBuf := toBuf, fromBuf := fromBuf } w :=
  ⟨h.stdineof, h.tooptr, h.fromoptr, h.toiptr, h.fromiptr, h.unmoved, h.failed, h.sent,
    h.shown⟩

/-- A read that has stored data, or found the end, moves no pointer. -/
theorem read_ok (h : Inv s w) (hfd : fd = stdinFileno ∨ fd = sockfd) (bs : List Byte) :
    Inv s (w.next sockfd (.read fd dst) (.ok bs)) where
  stdineof := h.stdineof
  tooptr := h.tooptr
  fromoptr := h.fromoptr
  toiptr := h.toiptr
  fromiptr := h.fromiptr
  unmoved := by
    rw [h.unmoved]
    constructor
    · intro hall r hr
      rcases (mem_next_read hfd).mp hr with hr | rfl
      · exact hall r hr
      · rfl
    · intro hall r hr
      exact hall r ((mem_next_read hfd).mpr (.inl hr))
  failed := by
    intro r hr e he
    rcases (mem_next_read hfd).mp hr with hr | rfl
    · exact h.failed r hr e he
    · cases he
  sent := h.sent
  shown := h.shown

/-- A read that has failed with `EWOULDBLOCK` moves a pointer back. -/
theorem read_wouldBlock (h : Inv s w) (hfd : fd = stdinFileno ∨ fd = sockfd) {ti fi : ℤ}
    (hti : ti ≤ s.toiptr) (hfi : fi ≤ s.fromiptr) (hlt : ti + fi < s.toiptr + s.fromiptr) :
    Inv { s with toiptr := ti, fromiptr := fi }
      (w.next sockfd (.read fd dst) (.error .ewouldblock)) where
  stdineof := h.stdineof
  tooptr := h.tooptr
  fromoptr := h.fromoptr
  toiptr := hti.trans h.toiptr
  fromiptr := hfi.trans h.fromiptr
  unmoved := by
    have ht := h.toiptr
    have hf := h.fromiptr
    constructor
    · intro hz
      change ti = 0 ∧ fi = 0 at hz
      omega
    · intro hall
      have hlast := hall (.error .ewouldblock) ((mem_next_read hfd).mpr (.inr rfl))
      cases hlast
  failed := by
    intro r hr e he
    rcases (mem_next_read hfd).mp hr with hr | rfl
    · exact h.failed r hr e he
    · rfl
  sent := h.sent
  shown := h.shown

/-- If every read has returned 0, no pointer has moved. -/
theorem unmoved_of_quiet (h : Inv s w) (hq : w.Quiet) : s.toiptr = 0 ∧ s.fromiptr = 0 :=
  h.unmoved.mpr fun r hr => by rw [hq r hr]; rfl

/-- If no read has stored data or failed with `EWOULDBLOCK`, every read has returned 0. -/
theorem quiet_of_unmoved (h : Inv s w) (hz : s.toiptr = 0 ∧ s.fromiptr = 0)
    (hdata : ∀ r ∈ w.stdin ++ w.sock, readBytes r = []) : w.Quiet := by
  intro r hr
  cases r with
  | ok bs =>
    have hbs : bs = [] := hdata _ hr
    rw [hbs]
  | error e =>
    have hnot := h.unmoved.mp hz _ hr
    rw [h.failed _ hr e rfl] at hnot
    cases hnot

/-- **When bytes are conserved** in a state that satisfies the invariant. -/
theorem conserved_iff (h : Inv s w) : Conserved s w ↔ w.Quiet := by
  have hti := h.toiptr
  have hfi := h.fromiptr
  constructor
  · intro hc
    have hz : s.toiptr = 0 ∧ s.fromiptr = 0 := by
      have := hc.to_le
      have := hc.from_le
      omega
    refine h.quiet_of_unmoved hz ?_
    intro r hr
    have hup := hc.upload
    have hdown := hc.download
    rw [h.sent, h.tooptr, hz.1, List.nil_append] at hup
    rw [h.shown, h.fromoptr, hz.2, List.nil_append] at hdown
    rcases List.mem_append.mp hr with hr | hr
    · exact List.flatMap_eq_nil_iff.mp hup.symm r hr
    · exact List.flatMap_eq_nil_iff.mp hdown.symm r hr
  · intro hq
    obtain ⟨hti0, hfi0⟩ := h.unmoved_of_quiet hq
    have hnil : ∀ l : List (Except Errno (List Byte)), (∀ r ∈ l, r ∈ w.stdin ++ w.sock) →
        l.flatMap readBytes = [] := by
      intro l hl
      refine List.flatMap_eq_nil_iff.mpr ?_
      intro r hr
      rw [hq r (hl r hr)]
      rfl
    refine ⟨?_, ?_, ?_, ?_⟩
    · rw [h.tooptr, hti0]
      exact ⟨le_rfl, le_rfl, Int.natCast_nonneg _⟩
    · rw [h.fromoptr, hfi0]
      exact ⟨le_rfl, le_rfl, Int.natCast_nonneg _⟩
    · rw [h.sent, h.tooptr, hti0, hnil _ fun r hr => List.mem_append_left _ hr]
      rfl
    · rw [h.shown, h.fromoptr, hfi0, hnil _ fun r hr => List.mem_append_right _ hr]
      rfl

/-! ## The parts of a turn -/

/-- What a part without calls leaves does not matter, and it may be undefined. -/
theorem wp_silent {α β : Type} {p : Prog posix α} (hp : p.Silent) {f : α → Prog posix β}
    {Q : β → Traffic → Prop} (hf : ∀ a, wp (world sockfd) guard (f a) Q w) :
    wp (world sockfd) guard (p >>= f) Q w := hp.wp_bind trivial hf

theorem wp_watch (h : Inv s w) :
    wp (world sockfd) guard (watch sockfd s) (fun _ => Inv s) w := by
  rw [watch]
  refine wp_silent (silent_fdSetIf _ _ _) fun S₁ => wp_silent (silent_fdSetIf _ _ _) fun S₂ => ?_
  refine wp_silent (silent_fdSetIf _ _ _) fun S₃ => wp_silent (silent_fdSetIf _ _ _) fun S₄ => ?_
  exact ⟨⟨fun _ => trivial, trivial⟩, fun sel _ => h⟩

/-- A line on the standard error changes nothing. -/
theorem wp_log {β : Type} {line : List Byte → List Byte} {p : Prog posix β}
    {Q : β → Traffic → Prop} (hp : wp (world sockfd) guard p Q w) :
    wp (world sockfd) guard (time >>= fun now => eprintf (line now) >>= fun _ => p) Q w :=
  ⟨⟨fun _ => trivial, trivial⟩, fun _ _ => ⟨⟨fun _ => trivial, trivial⟩, fun _ _ => hp⟩⟩

theorem wouldBlock_error {e : Errno} :
    wouldBlock (.error e : Except Errno (List Byte)) = true ↔ e = .ewouldblock := by
  cases e <;> simp [wouldBlock]

/-- A part of a turn that goes on keeps the invariant. -/
def Kept (x : (Locals maxline × FdSet) ⊕ Exit) (w : Traffic) : Prop :=
  ∀ s wset, x = .inl (s, wset) → Inv s w

theorem kept_inl {S : FdSet} (h : Inv s w) : Kept (.inl (s, S)) w := by
  intro s' S' he
  cases he
  exact h

theorem kept_inr (e : Exit) : Kept (.inr e : (Locals maxline × FdSet) ⊕ Exit) w := by
  intro s' S' he
  cases he

theorem wp_fromStdin (h : Inv s w) (rset wset : FdSet) :
    wp (world sockfd) guard (fromStdin sockfd rset wset s) Kept w := by
  rw [fromStdin]
  refine wp_silent (silent_fdIsSet _ _) ?_
  intro ready
  cases ready with
  | false => exact kept_inl h
  | true =>
    rw [if_pos rfl, read_bind, wp_call]
    refine ⟨⟨fun hq => ?_, trivial⟩, fun r _ => wp_silent (Buf.silent_storeBytes _ _ _) fun b => ?_⟩
    · have := (h.unmoved_of_quiet hq).1
      simp [SpanOk, Span.InBounds, this]
    · cases r with
      | ok bs =>
        rw [readValue_ok, if_neg (Int.not_lt.mpr (Int.natCast_nonneg _))]
        exact kept_inl ((h.read_ok (.inl rfl) bs).with_buf b s.fromBuf)
      | error e =>
        rw [readValue_error, if_pos (by decide)]
        split
        · exact kept_inr _
        · rename_i hwb
          obtain rfl := wouldBlock_error.mp (Bool.not_eq_false _ ▸ hwb)
          -- `n` is -1 here, and it is added to the pointer
          rw [if_neg (by decide)]
          refine wp_log (wp_silent (silent_fdSet _ _) fun S => kept_inl ?_)
          refine (h.read_wouldBlock (.inl rfl) ?_ le_rfl ?_).with_buf b s.fromBuf
          · show s.toiptr + -1 ≤ s.toiptr
            omega
          · show s.toiptr + -1 + s.fromiptr < s.toiptr + s.fromiptr
            omega

theorem wp_fromSocket (h : Inv s w) (rset wset : FdSet) :
    wp (world sockfd) guard (fromSocket sockfd rset wset s) Kept w := by
  rw [fromSocket]
  refine wp_silent (silent_fdIsSet _ _) ?_
  intro ready
  cases ready with
  | false => exact kept_inl h
  | true =>
    rw [if_pos rfl, read_bind, wp_call]
    refine ⟨⟨fun hq => ?_, trivial⟩, fun r _ => wp_silent (Buf.silent_storeBytes _ _ _) fun b => ?_⟩
    · have := (h.unmoved_of_quiet hq).2
      simp [SpanOk, Span.InBounds, this]
    · cases r with
      | ok bs =>
        rw [readValue_ok, if_neg (Int.not_lt.mpr (Int.natCast_nonneg _))]
        exact kept_inl ((h.read_ok (.inr rfl) bs).with_buf s.toBuf b)
      | error e =>
        rw [readValue_error, if_pos (by decide)]
        split
        · exact kept_inr _
        · rename_i hwb
          obtain rfl := wouldBlock_error.mp (Bool.not_eq_false _ ▸ hwb)
          rw [if_neg (by decide)]
          refine wp_log (wp_silent (silent_fdSet _ _) fun S => kept_inl ?_)
          refine (h.read_wouldBlock (.inr rfl) le_rfl ?_ ?_).with_buf s.toBuf b
          · show s.fromiptr + -1 ≤ s.fromiptr
            omega
          · show s.toiptr + (s.fromiptr + -1) < s.toiptr + s.fromiptr
            omega

/-- There is never anything to write. -/
theorem not_pending (h : Inv s w) (ready : Bool) :
    ¬ (ready = true ∧ s.toiptr - s.tooptr > 0) := by
  rintro ⟨-, hn⟩
  have := h.toiptr
  have := h.tooptr
  omega

theorem wp_toStdout (h : Inv s w) (wset : FdSet) :
    wp (world sockfd) guard (toStdout sockfd wset s) (fun x w' => x = .inl (s, true) ∧ w' = w)
      w := by
  rw [toStdout]
  refine wp_silent (silent_fdIsSet _ _) ?_
  intro ready
  rw [if_neg (h.not_pending ready)]
  exact ⟨rfl, rfl⟩

theorem wp_toSocket (h : Inv s w) (wset : FdSet) :
    wp (world sockfd) guard (toSocket sockfd wset s) (fun x w' => x = .inl s ∧ w' = w) w := by
  rw [toSocket]
  refine wp_silent (silent_fdIsSet _ _) ?_
  intro ready
  rw [if_neg (h.not_pending ready)]
  exact ⟨rfl, rfl⟩

/-- **A turn** keeps the invariant, with proper calls on the way. -/
theorem wp_body (h : Inv s w) :
    wp (world sockfd) guard (body sockfd s) (Sum.elim Inv fun _ _ => True) w := by
  rw [body, wp_bind]
  refine wp_mono ?_ h.wp_watch
  intro sel w₁ h₁
  rw [handle]
  split
  · trivial
  · rw [wp_bind]
    refine wp_mono ?_ (h₁.wp_fromStdin sel.rset sel.wset)
    intro x w₂ hx
    rcases x with ⟨s₂, S₂⟩ | e
    · rw [wp_bind]
      refine wp_mono ?_ ((hx s₂ S₂ rfl).wp_fromSocket sel.rset S₂)
      intro x w₃ hx₃
      rcases x with ⟨s₃, S₃⟩ | e
      · have h₃ := hx₃ s₃ S₃ rfl
        rw [wp_bind]
        refine wp_mono ?_ (h₃.wp_toStdout S₃)
        rintro _ _ ⟨rfl, rfl⟩
        refine wp_mono ?_ (h₃.wp_toSocket S₃)
        rintro _ _ ⟨rfl, rfl⟩
        exact h₃
      · trivial
    · trivial

end Inv

/-! ## Whole runs -/

/-- A run of the loop, from uninitialised buffers. -/
abbrev Run (sockfd : ℤ) (toBuf fromBuf : Buf maxline) :
    Prog posix (Locals maxline ⊕ Exit) × Traffic → Prop :=
  Reach (world sockfd) (body sockfd) (.ret (.inl (start toBuf fromBuf)), Traffic.start)

variable {sockfd : ℤ} {toBuf fromBuf : Buf maxline}

theorem run_wp {x : Prog posix (Locals maxline ⊕ Exit) × Traffic}
    (h : Run sockfd toBuf fromBuf x) :
    wp (world sockfd) guard x.1 (Sum.elim Inv fun _ _ => True) x.2 :=
  Reach.wp (fun _ _ hs => Inv.wp_body hs) h (inv_start toBuf fromBuf)

/-- A turn in which only the standard input is ready. -/
theorem handle_of_notMem {sel : Selected} {s s' : Locals maxline} {w w' : Traffic}
    (hsock : InRange sockfd) (hvalue : 0 ≤ sel.value) (hr : sockfd ∉ sel.rset)
    (hw : sel.wset = FdSet.zero)
    (h : Executes (world sockfd) (fromStdin sockfd sel.rset sel.wset s) w (.inl (s', sel.wset))
      w') :
    Executes (world sockfd) (handle sockfd sel s) w (.inl s') w' := by
  have hsocket : fromSocket sockfd sel.rset sel.wset s' = .ret (.inl (s', sel.wset)) := by
    simp [fromSocket, hsock, hr]
  have hstdout : toStdout sockfd sel.wset s' = .ret (.inl (s', true)) := by
    have hout : InRange stdoutFileno := by decide
    simp [toStdout, hout, hw]
  have hsend : toSocket sockfd sel.wset s' = .ret (.inl s') := by
    simp [toSocket, hsock, hw]
  rw [handle, if_neg (Int.not_lt.mpr hvalue), executes_bind]
  refine ⟨_, _, h, ?_⟩
  show Executes _ (fromSocket sockfd sel.rset sel.wset s' >>= _) _ _ _
  rw [hsocket]
  show Executes _ (toStdout sockfd sel.wset s' >>= _) _ _ _
  rw [hstdout]
  show Executes _ (toSocket sockfd sel.wset s') _ _ _
  rw [hsend]
  exact ⟨rfl, rfl⟩

/-- A read from the standard input that returns data or its end. -/
theorem executes_fromStdin {rset wset : FdSet} {s : Locals maxline} {w : Traffic} {bs : List Byte}
    (hmem : stdinFileno ∈ rset) (hbs : s.toiptr + bs.length ≤ maxline) (hptr : 0 ≤ s.toiptr) :
    Executes (world sockfd) (fromStdin sockfd rset wset s) w
      (.inl ({ s with toBuf := s.toBuf.put s.toiptr.toNat bs }, wset))
      (w.next sockfd (.read stdinFileno ⟨maxline, s.toiptr, maxline - s.toiptr⟩) (.ok bs)) := by
  have hin : InRange stdinFileno := by decide
  have hstore : s.toBuf.storeBytes (I := posix) s.toiptr bs =
      .ret (s.toBuf.put s.toiptr.toNat bs) := if_pos (.inr ⟨hptr, hbs⟩)
  rw [fromStdin, fdIsSet_of_inRange hin, decide_eq_true hmem]
  refine ⟨.ok bs, fun bs' he => ?_, ?_⟩
  · cases he
    show (bs.length : ℤ) ≤ maxline - s.toiptr
    omega
  · show Executes _ (s.toBuf.storeBytes s.toiptr bs >>= _) _ _ _
    rw [hstore]
    -- the result is not negative, and there is no branch for that
    exact ⟨rfl, rfl⟩

/-- A turn in which data or the end of the standard input is read. -/
theorem executes_stdin (sockfd : ℤ) (toBuf fromBuf : Buf maxline) (bs : List Byte)
    (hmax : 0 < maxline) (hsock : InRange sockfd) (hne : sockfd ≠ stdinFileno)
    (hbs : bs.length ≤ maxline) :
    Executes (world sockfd) (body sockfd (start toBuf fromBuf)) Traffic.start
      (.inl { start toBuf fromBuf with toBuf := toBuf.put 0 bs }) ⟨[.ok bs], [], [], []⟩ := by
  have hin : InRange stdinFileno := by decide
  have hwatch : watch sockfd (start toBuf fromBuf) = Prog.call (I := posix)
      (.select 2 ((FdSet.zero.insert stdinFileno hin).insert sockfd hsock) FdSet.zero) .ret := by
    simp [watch, fdSetIf, start, hmax, hsock, hin]
    rfl
  have hnext : (⟨[.ok bs], [], [], []⟩ : Traffic) = Traffic.start.next sockfd
      (.read stdinFileno ⟨maxline, 0, maxline - 0⟩) (.ok bs) := by
    simp [Traffic.next, Traffic.start, hne.symm]
  rw [body, hwatch, hnext]
  refine ⟨⟨1, FdSet.single stdinFileno hin, FdSet.zero⟩, ⟨fun fd hfd => ?_, fun fd hfd => hfd⟩,
    handle_of_notMem hsock Int.one_nonneg (by simpa using hne) rfl ?_⟩
  · rw [(FdSet.mem_single hin).mp hfd]
    simp
  · refine executes_fromStdin ((FdSet.mem_single hin).mpr rfl) ?_ le_rfl
    show (0 : ℤ) + bs.length ≤ maxline
    omega

/-- **When bytes are conserved.** At the head of the loop, after any run, the pointers are in order
and no byte is lost if and only if every read has returned 0; and as long as that is so no call is
given a range outside its buffer. -/
theorem conserved_iff_quiet (maxline : ℕ) (sockfd : ℤ) (toBuf fromBuf : Buf maxline) :
    (∀ s w, Run sockfd toBuf fromBuf (.ret (.inl s), w) → (Conserved s w ↔ w.Quiet)) ∧
    (∀ c k w, Run sockfd toBuf fromBuf (.call c k, w) → w.Quiet → SpanOk c) := by
  constructor
  · intro s w h
    exact Inv.conserved_iff (run_wp h)
  · intro c k w h
    exact (run_wp h).1.1

/-- The standard input has ended, and the program goes on as before. -/
theorem conserved_iff_quiet_end : ∃ s w,
    Run 3 (Buf.zeros 4096) (Buf.zeros 4096) (.ret (.inl s), w) ∧ w.stdin = [.ok []] ∧
      Conserved s w := by
  have h := executes_stdin 3 (Buf.zeros 4096) (Buf.zeros 4096) [] (by decide) (by decide)
    (by decide) (by decide)
  have hrun : Run _ _ _ _ := .head .again h.reach
  exact ⟨_, _, hrun, rfl, ((conserved_iff_quiet _ _ _ _).1 _ _ hrun).mpr (by simp [Traffic.Quiet])⟩

/-- A line that is typed is stored, and the pointer behind it stays where it is. -/
theorem not_conserved_line : ∃ s w,
    Run 3 (Buf.zeros 4096) (Buf.zeros 4096) (.ret (.inl s), w) ∧
      w = ⟨[.ok (text "hi\n")], [], [], []⟩ ∧ s.toiptr = 0 ∧ ¬ Conserved s w := by
  have h := executes_stdin 3 (Buf.zeros 4096) (Buf.zeros 4096) (text "hi\n") (by decide)
    (by decide) (by decide) (by decide)
  refine ⟨_, _, .head .again h.reach, rfl, rfl, ?_⟩
  intro hc
  have hup := hc.upload
  cases hup

end NonblockCli

end UnixNetwork
