import UnixNetwork.SelectServer.Table
import UnixNetwork.Connections

/-!
# The select server keeps its table and echoes

The invariant of the `for(;;)` loop and what it gives at every moment of every run. At the head of
the loop the table is consistent, it holds the descriptors of the live connections and no others,
and every connection has been handed back exactly what was read from it. Inside a round the last
part fails for one connection, between its `read` and its `write`; `Net.Sound` is what is left of it
then, and it is what the whole system is put together from.

Nothing here looks at `nready`. The early exits may skip slots, and a skipped slot keeps the
invariant.

## Main results

* `wp_serve`, `wp_scan`, `wp_acceptClient`, `wp_round`: what each part of a round preserves
* `executes_accept`, `executes_echo`, `executes_close`: rounds with one ready descriptor
* `reach_wp`: the invariant at every moment of the run
* `representation_invariant`: the table, and the calls, of every run
* `echo_and_isolation`: what is written to a connection is what was read from it
-/

namespace UnixNetwork

open Interaction

namespace Net

/-- Every connection has been handed back what was read from it. -/
def Echoed (net : Net) : Prop := ∀ k, (net.conn k).offered = (net.conn k).rd

/-- A closed connection has been closed once, at its end. -/
structure ClosedAtEnd (net : Net) : Prop where
  /-- It has been closed once. -/
  once : ∀ k, (net.conn k).closes ≤ 1
  /-- A read had returned 0 or failed. -/
  ended : ∀ k, 0 < (net.conn k).closes → (net.conn k).eof = true ∨ (net.conn k).failed = true

/-- What holds at every moment: nothing is handed back that has not been read, and a closed
connection has been handed back all of it. -/
structure Sound (net : Net) : Prop where
  /-- What has been handed back is a prefix of what was read. -/
  trails : ∀ k, (net.conn k).offered <+: (net.conn k).rd
  /-- A closed connection has been handed back everything. -/
  settled : ∀ k, 0 < (net.conn k).closes → (net.conn k).offered = (net.conn k).rd
  /-- A closed connection has been closed once, at its end. -/
  closed : net.ClosedAtEnd

theorem Echoed.sound {net : Net} (h : net.Echoed) (hc : net.ClosedAtEnd) : net.Sound :=
  ⟨fun k => h k ▸ List.prefix_refl _, fun k _ => h k, hc⟩

theorem Echoed.on {net : Net} (h : net.Echoed) (fd : ℤ) {f : Conn → Conn}
    (hf : ∀ c : Conn, c.offered = c.rd → (f c).offered = (f c).rd) : (net.on fd f).Echoed :=
  forall_conn_on (P := fun c => c.offered = c.rd) h fd hf

theorem Echoed.add {net : Net} (h : net.Echoed) (fd : ℤ) : (net.add fd).Echoed :=
  forall_conn_add (P := fun c => c.offered = c.rd) h rfl

/-- A read that has returned nothing. -/
theorem Echoed.onRead {net : Net} (h : net.Echoed) (fd : ℤ) {r : Except Errno (List Byte)}
    (hr : readBytes r = []) : (net.on fd fun c => c.onRead r).Echoed := by
  refine h.on fd fun c hc => ?_
  rw [Conn.offered_onRead, Conn.rd_onRead, hr, List.append_nil, hc]

/-- A read, and the write of what it has returned. -/
theorem Echoed.onRead_onWrite {net : Net} (h : net.Echoed) (fd : ℤ)
    (r : Except Errno (List Byte)) (r' : Except Errno ℕ) :
    ((net.on fd fun c => c.onRead r).on fd fun c => c.onWrite (readBytes r) r').Echoed := by
  intro k
  by_cases hk : net.holder fd = some k
  · simp [conn_on, hk, h k]
  · simpa [conn_on, hk] using h k

end Net

/-- What holds when the server makes a call. -/
structure CallOk (net : Net) (c : Call) : Prop where
  /-- The connections are as they are at every moment. -/
  sound : net.Sound
  /-- A read, a write or a close is issued on an open descriptor. -/
  target : ∀ fd, c.target = some fd → net.Open fd
  /-- A read or a write is handed a part of its buffer. -/
  span : ∀ sp, c.span = some sp → sp.InBounds

/-- What is asked of the server: it makes its calls as they should be, and its behaviour is always
defined. -/
def guard : Guard posix Net := ⟨CallOk, fun _ => False⟩

namespace SelectServer

/-- The invariant of the `for(;;)` loop. -/
structure Inv (listenfd : ℤ) (s : Locals) (net : Net) : Prop where
  /-- The four pieces of state agree. -/
  consistent : Consistent listenfd s
  /-- The table holds the descriptors of the live connections. -/
  tracks : ∀ fd, s.Holds fd ↔ net.Open fd
  /-- Descriptors and connections are in step. -/
  wellFormed : net.WellFormed
  /-- Everything read has been handed back. -/
  echoed : net.Echoed
  /-- Closed connections were closed once, at their end. -/
  closed : net.ClosedAtEnd

theorem Inv.sound {listenfd : ℤ} {s : Locals} {net : Net} (h : Inv listenfd s net) : net.Sound :=
  h.echoed.sound h.closed

theorem Inv.callOk {listenfd : ℤ} {s : Locals} {net : Net} (h : Inv listenfd s net) {c : Call}
    (ht : ∀ fd, c.target = some fd → net.Open fd) (hs : ∀ sp, c.span = some sp → sp.InBounds) :
    CallOk net c := ⟨h.sound, ht, hs⟩

theorem inv_start {listenfd : ℤ} (h : InRange listenfd) (buf : Buf 1024) :
    Inv listenfd (start listenfd h buf) Net.start where
  consistent := consistent_start h buf
  tracks fd := by
    constructor
    · rintro ⟨h0, i, rfl⟩
      simp only [start, fdAt_replicate] at h0
      omega
    · rintro ⟨k, hk, -⟩
      exact absurd hk.1 (Nat.not_lt_zero _)
  wellFormed := Net.wellFormed_start
  echoed _ := rfl
  closed := ⟨fun _ => Nat.zero_le _, fun _ h => absurd h (lt_irrefl _)⟩

variable {listenfd : ℤ} {Extra : (c : Call) → Res c → Prop}

/-! ## Serving one client -/

/-- A read that ends a connection, and the `close` that follows it. -/
theorem Inv.close {s : Locals} {net : Net} (h : Inv listenfd s net) {i : ℕ} (hi : i < fdSetsize)
    {fd : ℤ} (hfd : fdAt s.client i = fd) (h0 : 0 ≤ fd) {r : Except Errno (List Byte)}
    (hr : readValue r ≤ 0) (buf : Buf 1024) :
    (net.on fd fun c => c.onRead r).Sound ∧
      Inv listenfd (s.release i hi fd buf)
        ((net.on fd fun c => c.onRead r).on fd Conn.onClose) := by
  have hopen : net.Open fd := (h.tracks fd).mp ⟨h0, i, hfd⟩
  have hbs : readBytes r = [] := by
    have := length_readBytes_le r
    exact List.eq_nil_of_length_eq_zero (by omega)
  have hwf : (net.on fd fun c => c.onRead r).WellFormed :=
    h.wellFormed.on fd (fun c => c.fd_onRead r) fun c hc => c.closes_onRead r ▸ hc
  have hech : (net.on fd fun c => c.onRead r).Echoed := h.echoed.onRead fd hbs
  have hend : ∀ k, 0 < (net.conn k).closes →
      ((net.on fd fun c => c.onRead r).conn k).eof = true ∨
        ((net.on fd fun c => c.onRead r).conn k).failed = true := by
    intro k hk
    rw [Net.conn_on]
    split
    · exact Conn.ended_onRead _ hr
    · exact h.closed.ended k hk
  have hcls : ∀ k, ((net.on fd fun c => c.onRead r).conn k).closes = (net.conn k).closes :=
    Net.conn_on_congr Conn.closes fun c => c.closes_onRead r
  refine ⟨hech.sound ⟨fun k => hcls k ▸ h.closed.once k, fun k hk => hend k (hcls k ▸ hk)⟩,
    h.consistent.release hi buf hfd, fun x => ?_,
    hwf.on fd (fun _ => rfl) fun _ hc => absurd hc (Nat.succ_ne_zero _),
    hech.on fd fun _ hc => hc, ?_, ?_⟩
  · rw [h.consistent.holds_release hfd, h.tracks, hwf.open_on_close,
      Net.open_on_iff (fun c => c.fd_onRead r) fun c => c.closes_onRead r]
  · intro k
    rw [Net.conn_on]
    split
    · rename_i hk
      rw [Net.holder_on] at hk
      rw [Conn.onClose, hcls, h.wellFormed.closes_of_open hopen hk]
    · exact hcls k ▸ h.closed.once k
  · intro k hk
    rw [Net.conn_on] at hk ⊢
    split at hk
    · rename_i hh
      rw [if_pos hh, Net.conn_on]
      rw [Net.holder_on] at hh
      rw [if_pos hh]
      exact Conn.ended_onRead _ hr
    · rename_i hh
      rw [if_neg hh]
      exact hend k (hcls k ▸ hk)

/-- A read that returns bytes. They are still to be handed back. -/
theorem Inv.sound_onRead {s : Locals} {net : Net} (h : Inv listenfd s net) {fd : ℤ}
    (hopen : net.Open fd) (bs : List Byte) : (net.on fd fun c => c.onRead (.ok bs)).Sound := by
  have hcls : ∀ k, ((net.on fd fun c => c.onRead (.ok bs)).conn k).closes
      = (net.conn k).closes :=
    Net.conn_on_congr Conn.closes fun c => c.closes_onRead _
  refine ⟨fun k => ?_, fun k hk => ?_, fun k => hcls k ▸ h.closed.once k, fun k hk => ?_⟩
  · rw [Net.conn_on]
    split
    · rw [Conn.offered_onRead, Conn.rd_onRead, h.echoed k]
      exact List.prefix_append _ _
    · exact h.echoed k ▸ List.prefix_refl _
  · rw [hcls] at hk
    rw [h.wellFormed.conn_on_of_closed hopen _ hk]
    exact h.echoed k
  · rw [hcls] at hk
    rw [h.wellFormed.conn_on_of_closed hopen _ hk]
    exact h.closed.ended k hk

/-- A read that returns bytes, and the `write` that hands them back. -/
theorem Inv.echo {s : Locals} {net : Net} (h : Inv listenfd s net) {fd : ℤ} (hopen : net.Open fd)
    (bs : List Byte) (r : Except Errno ℕ) (buf : Buf 1024) :
    Inv listenfd { s with buf := buf }
      ((net.on fd fun c => c.onRead (.ok bs)).on fd fun c => c.onWrite bs r) := by
  have hwf : (net.on fd fun c => c.onRead (.ok bs)).WellFormed :=
    h.wellFormed.on fd (fun c => c.fd_onRead _) fun c hc => c.closes_onRead _ ▸ hc
  have hopen' : (net.on fd fun c => c.onRead (.ok bs)).Open fd := by
    rw [Net.open_on_iff (fun c => c.fd_onRead _) fun c => c.closes_onRead _]
    exact hopen
  have hcls : ∀ k, (((net.on fd fun c => c.onRead (.ok bs)).on fd
      fun c => c.onWrite bs r).conn k).closes = (net.conn k).closes := fun k =>
    (Net.conn_on_congr Conn.closes (fun c => c.closes_onWrite bs r) k).trans
      (Net.conn_on_congr Conn.closes (fun c => c.closes_onRead _) k)
  refine ⟨h.consistent.with_buf buf, fun x => ?_,
    hwf.on fd (fun c => c.fd_onWrite _ r) fun c hc => c.closes_onWrite _ r ▸ hc,
    h.echoed.onRead_onWrite fd (.ok bs) r, fun k => hcls k ▸ h.closed.once k, fun k hk => ?_⟩
  · rw [Net.open_on_iff (fun c => c.fd_onWrite bs r) fun c => c.closes_onWrite bs r,
      Net.open_on_iff (fun c => c.fd_onRead _) fun c => c.closes_onRead _]
    exact h.tracks x
  · have hk₀ : 0 < (net.conn k).closes := hcls k ▸ hk
    have hkept : (net.on fd fun c => c.onRead (.ok bs)).conn k = net.conn k :=
      h.wellFormed.conn_on_of_closed hopen _ hk₀
    rw [hwf.conn_on_of_closed hopen' _ (hkept ▸ hk₀), hkept]
    exact h.closed.ended k hk₀

/-- Serving a client keeps the invariant, whatever its `read` and its `write` return. -/
theorem wp_serve {s : Locals} {net : Net} (h : Inv listenfd s net) {i : ℕ} (hi : i < fdSetsize)
    {fd : ℤ} (hfd : fdAt s.client i = fd) (h0 : 0 ≤ fd) :
    wp (serverWorld listenfd Extra) guard (serve i fd s)
      (fun s' net' => Inv listenfd s' net' ∧ s'.maxi = s.maxi) net := by
  have hopen : net.Open fd := (h.tracks fd).mp ⟨h0, i, hfd⟩
  have hread : ∀ r : Except Errno (List Byte), (net.on fd fun c => c.onRead r).Open fd := by
    intro r
    rw [Net.open_on_iff (fun c => c.fd_onRead r) fun c => c.closes_onRead r]
    exact hopen
  rw [serve_eq hi (h.consistent.inRange_of_holds ⟨h0, i, hfd⟩), wp_call]
  refine ⟨h.callOk (by rintro _ ⟨⟩; exact hopen) (by rintro _ ⟨⟩; decide), ?_⟩
  intro r hr
  split
  · rename_i hle
    obtain ⟨hsound, hinv⟩ := h.close hi hfd h0 hle (s.buf.put 0 (readBytes r))
    exact ⟨⟨hsound, by rintro _ ⟨⟩; exact hread r, by rintro _ ⟨⟩⟩, fun _ _ => ⟨hinv, rfl⟩⟩
  · rename_i hpos
    rcases r with e | bs
    · simp at hpos
    · have hlen : bs.length ≤ 1024 := by
        have : (bs.length : ℤ) ≤ 1024 := hr.1
        omega
      have hmem : (Span.first 1024 bs.length).bytes (s.buf.put 0 bs).toList = bs :=
        Span.bytes_first_put hlen
      simp only [readValue_ok, readBytes_ok, serverWorld_next, Net.next_read, wp_call, wp_ret,
        Net.next_write, hmem]
      refine ⟨⟨h.sound_onRead hopen bs, by rintro _ ⟨⟩; exact hread _, ?_⟩,
        fun r' _ => ⟨h.echo hopen bs r' _, trivial⟩⟩
      rintro _ ⟨⟩
      exact Span.inBounds_first hlen

/-! ## The scan, the listening descriptor and the round -/

/-- Scanning the slots keeps the invariant, wherever the countdown ends it. -/
theorem wp_scan {rset : FdSet} {left i : ℕ} (hleft : i + left ≤ fdSetsize) {nready : ℤ}
    {s : Locals} {net : Net} (h : Inv listenfd s net) :
    wp (serverWorld listenfd Extra) guard (scan rset left i nready s) (Inv listenfd) net := by
  induction left generalizing i nready s net with
  | zero => exact h
  | succ left ih =>
    have hi : i < fdSetsize := by omega
    rw [scan, load_of_lt hi, Prog.ret_bind, ← fdAt_of_lt hi]
    split
    · exact ih (by omega) h
    · rename_i hneg
      have h0 : 0 ≤ fdAt s.client i := not_lt.mp hneg
      rw [fdIsSet_of_inRange (h.consistent.inRange_of_holds ⟨h0, i, rfl⟩), Prog.ret_bind]
      split
      · rw [wp_bind]
        refine wp_mono ?_ (wp_serve h hi rfl h0)
        intro s' net' h'
        split
        · exact h'.1
        · exact ih (by omega) h'.1
      · exact ih (by omega) h

theorem turns_le {s : Locals} (h : Consistent listenfd s) : 0 + turns s ≤ fdSetsize := by
  have := h.maxi_lt
  rw [turns]
  omega

theorem Inv.add {s : Locals} {net : Net} (h : Inv listenfd s net) {fd : ℤ} (hr : InRange fd)
    (hne : fd ≠ listenfd) (hnew : ¬ net.Open fd) {j : ℕ} (hj : j < fdSetsize)
    (hfree : fdAt s.client j = -1) : Inv listenfd (s.occupy j hj fd hr) (net.add fd) where
  consistent := h.consistent.occupy hj hr hfree hne (fun hh => hnew ((h.tracks fd).mp hh))
  tracks x := by rw [holds_occupy hfree, Net.open_add_iff, h.tracks]
  wellFormed := h.wellFormed.add hnew
  echoed := h.echoed.add fd
  closed :=
    ⟨Net.forall_conn_add (P := fun c => c.closes ≤ 1) h.closed.once (Nat.zero_le 1),
      Net.forall_conn_add (P := fun c => 0 < c.closes → c.eof = true ∨ c.failed = true)
        h.closed.ended fun hpos => absurd hpos (lt_irrefl 0)⟩

/-- Accepting a connection keeps the invariant, if its descriptor fits into an `fd_set`. -/
theorem wp_acceptClient (hE : ∀ c r, Extra c r → AcceptsInRange c r) {s : Locals} {net : Net}
    (h : Inv listenfd s net) :
    wp (serverWorld listenfd Extra) guard (acceptClient listenfd s) (Inv listenfd) net := by
  rw [acceptClient, accept_bind, wp_call]
  refine ⟨h.callOk (by rintro _ ⟨⟩) (by rintro _ ⟨⟩), ?_⟩
  intro r hr
  obtain ⟨fd, rfl, hfd⟩ := hE _ _ hr.2
  obtain ⟨hne, hnew⟩ : (fd : ℤ) ≠ listenfd ∧ ¬ net.Open fd := hr.1
  obtain ⟨j, hj, hfree, he⟩ := h.consistent.install_eq hfd
  have hinv := h.add hfd hne hnew hj hfree
  rw [countValue_ok, he]
  split
  · exact ⟨hinv.callOk (by rintro _ ⟨⟩) (by rintro _ ⟨⟩), fun _ _ => hinv⟩
  · exact hinv

theorem wp_handle (hE : ∀ c r, Extra c r → AcceptsInRange c r) {s : Locals} {net : Net}
    (h : Inv listenfd s net) (sel : Selected) :
    wp (serverWorld listenfd Extra) guard (handle listenfd s sel) (Inv listenfd) net := by
  rw [handle, fdIsSet_of_inRange h.consistent.listen, Prog.ret_bind]
  split
  · rw [wp_bind]
    refine wp_mono ?_ (wp_acceptClient hE h)
    intro s' net' h'
    split
    · exact h'
    · exact wp_scan (turns_le h'.consistent) h'
  · exact wp_scan (turns_le h.consistent) h

/-- **A round keeps the invariant.** -/
theorem wp_round (hE : ∀ c r, Extra c r → AcceptsInRange c r) {s : Locals} {net : Net}
    (h : Inv listenfd s net) :
    wp (serverWorld listenfd Extra) guard (round listenfd s) (Inv listenfd) net := by
  rw [round, select_bind, wp_call]
  exact ⟨h.callOk (by rintro _ ⟨⟩) (by rintro _ ⟨⟩), fun sel _ => wp_handle hE h sel⟩

/-! ## Rounds with one ready connection -/

theorem Locals.Holds.exists_lt {s : Locals} {fd : ℤ} (h : s.Holds fd) :
    ∃ i, i < fdSetsize ∧ fdAt s.client i = fd := by
  obtain ⟨h0, i, rfl⟩ := h
  refine ⟨i, ?_, rfl⟩
  by_contra hle
  rw [fdAt_of_le (not_lt.mp hle)] at h0
  omega

/-- The scan for one connection ends with serving it. -/
theorem scan_single {s : Locals} (h : Consistent listenfd s) {i left m : ℕ} {fd : ℤ}
    (hr : InRange fd) (hfd : fdAt s.client i = fd) (hm : m ≤ i) (hi : i < m + left)
    (hleft : m + left ≤ fdSetsize) : scan (.single fd hr) left m 1 s = serve i fd s := by
  induction left generalizing m with
  | zero => omega
  | succ left ih =>
    rw [scan, load_of_lt (by omega), Prog.ret_bind, ← fdAt_of_lt]
    rcases eq_or_lt_of_le hm with rfl | hlt
    · rw [hfd, if_neg (not_lt.mpr hr.1), fdIsSet_of_inRange hr, Prog.ret_bind,
        if_pos (decide_eq_true ((FdSet.mem_single hr).mpr rfl))]
      exact bind_pure _
    · have hrest := ih (m := m + 1) hlt (by omega) (by omega)
      split
      · exact hrest
      · rename_i hneg
        have hrm := h.inRange_of_holds ⟨not_lt.mp hneg, m, rfl⟩
        have hne : fdAt s.client m ≠ fd := fun he =>
          hlt.ne (h.inj m i (not_lt.mp hneg) (he.trans hfd.symm))
        rw [fdIsSet_of_inRange hrm, Prog.ret_bind, if_neg]
        · exact hrest
        · simpa using hne

/-- A round in which one connection has been reported comes to serving it. -/
theorem handle_single {s : Locals} (h : Consistent listenfd s) {i : ℕ} {fd : ℤ} (hr : InRange fd)
    (hfd : fdAt s.client i = fd) : handle listenfd s (.only fd hr) = serve i fd s := by
  have hne : listenfd ∉ FdSet.single fd hr := fun hm =>
    h.ne_listen i (hfd.trans ((FdSet.mem_single hr).mp hm).symm)
  have hle : ¬ s.maxi < i := fun hlt => by
    have := h.above_maxi i hlt
    have := hr.1
    omega
  rw [handle, Selected.only, fdIsSet_of_inRange h.listen, Prog.ret_bind,
    if_neg (by simpa using hne),
    scan_single h hr hfd (Nat.zero_le i) (by rw [turns]; omega) (turns_le h)]

section Rounds

variable {A : Net → (c : Call) → Res c → Prop} {s : Locals} {net : Net} {fd : ℤ}

/-- A round in which one connection is ready comes to serving it. -/
theorem executes_single (h : Consistent listenfd s) {i : ℕ} (hr : InRange fd)
    (hfd : fdAt s.client i = fd)
    (hsel : A net (.select (s.maxfd + 1) s.allset .zero) (.only fd hr)) {s' : Locals} {net' : Net}
    (hserve : Executes ⟨A, Net.next⟩ (serve i fd s) net s' net') :
    Executes ⟨A, Net.next⟩ (body listenfd s) net (.inl s') net' := by
  rw [body, executes_bind]
  refine ⟨s', net', ⟨.only fd hr, hsel, ?_⟩, rfl, rfl⟩
  show Executes _ (handle listenfd s (.only fd hr)) net s' net'
  rw [handle_single h hr hfd]
  exact hserve

/-- A round in which bytes of one connection are read and `n` of them are written back. -/
theorem executes_serve (h : Consistent listenfd s) (hh : s.Holds fd) (hr : InRange fd)
    (hsel : A net (.select (s.maxfd + 1) s.allset .zero) (.only fd hr)) {bs : List Byte}
    (hbs : bs ≠ []) (hlen : bs.length ≤ 1024)
    (hread : A net (.read fd (Span.whole 1024)) (.ok bs)) {n : ℕ}
    (hwrite : A (net.on fd fun c => c.onRead (.ok bs))
      (.write fd (Span.first 1024 bs.length) (s.buf.put 0 bs).toList) (.ok n)) :
    ∃ s', Executes ⟨A, Net.next⟩ (body listenfd s) net (.inl s')
      ((net.on fd fun c => c.onRead (.ok bs)).on fd fun c => c.onWrite bs (.ok n)) := by
  obtain ⟨i, hi, hfd⟩ := hh.exists_lt
  refine ⟨{ s with buf := s.buf.put 0 bs }, executes_single h hr hfd hsel ?_⟩
  rw [serve_eq hi hr, executes_call]
  refine ⟨.ok bs, hread, ?_⟩
  rw [if_neg (mt readValue_ok_nonpos.mp hbs), executes_call]
  refine ⟨.ok n, hwrite, rfl, ?_⟩
  show _ = (net.on fd _).on fd fun c => c.onWrite
    ((Span.first 1024 bs.length).bytes (s.buf.put 0 bs).toList) (.ok n)
  rw [Span.bytes_first_put hlen]

/-- A round in which the bytes of one connection are written back. -/
theorem executes_echo (hA : ∀ net c r, Routine c r → A net c r) (h : Consistent listenfd s)
    (hh : s.Holds fd) (hr : InRange fd)
    (hsel : A net (.select (s.maxfd + 1) s.allset .zero) (.only fd hr)) {bs : List Byte}
    (hbs : bs ≠ []) (hlen : bs.length ≤ 1024)
    (hread : A net (.read fd (Span.whole 1024)) (.ok bs)) :
    ∃ s', Executes ⟨A, Net.next⟩ (body listenfd s) net (.inl s')
      ((net.on fd fun c => c.onRead (.ok bs)).on fd fun c => c.onWrite bs (.ok bs.length)) :=
  executes_serve h hh hr hsel hbs hlen hread (hA _ _ _ ⟨_, rfl, rfl⟩)

/-- A round in which one connection has ended. -/
theorem executes_close (hA : ∀ net c r, Routine c r → A net c r) (h : Consistent listenfd s)
    (hh : s.Holds fd) (hr : InRange fd)
    (hsel : A net (.select (s.maxfd + 1) s.allset .zero) (.only fd hr))
    (hread : A net (.read fd (Span.whole 1024)) (.ok [])) :
    ∃ s', Executes ⟨A, Net.next⟩ (body listenfd s) net (.inl s')
      ((net.on fd fun c => c.onRead (.ok [])).on fd Conn.onClose) := by
  obtain ⟨i, hi, hfd⟩ := hh.exists_lt
  refine ⟨s.release i hi fd (s.buf.put 0 []), executes_single h hr hfd hsel ?_⟩
  rw [serve_eq hi hr, executes_call]
  refine ⟨.ok [], hread, ?_⟩
  rw [if_pos (readValue_ok_nonpos.mpr rfl)]
  exact ⟨(), hA _ _ _ trivial, rfl, rfl⟩

/-- A round in which a connection is ready to be accepted. -/
theorem handle_only (hl : InRange listenfd) : handle listenfd s (.only listenfd hl) =
    Prog.call (I := posix) (.accept listenfd) fun r => install (countValue r) s := by
  rw [handle_of_mem hl ((FdSet.mem_single hl).mpr rfl), acceptClient, Prog.bind_assoc, accept_bind]
  congr 1
  funext r
  exact bind_pure _

/-- What is left of it once the connection has been accepted. -/
theorem executes_install (hpr : ∀ net t, A net (.printf t) ()) (h : Consistent listenfd s)
    (hr : InRange fd) : ∃ s', Executes ⟨A, Net.next⟩ (install fd s) net s' net := by
  obtain ⟨j, hj, -, hinst⟩ := h.install_eq hr
  refine ⟨s.occupy j hj fd hr, ?_⟩
  rw [hinst]
  split
  · exact ⟨(), hpr net _, rfl, rfl⟩
  · exact ⟨rfl, rfl⟩

/-- A round in which a connection is accepted. -/
theorem executes_accept (hpr : ∀ net t, A net (.printf t) ()) (h : Consistent listenfd s)
    (hsel : A net (.select (s.maxfd + 1) s.allset .zero) (.only listenfd h.listen)) {fd : ℕ}
    (hfd : InRange fd) (hacc : A net (.accept listenfd) (.ok fd)) :
    ∃ s', Executes ⟨A, Net.next⟩ (body listenfd s) net (.inl s') (net.add fd) := by
  obtain ⟨s', he⟩ : ∃ s', Executes ⟨A, Net.next⟩ (install fd s) (net.add fd) s' (net.add fd) :=
    executes_install hpr h hfd
  refine ⟨s', ?_⟩
  rw [body, round, select_bind, Prog.call_bind, executes_call]
  refine ⟨.only listenfd h.listen, hsel, ?_⟩
  rw [handle_only, Prog.call_bind, executes_call]
  refine ⟨.ok fd, hacc, ?_⟩
  rw [countValue_ok, executes_bind]
  exact ⟨s', _, he, rfl, rfl⟩

end Rounds

/-! ## Every moment of every run -/

/-- **The invariant of the run.** -/
theorem reach_wp (hE : ∀ c r, Extra c r → AcceptsInRange c r) (hl : InRange listenfd)
    {buf : Buf 1024} {p : Prog posix (Locals ⊕ Empty)} {net : Net}
    (h : Reach (serverWorld listenfd Extra) (body listenfd) (main listenfd buf, Net.start)
      (p, net)) :
    wp (serverWorld listenfd Extra) guard p (Sum.elim (Inv listenfd) fun _ _ => False) net := by
  refine Reach.wp (fun s net h => ?_) h ?_
  · rw [body, wp_bind]
    exact wp_mono (fun s' net' h' => h') (wp_round hE h)
  · rw [main_eq_start hl]
    exact inv_start hl buf

/-- A server whose listening descriptor does not fit into an `fd_set` never gets to its loop. -/
theorem reach_of_not_inRange (hl : ¬ InRange listenfd) {buf : Buf 1024}
    {p : Prog posix (Locals ⊕ Empty)} {net : Net}
    (h : Reach (serverWorld listenfd Extra) (body listenfd) (main listenfd buf, Net.start)
      (p, net)) : p = .fault ∧ net = Net.start := by
  rw [main, fdSet_of_not_inRange hl, Prog.fault_bind] at h
  rcases h.cases_head with h | ⟨_, hs, _⟩
  · cases h
    exact ⟨rfl, rfl⟩
  · cases hs

/-- At every moment the connections are sound. -/
theorem reach_sound (hE : ∀ c r, Extra c r → AcceptsInRange c r) {buf : Buf 1024}
    {p : Prog posix (Locals ⊕ Empty)} {net : Net}
    (h : Reach (serverWorld listenfd Extra) (body listenfd) (main listenfd buf, Net.start)
      (p, net)) : net.Sound := by
  by_cases hl : InRange listenfd
  · refine wp_now (J := Net.Sound) (reach_wp hE hl h) ?_ (fun _ _ hc => hc.sound)
      fun _ hf => hf.elim
    rintro (s | e) net hnet
    · exact Inv.sound hnet
    · exact e.elim
  · obtain ⟨-, rfl⟩ := reach_of_not_inRange hl h
    exact ⟨fun _ => List.prefix_refl _, fun _ _ => rfl, fun _ => Nat.zero_le _,
      fun _ hk => absurd hk (lt_irrefl _)⟩

/-- Every call is a proper one. -/
theorem reach_callOk (hE : ∀ c r, Extra c r → AcceptsInRange c r) {buf : Buf 1024} {c : Call}
    {k : Res c → Prog posix (Locals ⊕ Empty)} {net : Net}
    (h : Reach (serverWorld listenfd Extra) (body listenfd) (main listenfd buf, Net.start)
      (.call c k, net)) : CallOk net c := by
  by_cases hl : InRange listenfd
  · exact (reach_wp hE hl h).1
  · cases (reach_of_not_inRange hl h).1

/-! ## Runs that go on -/

theorem plausible_of_routine {net : Net} {c : Call} {r : Res c} (h : Routine c r) :
    net.Plausible listenfd c r := by
  cases c with
  | write fd src mem =>
    obtain ⟨n, rfl, hn⟩ := h
    exact hn.le
  | read | accept | send | select => exact h.elim
  | _ => trivial

section Runs

variable {buf : Buf 1024} {s : Locals} {net : Net}
  (h : Reach (serverWorld listenfd Extra) (body listenfd) (main listenfd buf, Net.start)
    (.ret (.inl s), net))
  (hsel : ∀ nfds rset wset sel, Extra (.select nfds rset wset) sel)

include h hsel

/-- `select` reports the listening descriptor and `accept` returns `fd`. -/
theorem reach_accept (hcons : Consistent listenfd s) (fd : ℕ) (hfd : InRange fd)
    (hne : (fd : ℤ) ≠ listenfd) (hopen : ¬ net.Open fd) (hacc : Extra (.accept listenfd) (.ok fd))
    (hpr : ∀ t, Extra (.printf t) ()) : ∃ s',
    Reach (serverWorld listenfd Extra) (body listenfd) (main listenfd buf, Net.start)
      (.ret (.inl s'), net.add fd) := by
  obtain ⟨s', he⟩ := executes_accept (A := (serverWorld listenfd Extra).Allows)
    (fun _ t => ⟨trivial, hpr t⟩) hcons
    ⟨.inl (Selected.ready_only hcons.listen hcons.listen_mem), hsel _ _ _ _⟩ hfd
    ⟨⟨hne, hopen⟩, hacc⟩
  exact ⟨s', h.trans (.head .again (Executes.reach (W := serverWorld listenfd Extra) he))⟩

variable (hread : ∀ fd dst r, Extra (.read fd dst) r) (hroutine : ∀ c r, Routine c r → Extra c r)
  (hinv : Inv listenfd s net) {fd : ℤ} (hopen : net.Open fd)

include hread hroutine hinv hopen

/-- `select` reports a connection, and what has come on it is written back. -/
theorem reach_echo (bs : List Byte) (hbs : bs ≠ []) (hlen : bs.length ≤ 1024) : ∃ s',
    Reach (serverWorld listenfd Extra) (body listenfd) (main listenfd buf, Net.start)
      (.ret (.inl s'),
        (net.on fd fun c => c.onRead (.ok bs)).on fd fun c => c.onWrite bs (.ok bs.length)) := by
  have hholds : s.Holds fd := (hinv.tracks fd).mpr hopen
  have hr := hinv.consistent.inRange_of_holds hholds
  have hmem : fd ∈ s.allset := (hinv.consistent.mem_allset fd).mpr (.inr hholds)
  obtain ⟨s', he⟩ := executes_echo (A := (serverWorld listenfd Extra).Allows)
    (fun _ _ _ hc => ⟨plausible_of_routine hc, hroutine _ _ hc⟩) hinv.consistent hholds hr
    ⟨.inl (Selected.ready_only hr hmem), hsel _ _ _ _⟩ hbs hlen
    ⟨Int.ofNat_le.mpr hlen, hread _ _ _⟩
  exact ⟨s', h.trans (.head .again (Executes.reach (W := serverWorld listenfd Extra) he))⟩

/-- `select` reports a connection that has ended, and it is closed. -/
theorem reach_close : ∃ s',
    Reach (serverWorld listenfd Extra) (body listenfd) (main listenfd buf, Net.start)
      (.ret (.inl s'), (net.on fd fun c => c.onRead (.ok [])).on fd Conn.onClose) := by
  have hholds : s.Holds fd := (hinv.tracks fd).mpr hopen
  have hr := hinv.consistent.inRange_of_holds hholds
  have hmem : fd ∈ s.allset := (hinv.consistent.mem_allset fd).mpr (.inr hholds)
  obtain ⟨s', he⟩ := executes_close (A := (serverWorld listenfd Extra).Allows)
    (fun _ _ _ hc => ⟨plausible_of_routine hc, hroutine _ _ hc⟩) hinv.consistent hholds hr
    ⟨.inl (Selected.ready_only hr hmem), hsel _ _ _ _⟩ ⟨Int.natCast_nonneg _, hread _ _ _⟩
  exact ⟨s', h.trans (.head .again (Executes.reach (W := serverWorld listenfd Extra) he))⟩

end Runs

/-- The first connection. -/
theorem reach_first_accept (Extra : (c : Call) → Res c → Prop) (hl : InRange listenfd)
    (buf : Buf 1024) (fd : ℕ) (hfd : InRange fd) (hne : (fd : ℤ) ≠ listenfd)
    (hsel : ∀ nfds rset wset sel, Extra (.select nfds rset wset) sel)
    (hacc : Extra (.accept listenfd) (.ok fd)) (hpr : ∀ t, Extra (.printf t) ()) : ∃ s,
    Reach (serverWorld listenfd Extra) (body listenfd) (main listenfd buf, Net.start)
      (.ret (.inl s), Net.start.add fd) := by
  have hopen : ¬ Net.start.Open fd := fun ⟨k, hk, _⟩ => absurd hk.1 (Nat.not_lt_zero _)
  refine reach_accept (s := start listenfd hl buf) ?_ hsel (consistent_start hl buf) fd hfd hne
    hopen hacc hpr
  rw [main_eq_start hl]

/-- **The representation invariant.** In every run, at every head of the loop: the entries of the
table are different from each other and from the listening descriptor, they are the descriptors
accepted and not yet closed, the watched descriptors are these and the listening one, none of them
is above `maxfd`, the slots above `maxi` are free, and the search for a free slot stops inside the
table. At every moment: nothing undefined has happened, a call on a descriptor finds it open, and
no connection has been closed twice. -/
theorem representation_invariant (hl : InRange listenfd) {buf : Buf 1024}
    {p : Prog posix (Locals ⊕ Empty)} {net : Net}
    (h : Reach (serverWorld listenfd AcceptsInRange) (body listenfd) (main listenfd buf, Net.start)
      (p, net)) :
    (∀ s, p = .ret (.inl s) →
      (∀ i j, 0 ≤ fdAt s.client i → fdAt s.client i = fdAt s.client j → i = j) ∧
      (∀ i, fdAt s.client i ≠ listenfd) ∧
      (∀ fd, s.Holds fd ↔ net.Open fd) ∧
      (∀ fd, fd ∈ s.allset ↔ fd = listenfd ∨ s.Holds fd) ∧
      (∀ fd ∈ s.allset, fd ≤ s.maxfd) ∧
      (∀ i : ℕ, s.maxi < i → fdAt s.client i = -1) ∧
      ∀ connfd, ∃ j, ∃ hj : j < fdSetsize,
        findSlot connfd s.client (fdSetsize + 1) 0 = .ret (j, s.client.set j connfd hj)) ∧
    p ≠ .fault ∧
    (∀ c k, p = .call c k → ∀ fd, c.target = some fd → net.Open fd) ∧
    ∀ k, (net.conn k).closes ≤ 1 := by
  have hwp := reach_wp (fun _ _ hr => hr) hl h
  refine ⟨?_, ?_, ?_, (reach_sound (fun _ _ hr => hr) h).closed.once⟩
  · rintro s rfl
    have hinv : Inv listenfd s net := hwp
    refine ⟨hinv.consistent.inj, hinv.consistent.ne_listen, hinv.tracks,
      hinv.consistent.mem_allset, hinv.consistent.le_maxfd, hinv.consistent.above_maxi, ?_⟩
    intro connfd
    obtain ⟨j, hj, -, he⟩ := hinv.consistent.findSlot_eq connfd
    exact ⟨j, hj, he⟩
  · rintro rfl
    exact hwp
  · rintro c k rfl
    exact hwp.1.target

theorem reach_idle :
    Reach (serverWorld 3 AcceptsInRange) (body 3) (main 3 (Vector.replicate 1024 0), Net.start)
      (.ret (.inl idle), Net.start) := by
  rw [main_eq_start (by decide)]
  exact .refl

theorem representation_invariant_first_accept : ∃ s net,
    Reach (serverWorld 3 AcceptsInRange) (body 3) (main 3 (Vector.replicate 1024 0), Net.start)
      (.ret (.inl s), net) ∧ net.Open 4 ∧ s.Holds 4 ∧ 4 ∈ s.allset ∧ 4 ≤ s.maxfd := by
  have hl : InRange 3 := by decide
  obtain ⟨s, h⟩ := reach_first_accept AcceptsInRange hl (Vector.replicate 1024 0) 4 (by decide)
    (by decide) (fun _ _ _ _ => trivial) ⟨4, rfl, by decide⟩ fun _ => trivial
  obtain ⟨-, -, htracks, hall, hmax, -⟩ := (representation_invariant hl h).1 s rfl
  have hopen : (Net.start.add (4 : ℕ)).Open 4 := Net.open_add_iff.mpr (.inl rfl)
  have hholds : s.Holds 4 := (htracks 4).mpr hopen
  have hmem : 4 ∈ s.allset := (hall 4).mpr (.inr hholds)
  exact ⟨s, _, h, hopen, hholds, hmem, hmax 4 hmem⟩

/-- **Echo and isolation.** At every head of the loop the bytes written to a connection are the
bytes read from it, in order. So two connections, of the same run or of two runs with any clients,
that have sent the server the same have been sent the same. -/
theorem echo_and_isolation {buf : Buf 1024} {s : Locals} {net : Net}
    (h : Reach (serverWorld listenfd fun c r => AcceptsInRange c r ∧ WritesComplete c r)
      (body listenfd) (main listenfd buf, Net.start) (.ret (.inl s), net)) :
    (∀ k, (net.conn k).wr = (net.conn k).rd) ∧
    ∀ (listenfd' : ℤ) (buf' : Buf 1024) (s' : Locals) (net' : Net),
      Reach (serverWorld listenfd' fun c r => AcceptsInRange c r ∧ WritesComplete c r)
        (body listenfd') (main listenfd' buf', Net.start) (.ret (.inl s'), net') →
      ∀ k k', (net.conn k).rd = (net'.conn k').rd → (net.conn k).wr = (net'.conn k').wr := by
  have echo : ∀ {l : ℤ} {b : Buf 1024} {t : Locals} {m : Net},
      Reach (serverWorld l fun c r => AcceptsInRange c r ∧ WritesComplete c r)
        (body l) (main l b, Net.start) (.ret (.inl t), m) →
      ∀ k, (m.conn k).wr = (m.conn k).rd := by
    intro l b t m h k
    by_cases hl : InRange l
    · have hinv : Inv l t m := reach_wp (fun _ _ hr => hr.1) hl h
      have hdel : m.Delivered :=
        h.world (fun _ _ _ hw hr => hw.next hr.2.2) Net.delivered_start
      rw [hdel k, hinv.echoed k]
    · cases (reach_of_not_inRange hl h).1
  refine ⟨echo h, ?_⟩
  intro l' b' s' net' h' k k' hrd
  rw [echo h k, echo h' k', hrd]

/-- Two clients, on descriptors 4 and 5. The first one sends two bytes and ends, a third one gets
its descriptor and sends another byte, and so does the second one. -/
theorem echo_and_isolation_reused : ∃ s net,
    Reach (serverWorld 3 fun c r => AcceptsInRange c r ∧ WritesComplete c r) (body 3)
      (main 3 (Vector.replicate 1024 0), Net.start) (.ret (.inl s), net) ∧
    net.conn 0 = ⟨4, text "ab", text "ab", text "ab", true, false, 1⟩ ∧
    (net.conn 1).rd = text "d" ∧ (net.conn 2).fd = 4 ∧ (net.conn 2).rd = text "c" ∧
    ∀ k, (net.conn k).wr = (net.conn k).rd := by
  have hl : InRange 3 := by decide
  set E : (c : Call) → Res c → Prop := fun c r => AcceptsInRange c r ∧ WritesComplete c r
  have hsel : ∀ nfds rset wset sel, E (.select nfds rset wset) sel :=
    fun _ _ _ _ => ⟨trivial, trivial⟩
  have hread : ∀ fd dst r, E (.read fd dst) r := fun _ _ _ => ⟨trivial, trivial⟩
  have hpr : ∀ t, E (.printf t) () := fun _ => ⟨trivial, trivial⟩
  have hroutine : ∀ c r, Routine c r → E c r := by
    intro c r h
    cases c with
    | read | accept | send | select => exact h.elim
    | write fd src mem => exact ⟨trivial, h⟩
    | _ => exact ⟨trivial, trivial⟩
  have hinv : ∀ {s net}, Reach (serverWorld 3 E) (body 3) (main 3 (Vector.replicate 1024 0),
      Net.start) (.ret (.inl s), net) → Inv 3 s net := reach_wp (fun _ _ hr => hr.1) hl
  obtain ⟨s, h⟩ := reach_first_accept E hl (Vector.replicate 1024 0) 4 (by decide) (by decide) hsel
    ⟨⟨4, rfl, by decide⟩, trivial⟩ hpr
  obtain ⟨s, h⟩ := reach_accept h hsel (hinv h).consistent 5 (by decide) (by decide)
    ((hinv h).wellFormed.not_open rfl) ⟨⟨5, rfl, by decide⟩, trivial⟩ hpr
  obtain ⟨s, h⟩ := reach_echo h hsel hread hroutine (hinv h)
    ((hinv h).wellFormed.open_iff.mpr ⟨0, rfl, rfl⟩ : Net.Open _ 4) (text "ab") (by decide)
    (by decide)
  obtain ⟨s, h⟩ := reach_close h hsel hread hroutine (hinv h)
    ((hinv h).wellFormed.open_iff.mpr ⟨0, rfl, rfl⟩ : Net.Open _ 4)
  obtain ⟨s, h⟩ := reach_accept h hsel (hinv h).consistent 4 (by decide) (by decide)
    (fun hopen => by cases (hinv h).wellFormed.closes_of_open hopen (k := 0) rfl)
    ⟨⟨4, rfl, by decide⟩, trivial⟩ hpr
  obtain ⟨s, h⟩ := reach_echo h hsel hread hroutine (hinv h)
    ((hinv h).wellFormed.open_iff.mpr ⟨2, rfl, rfl⟩ : Net.Open _ 4) (text "c") (by decide)
    (by decide)
  obtain ⟨s, h⟩ := reach_echo h hsel hread hroutine (hinv h)
    ((hinv h).wellFormed.open_iff.mpr ⟨1, rfl, rfl⟩ : Net.Open _ 5) (text "d") (by decide)
    (by decide)
  exact ⟨s, _, h, rfl, rfl, rfl, rfl, (echo_and_isolation h).1⟩

end SelectServer

end UnixNetwork
