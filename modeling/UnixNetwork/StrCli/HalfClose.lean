import UnixNetwork.StrCli
import UnixNetwork.Connections

/-!
# The half-close of the client

What a run of `str_cli` looks like from outside: the bytes that went each way, the order in which
the two streams ended and the calls of `shutdown`. The client may meet any order of readiness, any
chunks and ends of the two streams at any time; only its own reads do not fail and its writes are
complete.

The loop keeps both directions apart although they share `rset` and `buf`. At its head the file's
part of `rset` has been cleared for good once the file has ended, and everything read has been
handed on.

## Main definitions

* `StrCli.Session`, `StrCli.View`: one call of `str_cli`, and what has happened in it
* `StrCli.Session.world`: the surroundings of the client
* `StrCli.View.Sound`, `StrCli.Session.CallOk`: what holds at every moment and at every call

## Main results

* `wp_watch`, `wp_fromServer`, `wp_fromFile`: each part of a turn keeps the invariant
* `reach_sound`, `reach_callOk`, `reach_done`: every moment of every run
* `half_close_discipline`: what is watched, read, shut down and returned
-/

namespace UnixNetwork

namespace StrCli

open Interaction

/-- The two streams the client reads. -/
inductive Stream where
  | file
  | socket
deriving DecidableEq

/-- One call of `str_cli`. -/
structure Session where
  /-- `fileno(fp)`. -/
  fp : ℤ
  /-- The connected socket. -/
  sockfd : ℤ
  /-- They are different descriptors. -/
  ne : fp ≠ sockfd
  /-- The bytes that can be read from `fp`. -/
  content : List Byte

/-- What has happened in a run of `str_cli`. -/
structure View where
  /-- The bytes read from the file. -/
  fpRead : List Byte
  /-- The bytes written to the descriptor of the file. -/
  shown : List Byte
  /-- The bytes written to the socket. -/
  sent : List Byte
  /-- The bytes read from the socket. -/
  recvd : List Byte
  /-- The streams from which an end of file has been read, in order. -/
  ends : List Stream
  /-- The number of calls of `shutdown` on the socket. -/
  shutdowns : ℕ

/-- Nothing has happened. -/
def View.start : View := ⟨[], [], [], [], [], 0⟩

/-- What has happened once a call has returned. -/
def View.next (σ : Session) (v : View) : (c : Call) → Res c → View
  | .read fd _, r =>
    if fd = σ.fp then
      { v with
        fpRead := v.fpRead ++ readBytes r
        ends := if readValue r = 0 then v.ends ++ [.file] else v.ends }
    else if fd = σ.sockfd then
      { v with
        recvd := v.recvd ++ readBytes r
        ends := if readValue r = 0 then v.ends ++ [.socket] else v.ends }
    else v
  | .write fd src mem, r =>
    if fd = σ.sockfd then { v with sent := v.sent ++ taken (src.bytes mem) r }
    else if fd = σ.fp then { v with shown := v.shown ++ taken (src.bytes mem) r }
    else v
  | .shutdownWr fd, _ => if fd = σ.sockfd then { v with shutdowns := v.shutdowns + 1 } else v
  | _, _ => v

/-- What the surroundings may return: `select` any part of what it is asked about, a read some bytes
and from the file those that come next, a write the number of bytes it was given. -/
def Session.Allows (σ : Session) (v : View) : (c : Call) → Res c → Prop
  | .select _ rset _, sel => ∀ fd ∈ sel.rset, fd ∈ rset
  | .read fd dst, r => ∃ bs, r = .ok bs ∧ (bs.length : ℤ) ≤ dst.len ∧
      (fd = σ.fp → v.fpRead ++ bs <+: σ.content ∧ (bs = [] → v.fpRead = σ.content))
  | .write _ src _, r => ∃ n : ℕ, r = .ok n ∧ n = src.len
  | _, _ => True

/-- The surroundings of the client. -/
def Session.world (σ : Session) : World posix View := ⟨σ.Allows, View.next σ⟩

variable {σ : Session} {v : View}

@[simp] theorem world_next (v : View) (c : Call) (r : Res c) :
    σ.world.next v c r = v.next σ c r := rfl

@[simp] theorem next_select (nfds : ℤ) (rset wset : FdSet) (r : Res (.select nfds rset wset)) :
    v.next σ (.select nfds rset wset) r = v := rfl

@[simp] theorem next_printf (t : List Byte) (r : Res (.printf t)) :
    v.next σ (.printf t) r = v := rfl

@[simp] theorem next_read_file (dst : Span) (r : Res (.read σ.fp dst)) :
    v.next σ (.read σ.fp dst) r = { v with
      fpRead := v.fpRead ++ readBytes r
      ends := if readValue r = 0 then v.ends ++ [.file] else v.ends } := if_pos rfl

@[simp] theorem next_read_socket (dst : Span) (r : Res (.read σ.sockfd dst)) :
    v.next σ (.read σ.sockfd dst) r = { v with
      recvd := v.recvd ++ readBytes r
      ends := if readValue r = 0 then v.ends ++ [.socket] else v.ends } := by
  rw [View.next, if_neg σ.ne.symm, if_pos rfl]

/-- The ends that have been read once a read has returned. -/
theorem mem_ends_iff {x y : Stream} {ends : List Stream} {c : Prop} [Decidable c] :
    x ∈ (if c then ends ++ [y] else ends) ↔ x ∈ ends ∨ c ∧ x = y := by
  split <;> simp [*]

@[simp] theorem next_write_socket (src : Span) (mem : List Byte)
    (r : Res (.write σ.sockfd src mem)) : v.next σ (.write σ.sockfd src mem) r =
      { v with sent := v.sent ++ taken (src.bytes mem) r } := if_pos rfl

@[simp] theorem next_write_file (src : Span) (mem : List Byte)
    (r : Res (.write σ.fp src mem)) : v.next σ (.write σ.fp src mem) r =
      { v with shown := v.shown ++ taken (src.bytes mem) r } := by
  rw [View.next, if_neg σ.ne, if_pos rfl]

@[simp] theorem next_shutdownWr (r : Res (.shutdownWr σ.sockfd)) :
    v.next σ (.shutdownWr σ.sockfd) r = { v with shutdowns := v.shutdowns + 1 } := if_pos rfl

/-- A complete write of what has just been read hands on what has been read. -/
theorem taken_first_put {size : ℕ} {buf : Buf size} {bs : List Byte} (h : bs.length ≤ size)
    {r : Except Errno ℕ} (hr : ∃ n : ℕ, r = .ok n ∧ (n : ℤ) = (Span.first size bs.length).len) :
    taken ((Span.first size bs.length).bytes (buf.put 0 bs).toList) r = bs := by
  obtain ⟨n, rfl, hn⟩ := hr
  obtain rfl : n = bs.length := Int.ofNat.inj hn
  rw [Span.bytes_first_put h, taken, countValue_ok, Int.toNat_natCast, List.take_length]

/-! ## What holds at every moment -/

/-- What holds at every moment of a run. -/
structure View.Sound (σ : Session) (v : View) : Prop where
  /-- What has been read from the file is the beginning of its content. -/
  reading : v.fpRead <+: σ.content
  /-- What has been sent is the beginning of what has been read. -/
  trails : v.sent <+: v.fpRead
  /-- What has been shown is the beginning of what has been received. -/
  shown : v.shown <+: v.recvd
  /-- Once the file has ended, its whole content has been sent. -/
  whole : .file ∈ v.ends → v.sent = σ.content
  /-- There is no `shutdown` before the end of the file. -/
  shut : 0 < v.shutdowns → .file ∈ v.ends
  /-- There is one `shutdown` at most. -/
  once : v.shutdowns ≤ 1

/-- What holds when a call is made. -/
def Session.CallOk (σ : Session) (v : View) : Call → Prop
  | .select _ rset _ => .socket ∉ v.ends ∧
      ∀ fd, fd ∈ rset ↔ fd = σ.sockfd ∨ fd = σ.fp ∧ .file ∉ v.ends
  | .read fd dst => .socket ∉ v.ends ∧ dst.InBounds ∧ (fd = σ.sockfd ∨ fd = σ.fp ∧ .file ∉ v.ends)
  | .write fd src _ => .socket ∉ v.ends ∧ src.InBounds ∧
      (fd = σ.fp ∨ fd = σ.sockfd ∧ .file ∉ v.ends)
  | .shutdownWr fd => .socket ∉ v.ends ∧ fd = σ.sockfd ∧ v.shutdowns = 0 ∧ v.sent = σ.content
  | .printf _ => True
  | _ => False

/-- What is asked of the client: a sound view and a proper call each time, and defined behaviour. -/
def Session.guard (σ : Session) : Guard posix View :=
  ⟨fun v c => v.Sound σ ∧ σ.CallOk v c, fun _ => False⟩

/-- What holds when `str_cli` has ended. -/
structure Done (σ : Session) (e : Exit) (v : View) : Prop where
  /-- The view is sound. -/
  sound : v.Sound σ
  /-- How it has ended tells in which order the streams have. -/
  ends : v.ends = match e with
    | .returned => [.file, .socket]
    | .exit1 => [.socket]

/-- The invariant of the loop. -/
structure Inv (σ : Session) (s : Locals) (v : View) : Prop where
  /-- What has been read from the file is the beginning of its content. -/
  reading : v.fpRead <+: σ.content
  /-- All of it has been sent. -/
  sent : v.sent = v.fpRead
  /-- All that was received has been shown. -/
  shown : v.shown = v.recvd
  /-- `stdineof` says whether the file has ended; the socket has not. -/
  ends : v.ends = if s.stdineof then [.file] else []
  /-- At its end all of the file has been read. -/
  whole : s.stdineof = true → v.fpRead = σ.content
  /-- The sending side has been shut down at the end of the file. -/
  shutdowns : v.shutdowns = if s.stdineof then 1 else 0
  /-- `rset` holds no descriptor that is no longer watched. -/
  watched : ∀ fd ∈ s.rset, fd = σ.sockfd ∨ fd = σ.fp ∧ s.stdineof = false

/-- How the function has ended: at a moment in the invariant, at the end of the socket. -/
def Ended (σ : Session) (e : Exit) (v : View) : Prop :=
  ∃ s v₀, Inv σ s v₀ ∧ e = (if s.stdineof then .returned else .exit1) ∧
    v = { v₀ with ends := v₀.ends ++ [.socket] }

theorem inv_start (σ : Session) (buf : Buf 1024) :
    Inv σ { stdineof := false, rset := FdSet.zero, buf := buf } View.start where
  reading := List.nil_prefix
  sent := rfl
  shown := rfl
  ends := rfl
  whole h := by cases h
  shutdowns := rfl
  watched fd hfd := absurd hfd FdSet.notMem_zero

namespace Inv

variable {s : Locals}

theorem file_mem (h : Inv σ s v) : .file ∈ v.ends ↔ s.stdineof = true := by
  rw [h.ends]
  split <;> simp [*]

theorem socket_notMem (h : Inv σ s v) : .socket ∉ v.ends := by
  rw [h.ends]
  split <;> simp

theorem sound (h : Inv σ s v) : v.Sound σ where
  reading := h.reading
  trails := h.sent ▸ List.prefix_refl _
  shown := h.shown ▸ List.prefix_refl _
  whole he := h.sent.trans (h.whole (h.file_mem.mp he))
  shut hs := by
    rw [h.file_mem]
    by_contra hne
    rw [h.shutdowns, if_neg hne] at hs
    exact lt_irrefl 0 hs
  once := by
    rw [h.shutdowns]
    split <;> omega

/-! ## The parts of a turn -/

/-- What is handed to `select`: `sockfd`, and `fp` as long as the file has not ended. -/
theorem mem_watched (h : Inv σ s v) {hfp : InRange σ.fp} {hsock : InRange σ.sockfd} {fd : ℤ} :
    fd ∈ ((if s.stdineof then s.rset else s.rset.insert σ.fp hfp).insert σ.sockfd hsock) ↔
      fd = σ.sockfd ∨ fd = σ.fp ∧ .file ∉ v.ends := by
  rw [FdSet.mem_insert, h.file_mem, Bool.not_eq_true]
  cases heof : s.stdineof with
  | true =>
    rw [if_pos rfl]
    constructor
    · rintro (rfl | hfd)
      · exact .inl rfl
      · exact heof ▸ h.watched fd hfd
    · rintro (rfl | ⟨-, hne⟩)
      · exact .inl rfl
      · cases hne
  | false =>
    rw [if_neg Bool.false_ne_true, FdSet.mem_insert]
    constructor
    · rintro (rfl | rfl | hfd)
      · exact .inl rfl
      · exact .inr ⟨rfl, rfl⟩
      · exact heof ▸ h.watched fd hfd
    · rintro (rfl | ⟨rfl, -⟩)
      · exact .inl rfl
      · exact .inr (.inl rfl)

/-- `select` leaves only descriptors that are still watched. -/
theorem wp_watch (h : Inv σ s v) (hfp : InRange σ.fp) (hsock : InRange σ.sockfd) :
    wp σ.world σ.guard (watch σ.fp σ.sockfd s) (Inv σ) v := by
  rw [watch_eq hfp hsock, wp_call]
  refine ⟨⟨h.sound, h.socket_notMem, fun fd => h.mem_watched⟩, ?_⟩
  intro sel hsel
  refine ⟨h.reading, h.sent, h.shown, h.ends, h.whole, h.shutdowns, ?_⟩
  intro fd hfd
  have hmem := h.mem_watched.mp (hsel fd hfd)
  rwa [h.file_mem, Bool.not_eq_true] at hmem

/-- Bytes from the socket leave the view sound, and the invariant holds again once they have been
shown. -/
theorem receive (h : Inv σ s v) (bs : List Byte) (buf : Buf 1024) :
    View.Sound σ { v with recvd := v.recvd ++ bs } ∧
      Inv σ { s with buf := buf } { v with recvd := v.recvd ++ bs, shown := v.shown ++ bs } :=
  ⟨⟨h.reading, h.sound.trails, h.shown ▸ List.prefix_append _ _, h.sound.whole, h.sound.shut,
    h.sound.once⟩,
    ⟨h.reading, h.sent, by rw [h.shown], h.ends, h.whole, h.shutdowns, h.watched⟩⟩

/-- The end of the socket. -/
theorem socketEnd (h : Inv σ s v) :
    Done σ (if s.stdineof then .returned else .exit1) { v with ends := v.ends ++ [.socket] } := by
  have hmem : ∀ x : Stream, .file = x → (x ∈ v.ends ++ [.socket] ↔ x ∈ v.ends) := by
    rintro _ rfl
    simp
  refine ⟨⟨h.reading, h.sound.trails, h.sound.shown, fun he => ?_, fun hs => ?_, h.sound.once⟩, ?_⟩
  · exact h.sound.whole ((hmem _ rfl).mp he)
  · exact (hmem _ rfl).mpr (h.sound.shut hs)
  · show v.ends ++ [.socket] = _
    rw [h.ends]
    cases s.stdineof <;> rfl

/-- Bytes from the file leave the view sound, and the invariant holds again once they have been
sent. -/
theorem upload (h : Inv σ s v) (heof : s.stdineof = false) {bs : List Byte}
    (hbs : v.fpRead ++ bs <+: σ.content) (buf : Buf 1024) :
    View.Sound σ { v with fpRead := v.fpRead ++ bs } ∧
      Inv σ { s with buf := buf } { v with fpRead := v.fpRead ++ bs, sent := v.sent ++ bs } := by
  have hfile : .file ∉ v.ends := by
    rw [h.file_mem, heof]
    exact Bool.false_ne_true
  refine ⟨⟨hbs, h.sent ▸ List.prefix_append _ _, h.sound.shown, fun he => absurd he hfile,
    h.sound.shut, h.sound.once⟩,
    ⟨hbs, by rw [h.sent], h.shown, h.ends, ?_, h.shutdowns, h.watched⟩⟩
  intro he
  rw [heof] at he
  cases he

/-- The end of the file: the view is sound, and the invariant holds again once the sending side is
shut down and `fp` has left `rset`. -/
theorem fileEnd (h : Inv σ s v) (heof : s.stdineof = false) (hwhole : v.fpRead = σ.content)
    (buf : Buf 1024) :
    View.Sound σ { v with ends := v.ends ++ [.file] } ∧
      Inv σ { stdineof := true, rset := s.rset.erase σ.fp, buf := buf }
        { v with ends := v.ends ++ [.file], shutdowns := v.shutdowns + 1 } := by
  have hends : v.ends = [] := by rw [h.ends, heof]; rfl
  have hshut : v.shutdowns = 0 := by rw [h.shutdowns, heof]; rfl
  refine ⟨⟨h.reading, h.sound.trails, h.sound.shown, fun _ => h.sent.trans hwhole, fun _ => ?_,
    h.sound.once⟩, ⟨h.reading, h.sent, h.shown, ?_, fun _ => hwhole, ?_, fun fd hfd => ?_⟩⟩
  · simp
  · rw [hends]
    rfl
  · rw [hshut]
    rfl
  · obtain ⟨hne, hfd⟩ := FdSet.mem_erase.mp hfd
    exact .inl ((h.watched fd hfd).resolve_right fun hw => hne hw.1)

/-- Serving the socket keeps the invariant, or it was the end of the socket. -/
theorem wp_fromServer (h : Inv σ s v) (hsock : InRange σ.sockfd) :
    wp σ.world σ.guard (fromServer σ.fp σ.sockfd s) (Sum.elim (Inv σ) (Ended σ)) v := by
  by_cases hready : σ.sockfd ∈ s.rset
  · rw [fromServer_of_mem hready, wp_call]
    refine ⟨⟨h.sound, h.socket_notMem, by decide, .inl rfl⟩, ?_⟩
    intro r hr
    obtain ⟨bs, rfl, hlen, -⟩ := hr
    rw [world_next, next_read_socket, readBytes_ok]
    by_cases hn : readValue (.ok bs) = 0
    · obtain rfl : bs = [] := readValue_ok_eq_zero.mp hn
      have hend := h.socketEnd
      have hended := fun e he => (⟨s, v, h, he, rfl⟩ : Ended σ e _)
      rw [if_pos hn, if_pos hn, List.append_nil]
      split <;> rename_i heof <;> simp only [heof] at hend hended
      · exact ⟨⟨hend.sound, trivial⟩, fun _ _ => hended .returned rfl⟩
      · exact ⟨⟨hend.sound, trivial⟩, fun _ _ => hended .exit1 rfl⟩
    · have hlen' : bs.length ≤ 1024 := Int.ofNat_le.mp hlen
      obtain ⟨hsound, hinv⟩ := h.receive bs (s.buf.put 0 bs)
      rw [if_neg hn, if_neg hn, wp_call]
      refine ⟨⟨hsound, h.socket_notMem, Span.inBounds_first hlen', .inl rfl⟩, ?_⟩
      intro r hr
      rw [world_next, next_write_file, readValue_ok, taken_first_put hlen' hr]
      exact hinv
  · rw [fromServer_of_notMem hsock hready]
    exact h

/-- Serving the file keeps the invariant. -/
theorem wp_fromFile (h : Inv σ s v) (hfp : InRange σ.fp) :
    wp σ.world σ.guard (fromFile σ.fp σ.sockfd s) (Inv σ) v := by
  by_cases hready : σ.fp ∈ s.rset
  · have heof : s.stdineof = false := ((h.watched _ hready).resolve_left σ.ne).2
    have hfile : .file ∉ v.ends := by
      rw [h.file_mem, heof]
      exact Bool.false_ne_true
    rw [fromFile_of_mem hready, wp_call]
    refine ⟨⟨h.sound, h.socket_notMem, by decide, .inr ⟨rfl, hfile⟩⟩, ?_⟩
    intro r hr
    obtain ⟨bs, rfl, hlen, hnext⟩ := hr
    obtain ⟨hpre, hend⟩ := hnext rfl
    rw [world_next, next_read_file, readBytes_ok]
    by_cases hn : readValue (.ok bs) = 0
    · obtain rfl : bs = [] := readValue_ok_eq_zero.mp hn
      obtain ⟨hsound, hinv⟩ := h.fileEnd heof (hend rfl) (s.buf.put 0 [])
      rw [if_pos hn, if_pos hn, List.append_nil, wp_call]
      refine ⟨⟨hsound, trivial⟩, ?_⟩
      intro _ _
      rw [world_next, next_printf, wp_call]
      refine ⟨⟨hsound, ?_, rfl, ?_, h.sent.trans (hend rfl)⟩, fun _ _ => ?_⟩
      · simpa using h.socket_notMem
      · rw [h.shutdowns, heof]
        rfl
      · rw [world_next, next_shutdownWr]
        exact hinv
    · have hlen' : bs.length ≤ 1024 := Int.ofNat_le.mp hlen
      obtain ⟨hsound, hinv⟩ := h.upload heof hpre (s.buf.put 0 bs)
      rw [if_neg hn, if_neg hn, wp_call]
      refine ⟨⟨hsound, h.socket_notMem, Span.inBounds_first hlen', .inr ⟨rfl, hfile⟩⟩, ?_⟩
      intro r hr
      rw [world_next, next_write_socket, readValue_ok, taken_first_put hlen' hr]
      exact hinv
  · rw [fromFile_of_notMem hfp hready]
    exact h

/-- **A turn keeps the invariant**, or `str_cli` has ended. -/
theorem wp_body (h : Inv σ s v) (hfp : InRange σ.fp) (hsock : InRange σ.sockfd) :
    wp σ.world σ.guard (body σ.fp σ.sockfd s) (Sum.elim (Inv σ) (Ended σ)) v := by
  rw [body, wp_bind]
  refine wp_mono ?_ (h.wp_watch hfp hsock)
  intro s₁ v₁ h₁
  rw [wp_bind]
  refine wp_mono ?_ (h₁.wp_fromServer hsock)
  intro x v₂ h₂
  rcases x with s₂ | e
  · rw [wp_bind]
    exact wp_mono (fun s₃ v₃ h₃ => h₃) (Inv.wp_fromFile h₂ hfp)
  · exact h₂

end Inv

theorem Ended.done {e : Exit} (h : Ended σ e v) : Done σ e v := by
  obtain ⟨s, v₀, h, rfl, rfl⟩ := h
  exact h.socketEnd

/-! ## Every moment of every run -/

variable {s : Locals} {buf : Buf 1024} {p : Prog posix (Locals ⊕ Exit)}

/-- **The invariant of the run**, for descriptors that fit into an `fd_set`. -/
theorem reach_wp (hfp : InRange σ.fp) (hsock : InRange σ.sockfd)
    (h : Reach σ.world (body σ.fp σ.sockfd) (strCli buf, View.start) (p, v)) :
    wp σ.world σ.guard p (Sum.elim (Inv σ) (Ended σ)) v := by
  refine Reach.wp (fun s v h => h.wp_body hfp hsock) h ?_
  rw [strCli, printf_bind, wp_call]
  exact ⟨⟨(inv_start σ buf).sound, trivial⟩, fun _ _ => inv_start σ buf⟩

/-- With a descriptor that does not fit, the first `FD_SET` of such a descriptor is undefined. -/
theorem body_of_not_inRange (h : ¬ (InRange σ.fp ∧ InRange σ.sockfd)) (rset : FdSet) :
    body σ.fp σ.sockfd { stdineof := false, rset := rset, buf := buf } = .fault := by
  rw [body, watch, if_neg Bool.false_ne_true]
  by_cases hfp : InRange σ.fp
  · have hsock : ¬ InRange σ.sockfd := fun hsock => h ⟨hfp, hsock⟩
    simp [hfp, fdSet_of_not_inRange hsock]
  · simp [fdSet_of_not_inRange hfp]

/-- If a descriptor does not fit into an `fd_set`, the run comes to the head of the loop and no
further. -/
theorem reach_of_not_inRange (hr : ¬ (InRange σ.fp ∧ InRange σ.sockfd))
    (h : Reach σ.world (body σ.fp σ.sockfd) (strCli buf, View.start) (p, v)) :
    v = View.start ∧ (p = strCli buf ∨
      p = .ret (.inl { stdineof := false, rset := FdSet.zero, buf := buf }) ∨ p = .fault) := by
  rcases h.cases_head with h | ⟨_, h₁, h⟩
  · cases h
    exact ⟨rfl, .inl rfl⟩
  rw [strCli, printf_bind] at h₁
  cases h₁ with
  | call _ =>
    rcases h.cases_head with h | ⟨_, h₂, h⟩
    · cases h
      exact ⟨rfl, .inr (.inl rfl)⟩
    cases h₂ with
    | again =>
      rw [body_of_not_inRange hr] at h
      rcases h.cases_head with h | ⟨_, h₃, _⟩
      · cases h
        exact ⟨rfl, .inr (.inr rfl)⟩
      · cases h₃

/-- Every view is sound. -/
theorem reach_sound
    (h : Reach σ.world (body σ.fp σ.sockfd) (strCli buf, View.start) (p, v)) : v.Sound σ := by
  by_cases hr : InRange σ.fp ∧ InRange σ.sockfd
  · refine wp_now (J := View.Sound σ) (reach_wp hr.1 hr.2 h) ?_ (fun _ _ hc => hc.1)
      fun _ hf => hf.elim
    rintro (s | e) v hv
    · exact Inv.sound hv
    · exact (Ended.done hv).sound
  · obtain ⟨rfl, -⟩ := reach_of_not_inRange hr h
    exact (inv_start σ buf).sound

/-- Every call is a proper one. -/
theorem reach_callOk {c : Call} {k : Res c → Prog posix (Locals ⊕ Exit)}
    (h : Reach σ.world (body σ.fp σ.sockfd) (strCli buf, View.start) (.call c k, v)) :
    σ.CallOk v c := by
  by_cases hr : InRange σ.fp ∧ InRange σ.sockfd
  · exact (reach_wp hr.1 hr.2 h).1.2
  · obtain ⟨-, hp | hp | hp⟩ := reach_of_not_inRange hr h
    · rw [strCli, printf_bind] at hp
      cases hp
      trivial
    · cases hp
    · cases hp

/-- Every end is one of a turn that began in the invariant. -/
theorem reach_ended {e : Exit}
    (h : Reach σ.world (body σ.fp σ.sockfd) (strCli buf, View.start) (.ret (.inr e), v)) :
    Ended σ e v := by
  by_cases hr : InRange σ.fp ∧ InRange σ.sockfd
  · exact reach_wp hr.1 hr.2 h
  · obtain ⟨-, hp | hp | hp⟩ := reach_of_not_inRange hr h
    · rw [strCli, printf_bind] at hp
      cases hp
    · cases hp
    · cases hp

/-- Every end is as it should be. -/
theorem reach_done {e : Exit}
    (h : Reach σ.world (body σ.fp σ.sockfd) (strCli buf, View.start) (.ret (.inr e), v)) :
    Done σ e v := (reach_ended h).done

/-- Once the socket has ended nothing but a message is left before `str_cli` ends. -/
theorem exists_exit (hwp : wp σ.world σ.guard p (Sum.elim (Inv σ) (Ended σ)) v)
    (hs : .socket ∈ v.ends) :
    ∃ e, Reach σ.world (body σ.fp σ.sockfd) (p, v) (.ret (.inr e), v) := by
  induction p with
  | ret x =>
    rcases x with s | e
    · exact absurd hs (Inv.socket_notMem hwp)
    · exact ⟨e, .refl⟩
  | call c k ih =>
    obtain ⟨⟨-, hok⟩, hnext⟩ := hwp
    cases c with
    | printf t =>
      obtain ⟨e, he⟩ := ih () (hnext () trivial)
      exact ⟨e, .head (.call trivial) he⟩
    | select | read | write | shutdownWr => exact absurd hs hok.1
    | accept | send | close | eprintf | time => exact hok.elim
  | fault => exact hwp.elim

/-! ## Runs that end -/

theorem Session.allows_of_routine {c : Call} {r : Res c} (h : Routine c r) : σ.Allows v c r := by
  cases c with
  | write => exact h
  | close | shutdownWr | printf => trivial
  | select | accept | read | send | eprintf | time => exact h.elim

section Turns

variable {A : View → (c : Call) → Res c → Prop}

/-- `select` may report any one of the watched descriptors. -/
theorem executes_watch (h : Inv σ s v) (hfp : InRange σ.fp) (hsock : InRange σ.sockfd) {fd : ℤ}
    (hr : InRange fd) (hfd : fd = σ.sockfd ∨ fd = σ.fp ∧ .file ∉ v.ends)
    (hsel : ∀ nfds rset, fd ∈ rset → A v (.select nfds rset .zero) (.only fd hr)) :
    Executes ⟨A, View.next σ⟩ (watch σ.fp σ.sockfd s) v { s with rset := .single fd hr } v := by
  rw [watch_eq hfp hsock, executes_call]
  exact ⟨.only fd hr, hsel _ _ (h.mem_watched.mpr hfd), rfl, rfl⟩

/-- A turn in which the file is ready and the socket is not. -/
theorem executes_fileTurn (h : Inv σ s v) (hfp : InRange σ.fp) (hsock : InRange σ.sockfd)
    (heof : s.stdineof = false)
    (hsel : ∀ nfds rset, σ.fp ∈ rset → A v (.select nfds rset .zero) (.only σ.fp hfp))
    {s' : Locals} {v' : View} (hfile : Executes ⟨A, View.next σ⟩
      (fromFile σ.fp σ.sockfd { s with rset := .single σ.fp hfp }) v s' v') :
    Executes ⟨A, View.next σ⟩ (body σ.fp σ.sockfd s) v (.inl s') v' := by
  have hopen : .file ∉ v.ends := by
    rw [h.file_mem, heof]
    exact Bool.false_ne_true
  have hnot : σ.sockfd ∉ FdSet.single σ.fp hfp := fun hm =>
    σ.ne.symm ((FdSet.mem_single hfp).mp hm)
  rw [body, executes_bind]
  refine ⟨_, v, executes_watch h hfp hsock hfp (.inr ⟨rfl, hopen⟩) hsel, ?_⟩
  rw [fromServer_of_notMem hsock hnot, Prog.ret_bind, executes_bind]
  exact ⟨s', v', hfile, rfl, rfl⟩

/-- A turn in which the socket is ready and the file is not. -/
theorem executes_socketTurn (h : Inv σ s v) (hfp : InRange σ.fp) (hsock : InRange σ.sockfd)
    (hsel : ∀ nfds rset, σ.sockfd ∈ rset → A v (.select nfds rset .zero) (.only σ.sockfd hsock))
    {x : Locals ⊕ Exit} {v' : View} (hserver : Executes ⟨A, View.next σ⟩
      (fromServer σ.fp σ.sockfd { s with rset := .single σ.sockfd hsock }) v x v')
    (hx : ∀ s', x = .inl s' → s'.rset = .single σ.sockfd hsock) :
    Executes ⟨A, View.next σ⟩ (body σ.fp σ.sockfd s) v x v' := by
  rw [body, executes_bind]
  refine ⟨_, v, executes_watch h hfp hsock hsock (.inl rfl) hsel, ?_⟩
  refine executes_bind.mpr ⟨x, v', hserver, ?_⟩
  rcases x with s' | e
  · have hnot : σ.fp ∉ s'.rset := by
      rw [hx s' rfl]
      exact fun hm => σ.ne ((FdSet.mem_single hsock).mp hm)
    show Executes _ (fromFile σ.fp σ.sockfd s' >>= _) _ _ _
    rw [fromFile_of_notMem hfp hnot]
    exact ⟨rfl, rfl⟩
  · exact ⟨rfl, rfl⟩

/-- Bytes from the file are sent. -/
theorem executes_upload (hA : ∀ v c r, Routine c r → A v c r) (h : Inv σ s v)
    (hfp : InRange σ.fp) (hsock : InRange σ.sockfd) (heof : s.stdineof = false)
    (hsel : ∀ nfds rset, σ.fp ∈ rset → A v (.select nfds rset .zero) (.only σ.fp hfp))
    {bs : List Byte} (hbs : bs ≠ []) (hlen : bs.length ≤ 1024)
    (hread : A v (.read σ.fp (Span.whole 1024)) (.ok bs)) : ∃ s', s'.stdineof = false ∧
      Executes ⟨A, View.next σ⟩ (body σ.fp σ.sockfd s) v (.inl s')
        { v with fpRead := v.fpRead ++ bs, sent := v.sent ++ bs } := by
  have hn : ¬ readValue (.ok bs) = 0 := mt readValue_ok_eq_zero.mp hbs
  refine ⟨{ s with rset := .single σ.fp hfp, buf := s.buf.put 0 bs }, heof,
    executes_fileTurn h hfp hsock heof hsel ?_⟩
  rw [fromFile_of_mem ((FdSet.mem_single hfp).mpr rfl), executes_call]
  refine ⟨.ok bs, hread, ?_⟩
  rw [if_neg hn, executes_call]
  refine ⟨.ok bs.length, hA _ _ _ ⟨_, rfl, rfl⟩, rfl, ?_⟩
  simp only [next_read_file, next_write_socket, readBytes_ok, if_neg hn]
  rw [readValue_ok, taken_first_put hlen ⟨_, rfl, rfl⟩]

/-- The file may end as soon as all of it has been read. -/
theorem executes_fileEnd (hA : ∀ v c r, Routine c r → A v c r) (h : Inv σ s v)
    (hfp : InRange σ.fp) (hsock : InRange σ.sockfd) (heof : s.stdineof = false)
    (hsel : ∀ nfds rset, σ.fp ∈ rset → A v (.select nfds rset .zero) (.only σ.fp hfp))
    (hread : A v (.read σ.fp (Span.whole 1024)) (.ok [])) : ∃ s', s'.stdineof = true ∧
      Executes ⟨A, View.next σ⟩ (body σ.fp σ.sockfd s) v (.inl s')
        { v with ends := v.ends ++ [.file], shutdowns := v.shutdowns + 1 } := by
  refine ⟨{ stdineof := true, rset := (FdSet.single σ.fp hfp).erase σ.fp, buf := s.buf.put 0 [] },
    rfl, executes_fileTurn h hfp hsock heof hsel ?_⟩
  rw [fromFile_of_mem ((FdSet.mem_single hfp).mpr rfl), executes_call]
  refine ⟨.ok [], hread, (), hA _ _ _ trivial, (), hA _ _ _ trivial, rfl, ?_⟩
  simp

/-- Bytes from the socket are shown. -/
theorem executes_download (hA : ∀ v c r, Routine c r → A v c r) (h : Inv σ s v)
    (hfp : InRange σ.fp) (hsock : InRange σ.sockfd)
    (hsel : ∀ nfds rset, σ.sockfd ∈ rset → A v (.select nfds rset .zero) (.only σ.sockfd hsock))
    {bs : List Byte} (hbs : bs ≠ []) (hlen : bs.length ≤ 1024)
    (hread : A v (.read σ.sockfd (Span.whole 1024)) (.ok bs)) : ∃ s', s'.stdineof = s.stdineof ∧
      Executes ⟨A, View.next σ⟩ (body σ.fp σ.sockfd s) v (.inl s')
        { v with recvd := v.recvd ++ bs, shown := v.shown ++ bs } := by
  have hn : ¬ readValue (.ok bs) = 0 := mt readValue_ok_eq_zero.mp hbs
  refine ⟨{ s with rset := .single σ.sockfd hsock, buf := s.buf.put 0 bs }, rfl,
    executes_socketTurn h hfp hsock hsel ?_ ?_⟩
  · rw [fromServer_of_mem ((FdSet.mem_single hsock).mpr rfl), executes_call]
    refine ⟨.ok bs, hread, ?_⟩
    rw [if_neg hn, executes_call]
    refine ⟨.ok bs.length, hA _ _ _ ⟨_, rfl, rfl⟩, rfl, ?_⟩
    simp only [next_read_socket, next_write_file, readBytes_ok, if_neg hn]
    rw [readValue_ok, taken_first_put hlen ⟨_, rfl, rfl⟩]
  · rintro _ ⟨⟩
    rfl

/-- The socket may end, and that is the last turn. -/
theorem executes_socketEnd (hA : ∀ v c r, Routine c r → A v c r) (h : Inv σ s v)
    (hfp : InRange σ.fp) (hsock : InRange σ.sockfd)
    (hsel : ∀ nfds rset, σ.sockfd ∈ rset → A v (.select nfds rset .zero) (.only σ.sockfd hsock))
    (hread : A v (.read σ.sockfd (Span.whole 1024)) (.ok [])) : ∃ v',
      Executes ⟨A, View.next σ⟩ (body σ.fp σ.sockfd s) v
        (.inr (if s.stdineof then .returned else .exit1)) v' := by
  refine ⟨v.next σ (.read σ.sockfd (Span.whole 1024)) (.ok []),
    executes_socketTurn h hfp hsock hsel ?_ fun s' hs' => by cases hs'⟩
  rw [fromServer_of_mem ((FdSet.mem_single hsock).mpr rfl), executes_call]
  refine ⟨.ok [], hread, ?_⟩
  rw [if_pos (readValue_ok_eq_zero.mpr rfl)]
  cases s.stdineof with
  | true => exact ⟨(), hA _ _ _ trivial, rfl, rfl⟩
  | false => exact ⟨(), hA _ _ _ trivial, rfl, rfl⟩

end Turns

/-- A client may send its file, find the end of it, show the echo, find the end of the socket and
return. -/
theorem reach_returned (hfp : InRange σ.fp) (hsock : InRange σ.sockfd) (hne : σ.content ≠ [])
    (hlen : σ.content.length ≤ 1024) (buf : Buf 1024) :
    ∃ v, Reach σ.world (body σ.fp σ.sockfd) (strCli buf, View.start)
      (.ret (.inr .returned), v) := by
  have hA : ∀ v c r, Routine c r → σ.Allows v c r := fun v c r h => Session.allows_of_routine h
  have hsel : ∀ v nfds fd hr rset, fd ∈ rset →
      σ.Allows v (.select nfds rset .zero) (.only fd hr) := by
    intro v nfds fd hr rset hfd x hx
    exact (FdSet.mem_single hr).mp hx ▸ hfd
  have hlen' : (σ.content.length : ℤ) ≤ (Span.whole 1024).len := Int.ofNat_le.mpr hlen
  have hstart : Reach σ.world (body σ.fp σ.sockfd) (strCli buf, View.start)
      (.ret (.inl { stdineof := false, rset := FdSet.zero, buf := buf }), View.start) :=
    .single (.call (r := ()) trivial)
  obtain ⟨s₁, hopen, he₁⟩ := executes_upload hA (inv_start σ buf) hfp hsock rfl
    (fun nfds rset => hsel _ nfds _ hfp rset) hne hlen
    ⟨_, rfl, hlen', fun _ => ⟨List.prefix_refl _, fun h => absurd h hne⟩⟩
  have h₁ := hstart.trans (.head .again (Executes.reach (W := σ.world) he₁))
  obtain ⟨s₂, heof, he₂⟩ := executes_fileEnd hA (reach_wp hfp hsock h₁) hfp hsock hopen
    (fun nfds rset => hsel _ nfds _ hfp rset)
    ⟨[], rfl, by decide, fun _ => ⟨(List.append_nil _).symm ▸ List.prefix_refl _, fun _ => rfl⟩⟩
  have h₂ := h₁.trans (.head .again (Executes.reach (W := σ.world) he₂))
  obtain ⟨s₃, hstill, he₃⟩ := executes_download hA (reach_wp hfp hsock h₂) hfp hsock
    (fun nfds rset => hsel _ nfds _ hsock rset) hne hlen
    ⟨_, rfl, hlen', fun hfd => absurd hfd σ.ne.symm⟩
  have h₃ := h₂.trans (.head .again (Executes.reach (W := σ.world) he₃))
  obtain ⟨v, he₄⟩ := executes_socketEnd hA (reach_wp hfp hsock h₃) hfp hsock
    (fun nfds rset => hsel _ nfds _ hsock rset)
    ⟨[], rfl, by decide, fun hfd => absurd hfd σ.ne.symm⟩
  rw [if_pos (hstill.trans heof)] at he₄
  exact ⟨v, h₃.trans (.head .again (Executes.reach (W := σ.world) he₄))⟩

/-- **Half-close and upload.** At every moment of every run: `select` is asked about the socket, and
about the file exactly as long as the file has not ended; the file is not read after its end; there
is one `shutdown` at most, when the whole content of the file has been sent, and no write to the
socket after it; `str_cli` returns only when the file has ended first and the socket second. Once
the socket has ended, `str_cli` ends without another turn, and it does so through `exit(1)` exactly
if the file had not ended. -/
theorem half_close_discipline
    (h : Reach σ.world (body σ.fp σ.sockfd) (strCli buf, View.start) (p, v)) :
    (∀ nfds rset wset k, p = .call (.select nfds rset wset) k →
      ∀ fd, fd ∈ rset ↔ fd = σ.sockfd ∨ fd = σ.fp ∧ .file ∉ v.ends) ∧
    (∀ dst k, p = .call (.read σ.fp dst) k → .file ∉ v.ends) ∧
    v.shutdowns ≤ 1 ∧
    (∀ src mem k, p = .call (.write σ.sockfd src mem) k → v.shutdowns = 0) ∧
    (∀ fd k, p = .call (.shutdownWr fd) k → fd = σ.sockfd ∧ v.sent = σ.content) ∧
    (p = .ret (.inr .returned) → v.ends = [.file, .socket]) ∧
    (p = .ret (.inr .exit1) → v.ends = [.socket]) ∧
    (.socket ∈ v.ends → (∀ s, p ≠ .ret (.inl s)) ∧
      ∃ e, Reach σ.world (body σ.fp σ.sockfd) (p, v) (.ret (.inr e), v) ∧
        (e = .exit1 ↔ v.ends = [.socket])) ∧
    (p = .fault → ¬ (InRange σ.fp ∧ InRange σ.sockfd)) := by
  have hcall : ∀ c k, p = .call c k → σ.CallOk v c := by
    rintro c k rfl
    exact reach_callOk h
  have hdone : ∀ e, p = .ret (.inr e) → Done σ e v := by
    rintro e rfl
    exact reach_done h
  have hsound : v.Sound σ := reach_sound h
  refine ⟨fun nfds rset wset k hp => (hcall _ k hp).2, fun dst k hp => ?_, hsound.once,
    fun src mem k hp => ?_, fun fd k hp => ?_, fun hp => (hdone _ hp).ends,
    fun hp => (hdone _ hp).ends, fun hs => ?_, ?_⟩
  · exact ((hcall _ k hp).2.2.resolve_left σ.ne).2
  · have hfile := ((hcall _ k hp).2.2.resolve_left σ.ne.symm).2
    by_contra hne
    exact hfile (hsound.shut (Nat.pos_of_ne_zero hne))
  · obtain ⟨-, hfd, -, hall⟩ := hcall _ k hp
    exact ⟨hfd, hall⟩
  · by_cases hr : InRange σ.fp ∧ InRange σ.sockfd
    · have hwp := reach_wp hr.1 hr.2 h
      refine ⟨fun s hp => ?_, ?_⟩
      · subst hp
        exact Inv.socket_notMem hwp hs
      · obtain ⟨e, he⟩ := exists_exit hwp hs
        refine ⟨e, he, ?_⟩
        rw [(reach_done (h.trans he)).ends]
        cases e <;> simp
    · obtain ⟨rfl, -⟩ := reach_of_not_inRange hr h
      simp [View.start] at hs
  · rintro rfl hr
    exact reach_wp hr.1 hr.2 h

/-- A client on descriptor 3. On the standard input there is one line. -/
def oneLine : Session := ⟨0, 3, by decide, text "hi\n"⟩

theorem half_close_discipline_one_line : ∃ v,
    Reach oneLine.world (body 0 3) (strCli (Vector.replicate 1024 0), View.start)
      (.ret (.inr .returned), v) ∧ v.ends = [.file, .socket] ∧ v.shutdowns ≤ 1 := by
  have hfp : InRange oneLine.fp := by decide
  have hsock : InRange oneLine.sockfd := by decide
  obtain ⟨v, h⟩ := reach_returned hfp hsock (by decide) (by decide) (Vector.replicate 1024 0)
  obtain ⟨-, -, honce, -, -, hends, -⟩ := half_close_discipline h
  exact ⟨v, h, hends rfl, honce⟩

end StrCli

end UnixNetwork
