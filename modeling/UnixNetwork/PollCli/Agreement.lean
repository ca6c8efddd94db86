import UnixNetwork.PollCli
import UnixNetwork.StrCli.HalfClose

/-!
# The two clients

The client that polls against the one that selects, in the same surroundings: the same file, the
same socket, any order of readiness, any chunks, ends of the two streams at any time, reads that do
not fail and writes that are complete. `DP_POLL` returns one or two entries of the two registered
descriptors, in any order.

The two agree up to the end of the file. The client that selects half-closes its socket there and
stops asking about the file; the one that polls does neither, so the server is never told, and the
file is read again and again.

The client that polls writes to descriptor 1. If that is the socket itself, what the server has sent
is sent back to it; `PollCli.Diverted` says that this has happened.

## Main definitions

* `Discipline`: what the two clients should have in common, at a head of the loop or at the end
* `PollCli.world`, `PollCli.Relays`: the surroundings, and the invariant

## Main results

* `StrCli.reach_discipline`: the client that selects keeps the discipline
* `PollCli.poll_discipline_iff`: when the client that polls keeps it
-/

namespace UnixNetwork

open Interaction

open StrCli (Session View Stream)

/-- What has been read from the file has been sent, the socket is half-closed at the end of the file
and only then, the file is not read after its end, and the function returns at the end of the socket
that follows. -/
structure Discipline (v : View) (returned : Prop) : Prop where
  /-- All that was read from the file has been sent. -/
  sent : v.sent = v.fpRead
  /-- There has been one `shutdown` if the file has ended, and none if not. -/
  shut : v.shutdowns = if .file ∈ v.ends then 1 else 0
  /-- The end of the file has been read once at most. -/
  once : v.ends.count .file ≤ 1
  /-- The function does not go on after both ends. -/
  returns : v.ends = [.file, .socket] → returned

/-- The end of the socket has no part in the discipline, but for the way the function ends. -/
theorem discipline_socketEnd {v : View} :
    Discipline { v with ends := v.ends ++ [.socket] } True ↔ Discipline v True := by
  constructor
  · rintro ⟨hsent, hshut, honce, -⟩
    exact ⟨hsent, by simpa using hshut, by simpa using honce, fun _ => trivial⟩
  · rintro ⟨hsent, hshut, honce, -⟩
    exact ⟨hsent, by simpa using hshut, by simpa using honce, fun _ => trivial⟩

/-! ## The client that selects -/

namespace StrCli

theorem Inv.discipline {σ : Session} {s : Locals} {v : View} (h : Inv σ s v) (returned : Prop) :
    Discipline v returned := by
  have hends := h.ends
  refine ⟨h.sent, ?_, ?_, fun hboth => ?_⟩
  · rw [h.shutdowns]
    simp only [h.file_mem]
  · rw [hends]
    split <;> decide
  · rw [hends] at hboth
    split at hboth <;> cases hboth

/-- **The client that selects keeps the discipline**, at every head of its loop and where it
ends. -/
theorem reach_discipline {σ : Session} {buf : Buf 1024} {x : Locals ⊕ Exit} {v : View}
    (h : Reach σ.world (body σ.fp σ.sockfd) (strCli buf, View.start) (.ret x, v)) :
    Discipline v (x = .inr .returned) := by
  rcases x with s | e
  · by_cases hr : InRange σ.fp ∧ InRange σ.sockfd
    · exact Inv.discipline (reach_wp hr.1 hr.2 h) _
    · obtain ⟨rfl, -⟩ := reach_of_not_inRange hr h
      exact (inv_start σ buf).discipline _
  · obtain ⟨s, v₀, hinv, rfl, rfl⟩ := reach_ended h
    have hd := discipline_socketEnd.mpr (hinv.discipline True)
    refine ⟨hd.sent, hd.shut, hd.once, fun hboth => ?_⟩
    have hfile : s.stdineof = true := by
      have hmem : .file ∈ v₀.ends ++ [Stream.socket] := by
        rw [show v₀.ends ++ [.socket] = [.file, .socket] from hboth]
        exact List.mem_cons_self
      rw [← hinv.file_mem]
      simpa using hmem
    rw [hfile]
    rfl

end StrCli

/-! ## The client that polls -/

namespace PollCli

/-- `DP_POLL` has stored one or two entries of the two descriptors. -/
structure Polled.Ready (r : Polled) (fp sockfd : ℤ) : Prop where
  /-- The number of entries. -/
  value : r.value = 1 ∨ r.value = 2
  /-- The entries. -/
  entries : ∀ i : Fin 2, (i : ℤ) < r.value → (r.fds.get i).fd = fp ∨ (r.fds.get i).fd = sockfd

/-- What the surroundings may return: to `DP_POLL` entries of the two descriptors, and to the other
calls what they return to the client that selects. -/
def Allows (σ : Session) (v : View) : (c : Call) → Res c → Prop
  | .posix c, r => σ.Allows v c r
  | .dpPoll _ _, r => Polled.Ready r σ.fp σ.sockfd
  | _, _ => True

/-- What has happened once a call has returned. -/
def next (σ : Session) (v : View) : (c : Call) → Res c → View
  | .posix c, r => v.next σ c r
  | _, _ => v

/-- The surroundings of the client. -/
def world (σ : Session) : World devPoll View := ⟨Allows σ, next σ⟩

variable {σ : Session} {v : View}

/-- What the server has sent has been sent back to it. -/
def Diverted (σ : Session) (v : View) : Prop := σ.sockfd = stdoutFileno ∧ v.recvd ≠ []

/-- The invariant of the loop. -/
structure Relays (σ : Session) (v : View) : Prop where
  /-- There is no `shutdown`. -/
  shut : v.shutdowns = 0
  /-- The socket has not ended. -/
  going : .socket ∉ v.ends
  /-- All that was read from the file has been sent, if nothing else goes to the socket. -/
  sent : ¬ Diverted σ v → v.sent = v.fpRead
  /-- More has been sent than was read from the file, if what was received goes to the socket. -/
  longer : Diverted σ v → v.fpRead.length < v.sent.length

/-- How the function has ended: it has returned, at the end of the socket. -/
def Ended (σ : Session) (e : Exit) (v : View) : Prop :=
  e = .returned ∧ ∃ v₀, Relays σ v₀ ∧ v = { v₀ with ends := v₀.ends ++ [.socket] }

theorem relays_start (σ : Session) : Relays σ View.start :=
  ⟨rfl, List.not_mem_nil, fun _ => rfl, fun h => absurd rfl h.2⟩

/-- A write that is complete returns what it was given. -/
theorem countValue_of_complete {size : ℕ} {len : ℤ} {r : Except Errno ℕ}
    (h : ∃ n : ℕ, r = .ok n ∧ (n : ℤ) = (Span.first size len).len) : countValue r = len := by
  obtain ⟨n, rfl, hn⟩ := h
  exact hn

namespace Relays

/-- Bytes from the file, once they have been sent. -/
theorem upload (h : Relays σ v) (bs : List Byte) :
    Relays σ { v with fpRead := v.fpRead ++ bs, sent := v.sent ++ bs } := by
  refine ⟨h.shut, h.going, fun hd => ?_, fun hd => ?_⟩
  · show v.sent ++ bs = v.fpRead ++ bs
    rw [h.sent hd]
  · have := h.longer hd
    simp only [List.length_append]
    omega

/-- The end of the file. -/
theorem fileEnd (h : Relays σ v) : Relays σ { v with ends := v.ends ++ [.file] } := by
  refine ⟨h.shut, ?_, h.sent, h.longer⟩
  simpa using h.going

/-- Bytes from the server, once they have been written to descriptor 1. -/
theorem download (h : Relays σ v) {bs : List Byte} (hbs : bs ≠ []) {src : Span}
    {mem : List Byte} {r : Except Errno ℕ} (hr : taken (src.bytes mem) r = bs) :
    Relays σ (View.next σ { v with recvd := v.recvd ++ bs } (.write stdoutFileno src mem) r) := by
  by_cases hout : stdoutFileno = σ.sockfd
  · have hnext : View.next σ { v with recvd := v.recvd ++ bs } (.write stdoutFileno src mem) r =
        { v with recvd := v.recvd ++ bs, sent := v.sent ++ bs } := by
      rw [View.next, if_pos hout, hr]
    have hpos : 0 < bs.length := List.length_pos_iff.mpr hbs
    have hle : v.fpRead.length ≤ v.sent.length := by
      by_cases hd : Diverted σ v
      · exact (h.longer hd).le
      · rw [h.sent hd]
    rw [hnext]
    refine ⟨h.shut, h.going, fun hd => ?_, fun _ => ?_⟩
    · exact absurd ⟨hout.symm, List.append_ne_nil_of_right_ne_nil _ hbs⟩ hd
    · simp only [List.length_append]
      omega
  · have hnext : View.next σ { v with recvd := v.recvd ++ bs } (.write stdoutFileno src mem) r =
        { v with
          recvd := v.recvd ++ bs
          shown := if stdoutFileno = σ.fp then v.shown ++ bs else v.shown } := by
      rw [View.next, if_neg hout, hr]
      split <;> rfl
    have hnot : ∀ v' : View, ¬ Diverted σ v' := fun v' hd => hout hd.1.symm
    rw [hnext]
    exact ⟨h.shut, h.going, fun _ => h.sent (hnot v), fun hd => absurd hd (hnot _)⟩

/-! ## The parts of a turn -/

/-- Serving an entry keeps the invariant, or it was the end of the socket. -/
theorem wp_serve (h : Relays σ v) (fd : ℤ) (s : Locals) :
    wp (world σ) .none (serve σ.fp σ.sockfd fd s) (Sum.elim (fun _ => Relays σ) (Ended σ)) v := by
  rw [serve]
  split
  · refine ⟨trivial, fun r hr => ?_⟩
    obtain ⟨bs, rfl, hlen, -⟩ := hr
    show wp _ _ (ite _ _ _) _ (v.next σ (.read σ.sockfd (Span.whole maxline)) (.ok bs))
    rw [StrCli.next_read_socket, readBytes_ok]
    by_cases hn : readValue (.ok bs) = 0
    · obtain rfl : bs = [] := readValue_ok_eq_zero.mp hn
      rw [if_pos hn, if_pos hn, List.append_nil]
      exact ⟨rfl, v, h, rfl⟩
    · have hlen' : bs.length ≤ maxline := Int.ofNat_le.mp hlen
      rw [if_neg hn, if_neg hn]
      refine ⟨trivial, fun r' hr' => ?_⟩
      show wp _ _ (ite _ _ _) _ _
      rw [if_neg (not_not.mpr (countValue_of_complete hr'))]
      exact h.download (mt readValue_ok_eq_zero.mpr hn) (StrCli.taken_first_put hlen' hr')
  · split
    · refine ⟨trivial, fun r hr => ?_⟩
      obtain ⟨bs, rfl, hlen, -⟩ := hr
      show wp _ _ (ite _ _ _) _ (v.next σ (.read σ.fp (Span.whole maxline)) (.ok bs))
      rw [StrCli.next_read_file, readBytes_ok]
      by_cases hn : readValue (.ok bs) = 0
      · obtain rfl : bs = [] := readValue_ok_eq_zero.mp hn
        rw [if_pos hn, if_pos hn, List.append_nil]
        exact h.fileEnd
      · have hlen' : bs.length ≤ maxline := Int.ofNat_le.mp hlen
        rw [if_neg hn, if_neg hn]
        refine ⟨trivial, fun r' hr' => ?_⟩
        show wp _ _ (ite _ _ _) _ (View.next σ _ (.write σ.sockfd _ _) r')
        rw [if_neg (not_not.mpr (countValue_of_complete hr')), StrCli.next_write_socket,
          readValue_ok, StrCli.taken_first_put hlen' hr']
        exact h.upload bs
    · exact h

theorem wp_scan (h : Relays σ v) (left i : ℕ) (s : Locals) :
    wp (world σ) .none (scan σ.fp σ.sockfd left i s) (Sum.elim (fun _ => Relays σ) (Ended σ))
      v := by
  induction left generalizing i s v with
  | zero => exact h
  | succ left ih =>
    rw [scan]
    refine (silent_load _ _).wp_bind trivial fun entry => ?_
    rw [wp_bind]
    refine wp_mono ?_ (h.wp_serve entry.fd s)
    rintro (s' | e) v' h'
    · exact ih h' _ _
    · exact h'

/-- **A turn keeps the invariant**, or the function has returned. -/
theorem wp_body (h : Relays σ v) (s : Locals) :
    wp (world σ) .none (body σ.fp σ.sockfd s) (Sum.elim (fun _ => Relays σ) (Ended σ)) v := by
  rw [body, Prog.perform_bind, wp_call]
  exact ⟨trivial, fun r _ => h.wp_scan _ _ _⟩

/-! ## The discipline -/

/-- The invariant, and the discipline, at a head of the loop. -/
theorem discipline_iff (h : Relays σ v) (returned : Prop) :
    Discipline v returned ↔ .file ∉ v.ends ∧ ¬ Diverted σ v := by
  constructor
  · intro hd
    refine ⟨fun hfile => ?_, fun hdiv => ?_⟩
    · have := hd.shut
      rw [h.shut, if_pos hfile] at this
      cases this
    · have := h.longer hdiv
      rw [hd.sent] at this
      exact lt_irrefl _ this
  · rintro ⟨hfile, hdiv⟩
    refine ⟨h.sent hdiv, ?_, ?_, fun hboth => ?_⟩
    · rw [h.shut, if_neg hfile]
    · rw [List.count_eq_zero.mpr hfile]
      exact Nat.zero_le 1
    · rw [hboth] at hfile
      exact absurd List.mem_cons_self hfile

end Relays

/-- The end of the socket changes nothing in that. -/
theorem Ended.discipline_iff {e : Exit} (h : Ended σ e v) :
    Discipline v (e = .returned) ↔ .file ∉ v.ends ∧ ¬ Diverted σ v := by
  obtain ⟨rfl, v₀, h, rfl⟩ := h
  have hmem : .file ∈ v₀.ends ++ [Stream.socket] ↔ .file ∈ v₀.ends := by simp
  rw [eq_self, discipline_socketEnd, hmem]
  exact h.discipline_iff True

/-! ## Whole runs -/

/-- A run of the client, from an uninitialised buffer. -/
abbrev Run (σ : Session) (buf : Buf maxline) : Prog devPoll (Locals ⊕ Exit) × View → Prop :=
  Reach (world σ) (body σ.fp σ.sockfd) (strCli σ.fp σ.sockfd buf, View.start)

theorem run_wp {buf : Buf maxline} {p : Prog devPoll (Locals ⊕ Exit)}
    (h : Run σ buf (p, v)) :
    wp (world σ) .none p (Sum.elim (fun _ => Relays σ) (Ended σ)) v := by
  refine Reach.wp (fun s v hv => Relays.wp_body hv s) h ?_
  exact ⟨trivial, fun _ _ => ⟨trivial, fun _ _ => relays_start σ⟩⟩

/-- **The two clients.** In the same surroundings the client that selects keeps the discipline, at
every head of its loop and where it ends; the client that polls keeps it as long as the file has not
ended and nothing has been diverted, and no longer. -/
theorem poll_discipline_iff (σ : Session) :
    (∀ buf x v, Reach σ.world (StrCli.body σ.fp σ.sockfd) (StrCli.strCli buf, View.start)
      (.ret x, v) → Discipline v (x = .inr .returned)) ∧
    ∀ buf x v, Run σ buf (.ret x, v) →
      (Discipline v (x = .inr .returned) ↔ .file ∉ v.ends ∧ ¬ Diverted σ v) := by
  refine ⟨fun buf x v h => StrCli.reach_discipline h, ?_⟩
  rintro buf (s | e) v h
  · exact Relays.discipline_iff (run_wp h) _
  · rw [Sum.inr.injEq]
    exact Ended.discipline_iff (run_wp h)

/-! ## Runs -/

/-- A first turn in which one descriptor is ready. -/
theorem run_of_serve (fd : ℤ) (hfd : fd = σ.fp ∨ fd = σ.sockfd) {buf : Buf maxline} {v : View}
    {next : Locals → Locals ⊕ Exit}
    (hnext : ∀ s : Locals,
      Executes (world σ) (serve σ.fp σ.sockfd fd s) View.start (next s) v) :
    ∃ s, Run σ buf (.ret (next s), v) := by
  let ready : Polled := ⟨1, #v[⟨fd, pollin, pollin⟩, ⟨fd, pollin, 0⟩]⟩
  let s₀ : Locals := ⟨false, buf, 4, #v[⟨σ.fp, pollin, 0⟩, ⟨σ.sockfd, pollin, 0⟩]⟩
  let s₁ : Locals := { s₀ with pfd := ready.fds }
  have hready : ready.Ready σ.fp σ.sockfd := by
    refine ⟨.inl rfl, fun i hi => ?_⟩
    obtain rfl : i = 0 := by
      have : (i : ℤ) < 1 := hi
      omega
    exact hfd
  have hstart : Executes (world σ) (strCli σ.fp σ.sockfd buf) View.start (.inl s₀) View.start :=
    ⟨.ok 4, trivial, .ok 24, trivial, rfl, rfl⟩
  have hturn : Executes (world σ) (body σ.fp σ.sockfd s₀) View.start (next s₁) v := by
    refine ⟨ready, hready, ?_⟩
    show Executes _ (scan σ.fp σ.sockfd 1 0 s₁) _ _ _
    rw [scan, load_of_lt (by decide), Prog.ret_bind, executes_bind]
    refine ⟨next s₁, v, hnext s₁, ?_⟩
    rcases next s₁ with s | e
    · exact ⟨rfl, rfl⟩
    · exact ⟨rfl, rfl⟩
  exact ⟨s₁, hstart.reach.trans (.head .again hturn.reach)⟩

/-- The end of the socket. -/
theorem executes_socketEnd (v : View) (s : Locals) :
    Executes (world σ) (serve σ.fp σ.sockfd σ.sockfd s) v (.inr .returned)
      { v with ends := v.ends ++ [.socket] } := by
  rw [serve, if_pos rfl]
  refine ⟨.ok [], ⟨[], rfl, Int.natCast_nonneg _, fun h => absurd h σ.ne.symm⟩, rfl, ?_⟩
  show _ = v.next σ (.read σ.sockfd (Span.whole maxline)) (.ok [])
  simp

/-- The end of the file. -/
theorem executes_fileEnd {v : View} (hwhole : v.fpRead = σ.content) (s : Locals) :
    Executes (world σ) (serve σ.fp σ.sockfd σ.fp s) v
      (.inl { s with stdineof := true, buf := s.buf.put 0 [] })
      { v with ends := v.ends ++ [.file] } := by
  rw [serve, if_neg σ.ne, if_pos rfl]
  refine ⟨.ok [], ⟨[], rfl, Int.natCast_nonneg _, fun _ => ⟨?_, fun _ => hwhole⟩⟩, rfl, ?_⟩
  · rw [List.append_nil, hwhole]
  · show _ = v.next σ (.read σ.fp (Span.whole maxline)) (.ok [])
    simp

/-- A client on descriptor 3 whose file, the standard input, is empty. -/
def emptyFile : Session := ⟨0, 3, StrCli.oneLine.ne, []⟩

/-- The server ends the connection first. -/
theorem poll_discipline_iff_server_end : ∃ v,
    Run emptyFile (Buf.zeros maxline) (.ret (.inr .returned), v) ∧ v.ends = [.socket] ∧
      Discipline v True := by
  obtain ⟨-, h⟩ : ∃ s : Locals, Run emptyFile (Buf.zeros maxline)
      (.ret (.inr .returned), { View.start with ends := [.socket] }) :=
    run_of_serve _ (.inr rfl) fun s => executes_socketEnd View.start s
  refine ⟨_, h, rfl, ?_⟩
  have hd := ((poll_discipline_iff emptyFile).2 _ _ _ h).mpr ⟨by decide, fun hd => hd.2 rfl⟩
  simpa using hd

/-- The file has ended, and there has been no `shutdown`. -/
theorem not_discipline_empty_file : ∃ s v, Run emptyFile (Buf.zeros maxline) (.ret (.inl s), v) ∧
    v.ends = [.file] ∧ v.shutdowns = 0 ∧ ¬ Discipline v False := by
  obtain ⟨s, h⟩ : ∃ s : Locals, Run emptyFile (Buf.zeros maxline)
      (.ret (.inl { s with stdineof := true, buf := s.buf.put 0 [] }),
        { View.start with ends := [.file] }) :=
    run_of_serve _ (.inl rfl) fun s => executes_fileEnd rfl s
  refine ⟨_, _, h, rfl, rfl, fun hd => ?_⟩
  cases hd.shut

end PollCli

end UnixNetwork
