import UnixNetwork.Forking.Ownership
import UnixNetwork.Forking.StrEcho

/-!
# The echo of the forking server, with all its children

`main01` of `07/server.c` and the children it forks, which run `str_echo`, in any order of their
steps. A read returns anything for which there is room, or fails; a write is complete, or it fails,
and then the connection is broken.

Each connection is read and written by the child that has been forked for it and by nobody else, so
what is written to it is what has come over it.

## Main definitions

* `Isolation.Stream`, `Isolation.Turn`: what has come and gone over each connection, and the steps
  of the processes
* `Isolation.serving`: the surroundings of one process
* `Isolation.Echoing`: what has been written to a connection

## Main results

* `Isolation.wp_main01`: a turn of a process
* `Isolation.Served.step`: a step of the processes
* `Isolation.isolated`: the echo of each connection
-/

namespace UnixNetwork

namespace Forking

namespace Isolation

open Interaction Ownership

/-! ## Connections -/

/-- What has come and gone over a connection. -/
structure Stream where
  /-- What has been read from it. -/
  read : List Byte
  /-- What has been written to it. -/
  written : List Byte
  /-- A write has failed. -/
  broken : Prop

/-- Nothing has come yet. -/
def Stream.fresh : Stream := ⟨[], [], False⟩

/-- What a call that uses a connection may return. -/
def Stream.Allows (t : Stream) : (c : Call) → Res c → Prop
  | .read _ dst, .ok bs => bs.length ≤ dst.len
  | .write _ src _, .ok n => n = src.len ∧ ¬ t.broken
  | _, _ => True

/-- The connection after it. -/
def Stream.next (t : Stream) : (c : Call) → Res c → Stream
  | .read .., .ok bs => { t with read := t.read ++ bs }
  | .write _ src mem, .ok _ => { t with written := t.written ++ src.bytes mem }
  | .write .., .error _ => { t with broken := True }
  | _, _ => t

/-- The descriptor that a call reads or writes. -/
def uses : Call → Option ℤ
  | .read fd _ => some fd
  | .write fd _ _ => some fd
  | _ => none

theorem Stream.next_of_uses {c : Call} (hc : uses c = none) (t : Stream) (r : Res c) :
    t.next c r = t := by
  cases c with
  | read | write => cases hc
  | _ => rfl

/-- The connections, by their numbers. -/
abbrev Streams : Type := ℕ → Stream

/-- The connection that a call uses, in a process with these descriptors. -/
def conn (v : View) (c : Call) : Option ℕ :=
  match (uses c).bind v.fds with
  | some (.conn k) => some k
  | _ => none

/-- What a call of a process may return. -/
def Streams.Allows (s : Streams) (v : View) (c : Call) (r : Res c) : Prop :=
  ∀ k, conn v c = some k → (s k).Allows c r

/-- The connections after it. -/
def Streams.next (s : Streams) (v : View) (c : Call) (r : Res c) : Streams :=
  match conn v c with
  | some k => Function.update s k ((s k).next c r)
  | none => s

variable {S : Server}

/-- One step of one process; `server` is the number of the parent. -/
inductive Turn (S : Server) (server : ℕ) : Machine S × Streams → Machine S × Streams → Prop where
  /-- A process begins a turn. -/
  | again {m : Machine S} {s : Streams} {pid : ℕ} {p : Process S} {x : S.Locals}
      (hp : m.procs pid = some p) (hx : p.prog = .ret (.inl x)) :
      Turn S server (m, s)
        ({ m with procs := Function.update m.procs pid (some ⟨S.body x, p.view⟩) }, s)
  /-- A call returns, other than `fork`. -/
  | call {m : Machine S} {s : Streams} {pid : ℕ} {p : Process S} {c : Call}
      {k : Res c → Prog process (S.Locals ⊕ Unit)} {r : Res c} (hp : m.procs pid = some p)
      (hc : p.prog = .call c k) (hne : c ≠ .fork) (hr : descriptors.Allows p.view c r)
      (hs : s.Allows p.view c r) :
      Turn S server (m, s) ({ m with
        procs := Function.update m.procs pid (some ⟨k r, p.view.next c r⟩) }, s.next p.view c r)
  /-- `fork` fails. -/
  | forkFails {m : Machine S} {s : Streams} {pid : ℕ} {p : Process S}
      {k : Except Errno ℕ → Prog process (S.Locals ⊕ Unit)} {e : Errno} (hp : m.procs pid = some p)
      (hc : p.prog = .call .fork k) :
      Turn S server (m, s)
        ({ m with procs := Function.update m.procs pid (some ⟨k (.error e), p.view⟩) }, s)
  /-- `fork` returns in both processes. -/
  | fork {m : Machine S} {s : Streams} {pid child : ℕ} {p : Process S}
      {k : Except Errno ℕ → Prog process (S.Locals ⊕ Unit)} (hp : m.procs pid = some p)
      (hc : p.prog = .call .fork k) (hfresh : m.procs (child + 1) = none) :
      Turn S server (m, s) ({ m with
        procs := Function.update
          (Function.update m.procs pid (some ⟨k (.ok (child + 1)),
            p.view.next .fork (.ok (child + 1))⟩))
          (child + 1) (some ⟨k (.ok 0), p.view.next .fork (.ok 0)⟩) }, s)
  /-- A child ends. -/
  | ends {m : Machine S} {s : Streams} {pid k : ℕ} {p : Process S} (hp : m.procs pid = some p)
      (hpid : pid ≠ server) (hown : p.view.own = some k) :
      Turn S server (m, s) (⟨Function.update m.procs pid none, insert k m.ended⟩, s)

/-- A step is one of the processes alone, whatever it does to the connections. -/
theorem Turn.machine {server : ℕ} {a b : Machine S × Streams} (h : Turn S server a b) :
    Ownership.Turn S server a.1 b.1 := by
  cases h with
  | again hp hx => exact .again hp hx
  | call hp hc hne hr _ => exact .call hp hc hne hr
  | forkFails hp hc => exact .forkFails hp hc
  | fork hp hc hfresh => exact .fork hp hc hfresh
  | ends hp hpid hown => exact .ends hp hpid hown

/-! ## One process -/

/-- The surroundings of a process: its descriptors, and its own connection. -/
def serving : World process (View × Stream) where
  Allows w c r := descriptors.Allows w.1 c r ∧ w.2.Allows c r
  next w c r := (w.1.next c r, w.2.next c r)

/-- What has been written is what has been read, as long as the writes succeed. -/
structure Echoing (t : Stream) : Prop where
  /-- What has been written is a beginning of what has been read. -/
  prefixed : t.written <+: t.read
  /-- What has been read has all been written where no write has failed. -/
  complete : ¬ t.broken → t.written = t.read

/-- A process uses no connection but its own. -/
def OwnOnly (v : View) (c : Call) : Prop :=
  ∀ fd, uses c = some fd → ∃ k, v.own = some k ∧ v.fds fd = some (.conn k)

/-- What is asked of a process. -/
def echoing : Guard process (View × Stream) :=
  ⟨fun w c => OwnOnly w.1 c ∧ w.2.written <+: w.2.read, fun w => w.2.written <+: w.2.read⟩

/-- What holds at the head of the loop of the parent, and of a child. -/
def Inv (listenfd : ℤ) : Main01 → View × Stream → Prop
  | .head, w => w.1.own = none ∧ Free listenfd w.1 ∧ w.2 = .fresh
  | .echo connfd _, w => Serving connfd w.1 ∧ Echoing w.2

/-- What is asked of a turn. -/
abbrev Post (listenfd : ℤ) : Main01 ⊕ Unit → View × Stream → Prop :=
  Sum.elim (Inv listenfd) fun _ w => w.2.written <+: w.2.read

variable {listenfd : ℤ} {v : View} {t : Stream} {n : ℕ}

theorem echoing_fresh : Echoing .fresh := ⟨List.prefix_refl [], fun _ => rfl⟩

/-- A call that uses no connection. -/
theorem ownOnly_of_uses {c : Call} (hc : uses c = none) : OwnOnly v c := by
  intro fd hfd
  cases hc.symm.trans hfd

/-- A child may use its connection. -/
theorem ownOnly_of_serving (h : Serving n v) {c : Call} (hc : uses c = some n) : OwnOnly v c := by
  intro fd hfd
  obtain ⟨k, hk, hn, -⟩ := h.own
  cases hc.symm.trans hfd
  exact ⟨k, hk, hn⟩

/-- **A turn of `str_echo`** writes what it reads. -/
theorem wp_strEcho (h : Serving n v) (ht : Echoing t) (buf : Buf 1024) :
    wp serving echoing (strEcho n buf)
      (Sum.elim (fun _ w => Serving n w.1 ∧ Echoing w.2) fun _ w => w.2.written <+: w.2.read)
      (v, t) := by
  obtain ⟨k, hbody, hok, hfull, hend, buf', herror⟩ := StrEcho.exists_strEcho_eq n buf
  rw [hbody]
  refine ⟨⟨ownOnly_of_serving h rfl, ht.prefixed⟩, ?_⟩
  rintro (e | bs) ⟨-, hr⟩
  · rw [herror]
    refine ⟨⟨ownOnly_of_uses rfl, ht.prefixed⟩, fun errno _ => ?_⟩
    rw [StrEcho.afterFailed]
    split
    · exact ⟨h, ht⟩
    · exact ⟨⟨ownOnly_of_uses rfl, ht.prefixed⟩, fun _ _ => ht.prefixed⟩
  have hlen : bs.length ≤ 1024 := Int.ofNat_le.mp hr
  have hread : t.written <+: t.read ++ bs := ht.prefixed.trans (List.prefix_append _ _)
  by_cases hnil : bs = []
  · subst hnil
    rw [hend]
    exact ⟨⟨ownOnly_of_uses rfl, hread⟩, fun _ _ => hread⟩
  rcases Nat.lt_or_eq_of_le hlen with hlt | heq
  · obtain ⟨mem, hbytes, hk⟩ := hok bs hnil hlt
    rw [hk]
    refine ⟨⟨ownOnly_of_uses rfl, hread⟩, fun _ _ =>
      ⟨⟨ownOnly_of_serving h rfl, hread⟩, ?_⟩⟩
    rintro (e | x) ⟨-, hx⟩
    · exact ⟨h, hread, fun hb => absurd trivial hb⟩
    · have hwritten : t.written ++ (Span.first 1024 bs.length).bytes mem.toList = t.read ++ bs := by
        rw [hbytes, ht.complete hx.2]
      exact ⟨h, ⟨[], (List.append_nil _).trans hwritten⟩, fun _ => hwritten⟩
  · rw [hfull bs heq]
    exact hread

/-- **A turn of a process.** -/
theorem wp_main01 {x : Main01} (h : Inv listenfd x (v, t)) (buf : Buf 1024) :
    wp serving echoing (main01 listenfd buf x) (Post listenfd) (v, t) := by
  rcases x with _ | ⟨connfd, buf'⟩
  · obtain ⟨hown, hfree, rfl⟩ : v.own = none ∧ Free listenfd v ∧ t = .fresh := h
    have hempty : Stream.fresh.written <+: Stream.fresh.read := List.prefix_refl []
    have hcall : ∀ v c, uses c = none → echoing.Call (v, .fresh) c := fun v c hc =>
      ⟨ownOnly_of_uses hc, hempty⟩
    refine ⟨hcall _ _ rfl, ?_⟩
    rintro (e | ⟨n, addr⟩) ⟨hr, -⟩
    · refine ⟨hcall _ _ rfl, fun errno _ => ?_⟩
      show wp _ _ (ite _ _ _) _ _
      split
      · exact ⟨hcall _ _ rfl, fun _ _ => ⟨hown, hfree, rfl⟩⟩
      · exact ⟨hcall _ _ rfl, fun _ _ => ⟨hcall _ _ rfl, fun _ _ => hempty⟩⟩
    have hacc := hfree.accept hown hr
    refine ⟨hcall _ _ rfl, fun _ _ => ⟨hcall _ _ rfl, ?_⟩⟩
    have hparent : ∀ forked : Finset ℕ, (∀ k ∈ forked, k < v.accepted + 1) →
        Inv listenfd .head
          (⟨Function.update (Function.update v.fds n (some (.conn v.accepted))) n none,
            v.accepted + 1, forked, v.own⟩, .fresh) := by
      intro forked hforked
      exact ⟨hown, (between_iff_free (by exact hown)).mp (hacc.close hforked), rfl⟩
    rintro (e | _ | pid) -
    · exact ⟨hcall _ _ rfl, fun _ _ => hparent _ fun k hk => Nat.lt_of_succ_lt (hacc.forked k hk)⟩
    · exact ⟨hcall _ _ rfl, fun _ _ => ⟨hacc.serving, echoing_fresh⟩⟩
    · refine ⟨hcall _ _ rfl, fun _ _ => hparent _ fun k hk => ?_⟩
      rcases Finset.mem_insert.mp hk with rfl | hk
      · exact Nat.lt_succ_self _
      · exact Nat.lt_of_succ_lt (hacc.forked k hk)
  · obtain ⟨hserving, ht⟩ : Serving connfd v ∧ Echoing t := h
    show wp _ _ (strEcho connfd buf' >>= _) _ _
    rw [wp_bind]
    refine wp_mono ?_ (wp_strEcho hserving ht buf')
    rintro (buf'' | _) w hw
    · exact hw
    · exact hw

/-! ## All processes -/

/-- The connection a process has been forked for, as it sees it. -/
def stream (s : Streams) (v : View) : Stream := v.own.elim .fresh s

variable {buf : Buf 1024}

/-- What is known of the processes and the connections. -/
structure Served (listenfd : ℤ) (buf : Buf 1024) (server : ℕ)
    (a : Machine (.main01 listenfd buf) × Streams) : Prop where
  /-- The descriptors are held as they are to be. -/
  good : a.1.Good listenfd (InvMain01 listenfd) server
  /-- Every process is in a turn that writes what it reads. -/
  turn : ∀ pid p, a.1.procs pid = some p →
    wp serving echoing p.prog (Post listenfd) (p.view, stream a.2 p.view)
  /-- A connection that no child has been forked for is fresh. -/
  fresh : ∀ k, k ∉ a.1.forked server → a.2 k = .fresh
  /-- What has been written to a connection has been read from it. -/
  echoed : ∀ k, (a.2 k).written <+: (a.2 k).read

namespace Served

variable {server : ℕ} {m : Machine (.main01 listenfd buf)} {s : Streams} {pid : ℕ}
  {p q : Process (.main01 listenfd buf)}

/-- The connection that a process uses is the one it has been forked for. -/
theorem conn_eq {c : Call} {k : ℕ} (h : OwnOnly v c) (hc : conn v c = some k) :
    v.own = some k := by
  rw [conn] at hc
  split at hc
  next j hj =>
    cases hc
    obtain ⟨fd, hfd, hopen⟩ := Option.bind_eq_some_iff.mp hj
    obtain ⟨i, hown, hi⟩ := h fd hfd
    cases hi.symm.trans hopen
    exact hown
  next => cases hc

/-- What a call of a process does to its own connection. -/
theorem stream_next {c : Call} {r : Res c} (h : OwnOnly v c)
    (hown : (v.next c r).own = v.own) :
    stream (s.next v c r) (v.next c r) = (stream s v).next c r := by
  rw [stream, stream, hown, Streams.next]
  cases hc : conn v c with
  | some k =>
    rw [conn_eq h hc]
    exact Function.update_self ..
  | none =>
    -- a call that uses a connection uses the one of the process
    have huses : uses c = none := by
      by_contra hne
      obtain ⟨fd, hfd⟩ := Option.ne_none_iff_exists'.mp hne
      obtain ⟨k, -, hk⟩ := h fd hfd
      rw [conn, hfd, Option.bind_some, hk] at hc
      cases hc
    rw [Stream.next_of_uses huses]

/-- What it returns may be returned by that connection. -/
theorem allows_stream {c : Call} {r : Res c} (h : OwnOnly v c) (hs : s.Allows v c r) :
    (stream s v).Allows c r := by
  cases hc : uses c with
  | none =>
    cases c with
    | read | write => cases hc
    | _ => trivial
  | some fd =>
    obtain ⟨k, hown, hk⟩ := h fd hc
    have hconn : conn v c = some k := by
      rw [conn, hc, Option.bind_some, hk]
    rw [stream, hown]
    exact hs k hconn

/-- Nothing is done to the connection of another process. -/
theorem stream_next_of_ne {c : Call} {r : Res c} {v' : View} (h : OwnOnly v c)
    (hne : ∀ k, v.own = some k → v'.own ≠ some k) :
    stream (s.next v c r) v' = stream s v' := by
  rw [Streams.next]
  cases hc : conn v c with
  | some k =>
    rw [stream, stream]
    cases hown : v'.own with
    | none => rfl
    | some j =>
      refine Function.update_of_ne ?_ _ _
      rintro rfl
      exact hne j (conn_eq h hc) hown
  | none => rfl

/-- Two processes have not been forked for the same connection. -/
theorem own_ne {a : Machine (.main01 listenfd buf) × Streams} (h : Served listenfd buf server a)
    {pid' : ℕ} {p' : Process (.main01 listenfd buf)} (hp : a.1.procs pid = some p)
    (hp' : a.1.procs pid' = some p') (hne : pid' ≠ pid) {k : ℕ} (hk : p.view.own = some k) :
    p'.view.own ≠ some k := by
  intro hk'
  refine hne (h.good.linked.unique pid' pid k ?_ ?_)
  · simp [Machine.child, hp', hk']
  · simp [Machine.child, hp, hk]

/-- What has been written to the connection of a process has been read from it. -/
theorem prefixed_of_wp {x : Prog process (Main01 ⊕ Unit)} {w : View × Stream}
    (h : wp serving echoing x (Post listenfd) w) : w.2.written <+: w.2.read := by
  refine wp_now (J := fun w : View × Stream => w.2.written <+: w.2.read) h ?_
    (fun _ _ hc => hc.2) fun _ (hf : _ <+: _) => hf
  rintro ((_ | ⟨connfd, buf'⟩) | _) w hQ
  · rw [hQ.2.2]
    exact List.prefix_refl []
  · exact hQ.2.prefixed
  · exact hQ

/-- A process has gone on, and has not been forked and has not forked a child. -/
theorem of_set {s' : Streams} (h : Served listenfd buf server (m, s))
    (hgood : Machine.Good listenfd (InvMain01 listenfd) server
      { m with procs := Function.update m.procs pid (some q) })
    (hp : m.procs pid = some p) (hforked : q.view.forked = p.view.forked)
    (hq : wp serving echoing q.prog (Post listenfd) (q.view, stream s' q.view))
    (hothers : ∀ i r, m.procs i = some r → i ≠ pid → stream s' r.view = stream s r.view)
    (hs : ∀ k, s' k = s k ∨ q.view.own = some k ∧ k ∈ m.forked server) :
    Served listenfd buf server
      ({ m with procs := Function.update m.procs pid (some q) }, s') where
  good := hgood
  turn i r hr := by
    rcases of_update hr with ⟨-, he⟩ | ⟨hi, hr⟩
    · exact Option.some.inj he ▸ hq
    · show wp _ _ r.prog _ (r.view, stream s' r.view)
      rw [hothers i r hr hi]
      exact h.turn i r hr
  fresh k hk := by
    have hsame : Machine.forked { m with procs := Function.update m.procs pid (some q) } =
        m.forked := by
      rw [Machine.forked_update]
      exact Function.update_eq_self_iff.mpr (by simp [Machine.forked, hp, hforked])
    rw [hsame] at hk
    rcases hs k with hk' | ⟨-, hmem⟩
    · exact hk'.trans (h.fresh k hk)
    · exact absurd hmem hk
  echoed k := by
    rcases hs k with hk | ⟨hown, -⟩
    · show (s' k).written <+: (s' k).read
      rw [hk]
      exact h.echoed k
    · have hnow := prefixed_of_wp hq
      rw [stream, hown] at hnow
      exact hnow

/-- A call returns. -/
theorem call (h : Served listenfd buf server (m, s)) {c : Call}
    {k : Res c → Prog process (Main01 ⊕ Unit)} {r : Res c}
    (hgood : Machine.Good listenfd (InvMain01 listenfd) server
      { m with procs := Function.update m.procs pid (some ⟨k r, p.view.next c r⟩) })
    (hp : m.procs pid = some p) (hc : p.prog = .call c k) (hne : c ≠ .fork)
    (hr : descriptors.Allows p.view c r) (hs : s.Allows p.view c r) :
    Served listenfd buf server
      ({ m with procs := Function.update m.procs pid (some ⟨k r, p.view.next c r⟩) },
        s.next p.view c r) := by
  have hturn := h.turn pid p hp
  rw [hc] at hturn
  obtain ⟨⟨hownOnly, -⟩, hk⟩ := hturn
  replace hownOnly : OwnOnly p.view c := hownOnly
  obtain ⟨hown, hforked⟩ := View.next_of_ne hne p.view r
  refine h.of_set hgood hp hforked ?_ (fun i q hq hi => ?_) fun j => ?_
  · rw [stream_next hownOnly hown]
    exact hk r ⟨hr, allows_stream hownOnly hs⟩
  · exact stream_next_of_ne hownOnly fun j hj => h.own_ne hp hq hi hj
  · rw [Streams.next]
    cases hconn : conn p.view c with
    | none => exact .inl rfl
    | some i =>
      by_cases hij : j = i
      · subst hij
        have hpown := conn_eq hownOnly hconn
        refine .inr ⟨hown.trans hpown, (h.good.linked.mem pid j ?_).1⟩
        simp [Machine.child, hp, hpown]
      · exact .inl (Function.update_of_ne hij _ _)

/-- The parent forks: nobody has used the connection of the new child. -/
theorem fork (h : Served listenfd buf server (m, s))
    {k : Except Errno ℕ → Prog process (Main01 ⊕ Unit)} {child : ℕ}
    (hgood : Machine.Good listenfd (InvMain01 listenfd) server { m with
      procs := Function.update
        (Function.update m.procs pid (some ⟨k (.ok (child + 1)),
          p.view.next .fork (.ok (child + 1))⟩))
        (child + 1) (some ⟨k (.ok 0), p.view.next .fork (.ok 0)⟩) })
    (hp : m.procs pid = some p) (hc : p.prog = .call .fork k)
    (hnone : m.procs (child + 1) = none) :
    Served listenfd buf server ({ m with
      procs := Function.update
        (Function.update m.procs pid (some ⟨k (.ok (child + 1)),
          p.view.next .fork (.ok (child + 1))⟩))
        (child + 1) (some ⟨k (.ok 0), p.view.next .fork (.ok 0)⟩) }, s) := by
  have hgoodTurn := h.good.turn pid p hp
  rw [hc] at hgoodTurn
  obtain ⟨hown, hunforked⟩ := callOk_fork hgoodTurn.1
  obtain rfl : pid = server := h.good.eq_server hp hown
  have hforked : m.forked pid = p.view.forked := by simp [Machine.forked, hp]
  have hturn := h.turn pid p hp
  rw [hc, stream, hown] at hturn
  have hfresh : s (p.view.accepted - 1) = .fresh := h.fresh _ (hforked ▸ hunforked)
  refine ⟨hgood, fun i q hq => ?_, fun j hj => h.fresh j fun hmem => hj ?_, h.echoed⟩
  · rcases of_update hq with ⟨-, he⟩ | ⟨-, hq⟩
    · cases he
      show wp _ _ (k (.ok 0)) _ (_, s (p.view.accepted - 1))
      rw [hfresh]
      exact hturn.2 (.ok 0) ⟨trivial, trivial⟩
    rcases of_update hq with ⟨-, he⟩ | ⟨-, hq⟩
    · cases he
      show wp _ _ (k (.ok (child + 1))) _ (_, p.view.own.elim .fresh s)
      rw [hown]
      exact hturn.2 (.ok (child + 1)) ⟨trivial, trivial⟩
    · exact h.turn i q hq
  · have hparent : pid ≠ child + 1 := by
      rintro rfl
      cases hnone.symm.trans hp
    have hinsert : Machine.forked { m with
        procs := Function.update
          (Function.update m.procs pid (some ⟨k (.ok (child + 1)),
            p.view.next .fork (.ok (child + 1))⟩))
          (child + 1) (some ⟨k (.ok 0), p.view.next .fork (.ok 0)⟩) } pid =
        insert (p.view.accepted - 1) (m.forked pid) := by
      simp [Machine.forked, hparent, hp, View.next]
    rw [hinsert]
    exact Finset.mem_insert_of_mem hmem

/-- **A step of a process.** -/
theorem step {a b : Machine (.main01 listenfd buf) × Streams}
    (h : Served listenfd buf server a) (hs : Turn (.main01 listenfd buf) server a b) :
    Served listenfd buf server b := by
  have hgood := h.good.step (fun _ _ hv => Ownership.wp_main01 hv buf) hs.machine
  cases hs with
  | @again m s pid p x hp hx =>
    have hturn := h.turn pid p hp
    rw [hx] at hturn
    exact h.of_set hgood hp rfl (wp_main01 hturn buf) (fun _ _ _ _ => rfl) fun _ => .inl rfl
  | call hp hc hne hr hallows => exact h.call hgood hp hc hne hr hallows
  | @forkFails m s pid p k e hp hc =>
    have hturn := h.turn pid p hp
    rw [hc] at hturn
    exact h.of_set hgood hp rfl (hturn.2 (.error e) ⟨trivial, trivial⟩) (fun _ _ _ _ => rfl)
      fun _ => .inl rfl
  | fork hp hc hfresh => exact h.fork hgood hp hc hfresh
  | @ends m s pid k p hp hpid hown =>
    have hforked : Machine.forked ⟨Function.update m.procs pid none, insert k m.ended⟩ server =
        m.forked server := by
      rw [Machine.forked_update, Function.update_of_ne hpid.symm]
      rfl
    refine ⟨hgood, fun i q hq => ?_, fun j hj => h.fresh j (hforked ▸ hj), h.echoed⟩
    rcases of_update hq with ⟨-, he⟩ | ⟨-, hq⟩
    · cases he
    · exact h.turn i q hq

end Served

/-- What comes of the connections. -/
structure Echoed (server : ℕ) (a : Machine (.main01 listenfd buf) × Streams) : Prop where
  /-- What has been written to a connection is a beginning of what has been read from it. -/
  prefixed : ∀ k, (a.2 k).written <+: (a.2 k).read
  /-- All of it has been written when its child begins to read again, unless a write has failed. -/
  complete : ∀ pid p connfd buf' k, a.1.procs pid = some p →
    p.prog = .ret (.inl (.echo connfd buf')) → p.view.own = some k → ¬ (a.2 k).broken →
      (a.2 k).written = (a.2 k).read
  /-- A process reads and writes the connection that it has been forked for. -/
  own : ∀ pid p c next, a.1.procs pid = some p → p.prog = .call c next → OwnOnly p.view c
  /-- Nobody reads or writes a connection that no child has been forked for. -/
  fresh : ∀ k, k ∉ a.1.forked server → a.2 k = .fresh

theorem Served.echoes {server : ℕ} {a : Machine (.main01 listenfd buf) × Streams}
    (h : Served listenfd buf server a) : Echoed server a where
  prefixed := h.echoed
  complete pid p connfd buf' k hp hprog hown hbroken := by
    have hturn := h.turn pid p hp
    rw [hprog, stream, hown] at hturn
    exact hturn.2.complete hbroken
  own pid p c next hp hprog := by
    have hturn := h.turn pid p hp
    rw [hprog] at hturn
    exact hturn.1.1
  fresh := h.fresh

/-- The server at the head of its loop, when nothing has come yet. -/
def start (listenfd : ℤ) (buf : Buf 1024) (server : ℕ) (others : Finset ℤ) :
    Machine (.main01 listenfd buf) × Streams :=
  (.start _ server (startFds listenfd others), fun _ => .fresh)

end Isolation

end Forking

end UnixNetwork
