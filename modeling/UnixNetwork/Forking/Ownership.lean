import UnixNetwork.Forking

/-!
# Who holds a connection

A server and the children it has forked, each with its own table of descriptors. `fork` copies the
table, so whatever the parent holds at that moment is held by one process more. Connections are
numbered in the order in which they have been accepted. Every call may fail, and a child may end at
any moment, by itself or not; its descriptors are closed then.

The parent holds a connection from its `accept` to its `close`, and the child forked for it until it
ends. Nothing says which of the two is first: a child may be over before its parent has closed the
connection, and then it is the parent's `close` that takes away the last reference.

## Main definitions

* `View`, `descriptors`: the descriptors of a process
* `Process`, `Machine`, `Turn`: the processes and their steps
* `Machine.Held`: some process has a descriptor of a connection
* `Orderly`: what is asked of a server

## Main results

* `wp_main01`, `wp_tcpUnix`: a turn of each program
* `owned`: who holds what in every state
-/

namespace UnixNetwork

namespace Forking

open Interaction

namespace Ownership

/-- An entry of a table in which one entry has been set. -/
theorem of_update {α β : Type} [DecidableEq α] {f : α → Option β} {a b : α} {x : Option β} {y : β}
    (h : Function.update f a x b = some y) : b = a ∧ x = some y ∨ b ≠ a ∧ f b = some y := by
  by_cases hb : b = a
  · rw [hb, Function.update_self] at h
    exact .inl ⟨hb, h⟩
  · rw [Function.update_of_ne hb] at h
    exact .inr ⟨hb, h⟩

/-! ## The descriptors of a process -/

/-- What a descriptor refers to. -/
inductive File where
  | listening
  | conn (k : ℕ)
  | other

/-- The descriptors of a process and where it comes from. -/
structure View where
  /-- The descriptors that are open. -/
  fds : ℤ → Option File
  /-- How many connections the process, or its parent before it was forked, has accepted. -/
  accepted : ℕ
  /-- The connections it has forked a child for. -/
  forked : Finset ℕ
  /-- The connection it has been forked for. -/
  own : Option ℕ

/-- What has happened once a call has returned. -/
def View.next (v : View) : (c : Call) → Res c → View
  | .accept _, .ok x =>
    { v with
      fds := Function.update v.fds x.1 (some (.conn v.accepted))
      accepted := v.accepted + 1 }
  | .close fd, _ => { v with fds := Function.update v.fds fd none }
  | .dup2 old new, .ok _ => { v with fds := Function.update v.fds new (v.fds old) }
  | .fork, .ok 0 => { v with own := some (v.accepted - 1) }
  | .fork, .ok (_ + 1) => { v with forked := insert (v.accepted - 1) v.forked }
  | _, _ => v

/-- Only `fork` forks. -/
theorem View.next_of_ne {c : Call} (hc : c ≠ .fork) (v : View) (r : Res c) :
    (v.next c r).own = v.own ∧ (v.next c r).forked = v.forked := by
  cases c with
  | fork => exact absurd rfl hc
  | accept fd => rcases r with e | x <;> exact ⟨rfl, rfl⟩
  | dup2 old new => rcases r with e | x <;> exact ⟨rfl, rfl⟩
  | _ => exact ⟨rfl, rfl⟩

/-- The surroundings of a process: `accept` returns a descriptor that is free. -/
def descriptors : World process View where
  Allows v c r := match c, r with
    | .accept fd, .ok x => v.fds fd = some .listening ∧ v.fds x.1 = none
    | _, _ => True
  next := View.next

/-! ## The processes -/

/-- A process of a server. -/
structure Process (S : Server) where
  /-- What is left of its turn. -/
  prog : Prog process (S.Locals ⊕ Unit)
  /-- Its descriptors. -/
  view : View

/-- The server and its children. -/
structure Machine (S : Server) where
  /-- The processes that have not ended. -/
  procs : ℕ → Option (Process S)
  /-- The connections whose children have ended. -/
  ended : Finset ℕ

variable {S : Server}

/-- One step of one process; `server` is the number of the parent. -/
inductive Turn (S : Server) (server : ℕ) : Machine S → Machine S → Prop where
  /-- A process begins a turn. -/
  | again {m : Machine S} {pid : ℕ} {p : Process S} {s : S.Locals} (hp : m.procs pid = some p)
      (hs : p.prog = .ret (.inl s)) :
      Turn S server m { m with procs := Function.update m.procs pid (some ⟨S.body s, p.view⟩) }
  /-- A call returns, other than `fork`. -/
  | call {m : Machine S} {pid : ℕ} {p : Process S} {c : Call}
      {k : Res c → Prog process (S.Locals ⊕ Unit)} {r : Res c} (hp : m.procs pid = some p)
      (hc : p.prog = .call c k) (hne : c ≠ .fork) (hr : descriptors.Allows p.view c r) :
      Turn S server m { m with
        procs := Function.update m.procs pid (some ⟨k r, p.view.next c r⟩) }
  /-- `fork` fails. -/
  | forkFails {m : Machine S} {pid : ℕ} {p : Process S}
      {k : Except Errno ℕ → Prog process (S.Locals ⊕ Unit)} {e : Errno} (hp : m.procs pid = some p)
      (hc : p.prog = .call .fork k) :
      Turn S server m { m with procs := Function.update m.procs pid (some ⟨k (.error e), p.view⟩) }
  /-- `fork` returns in both processes. -/
  | fork {m : Machine S} {pid child : ℕ} {p : Process S}
      {k : Except Errno ℕ → Prog process (S.Locals ⊕ Unit)} (hp : m.procs pid = some p)
      (hc : p.prog = .call .fork k) (hfresh : m.procs (child + 1) = none) :
      Turn S server m { m with
        procs := Function.update
          (Function.update m.procs pid (some ⟨k (.ok (child + 1)),
            p.view.next .fork (.ok (child + 1))⟩))
          (child + 1) (some ⟨k (.ok 0), p.view.next .fork (.ok 0)⟩) }
  /-- A child ends. -/
  | ends {m : Machine S} {pid k : ℕ} {p : Process S} (hp : m.procs pid = some p)
      (hpid : pid ≠ server) (hown : p.view.own = some k) :
      Turn S server m ⟨Function.update m.procs pid none, insert k m.ended⟩

/-- The server at the head of its loop, with no child. -/
def Machine.start (S : Server) (server : ℕ) (fds : ℤ → Option File) : Machine S :=
  ⟨Function.update (fun _ => none) server (some ⟨.ret (.inl S.head), ⟨fds, 0, ∅, none⟩⟩), ∅⟩

/-- Some process has a descriptor of connection `k`. -/
def Machine.Held (m : Machine S) (k : ℕ) : Prop :=
  ∃ pid p fd, m.procs pid = some p ∧ p.view.fds fd = some (.conn k)

/-! ## What is asked of a process -/

/-- A process has descriptors of connection `k` and of no other one. -/
structure Owns (k : ℕ) (v : View) : Prop where
  holds : ∃ fd, v.fds fd = some (.conn k)
  only : ∀ fd j, v.fds fd = some (.conn j) → j = k

/-- A process does not listen. -/
def Deaf (v : View) : Prop := ∀ fd, v.fds fd ≠ some .listening

/-- The parent holds no connection. -/
structure Free (listenfd : ℤ) (v : View) : Prop where
  noConn : ∀ fd k, v.fds fd ≠ some (.conn k)
  /-- It listens with one descriptor at most. -/
  listening : ∀ fd, v.fds fd = some .listening → fd = listenfd
  /-- It has forked children for connections that it has accepted. -/
  forked : ∀ k ∈ v.forked, k < v.accepted

/-- The parent holds the connection it has accepted last. -/
structure Accepted (listenfd : ℤ) (n : ℕ) (v : View) : Prop where
  own : v.own = none
  pos : 0 < v.accepted
  holds : v.fds n = some (.conn (v.accepted - 1))
  only : ∀ fd k, v.fds fd = some (.conn k) → fd = n ∧ k + 1 = v.accepted
  listening : ∀ fd, v.fds fd = some .listening → fd = listenfd
  ne : (n : ℤ) ≠ listenfd
  /-- It has forked no child for it yet. -/
  forked : ∀ k ∈ v.forked, k + 1 < v.accepted

/-- A child holds the connection it has been forked for and does not listen. -/
structure Serving (n : ℕ) (v : View) : Prop where
  own : ∃ k, v.own = some k ∧ v.fds n = some (.conn k) ∧ ∀ fd j, v.fds fd = some (.conn j) → j = k
  deaf : Deaf v

/-- What holds of a process between two turns. -/
def Between (listenfd : ℤ) (v : View) : Prop :=
  match v.own with
  | none => Free listenfd v
  | some k => Owns k v ∧ Deaf v

/-- What holds of a process that makes a call. -/
def CallOk (listenfd : ℤ) (v : View) (c : Call) : Prop :=
  match v.own with
  | none => (∀ fd k, v.fds fd = some (.conn k) → k + 1 = v.accepted) ∧
    (c = .fork → v.accepted - 1 ∉ v.forked)
  | some k => Owns k v ∧ c ≠ .fork ∧ (c ≠ .close listenfd → Deaf v)

/-- What is asked of a process. -/
def guard (listenfd : ℤ) : Guard process View :=
  ⟨CallOk listenfd, fun v => v.own ≠ none ∧ Between listenfd v⟩

variable {listenfd : ℤ} {v : View} {n : ℕ}

/-- The parent between two turns. -/
theorem between_iff_free (hown : v.own = none) : Between listenfd v ↔ Free listenfd v := by
  rw [Between, hown]

theorem Serving.owns (h : Serving n v) : ∃ k, v.own = some k ∧ Owns k v := by
  obtain ⟨k, hk, hn, honly⟩ := h.own
  exact ⟨k, hk, ⟨n, hn⟩, honly⟩

theorem Serving.between (h : Serving n v) : Between listenfd v := by
  obtain ⟨k, hk, howns⟩ := h.owns
  rw [Between, hk]
  exact ⟨howns, h.deaf⟩

/-- One more descriptor of the connection. -/
theorem Serving.dup2 (h : Serving n v) (r : Except Errno Unit) :
    Serving n (v.next (.dup2 n 0) r) := by
  rcases r with e | _
  · exact h
  obtain ⟨k, hk, hn, honly⟩ := h.own
  have hfds : ∀ fd, (v.next (.dup2 n 0) (.ok ())).fds fd =
      if fd = 0 then some (.conn k) else v.fds fd := by
    intro fd
    rw [← hn]
    exact Function.update_apply ..
  refine ⟨⟨k, hk, ?_, fun fd j hj => ?_⟩, fun fd hfd => ?_⟩
  · rw [hfds, hn, ite_self]
  · rw [hfds] at hj
    split at hj
    next => cases hj; rfl
    next => exact honly fd j hj
  · rw [hfds] at hfd
    split at hfd
    next => cases hfd
    next => exact h.deaf fd hfd

theorem Serving.own_ne (h : Serving n v) : v.own ≠ none := by
  obtain ⟨k, hk, -⟩ := h.own
  simp [hk]

/-- What is open once a descriptor has been closed was open before. -/
theorem of_close {fds : ℤ → Option File} {fd x : ℤ} {f : File}
    (h : Function.update fds fd none x = some f) : x ≠ fd ∧ fds x = some f :=
  (of_update h).resolve_left fun hx => by cases hx.2

theorem callOk_of_between (h : Between listenfd v) {c : Call} (hc : c ≠ .fork) :
    CallOk listenfd v c := by
  rw [Between] at h
  rw [CallOk]
  split at h
  next => exact ⟨fun fd k hk => absurd hk (h.noConn fd k), fun h => absurd h hc⟩
  next => exact ⟨h.1, hc, fun _ => h.2⟩

/-- Only the parent forks, and no second child for the same connection. -/
theorem callOk_fork (h : CallOk listenfd v .fork) :
    v.own = none ∧ v.accepted - 1 ∉ v.forked := by
  rw [CallOk] at h
  split at h
  next hown => exact ⟨hown, h.2 rfl⟩
  next => exact absurd rfl h.2.1

/-- `accept`. -/
theorem Free.accept (h : Free listenfd v) (hown : v.own = none) {addr : List Byte}
    (hr : descriptors.Allows v (.accept listenfd) (.ok (n, addr))) :
    Accepted listenfd n (v.next (.accept listenfd) (.ok (n, addr))) := by
  have hfds : ∀ fd, (v.next (.accept listenfd) (.ok (n, addr))).fds fd =
      if fd = n then some (.conn v.accepted) else v.fds fd := fun fd => Function.update_apply ..
  refine ⟨hown, Nat.succ_pos _, ?_, fun fd k hk => ?_, fun fd hfd => ?_, fun hn => ?_,
    fun k hk => Nat.succ_lt_succ (h.forked k hk)⟩
  · rw [hfds, if_pos rfl]
    rfl
  · rw [hfds] at hk
    split at hk
    next hfd =>
      cases hk
      exact ⟨hfd, rfl⟩
    next => exact absurd hk (h.noConn fd k)
  · rw [hfds] at hfd
    split at hfd
    next => cases hfd
    next => exact h.listening fd hfd
  · have hlisten : v.fds listenfd = some .listening := hr.1
    have hfree : v.fds n = none := hr.2
    rw [hn, hlisten] at hfree
    cases hfree

namespace Accepted

theorem callOk (h : Accepted listenfd n v) (c : Call) : CallOk listenfd v c := by
  rw [CallOk, h.own]
  refine ⟨fun fd k hk => (h.only fd k hk).2, fun _ hmem => ?_⟩
  have := h.forked _ hmem
  omega

theorem callOk_forked (h : Accepted listenfd n v) {forked : Finset ℕ} :
    CallOk listenfd { v with forked := forked } (.close n) := by
  rw [CallOk, h.own]
  exact ⟨fun fd k hk => (h.only fd k hk).2, fun hc => (by cases hc)⟩

/-- `close` in the parent, whether or not it has forked a child. -/
theorem close (h : Accepted listenfd n v) {forked : Finset ℕ}
    (hforked : ∀ k ∈ forked, k < v.accepted) :
    Between listenfd { v with fds := Function.update v.fds n none, forked := forked } := by
  rw [between_iff_free (by exact h.own)]
  refine ⟨fun fd k hk => ?_, fun fd hfd => h.listening fd (of_close hfd).2, hforked⟩
  obtain ⟨hne, hk⟩ := of_close hk
  exact hne (h.only fd k hk).1

/-- The child may close the listening descriptor. -/
theorem callOk_child (h : Accepted listenfd n v) :
    CallOk listenfd { v with own := some (v.accepted - 1) } (.close listenfd) := by
  refine ⟨⟨⟨n, h.holds⟩, fun fd j hj => ?_⟩, by simp, fun hne => absurd rfl hne⟩
  have := (h.only fd j hj).2
  omega

/-- The child serves its connection once it has closed the listening descriptor. -/
theorem serving (h : Accepted listenfd n v) :
    Serving n { v with
      own := some (v.accepted - 1), fds := Function.update v.fds listenfd none } := by
  refine ⟨⟨v.accepted - 1, rfl, ?_, fun fd j hj => ?_⟩, fun fd hfd => ?_⟩
  · exact (Function.update_of_ne h.ne _ _).trans h.holds
  · have := (h.only fd j (of_close hj).2).2
    omega
  · obtain ⟨hne, hfd⟩ := of_close hfd
    exact hne (h.listening fd hfd)

end Accepted

/-! ## The two programs -/

/-- A turn of a process keeps to the guard and leaves it as it has to be between two turns. -/
abbrev TurnOk (listenfd : ℤ) {σ : Type} (Inv : σ → View → Prop) (p : Prog process (σ ⊕ Unit))
    (v : View) : Prop :=
  wp descriptors (guard listenfd) p (Sum.elim Inv fun _ => Between listenfd) v

/-- **`fork`**, in both processes. The parent closes the connection and is back at the head of its
loop, whether or not there is a child. -/
theorem wp_fork {σ : Type} {Inv : σ → View → Prop} {head : σ}
    {k : Except Errno ℕ → Prog process (σ ⊕ Unit)} (h : Accepted listenfd n v)
    (hparent : ∀ r, countValue r ≠ 0 → k r = .call (.close n) fun _ => .ret (.inl head))
    (hhead : ∀ w, Between listenfd w → w.own = none → Inv head w)
    (hchild : ∃ k', k (.ok 0) = .call (.close listenfd) k' ∧
      ∀ r w, Serving n w → TurnOk listenfd Inv (k' r) w) (r : Except Errno ℕ) :
    TurnOk listenfd Inv (k r) (v.next .fork r) := by
  rcases r with e | pid
  · rw [hparent _ (by simp)]
    exact ⟨h.callOk _, fun _ _ => hhead _ (h.close fun k hk => Nat.lt_of_succ_lt (h.forked k hk))
      h.own⟩
  rcases pid with _ | pid
  · obtain ⟨k', hk, hk'⟩ := hchild
    rw [hk]
    exact ⟨h.callOk_child, fun r _ => hk' r _ h.serving⟩
  · have hpid : countValue (.ok (pid + 1)) ≠ 0 := Int.natCast_ne_zero.mpr (Nat.succ_ne_zero pid)
    have hforked : ∀ k ∈ insert (v.accepted - 1) v.forked, k < v.accepted := by
      intro k hk
      rcases Finset.mem_insert.mp hk with rfl | hk
      · exact Nat.sub_lt h.pos Nat.one_pos
      · exact Nat.lt_of_succ_lt (h.forked k hk)
    rw [hparent _ hpid]
    exact ⟨h.callOk_forked, fun _ _ => hhead _ (h.close hforked) h.own⟩

/-- The parent is at the head of its loop, a child in `str_echo`. -/
def InvMain01 (listenfd : ℤ) (s : Main01) (v : View) : Prop :=
  Between listenfd v ∧
    match s with
    | .head => v.own = none
    | .echo .. => v.own ≠ none

/-- A child that serves its connection. -/
theorem wp_strEcho (hown : v.own ≠ none) (h : Between listenfd v) (socketfd : ℤ)
    (buf : Buf 1024) :
    wp descriptors (guard listenfd) (strEcho socketfd buf)
      (fun _ w => w.own ≠ none ∧ Between listenfd w) v := by
  have hcall : ∀ c, c ≠ .fork → CallOk listenfd v c := fun c => callOk_of_between h
  refine ⟨hcall _ (by simp), fun r _ => ?_⟩
  dsimp only [Prog.bind]
  split
  · -- the NUL may be stored outside the buffer
    refine (silent_storeAt _ _ _).wp_bind ⟨hown, h⟩ fun buf => ?_
    exact ⟨hcall _ (by simp), fun _ _ => ⟨hcall _ (by simp), fun _ _ => ⟨hown, h⟩⟩⟩
  split
  · refine ⟨hcall _ (by simp), fun errno _ => ?_⟩
    dsimp only [Prog.bind]
    split
    · exact ⟨hown, h⟩
    · exact ⟨hcall _ (by simp), fun _ _ => ⟨hown, h⟩⟩
  · exact ⟨hcall _ (by simp), fun _ _ => ⟨hown, h⟩⟩

theorem wp_main01 {s : Main01} (h : InvMain01 listenfd s v) (buf : Buf 1024) :
    TurnOk listenfd (InvMain01 listenfd) (main01 listenfd buf s) v := by
  obtain ⟨hbetween, hs⟩ := h
  rcases s with _ | ⟨connfd, buf⟩
  · have hown : v.own = none := hs
    have hfree : Free listenfd v := (between_iff_free hown).mp hbetween
    have hcall : ∀ c, c ≠ .fork → CallOk listenfd v c := fun c => callOk_of_between hbetween
    refine ⟨hcall _ (by simp), fun r hr => ?_⟩
    rcases r with e | ⟨n, addr⟩
    · refine ⟨hcall _ (by simp), fun errno _ => ?_⟩
      dsimp only [Prog.bind]
      split
      · exact ⟨hcall _ (by simp), fun _ _ => ⟨hbetween, hown⟩⟩
      · exact ⟨hcall _ (by simp), fun _ _ => ⟨hcall _ (by simp), fun _ _ => hbetween⟩⟩
    · have hacc := hfree.accept hown hr
      refine ⟨hacc.callOk _, fun _ _ => ⟨hacc.callOk _, fun r _ => ?_⟩⟩
      refine wp_fork hacc (fun r hr => if_neg hr) (fun w hw hown => ⟨hw, hown⟩) ?_ r
      refine ⟨_, if_pos rfl, fun _ w hw => ?_⟩
      exact ⟨hw.between, hw.own_ne⟩
  · show wp _ _ (strEcho connfd buf >>= _) _ _
    rw [wp_bind]
    refine wp_mono (fun x w hw => ?_) (wp_strEcho hs hbetween connfd buf)
    rcases x with buf | _
    · exact ⟨hw.2, hw.1⟩
    · exact hw.2

theorem wp_tcpUnix (h : Between listenfd v ∧ v.own = none) :
    TurnOk listenfd (fun _ w => Between listenfd w ∧ w.own = none) (tcpUnix listenfd ()) v := by
  obtain ⟨hbetween, hown⟩ := h
  have hfree : Free listenfd v := (between_iff_free hown).mp hbetween
  have hcall : ∀ c, c ≠ .fork → CallOk listenfd v c := fun c => callOk_of_between hbetween
  refine ⟨hcall _ (by simp), fun r hr => ?_⟩
  rcases r with e | ⟨n, addr⟩
  · exact ⟨hcall _ (by simp), fun _ _ => ⟨hbetween, hown⟩⟩
  have hacc := hfree.accept hown hr
  refine ⟨hacc.callOk _, fun r _ => ?_⟩
  refine wp_fork hacc (fun r hr => if_neg hr) (fun w hw hown => ⟨hw, hown⟩) ?_ r
  refine ⟨_, if_pos rfl, fun _ w hw => ?_⟩
  refine ⟨callOk_of_between hw.between (by simp), fun r _ => ?_⟩
  have hw' := hw.dup2 r
  refine ⟨callOk_of_between hw'.between (by simp), fun r _ => ?_⟩
  rcases r with e | _
  · exact ⟨callOk_of_between hw'.between (by simp), fun _ _ => hw'.between⟩
  · exact hw'.between

/-! ## The children and the connections they have been forked for -/

/-- Which child has been forked for which connection: one for each, until it ends. -/
structure Linked (child : ℕ → Option ℕ) (forked ended : Finset ℕ) : Prop where
  sub : ended ⊆ forked
  mem : ∀ pid k, child pid = some k → k ∈ forked ∧ k ∉ ended
  unique : ∀ pid pid' k, child pid = some k → child pid' = some k → pid = pid'
  live : ∀ k ∈ forked, k ∉ ended → ∃ pid, child pid = some k

namespace Linked

variable {child : ℕ → Option ℕ} {forked ended : Finset ℕ} {pid k : ℕ}

theorem start : Linked (fun _ => none) ∅ ∅ :=
  ⟨subset_rfl, fun _ _ h => (by cases h), fun _ _ _ h => (by cases h), fun _ h => (by simp at h)⟩

/-- A child begins. -/
theorem begins (h : Linked child forked ended) (hpid : child pid = none) (hk : k ∉ forked) :
    Linked (Function.update child pid (some k)) (insert k forked) ended := by
  have hne : ∀ pid', child pid' ≠ some k := fun pid' hc => hk (h.mem pid' k hc).1
  refine ⟨h.sub.trans (Finset.subset_insert _ _), fun pid' j hj => ?_, fun p p' j hp hp' => ?_,
    fun j hj hended => ?_⟩
  · rcases of_update hj with ⟨-, hj⟩ | ⟨-, hj⟩
    · obtain rfl := Option.some.inj hj
      exact ⟨Finset.mem_insert_self _ _, fun hended => hk (h.sub hended)⟩
    · exact ⟨Finset.mem_insert_of_mem (h.mem pid' j hj).1, (h.mem pid' j hj).2⟩
  · rcases of_update hp with ⟨hq, hj⟩ | ⟨-, hp⟩ <;> rcases of_update hp' with ⟨hq', hj'⟩ | ⟨-, hp'⟩
    · rw [hq, hq']
    · exact absurd (hj ▸ hp') (hne p')
    · exact absurd (hj' ▸ hp) (hne p)
    · exact h.unique p p' j hp hp'
  · rcases Finset.mem_insert.mp hj with rfl | hj
    · exact ⟨pid, Function.update_self ..⟩
    · obtain ⟨p, hp⟩ := h.live j hj hended
      refine ⟨p, (Function.update_of_ne ?_ _ _).trans hp⟩
      rintro rfl
      cases hpid.symm.trans hp

/-- A child ends. -/
theorem ends (h : Linked child forked ended) (hpid : child pid = some k) :
    Linked (Function.update child pid none) forked (insert k ended) := by
  have hchild : ∀ p j, Function.update child pid none p = some j → p ≠ pid ∧ child p = some j :=
    fun p j hj => (of_update hj).resolve_left fun hp => by cases hp.2
  refine ⟨Finset.insert_subset (h.mem pid k hpid).1 h.sub, fun p j hj => ?_,
    fun p p' j hp hp' => h.unique p p' j (hchild p j hp).2 (hchild p' j hp').2,
    fun j hj hended => ?_⟩
  · obtain ⟨hne, hj⟩ := hchild p j hj
    refine ⟨(h.mem p j hj).1, fun hended => ?_⟩
    rcases Finset.mem_insert.mp hended with rfl | hended
    · exact hne (h.unique p pid j hj hpid)
    · exact (h.mem p j hj).2 hended
  · obtain ⟨hne, hended⟩ := not_or.mp (mt Finset.mem_insert.mpr hended)
    obtain ⟨p, hp⟩ := h.live j hj hended
    refine ⟨p, (Function.update_of_ne ?_ _ _).trans hp⟩
    rintro rfl
    exact hne (Option.some.inj (hp.symm.trans hpid))

end Linked

/-! ## The invariant of the processes -/

namespace Machine

/-- The connection a process has been forked for. -/
def child (m : Machine S) (pid : ℕ) : Option ℕ := (m.procs pid).bind fun p => p.view.own

/-- The connections that process `pid` has forked a child for. -/
def forked (m : Machine S) (pid : ℕ) : Finset ℕ := (m.procs pid).elim ∅ fun p => p.view.forked

theorem child_update (procs : ℕ → Option (Process S)) (ended : Finset ℕ) (pid : ℕ)
    (p : Option (Process S)) : child ⟨Function.update procs pid p, ended⟩ =
      Function.update (child ⟨procs, ended⟩) pid (p.bind fun p => p.view.own) :=
  Function.comp_update (fun p : Option (Process S) => p.bind fun p => p.view.own) procs pid p

theorem forked_update (procs : ℕ → Option (Process S)) (ended : Finset ℕ) (pid : ℕ)
    (p : Option (Process S)) : forked ⟨Function.update procs pid p, ended⟩ =
      Function.update (forked ⟨procs, ended⟩) pid (p.elim ∅ fun p => p.view.forked) :=
  Function.comp_update (fun p : Option (Process S) => p.elim ∅ fun p => p.view.forked) procs pid p

/-- The invariant. -/
structure Good (listenfd : ℤ) (Inv : S.Locals → View → Prop) (server : ℕ) (m : Machine S) :
    Prop where
  /-- The parent has not been forked. -/
  parent : ∃ p, m.procs server = some p ∧ p.view.own = none
  /-- All other processes have been forked. -/
  others : ∀ pid p, m.procs pid = some p → pid ≠ server → p.view.own ≠ none
  /-- Every process is in a turn that keeps to the guard. -/
  turn : ∀ pid p, m.procs pid = some p → TurnOk listenfd Inv p.prog p.view
  /-- There is one child for each connection, until it ends. -/
  linked : Linked m.child (m.forked server) m.ended

end Machine

namespace Machine.Good

variable {Inv : S.Locals → View → Prop} {server pid : ℕ} {m m' : Machine S} {p q : Process S}

/-- The server has not been forked. -/
theorem own_server (h : m.Good listenfd Inv server) (hp : m.procs server = some p) :
    p.view.own = none := by
  obtain ⟨p₀, hp₀, hown⟩ := h.parent
  obtain rfl := Option.some.inj (hp.symm.trans hp₀)
  exact hown

/-- The server is the only process that has not been forked. -/
theorem eq_server (h : m.Good listenfd Inv server) (hp : m.procs pid = some p)
    (hown : p.view.own = none) : pid = server := by
  by_contra hne
  exact h.others pid p hp hne hown

/-- A process has gone on, and has not been forked and has not forked a child. -/
theorem of_set (h : m.Good listenfd Inv server) (hp : m.procs pid = some p)
    (hown : q.view.own = p.view.own) (hforked : q.view.forked = p.view.forked)
    (hq : TurnOk listenfd Inv q.prog q.view) :
    Machine.Good listenfd Inv server
      { m with procs := Function.update m.procs pid (some q) } := by
  have hchild : Machine.child { m with procs := Function.update m.procs pid (some q) } =
      m.child := by
    rw [Machine.child_update]
    exact Function.update_eq_self_iff.mpr (by simp [Machine.child, hp, hown])
  have hserver : Machine.forked { m with procs := Function.update m.procs pid (some q) } =
      m.forked := by
    rw [Machine.forked_update]
    exact Function.update_eq_self_iff.mpr (by simp [Machine.forked, hp, hforked])
  refine ⟨?_, fun i r hr hi => ?_, fun i r hr => ?_, ?_⟩
  · by_cases hi : server = pid
    · subst hi
      exact ⟨q, Function.update_self .., hown.trans (h.own_server hp)⟩
    · obtain ⟨p₀, hp₀, hown₀⟩ := h.parent
      exact ⟨p₀, (Function.update_of_ne hi _ _).trans hp₀, hown₀⟩
  · rcases of_update hr with ⟨rfl, he⟩ | ⟨-, hr⟩
    · obtain rfl := Option.some.inj he
      exact hown ▸ h.others i p hp hi
    · exact h.others i r hr hi
  · rcases of_update hr with ⟨rfl, he⟩ | ⟨-, hr⟩
    · exact Option.some.inj he ▸ hq
    · exact h.turn i r hr
  · rw [hchild, hserver]
    exact h.linked

/-- A child ends. -/
theorem ends (h : m.Good listenfd Inv server) (hp : m.procs pid = some p) (hpid : pid ≠ server)
    {k : ℕ} (hown : p.view.own = some k) :
    Machine.Good listenfd Inv server
      (⟨Function.update m.procs pid none, insert k m.ended⟩ : Machine S) := by
  have hold : ∀ i r, Function.update m.procs pid none i = some r → m.procs i = some r :=
    fun i r hr => ((of_update hr).resolve_left fun he => by cases he.2).2
  obtain ⟨p₀, hp₀, hown₀⟩ := h.parent
  refine ⟨⟨p₀, (Function.update_of_ne hpid.symm _ _).trans hp₀, hown₀⟩,
    fun i r hr hi => h.others i r (hold i r hr) hi, fun i r hr => h.turn i r (hold i r hr), ?_⟩
  rw [Machine.child_update, Machine.forked_update, Function.update_of_ne hpid.symm]
  exact h.linked.ends (by simp [Machine.child, hp, hown])

/-- The parent forks. -/
theorem fork (h : m.Good listenfd Inv server) (hp : m.procs pid = some p)
    {k : Except Errno ℕ → Prog process (S.Locals ⊕ Unit)} (hc : p.prog = .call .fork k)
    {child : ℕ} (hfresh : m.procs (child + 1) = none) :
    Machine.Good listenfd Inv server { m with
      procs := Function.update
        (Function.update m.procs pid (some ⟨k (.ok (child + 1)),
          p.view.next .fork (.ok (child + 1))⟩))
        (child + 1) (some ⟨k (.ok 0), p.view.next .fork (.ok 0)⟩) } := by
  have hturn : TurnOk listenfd Inv (.call .fork k) p.view := hc ▸ h.turn pid p hp
  obtain ⟨hown, hk⟩ := callOk_fork hturn.1
  obtain rfl : pid = server := h.eq_server hp hown
  have hne : pid ≠ child + 1 := by
    rintro rfl
    cases hp.symm.trans hfresh
  set parent : Process S := ⟨k (.ok (child + 1)), p.view.next .fork (.ok (child + 1))⟩
  set forked : Process S := ⟨k (.ok 0), p.view.next .fork (.ok 0)⟩
  set procs := Function.update (Function.update m.procs pid (some parent)) (child + 1) (some forked)
  have hcases : ∀ i r, procs i = some r → i = child + 1 ∧ r = forked ∨ i = pid ∧ r = parent ∨
      i ≠ pid ∧ m.procs i = some r := by
    intro i r hr
    rcases of_update hr with ⟨hi, he⟩ | ⟨-, hr⟩
    · exact .inl ⟨hi, (Option.some.inj he).symm⟩
    rcases of_update hr with ⟨hi, he⟩ | ⟨hi, hr⟩
    · exact .inr (.inl ⟨hi, (Option.some.inj he).symm⟩)
    · exact .inr (.inr ⟨hi, hr⟩)
  have hparent : procs pid = some parent :=
    (Function.update_of_ne hne _ _).trans (Function.update_self ..)
  refine ⟨⟨parent, hparent, hown⟩, fun i r hr hi => ?_, fun i r hr => ?_, ?_⟩
  · rcases hcases i r hr with ⟨-, rfl⟩ | ⟨he, -⟩ | ⟨-, hr⟩
    · exact Option.some_ne_none _
    · exact absurd he hi
    · exact h.others i r hr hi
  · rcases hcases i r hr with ⟨-, rfl⟩ | ⟨-, rfl⟩ | ⟨-, hr⟩
    · exact hturn.2 (.ok 0) trivial
    · exact hturn.2 (.ok (child + 1)) trivial
    · exact h.turn i r hr
  · have hlink : Machine.child { m with procs := procs } =
        Function.update m.child (child + 1) (some (p.view.accepted - 1)) := by
      rw [Machine.child_update, Machine.child_update]
      refine congrArg (fun f => Function.update f (child + 1) _) ?_
      exact Function.update_eq_self_iff.mpr (by simp [Machine.child, hp, parent, View.next])
    have hforked : Machine.forked { m with procs := procs } pid =
        insert (p.view.accepted - 1) (m.forked pid) := by
      simp [Machine.forked, hparent, hp, parent, View.next]
    rw [hlink, hforked]
    refine h.linked.begins (by simp [Machine.child, hfresh]) ?_
    simpa [Machine.forked, hp] using hk

/-- **A step of a process.** -/
theorem step (hbody : ∀ s v, Inv s v → TurnOk listenfd Inv (S.body s) v)
    (h : m.Good listenfd Inv server) (hs : Turn S server m m') :
    m'.Good listenfd Inv server := by
  cases hs with
  | @again pid p s hp hs =>
    have hinv := h.turn pid p hp
    rw [hs] at hinv
    exact h.of_set hp rfl rfl (hbody s _ hinv)
  | @call pid p c k r hp hc hne hr =>
    have hturn := h.turn pid p hp
    rw [hc] at hturn
    obtain ⟨hown, hforked⟩ := View.next_of_ne hne p.view r
    exact h.of_set hp hown hforked (hturn.2 r hr)
  | @forkFails pid p k e hp hc =>
    have hturn := h.turn pid p hp
    rw [hc] at hturn
    exact h.of_set hp rfl rfl (hturn.2 (.error e) trivial)
  | fork hp hc hfresh => exact h.fork hp hc hfresh
  | ends hp hpid hown => exact h.ends hp hpid hown

end Machine.Good

/-! ## Who holds a connection -/

/-- Who may hold what. -/
structure Machine.Owned (listenfd : ℤ) (server : ℕ) (m : Machine S) : Prop where
  /-- The parent holds no connection at the head of its loop. -/
  head : ∀ p s, m.procs server = some p → p.prog = .ret (.inl s) →
    ∀ fd k, p.view.fds fd ≠ some (.conn k)
  /-- A connection is held by the parent, if it is the one accepted last, and by the child forked
  for it. -/
  holder : ∀ pid p fd k, m.procs pid = some p → p.view.fds fd = some (.conn k) →
    pid = server ∧ k + 1 = p.view.accepted ∨ pid ≠ server ∧ p.view.own = some k
  /-- A child that has closed the listening descriptor does not hold it. -/
  deaf : ∀ pid p, m.procs pid = some p → pid ≠ server →
    (∀ k, p.prog ≠ .call (.close listenfd) k) → Deaf p.view
  /-- A connection is held as long as the parent has not closed it, or has forked a child for it
  that has not ended. -/
  held : ∀ k, m.Held k ↔
    (∃ p fd, m.procs server = some p ∧ p.view.fds fd = some (.conn k)) ∨
      k ∈ m.forked server ∧ k ∉ m.ended

/-- The connections a process may hold. -/
def Holding (v : View) : Prop :=
  match v.own with
  | none => ∀ fd k, v.fds fd = some (.conn k) → k + 1 = v.accepted
  | some k => Owns k v

theorem holding_of_callOk {c : Call} (h : CallOk listenfd v c) : Holding v := by
  rw [CallOk] at h
  rw [Holding]
  split at h
  next => exact h.1
  next => exact h.1

theorem holding_of_between (h : Between listenfd v) : Holding v :=
  holding_of_callOk (callOk_of_between (c := .errno) h (by simp))

namespace Machine.Good

variable {Inv : S.Locals → View → Prop} {server pid : ℕ} {m : Machine S} {p : Process S}

theorem holding (hInv : ∀ s v, Inv s v → Between listenfd v) (h : m.Good listenfd Inv server)
    (hp : m.procs pid = some p) : Holding p.view := by
  refine wp_now (J := Holding) (h.turn pid p hp) ?_ (fun _ _ => holding_of_callOk)
    fun _ hf => holding_of_between hf.2
  rintro (s | u) v hv
  · exact holding_of_between (hInv s v hv)
  · exact holding_of_between hv

theorem deaf (hInv : ∀ s v, Inv s v → Between listenfd v) (h : m.Good listenfd Inv server)
    (hp : m.procs pid = some p) (hpid : pid ≠ server)
    (hne : ∀ k, p.prog ≠ .call (.close listenfd) k) : Deaf p.view := by
  have hown := h.others pid p hp hpid
  have hbetween : Between listenfd p.view → Deaf p.view := by
    intro hb
    rw [Between] at hb
    split at hb
    next hnone => exact absurd hnone hown
    next => exact hb.2
  have hturn := h.turn pid p hp
  rcases hprog : p.prog with (s | u) | ⟨c, k⟩ | _ <;> rw [hprog] at hturn
  · exact hbetween (hInv s _ hturn)
  · exact hbetween hturn
  · have hcall : CallOk listenfd p.view c := hturn.1
    rw [CallOk] at hcall
    split at hcall
    next hnone => exact absurd hnone hown
    next =>
      refine hcall.2.2 ?_
      rintro rfl
      exact hne k hprog
  · exact hbetween hturn.2

theorem owned (hInv : ∀ s v, Inv s v → Between listenfd v) (h : m.Good listenfd Inv server) :
    m.Owned listenfd server := by
  have hholder : ∀ pid p fd k, m.procs pid = some p → p.view.fds fd = some (.conn k) →
      pid = server ∧ k + 1 = p.view.accepted ∨ pid ≠ server ∧ p.view.own = some k := by
    intro pid p fd k hp hk
    have hholding := h.holding hInv hp
    rw [Holding] at hholding
    split at hholding
    next hnone =>
      exact .inl ⟨h.eq_server hp hnone, hholding fd k hk⟩
    next j hj =>
      obtain rfl := hholding.only fd k hk
      refine .inr ⟨?_, hj⟩
      rintro rfl
      cases (h.own_server hp).symm.trans hj
  refine ⟨fun p s hp hs => ?_, hholder, fun pid p hp hpid hne => h.deaf hInv hp hpid hne,
    fun k => ⟨?_, ?_⟩⟩
  · have hturn := h.turn server p hp
    rw [hs] at hturn
    exact ((between_iff_free (h.own_server hp)).mp (hInv s _ hturn)).noConn
  · rintro ⟨pid, p, fd, hp, hk⟩
    rcases hholder pid p fd k hp hk with ⟨rfl, -⟩ | ⟨-, hown⟩
    · exact .inl ⟨p, fd, hp, hk⟩
    · exact .inr (h.linked.mem pid k (by simp [Machine.child, hp, hown]))
  · rintro (⟨p, fd, hp, hk⟩ | ⟨hforked, hended⟩)
    · exact ⟨server, p, fd, hp, hk⟩
    · obtain ⟨pid, hpid⟩ := h.linked.live k hforked hended
      obtain ⟨p, hp, hown⟩ := Option.bind_eq_some_iff.mp hpid
      have hholding := h.holding hInv hp
      rw [Holding, hown] at hholding
      obtain ⟨fd, hfd⟩ := hholding.holds
      exact ⟨pid, p, fd, hp, hfd⟩

end Machine.Good

/-- The table of the parent when it begins to accept: a listening descriptor and some others. -/
def startFds (listenfd : ℤ) (others : Finset ℤ) (fd : ℤ) : Option File :=
  if fd = listenfd then some .listening else if fd ∈ others then some .other else none

theorem free_start (listenfd : ℤ) (others : Finset ℤ) :
    Free listenfd ⟨startFds listenfd others, 0, ∅, none⟩ := by
  refine ⟨fun fd k hk => ?_, fun fd hfd => ?_, fun k hk => (by simp at hk)⟩
  · simp only [startFds] at hk
    split at hk
    · cases hk
    · split at hk <;> cases hk
  · simp only [startFds] at hfd
    split at hfd
    next h => exact h
    next => split at hfd <;> cases hfd

theorem good_start {Inv : S.Locals → View → Prop} {others : Finset ℤ}
    (hhead : Inv S.head ⟨startFds listenfd others, 0, ∅, none⟩) (server : ℕ) :
    (Machine.start S server (startFds listenfd others)).Good listenfd Inv server := by
  have hprocs : ∀ pid p, (Machine.start S server (startFds listenfd others)).procs pid = some p →
      pid = server ∧ p = ⟨.ret (.inl S.head), ⟨startFds listenfd others, 0, ∅, none⟩⟩ := by
    intro pid p hp
    have hp' : Function.update (fun _ => none) server (some (⟨.ret (.inl S.head),
        ⟨startFds listenfd others, 0, ∅, none⟩⟩ : Process S)) pid = some p := hp
    rcases of_update hp' with ⟨hpid, he⟩ | ⟨-, he⟩
    · exact ⟨hpid, (Option.some.inj he).symm⟩
    · cases he
  have hserver : (Machine.start S server (startFds listenfd others)).procs server =
      some ⟨.ret (.inl S.head), ⟨startFds listenfd others, 0, ∅, none⟩⟩ := by simp [Machine.start]
  refine ⟨⟨_, hserver, rfl⟩, fun pid p hp hne => absurd (hprocs pid p hp).1 hne,
    fun pid p hp => (hprocs pid p hp).2 ▸ hhead, ?_⟩
  have hchild : (Machine.start S server (startFds listenfd others)).child = fun _ => none := by
    rw [Machine.start, Machine.child_update]
    exact Function.update_eq_self_iff.mpr rfl
  have hforked : (Machine.start S server (startFds listenfd others)).forked server = ∅ := by
    simp [Machine.forked, Machine.start]
  rw [hchild, hforked]
  exact .start

/-- What is asked of a server, whatever else is open when it begins to accept. -/
def Orderly (S : Server) (listenfd : ℤ) : Prop :=
  ∀ server others m, Relation.ReflTransGen (Turn S server)
    (Machine.start S server (startFds listenfd others)) m → m.Owned listenfd server

theorem orderly_of_turn (Inv : S.Locals → View → Prop)
    (hhead : ∀ v, Free listenfd v → v.own = none → Inv S.head v)
    (hInv : ∀ s v, Inv s v → Between listenfd v)
    (hbody : ∀ s v, Inv s v → TurnOk listenfd Inv (S.body s) v) : Orderly S listenfd := by
  intro server others m h
  suffices hgood : m.Good listenfd Inv server from hgood.owned hInv
  induction h with
  | refl => exact good_start (hhead _ (free_start listenfd others) rfl) server
  | tail _ hs ih => exact ih.step hbody hs

/-- **Who holds a connection**: the parent, from `accept` to `close`, and the child forked for it,
until it ends. -/
theorem connections_owned (listenfd : ℤ) (buf : Buf 1024) :
    Orderly (.main01 listenfd buf) listenfd ∧ Orderly (.tcpUnix listenfd) listenfd := by
  constructor
  · exact orderly_of_turn (S := .main01 listenfd buf) (InvMain01 listenfd)
      (fun v h hown => ⟨(between_iff_free hown).mpr h, hown⟩) (fun _ _ h => h.1)
      fun _ _ h => wp_main01 h buf
  · exact orderly_of_turn (S := .tcpUnix listenfd)
      (fun _ v => Between listenfd v ∧ v.own = none)
      (fun v h hown => ⟨(between_iff_free hown).mpr h, hown⟩) (fun _ _ h => h.1)
      fun _ _ h => wp_tcpUnix h

/-- A child that ends before its parent has closed the connection. The connection does not go away
with the child. -/
theorem not_gone_with_child : ¬ ∀ m, Relation.ReflTransGen (Turn (.tcpUnix 3) 1)
    (Machine.start (.tcpUnix 3) 1 (startFds 3 ∅)) m →
      ∀ k ∈ m.forked 1, (m.Held k ↔ k ∉ m.ended) := by
  intro hall
  have h := Relation.ReflTransGen.refl (r := Turn (.tcpUnix 3) 1)
    (a := Machine.start (.tcpUnix 3) 1 (startFds 3 ∅))
  have h := h.tail (.again (show Machine.procs _ 1 = some _ from rfl) rfl)
  have h := h.tail (.call (c := .accept 3) (r := .ok (4, []))
    (show Machine.procs _ 1 = some _ from rfl) rfl (by simp) ⟨rfl, rfl⟩)
  have h := h.tail (.fork (show Machine.procs _ 1 = some _ from rfl) rfl
    (show Machine.procs _ (1 + 1) = none from rfl))
  have h := h.tail (.ends (k := 0) (show Machine.procs _ 2 = some _ from rfl) (by decide) rfl)
  have hforked := hall _ h 0 (by simp [Machine.forked, View.next])
  refine hforked.mp ⟨1, _, 4, rfl, rfl⟩ ?_
  simp

end Ownership

end Forking

end UnixNetwork
