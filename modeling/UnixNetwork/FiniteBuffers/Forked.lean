import UnixNetwork.FiniteBuffers
import UnixNetwork.Forking

/-!
# The forking server and its clients over connections of finite capacity

`main01` of `07/server.c`, the children it forks, and any number of clients, each in its own call of
`str_cli` of `07/client.c`. As in `FiniteBuffers`, each direction of a connection has room for so
many bytes and no more, and a `write` waits for room byte by byte. No call fails or is interrupted,
so `SIGCHLD` makes no difference to what the programs do. What comes of an `accept` of the server
that it interrupts is said in `Forking.Interrupted`.

A child is what is left of the program of the server at the time of `fork`, which returns 0 in it,
with a copy of the descriptors of the server. A connection is closed when nobody has a descriptor of
it left, be it that the last one has been closed or that its process has ended. A process is called
after the connection for which it has been forked.

## Main definitions

* `Forked.KernelCall`, `Forked.lower`: the calls of a process, as the kernel sees them
* `Forked.Family`: the connections, and the descriptors of all processes
* `Forked.system`: the server, its children and the clients
* `Forked.Good`: what holds of a connection at every moment

* `Forked.contract`: what each program is told of the others and tells them

## Main results

* `Forked.Good.release`: closing descriptors keeps what holds of a connection
* `Forked.fits`: the contracts fit together
-/

namespace UnixNetwork

namespace FiniteBuffers

namespace Forked

open Interaction
open Forking (Main01 process)

variable {ι : Type}

/-! ## The calls of a process -/

/-- The calls as the kernel sees them. -/
inductive KernelCall where
  /-- A call other than `accept`, `write` and `fork`. -/
  | sys (c : Forking.Call)
  /-- A connection is accepted. -/
  | accept (fd : ℤ)
  /-- One byte of a `write`. -/
  | put (fd : ℤ) (b : Byte)
  /-- A process forks. This is what its child is to do. -/
  | fork (child : Prog process (Main01 ⊕ Unit))
  /-- A child begins. -/
  | start
  /-- A process ends. -/
  | exit

/-- Their results. `accept` also tells whose connection it has returned, and `fork` after which
connection the child is called. -/
@[reducible] def KernelRes (ι : Type) : KernelCall → Type
  | .sys c => Forking.Res c
  | .accept _ => ℕ × List Byte × ι
  | .fork _ => ℕ × ι
  | .start => Prog process (Main01 ⊕ Unit)
  | _ => Unit

/-- The interface of the kernel; `ι` are the clients. -/
abbrev kernel (ι : Type) : Interface := ⟨KernelCall, KernelRes ι⟩

/-- What a program is to the kernel. No call fails. -/
def lower : Prog process (Main01 ⊕ Unit) → Prog (kernel ι) (Main01 ⊕ Unit)
  | .ret (.inl x) => .ret (.inl x)
  | .ret (.inr ()) => .call (I := kernel ι) .exit fun _ => .ret (.inr ())
  | .call (.accept fd) k =>
    .call (I := kernel ι) (.accept fd) fun x => lower (k (.ok (x.1, x.2.1)))
  | .call (.write fd src mem) k =>
    Prog.callEach (I := kernel ι) (.put fd) (src.bytes mem) >>= fun _ =>
      lower (k (.ok src.len.toNat))
  | .call .fork k => .call (I := kernel ι) (.fork (k (.ok 0))) fun x => lower (k (.ok x.1))
  | .call c k => .call (I := kernel ι) (.sys c) fun r => lower (k r)
  | .fault => .fault

/-! ## The system -/

/-- All connections, and what the processes have of them. The processes are the server, `none`, and
its children. -/
structure Family (ι : Type) where
  /-- The connection of each client. -/
  pipe : ι → Pipe
  /-- The descriptor that a process has for a connection. -/
  fds : Option ι → ι → Option ℤ
  /-- The server has accepted the connection. -/
  accepted : ι → Bool
  /-- What the child is to do that has been forked for it. -/
  born : ι → Option (Prog process (Main01 ⊕ Unit))

section Family

variable [DecidableEq ι]

/-- The connection of client `i`. -/
def pipeOf (i : ι) : Component (Family ι) Pipe where
  get m := m.pipe i
  set m p := { m with pipe := Function.update m.pipe i p }
  get_set _ _ := Function.update_self ..
  set_get m := by rw [Function.update_eq_self]
  set_set m p q := by rw [Function.update_idem]

/-- A process has accepted the connection of client `i`. -/
def Family.accept (m : Family ι) (x : Option ι) (i : ι) (n : ℕ) : Family ι :=
  { m with
    fds := Function.update m.fds x (Function.update (m.fds x) i (some (n : ℤ)))
    accepted := Function.update m.accepted i true }

/-- A process has forked the child for client `i`. -/
def Family.fork (m : Family ι) (x : Option ι) (i : ι) (child : Prog process (Main01 ⊕ Unit)) :
    Family ι :=
  { m with
    fds := Function.update m.fds (some i) (m.fds x)
    born := Function.update m.born i (some child) }

/-- Something happens to the connection behind a descriptor of a process. -/
def Family.behind (m : Family ι) (x : Option ι) (fd : ℤ) (f : Pipe → Pipe) : Family ι :=
  { m with pipe := fun i => if m.fds x i = some fd then f (m.pipe i) else m.pipe i }

/-- A process closes its descriptors for these connections. A connection for which nobody else has a
descriptor is closed. -/
def Family.release [Fintype ι] (m : Family ι) (x : Option ι) (q : ι → Prop) [DecidablePred q] :
    Family ι :=
  { m with
    fds := Function.update m.fds x fun i => if q i then none else m.fds x i
    pipe := fun i =>
      if q i ∧ m.fds x i ≠ none ∧ ∀ y, y ≠ x → m.fds y i = none then (m.pipe i).onClose
      else m.pipe i }

variable {m : Family ι} {x y : Option ι} {i j : ι} {n : ℕ} {child : Prog process (Main01 ⊕ Unit)}

theorem accept_fds_self : (m.accept x i n).fds x = Function.update (m.fds x) i (some (n : ℤ)) :=
  Function.update_self ..

theorem accept_fds_of_ne (h : y ≠ x) : (m.accept x i n).fds y = m.fds y :=
  Function.update_of_ne h _ _

theorem accept_accepted_self : (m.accept x i n).accepted i = true := Function.update_self ..

theorem accept_accepted_of_ne (h : j ≠ i) : (m.accept x i n).accepted j = m.accepted j :=
  Function.update_of_ne h _ _

theorem fork_fds_self : (m.fork x i child).fds (some i) = m.fds x := Function.update_self ..

theorem fork_fds_of_ne (h : y ≠ some i) : (m.fork x i child).fds y = m.fds y :=
  Function.update_of_ne h _ _

theorem fork_born_self : (m.fork x i child).born i = some child := Function.update_self ..

theorem fork_born_of_ne (h : j ≠ i) : (m.fork x i child).born j = m.born j :=
  Function.update_of_ne h _ _

section Release

variable [Fintype ι] {q : ι → Prop} [DecidablePred q]

theorem release_fds_self : (m.release x q).fds x i = if q i then none else m.fds x i :=
  congrFun (Function.update_self x _ m.fds) i

theorem release_fds_of_ne (h : y ≠ x) : (m.release x q).fds y = m.fds y :=
  Function.update_of_ne h _ _

/-- Nothing happens if nothing is open that is to be closed. -/
theorem release_eq_self (h : ∀ i, q i → m.fds x i = none) : m.release x q = m := by
  have hfds : (m.release x q).fds = m.fds := by
    refine Function.update_eq_self_iff.mpr (funext fun i => ?_)
    split
    · exact (h i ‹_›).symm
    · rfl
  have hpipe : (m.release x q).pipe = m.pipe :=
    funext fun i => if_neg fun hc => hc.2.1 (h i hc.1)
  exact congrArg₂ (fun p f => { m with pipe := p, fds := f }) hpipe hfds

/-- A connection is left alone for which the process has no descriptor. -/
theorem release_pipe_of_none (h : m.fds x i = none) : (m.release x q).pipe i = m.pipe i :=
  if_neg fun hc => hc.2.1 h

/-- A connection is left alone that another process has not left. -/
theorem release_pipe_of_held (hy : y ≠ x) (h : m.fds y i ≠ none) :
    (m.release x q).pipe i = m.pipe i :=
  if_neg fun hc => h (hc.2.2 y hy)

end Release

end Family

/-- The arguments of the programs. -/
structure Setup (ι : Type) where
  /-- The listening descriptor of the server. -/
  listenfd : ℤ
  /-- The array of `str_echo`, which is not initialised. -/
  buf : Buf 1024
  /-- The clients. -/
  client : ι → Client

section System

variable [DecidableEq ι] [Fintype ι] (S : Setup ι)

/-- The surroundings of a process. -/
def processWorld (x : Option ι) : World (kernel ι) (Family ι) where
  Allows m c r := match c, r with
    | .accept fd, (n, _, i) => fd = S.listenfd ∧ (n : ℤ) ≠ S.listenfd ∧
        (∀ j, m.fds x j ≠ some (n : ℤ)) ∧ m.accepted i = false
    | .sys (.read fd dst), r => ∃ bs i, r = .ok bs ∧ (bs.length : ℤ) ≤ dst.len ∧
        m.fds x i = some fd ∧ bs <+: (m.pipe i).up.queue ∧
          (bs = [] → (m.pipe i).up.queue = [] ∧ (m.pipe i).shut = true)
    | .put fd _, _ => ∃ i, m.fds x i = some fd ∧
        (m.pipe i).down.queue.length < (S.client i).down
    | .fork _, (pid, i) => 0 < pid ∧ m.fds x i ≠ none ∧ m.born i = none
    | .start, p => ∃ i, x = some i ∧ m.born i = some p
    | _, _ => True
  next m c r := match c, r with
    | .accept _, (n, _, i) => m.accept x i n
    | .sys (.read fd _), r => m.behind x fd fun p => p.onTake (readBytes r)
    | .put fd b, _ => m.behind x fd fun p => p.onEcho b
    | .fork child, (_, i) => m.fork x i child
    | .sys (.close fd), _ => m.release x fun i => m.fds x i = some fd
    | .exit, _ => m.release x fun _ => True
    | _, _ => m

/-- The server and its children, on the left, and the clients. -/
def system : System (Option ι ⊕ ι) (Family ι) where
  I
    | .inl _ => kernel ι
    | .inr _ => wire ι
  σ
    | .inl _ => Main01
    | .inr _ => StrCli.Locals
  ρ
    | .inl _ => Unit
    | .inr _ => StrCli.Exit
  world
    | .inl x => processWorld S x
    | .inr i => (clientWorld (S.client i)).within (pipeOf i)
  body
    | .inl _ => fun s => lower (Forking.main01 S.listenfd S.buf s)
    | .inr i => clientBody (S.client i)

/-- All programs at their beginning; every client has connected, and nothing has been forked. -/
def start : (system S).State where
  fst
    | .inl none => .ret (.inl .head)
    | .inl (some _) => .call (I := kernel ι) .start lower
    | .inr i => clientStart (S.client i)
  snd := ⟨fun i => .start (S.client i).session.content, fun _ _ => none, fun _ => false,
    fun _ => none⟩

end System

/-! ## What holds of a connection -/

/-- What holds of the connection of client `i` at every moment. -/
structure Good (S : Setup ι) (i : ι) (m : Family ι) : Prop where
  /-- What holds of what is under way. -/
  sound : (S.client i).Sound (m.pipe i)
  /-- Only the server and the child for it have it open. -/
  owners : ∀ x, m.fds x i ≠ none → x = none ∨ x = some i
  /-- Before it is accepted nobody has. -/
  waiting : m.accepted i = false → m.born i = none ∧ ∀ x, m.fds x i = none
  /-- As long as there is no child the server has it open, and nothing is read from it. -/
  unborn : m.born i = none → m.fds (some i) i = none ∧ (m.pipe i).held = [] ∧
    (m.accepted i = true → m.fds none i ≠ none)
  /-- The child is over when it has written back all that comes. -/
  finished : m.born i ≠ none → m.fds (some i) i = none →
    (m.pipe i).shut = true ∧ (m.pipe i).up.queue = [] ∧ (m.pipe i).held = []
  /-- It is closed when nobody has it open any more. -/
  closed : (m.pipe i).closed = true ↔ m.accepted i = true ∧ ∀ x, m.fds x i = none

section Good

variable {S : Setup ι} {i j : ι} {m m' : Family ι} {p : Pipe}

/-- What happens elsewhere does not matter. -/
theorem Good.congr (h : Good S i m) (hpipe : m'.pipe i = m.pipe i)
    (hfds : ∀ x, m'.fds x i = m.fds x i) (haccepted : m'.accepted i = m.accepted i)
    (hborn : m'.born i = m.born i) : Good S i m' := by
  refine ⟨hpipe ▸ h.sound, fun x hx => h.owners x (hfds x ▸ hx), fun hi => ?_, fun hi => ?_,
    fun hi hfd => ?_, ?_⟩
  · obtain ⟨h1, h2⟩ := h.waiting (haccepted ▸ hi)
    exact ⟨hborn ▸ h1, fun x => hfds x ▸ h2 x⟩
  · obtain ⟨h1, h2, h3⟩ := h.unborn (hborn ▸ hi)
    exact ⟨hfds _ ▸ h1, hpipe ▸ h2, fun hacc => hfds none ▸ h3 (haccepted ▸ hacc)⟩
  · rw [hpipe]
    exact h.finished (hborn ▸ hi) (hfds _ ▸ hfd)
  · rw [hpipe, haccepted, h.closed]
    simp only [hfds]

/-- A client keeps it so. -/
theorem Good.byClient (h : Good S i m) (hp : (S.client i).ByClient (m.pipe i) (m'.pipe i))
    (hfds : m'.fds = m.fds) (haccepted : m'.accepted = m.accepted) (hborn : m'.born = m.born) :
    Good S i m' := by
  refine ⟨hp.sound h.sound, hfds ▸ h.owners, fun hi => ?_, fun hi => ?_, fun hi hfd => ?_, ?_⟩
  · rw [hborn, hfds]
    exact h.waiting (haccepted ▸ hi)
  · rw [hfds, hp.held, haccepted]
    exact h.unborn (hborn ▸ hi)
  · obtain ⟨hshut, hqueue, hheld⟩ := h.finished (hborn ▸ hi) (hfds ▸ hfd)
    exact ⟨hp.shut hshut, h.sound.queue_eq_nil hshut hqueue hp, hp.held.trans hheld⟩
  · rw [hp.closed, haccepted, hfds]
    exact h.closed

section Release

variable [DecidableEq ι] [Fintype ι] {x : Option ι} {q : ι → Prop} [DecidablePred q]

/-- A connection is closed only when all that comes has been written back. -/
theorem Good.release_pipe (h : Good S i m) (hx : x = none ∨ x = some i)
    (hborn : m.fds x i ≠ none → m.born i ≠ none)
    (hover : m.fds x i ≠ none → x = some i →
      (m.pipe i).shut = true ∧ (m.pipe i).up.queue = [] ∧ (m.pipe i).held = []) :
    (m.release x q).pipe i = m.pipe i ∨ (m.release x q).pipe i = (m.pipe i).onClose ∧
      (m.pipe i).shut = true ∧ (m.pipe i).up.queue = [] ∧ (m.pipe i).held = [] := by
  by_cases hlast : q i ∧ m.fds x i ≠ none ∧ ∀ y, y ≠ x → m.fds y i = none
  · refine .inr ⟨if_pos hlast, ?_⟩
    rcases hx with rfl | hx
    · exact h.finished (hborn hlast.2.1) (hlast.2.2 (some i) (Option.some_ne_none i))
    · exact hover hlast.2.1 hx
  · exact .inl (if_neg hlast)

/-- What a process closes is closed by a server of the connection. -/
theorem Good.byServer_release (h : Good S i m) (hx : x = none ∨ x = some i)
    (hborn : m.fds x i ≠ none → m.born i ≠ none)
    (hover : m.fds x i ≠ none → x = some i →
      (m.pipe i).shut = true ∧ (m.pipe i).up.queue = [] ∧ (m.pipe i).held = []) :
    (S.client i).ByServer (m.pipe i) ((m.release x q).pipe i) := by
  rcases h.release_pipe (q := q) hx hborn hover with hp | ⟨hp, hshut, hqueue, hheld⟩
  · rw [hp]
    exact .refl _
  · rw [hp]
    exact ⟨rfl, rfl, rfl, rfl, rfl, rfl, List.prefix_refl _, fun _ => rfl,
      fun hs => hs.onClose hshut hqueue hheld⟩

/-- What holds at every moment still holds when a process has closed its descriptors. -/
theorem Good.release (h : Good S i m) (hx : x = none ∨ x = some i)
    (hborn : m.fds x i ≠ none → m.born i ≠ none)
    (hover : m.fds x i ≠ none → x = some i →
      (m.pipe i).shut = true ∧ (m.pipe i).up.queue = [] ∧ (m.pipe i).held = []) :
    Good S i (m.release x q) := by
  by_cases hq : q i ∧ m.fds x i ≠ none
  · have haccepted : m.accepted i = true := by
      by_contra hc
      exact hq.2 ((h.waiting (by simpa using hc)).2 x)
    have hself : (m.release x q).fds x i = none := release_fds_self.trans (if_pos hq.1)
    have hother : ∀ y, y ≠ x → (m.release x q).fds y i = m.fds y i :=
      fun y hy => congrFun (release_fds_of_ne hy) i
    have hend : m.fds (some i) i = none ∨ x = some i →
        (m.pipe i).shut = true ∧ (m.pipe i).up.queue = [] ∧ (m.pipe i).held = [] := by
      rintro (hnone | he)
      · exact h.finished (hborn hq.2) hnone
      · exact hover hq.2 he
    have hpipe := h.release_pipe (q := q) hx hborn hover
    refine ⟨?_, fun y hy => ?_, fun hc => ?_, fun hc => absurd hc (hborn hq.2),
      fun _ hnone => ?_, ?_⟩
    · exact (h.byServer_release hx hborn hover).sound h.sound
    · by_cases hyx : y = x
      · exact hyx ▸ hx
      · exact h.owners y (hother y hyx ▸ hy)
    · cases haccepted.symm.trans hc
    · have hends := hend (by
        by_cases hi : some i = x
        · exact .inr hi.symm
        · exact .inl (hother (some i) hi ▸ hnone))
      rcases hpipe with hp | ⟨hp, -⟩
      · rw [hp]
        exact hends
      · rw [hp]
        exact hends
    · by_cases hlast : ∀ y, y ≠ x → m.fds y i = none
      · have hp : (m.release x q).pipe i = (m.pipe i).onClose := if_pos ⟨hq.1, hq.2, hlast⟩
        rw [hp]
        refine iff_of_true rfl ⟨haccepted, fun y => ?_⟩
        by_cases hyx : y = x
        · exact hyx ▸ hself
        · exact (hother y hyx).trans (hlast y hyx)
      · have hp : (m.release x q).pipe i = m.pipe i := if_neg fun hc => hlast hc.2.2
        rw [hp, h.closed]
        refine iff_of_false (fun hc => hq.2 (hc.2 x)) fun hc => hlast fun y hy => ?_
        exact (hother y hy).symm.trans (hc.2 y)
  · refine h.congr (if_neg fun hc => hq ⟨hc.1, hc.2.1⟩) (fun y => ?_) rfl rfl
    by_cases hyx : y = x
    · subst hyx
      rw [release_fds_self]
      split
      · rename_i hqi
        by_contra hc
        exact hq ⟨hqi, Ne.symm hc⟩
      · rfl
    · exact congrFun (release_fds_of_ne hyx) i

end Release

end Good

/-! ## Contracts -/

/-- One descriptor and no other. -/
def only [DecidableEq ι] (i : ι) (n : ℕ) : ι → Option ℤ :=
  Function.update (fun _ => none) i (some (n : ℤ))

/-- What a child is to do. -/
def childProg (S : Setup ι) (n : ℕ) : Prog process (Main01 ⊕ Unit) := do
  let _ ← Prog.perform (I := process) (.close S.listenfd)
  return .inl (.echo n S.buf)

section Contracts

variable [DecidableEq ι]

/-- The child for client `i` has just been forked. -/
structure Newborn (S : Setup ι) (i : ι) (n : ℕ) (m : Family ι) : Prop where
  /-- What it is to do. -/
  born : m.born i = some (childProg S n)
  /-- It has a descriptor for the connection and for no other one. -/
  fds : m.fds (some i) = only i n
  /-- Its descriptor is not the listening one. -/
  ne : (n : ℤ) ≠ S.listenfd
  /-- Nothing has been read. -/
  held : (m.pipe i).held = []

/-- What the others do to a child. -/
structure ChildRely (S : Setup ι) (i : ι) (m m' : Family ι) : Prop where
  /-- What holds at every moment still holds. -/
  good : Good S i m → Good S i m'
  /-- It may be forked. -/
  unborn : m.born i = none → m'.born i = none ∨ ∃ n, Newborn S i n m'
  /-- Once it has been forked it has its descriptors to itself. -/
  born : m.born i ≠ none → m'.born i = m.born i ∧ m'.fds (some i) = m.fds (some i)
  /-- Once it has been forked only the client is at the other end of its connection. -/
  pipe : m.born i ≠ none → m.fds (some i) i ≠ none →
    (S.client i).ByClient (m.pipe i) (m'.pipe i)

/-- What a child does. -/
structure ChildGuarantee (S : Setup ι) (i : ι) (m m' : Family ι) : Prop where
  /-- What holds at every moment still holds. -/
  good : Good S i m → Good S i m'
  /-- It is the server of its connection. -/
  byServer : (S.client i).ByServer (m.pipe i) (m'.pipe i)
  /-- To the others it does nothing. -/
  pipe : ∀ j, j ≠ i → m'.pipe j = m.pipe j
  fds : ∀ x j, x ≠ some i ∨ j ≠ i → m'.fds x j = m.fds x j
  accepted : m'.accepted = m.accepted
  born : m'.born = m.born

/-- What the server does. -/
structure ServerGuarantee (S : Setup ι) (m m' : Family ι) : Prop where
  /-- What holds at every moment still holds. -/
  good : ∀ i, Good S i m → Good S i m'
  /-- It may close connections. -/
  byServer : ∀ i, (S.client i).ByServer (m.pipe i) (m'.pipe i)
  /-- It closes no connection that a child has open. -/
  pipe : ∀ i, m.born i ≠ none → m.fds (some i) i ≠ none → m'.pipe i = m.pipe i
  /-- It may fork a child. -/
  unborn : ∀ i, m.born i = none → m'.born i = none ∨ ∃ n, Newborn S i n m'
  /-- It leaves a child alone. -/
  born : ∀ i, m.born i ≠ none → m'.born i = m.born i ∧ m'.fds (some i) = m.fds (some i)

theorem only_self (i : ι) (n : ℕ) : only i n i = some (n : ℤ) := Function.update_self ..

theorem only_of_ne {i j : ι} (h : j ≠ i) (n : ℕ) : only i n j = none := Function.update_of_ne h _ _

theorem eq_of_only {i j : ι} {n : ℕ} (h : only i n j ≠ none) : j = i := by
  by_contra hne
  exact h (only_of_ne hne n)

theorem Newborn.ne_none {S : Setup ι} {i : ι} {n : ℕ} {m : Family ι} (h : Newborn S i n m) :
    m.born i ≠ none :=
  h.born ▸ Option.some_ne_none _

theorem Newborn.rely {S : Setup ι} {i : ι} {n : ℕ} {m m' : Family ι} (h : Newborn S i n m)
    (h' : ChildRely S i m m') : Newborn S i n m' := by
  obtain ⟨hborn, hfds⟩ := h'.born h.ne_none
  have hopen : m.fds (some i) i ≠ none := by
    rw [h.fds, only_self]
    exact Option.some_ne_none _
  exact ⟨hborn.trans h.born, hfds.trans h.fds, h.ne, (h'.pipe h.ne_none hopen).held.trans h.held⟩

theorem ServerGuarantee.refl (S : Setup ι) (m : Family ι) : ServerGuarantee S m m :=
  ⟨fun _ => id, fun _ => .refl _, fun _ _ _ => rfl, fun _ => .inl, fun _ _ => ⟨rfl, rfl⟩⟩

omit [DecidableEq ι] in
theorem ChildGuarantee.refl (S : Setup ι) (i : ι) (m : Family ι) : ChildGuarantee S i m m :=
  ⟨id, .refl _, fun _ _ => rfl, fun _ _ _ => rfl, rfl, rfl⟩

theorem ChildRely.refl (S : Setup ι) (i : ι) (m : Family ι) : ChildRely S i m m :=
  ⟨id, .inl, fun _ => ⟨rfl, rfl⟩, fun _ _ => .refl _⟩

theorem ChildRely.trans {S : Setup ι} {i : ι} {m m' m'' : Family ι} (h : ChildRely S i m m')
    (h' : ChildRely S i m' m'') : ChildRely S i m m'' := by
  refine ⟨h'.good ∘ h.good, fun hnone => ?_, fun hborn => ?_, fun hborn hopen => ?_⟩
  · rcases h.unborn hnone with hnone' | ⟨n, hnew⟩
    · exact h'.unborn hnone'
    · exact .inr ⟨n, hnew.rely h'⟩
  · obtain ⟨h1, h2⟩ := h.born hborn
    obtain ⟨h3, h4⟩ := h'.born (h1 ▸ hborn)
    exact ⟨h3.trans h1, h4.trans h2⟩
  · obtain ⟨h1, h2⟩ := h.born hborn
    exact (h.pipe hborn hopen).trans (h'.pipe (h1 ▸ hborn) (h2 ▸ hopen))

variable (S : Setup ι)

/-- What is asked of the server when it makes a call. -/
def ServerCall (m : Family ι) : KernelCall → Prop
  | .accept fd => fd = S.listenfd ∧ ∀ i, m.fds none i = none
  | .fork _ => ∃ i, m.fds none i ≠ none ∧ m.born i = none
  | .sys (.read ..) | .put .. | .start | .exit => False
  | _ => True

/-- What is asked of the child for client `i` when it makes a call. -/
def ChildCall (i : ι) (m : Family ι) : KernelCall → Prop
  | .sys (.read fd dst) => dst = Span.whole 1024 ∧ m.fds (some i) i = some fd
  | .put fd _ => m.fds (some i) i = some fd ∧ (m.pipe i).held ≠ []
  | .accept _ | .fork _ => False
  | _ => True

/-- The contract of the server. -/
def serverContract : Contract (kernel ι) (Family ι) where
  Call m c := (∀ i, Good S i m) ∧ ServerCall S m c
  Fault _ := False
  Rely m m' := m'.fds none = m.fds none ∧ m'.accepted = m.accepted ∧ m'.born = m.born ∧
    ∀ i, Good S i m → Good S i m'
  Guarantee := ServerGuarantee S
  refl _ := ⟨rfl, rfl, rfl, fun _ => id⟩
  trans h h' := ⟨h'.1.trans h.1, h'.2.1.trans h.2.1, h'.2.2.1.trans h.2.2.1,
    fun i => h'.2.2.2 i ∘ h.2.2.2 i⟩

/-- The contract of the child for client `i`. Its buffer can overflow if the client can send as much
as it has room for. -/
def childContract (i : ι) : Contract (kernel ι) (Family ι) where
  Call m c := Good S i m ∧ ChildCall i m c
  Fault _ := 1024 ≤ (S.client i).up ∧ 1024 ≤ (S.client i).session.content.length
  Rely := ChildRely S i
  Guarantee := ChildGuarantee S i
  refl := .refl S i
  trans := .trans

/-- What a client does to its connection, its child is told, and all processes. -/
theorem byClient_set {m : Family ι} {i : ι} {p : Pipe} (hp : (S.client i).ByClient (m.pipe i) p)
    (j : ι) : (S.client j).ByClient (m.pipe j) (((pipeOf i).set m p).pipe j) := by
  show (S.client j).ByClient (m.pipe j) (Function.update m.pipe i p j)
  by_cases hj : j = i
  · subst hj
    rw [Function.update_self]
    exact hp
  · rw [Function.update_of_ne hj]
    exact .refl _

variable [Fintype ι]

/-- The contracts of the programs. -/
def contract : ∀ x, Contract ((system S).I x) (Family ι)
  | .inl none => serverContract S
  | .inl (some i) => childContract S i
  | .inr i => (clientContract (S.client i)).within (pipeOf i)

theorem fits : System.Fits (contract S) := by
  rintro ((_ | i) | i) ((_ | j) | j) hne m m' h
  · exact absurd rfl hne
  · have h : ServerGuarantee S m m' := h
    refine ⟨h.good j, h.unborn j, h.born j, fun hborn hopen => ?_⟩
    rw [h.pipe j hborn hopen]
    exact .refl _
  · exact ServerGuarantee.byServer h j
  · have h : ChildGuarantee S i m m' := h
    refine ⟨funext fun j => h.fds none j (.inl nofun), h.accepted, h.born, fun j hj => ?_⟩
    by_cases hji : j = i
    · exact hji ▸ h.good (hji ▸ hj)
    · exact hj.congr (h.pipe j hji) (fun x => h.fds x j (.inr hji)) (congrFun h.accepted j)
        (congrFun h.born j)
  · have h : ChildGuarantee S i m m' := h
    have hji : j ≠ i := by
      rintro rfl
      exact hne rfl
    refine ⟨fun hj => hj.congr (h.pipe j hji) (fun x => h.fds x j (.inr hji))
      (congrFun h.accepted j) (congrFun h.born j), fun hj => .inl (h.born ▸ hj), fun _ => ⟨?_, ?_⟩,
      fun _ _ => ?_⟩
    · exact congrFun h.born j
    · exact funext fun k => h.fds (some j) k (.inl fun he => hji (Option.some.inj he))
    · rw [h.pipe j hji]
      exact .refl _
  · have h : ChildGuarantee S i m m' := h
    show (S.client j).ByServer (m.pipe j) (m'.pipe j)
    by_cases hji : j = i
    · exact hji ▸ h.byServer
    · rw [h.pipe j hji]
      exact .refl _
  · obtain ⟨p, hp, rfl⟩ := h
    exact ⟨rfl, rfl, rfl, fun j hj => hj.byClient (byClient_set S hp j) rfl rfl rfl⟩
  · obtain ⟨p, hp, rfl⟩ := h
    exact ⟨fun hj => hj.byClient (byClient_set S hp j) rfl rfl rfl, .inl, fun _ => ⟨rfl, rfl⟩,
      fun _ _ => byClient_set S hp j⟩
  · obtain ⟨p, -, rfl⟩ := h
    have hji : j ≠ i := by
      rintro rfl
      exact hne rfl
    show (S.client j).ByServer (m.pipe j) (Function.update m.pipe i p j)
    rw [Function.update_of_ne hji]
    exact .refl _

end Contracts

end Forked

end FiniteBuffers

end UnixNetwork
