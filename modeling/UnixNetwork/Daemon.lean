import Mathlib.Data.PNat.Basic
import Mathlib.Order.Bounds.Basic
import UnixNetwork.Posix
import UnixNetwork.Interaction.Pool

/-!
# Becoming a daemon

`daemonize` of `13/daemon_init.c`: fork, start a session, fork again, and put `/dev/null` in the
place of the three standard descriptors. Of the three processes that run it, one returns.

A process leads its session if the session has its number. The second fork is what separates the
two: the session is that of the process in the middle, which exits. The descriptors that are opened
are not looked at. They are the standard ones because those have just been closed, and an open
returns the lowest descriptor that is free.

## Main definitions

* `Daemon.daemonize`: the program
* `Daemon.Process`, `Daemon.kernel`: what the kernel keeps for a process, and what the calls do
* `Daemon.Daemonized`: what has become of the process that returns

## Main results

* `Daemon.daemonize_daemonized`: at most one process returns, and it is a daemon
* `Daemon.exists_returned`: some process may return
-/

namespace UnixNetwork

namespace Daemon

open Interaction

/-! ## The program -/

/-- How a file is opened: `O_RDONLY` or `O_RDWR`. -/
inductive Flags where
  | rdonly
  | rdwr
deriving DecidableEq

/-- The calls of the program. -/
inductive Call where
  | fork
  | setsid
  | close (fd : ℕ)
  | openFile (path : List Byte) (flags : Flags)
  | openlog (ident : List Byte) (option facility : ℕ)

/-- The result of each call. -/
@[reducible] def Res : Call → Type
  | .fork | .setsid | .openFile .. => Except Errno ℕ
  | .close _ => Except Errno Unit
  | .openlog .. => Unit

/-- The interface of the program. -/
abbrev process : Interface := ⟨Call, Res⟩

/-- How `daemonize` ends for a process. -/
inductive Outcome where
  /-- The process has exited. -/
  | exited (status : ℕ)
  /-- It has returned. -/
  | returned

/-- `"/dev/null"`. -/
def devNull : List Byte := text "/dev/null"

/-- `LOG_PID`. -/
def logPid : ℕ := 1

/-- The block that `daemonize` contains twice: fork, and exit unless this is the new process, which
goes on with `rest`. `EXIT_FAILURE` is 1, and `EXIT_SUCCESS` is 0. -/
def forkAndExit (rest : Prog process Outcome) : Prog process Outcome := do
  let pid := countValue (← Prog.perform (I := process) .fork)
  if pid < 0 then return .exited 1
  else if pid > 0 then return .exited 0
  else rest

/-- The end of `daemonize`, from the first `open`. -/
def reopen (path : List Byte) : Prog process Outcome := do
  let _ ← Prog.perform (I := process) (.openFile devNull .rdonly)
  let _ ← Prog.perform (I := process) (.openFile devNull .rdwr)
  let _ ← Prog.perform (I := process) (.openFile devNull .rdwr)
  let _ ← Prog.perform (I := process) (.openlog path logPid 0)
  return .returned

/-- The end of `daemonize`, from the first `close`. -/
def redirect (path : List Byte) : Prog process Outcome := do
  let _ ← Prog.perform (I := process) (.close 0)
  let _ ← Prog.perform (I := process) (.close 1)
  let _ ← Prog.perform (I := process) (.close 2)
  reopen path

/-- `daemonize`. -/
def daemonize (path : List Byte) : Prog process Outcome :=
  forkAndExit do
    if countValue (← Prog.perform (I := process) .setsid) < 0 then return .exited 1
    else forkAndExit (redirect path)

/-! ## The kernel -/

/-- What a descriptor is open on: a file that one of these processes has opened, or something that
was open before. -/
inductive File where
  | opened (path : List Byte) (flags : Flags)
  | other (id : ℕ)

/-- What the kernel keeps for a process. -/
structure Process where
  /-- The session, which has the number of its leader. -/
  session : ℕ+
  /-- The controlling terminal. -/
  terminal : Option ℕ
  /-- The descriptor table. -/
  table : ℕ → Option File
  /-- The calls of the process and, before it was made, of the one it comes from, the last one
  first. -/
  events : List (Event process)

/-- What the calls of process `p` return, as long as it stays one process. A fork that returns here
has failed. -/
def Allows (p : ℕ+) (w : Process) : (c : Call) → Res c → Prop
  | .fork, r => ∃ errno, r = .error errno
  | .setsid, r => r = .ok (p : ℕ) ∨ ∃ errno, r = .error errno
  | .close fd, r => r = .ok () → w.table fd ≠ none
  | .openFile .., r => ∃ fd, r = .ok fd ∧ IsLeast {fd | w.table fd = none} fd
  | .openlog .., _ => True

/-- What a call does to process `p`. A descriptor is closed also if `close` reports an error. -/
def effect (p : ℕ+) (w : Process) : (c : Call) → Res c → Process
  | .setsid, .ok _ => { w with session := p, terminal := none }
  | .close fd, _ => { w with table := Function.update w.table fd none }
  | .openFile path flags, .ok fd =>
    { w with table := Function.update w.table fd (some (.opened path flags)) }
  | _, _ => w

/-- What the calls of process `p` do as long as it stays one process. -/
def world (p : ℕ+) : World process Process where
  Allows := Allows p
  next w c r := { effect p w c r with events := ⟨c, r⟩ :: w.events }

/-- The kernel: a fork returns 0 in the new process, and its number in the old one. -/
def kernel : ForkWorld process Process ℕ+ where
  world := world
  fork
    | .fork => some (.ok 0, fun q => .ok (q : ℕ))
    | _ => none

/-- The process has exited, and its number is free. -/
def Outcome.Exited : Outcome → Prop
  | .exited _ => True
  | .returned => False

/-- The process has returned from `daemonize`. -/
def Returned (π : Pool process Process ℕ+ Outcome) (p : ℕ+) : Prop :=
  ∃ w, π p = some (.ret .returned, w)

/-- A run of `daemonize`, called in process `p` in the state `w`. Only what happens from then on
counts as events. -/
def Run (path : List Byte) (p : ℕ+) (w : Process) (π : Pool process Process ℕ+ Outcome) : Prop :=
  kernel.Reach Outcome.Exited (ForkWorld.single p (daemonize path, { w with events := [] })) π

/-- Process `p` has left its session and its terminal behind. -/
structure Detached (p : ℕ+) (w : Process) : Prop where
  /-- It does not lead its session. -/
  leader : w.session ≠ p
  /-- It has no controlling terminal. -/
  terminal : w.terminal = none
  /-- No fork has failed, and none has returned in a parent. -/
  forks : ∀ r, (⟨.fork, r⟩ : Event process) ∈ w.events → r = .ok 0
  /-- `setsid` has not failed. -/
  setsid : ∀ r, (⟨.setsid, r⟩ : Event process) ∈ w.events → ∃ s, r = .ok s

/-- Process `p` has become a daemon, where `start` is the process that has called `daemonize`. -/
structure Daemonized (start : Process) (p : ℕ+) (w : Process) : Prop extends Detached p w where
  /-- It reads from `/dev/null`. -/
  stdin : w.table 0 = some (.opened devNull .rdonly)
  /-- It writes to `/dev/null`. -/
  stdout : w.table 1 = some (.opened devNull .rdwr)
  /-- It writes its errors to `/dev/null`. -/
  stderr : w.table 2 = some (.opened devNull .rdwr)
  /-- All other descriptors are as they were. -/
  others : ∀ fd, 3 ≤ fd → w.table fd = start.table fd

/-! ## The descriptors -/

/-- The descriptors below `n` are open. -/
def Filled (n : ℕ) (table : ℕ → Option File) : Prop := ∀ fd, fd < n → table fd ≠ none

variable {n : ℕ} {table : ℕ → Option File} {p : ℕ+} {w : Process} {path : List Byte}

theorem filled_zero : Filled 0 table := fun fd h => absurd h fd.not_lt_zero

theorem Filled.update (h : Filled n table) (f : File) :
    Filled (n + 1) (Function.update table n (some f)) := by
  intro fd hfd
  by_cases hn : fd = n
  · rw [hn, Function.update_self]
    exact Option.some_ne_none f
  · rw [Function.update_of_ne hn]
    exact h fd (by omega)

/-- The lowest free descriptor. -/
theorem Filled.isLeast_iff (h : Filled n table) (hn : table n = none) {fd : ℕ} :
    IsLeast {fd | table fd = none} fd ↔ fd = n := by
  have hleast : IsLeast {fd | table fd = none} n :=
    ⟨hn, fun fd hfd => not_lt.mp fun hlt => h fd hlt hfd⟩
  constructor
  · exact fun hfd => hfd.unique hleast
  · rintro rfl
    exact hleast

/-- The descriptor that an open returns. -/
theorem Filled.allows_iff (h : Filled n w.table) (hn : w.table n = none) {flags : Flags}
    (r : Except Errno ℕ) : (world p).Allows w (.openFile path flags) r ↔ r = .ok n := by
  constructor
  · rintro ⟨fd, rfl, hfd⟩
    rw [(h.isLeast_iff hn).mp hfd]
  · rintro rfl
    exact ⟨n, rfl, (h.isLeast_iff hn).mpr rfl⟩

/-- A call that neither forks nor asks for a session leaves a process detached. -/
theorem Detached.next (h : Detached p w) {c : Call} (r : Res c) (hfork : c ≠ .fork)
    (hsetsid : c ≠ .setsid) : Detached p ((world p).next w c r) := by
  have hsession : ((world p).next w c r).session = w.session ∧
      ((world p).next w c r).terminal = w.terminal := by
    cases c with
    | setsid => exact absurd rfl hsetsid
    | openFile path flags => cases r <;> exact ⟨rfl, rfl⟩
    | _ => exact ⟨rfl, rfl⟩
  refine ⟨hsession.1 ▸ h.leader, hsession.2 ▸ h.terminal, fun r' hr' => ?_, fun r' hr' => ?_⟩
  · rcases List.mem_cons.mp hr' with he | hr'
    · exact absurd (congrArg Sigma.fst he).symm hfork
    · exact h.forks r' hr'
  · rcases List.mem_cons.mp hr' with he | hr'
    · exact absurd (congrArg Sigma.fst he).symm hsetsid
    · exact h.setsid r' hr'

/-! ## One process -/

/-- What `daemonize` leaves behind in process `p`. -/
def Post (start : Process) (p : ℕ+) : Outcome → Process → Prop
  | .exited _, _ => True
  | .returned, w => Daemonized start p w

/-- A descriptor that is not a standard one is none of the others. -/
theorem update_standard {t : ℕ → Option File} {a b c : Option File} {fd : ℕ} (hfd : 3 ≤ fd) :
    Function.update (Function.update (Function.update t 0 a) 1 b) 2 c fd = t fd := by
  rw [Function.update_of_ne (by omega), Function.update_of_ne (by omega),
    Function.update_of_ne (by omega)]

/-- With the standard descriptors closed, three opens return them in order. -/
theorem wp_reopen {start : Process} (h : Detached p w) (h0 : w.table 0 = none)
    (h1 : w.table 1 = none) (h2 : w.table 2 = none)
    (hothers : ∀ fd, 3 ≤ fd → w.table fd = start.table fd) :
    wp (world p) .defined (reopen path) (Post start p) w := by
  have hfill0 : Filled 0 w.table := filled_zero
  have hfill1 := hfill0.update (.opened devNull .rdonly)
  have hfill2 := hfill1.update (.opened devNull .rdwr)
  have hopen : ∀ {w : Process} (flags : Flags) (fd : ℕ), Detached p w →
      Detached p ((world p).next w (.openFile devNull flags) (.ok fd)) :=
    fun _ _ h => h.next _ nofun nofun
  refine (wp_call_of_unique (hfill0.allows_iff h0)).mpr ⟨trivial, ?_⟩
  refine (wp_call_of_unique (hfill1.allows_iff ?_)).mpr ⟨trivial, ?_⟩
  · exact h1
  refine (wp_call_of_unique (hfill2.allows_iff ?_)).mpr ⟨trivial, ?_⟩
  · exact h2
  refine ⟨trivial, fun r _ => ?_⟩
  have hdetached := (hopen .rdwr 2 (hopen .rdwr 1 (hopen .rdonly 0 h))).next
    (c := .openlog path logPid 0) r nofun nofun
  exact ⟨hdetached, rfl, rfl, rfl, fun fd hfd => (update_standard hfd).trans (hothers fd hfd)⟩

/-- Whatever was open is closed first. -/
theorem wp_redirect {start : Process} (h : Detached p w)
    (hothers : ∀ fd, 3 ≤ fd → w.table fd = start.table fd) :
    wp (world p) .defined (redirect path) (Post start p) w := by
  have hclose : ∀ {w : Process} (fd : ℕ) (r : Except Errno Unit), Detached p w →
      Detached p ((world p).next w (.close fd) r) :=
    fun fd r h => h.next (c := .close fd) r nofun nofun
  refine ⟨trivial, fun r₀ _ => ⟨trivial, fun r₁ _ => ⟨trivial, fun r₂ _ => ?_⟩⟩⟩
  exact wp_reopen (hclose 2 r₂ (hclose 1 r₁ (hclose 0 r₀ h))) rfl rfl rfl
    fun fd hfd => (update_standard hfd).trans (hothers fd hfd)

/-! ## All processes -/

theorem only_redirect : (redirect path).Only fun c => kernel.fork c = none :=
  ⟨rfl, fun _ => ⟨rfl, fun _ => ⟨rfl, fun _ => ⟨rfl, fun _ => ⟨rfl, fun _ => ⟨rfl, fun _ =>
    ⟨rfl, fun _ => trivial⟩⟩⟩⟩⟩⟩⟩

theorem forkAndExit_eq (rest : Prog process Outcome) :
    forkAndExit rest = .call .fork fun r =>
      if countValue r < 0 then .ret (.exited 1)
      else if countValue r > 0 then .ret (.exited 0)
      else rest := rfl

/-- What the fork leads to: a failure, the new process, and the old one. -/
theorem exists_forkAndExit_eq (rest : Prog process Outcome) :
    ∃ k, forkAndExit rest = .call .fork k ∧
      (∀ errno, k (.error errno) = .ret (.exited 1)) ∧ k (.ok 0) = rest ∧
      ∀ q : ℕ+, k (.ok (q : ℕ)) = .ret (.exited 0) := by
  refine ⟨_, forkAndExit_eq rest, fun _ => rfl, rfl, fun q => ?_⟩
  have hpos : 0 < countValue (.ok (q : ℕ)) := Int.natCast_pos.mpr q.pos
  rw [if_neg hpos.not_gt, if_pos hpos]

/-- Only the new process goes on. -/
theorem wp_forkAndExit {start : Process} {rest : Prog process Outcome}
    (h : ∀ q, q ≠ p → kernel.wp (Post start) rest q ((world q).next w .fork (.ok 0))) :
    kernel.wp (Post start) (forkAndExit rest) p w := by
  obtain ⟨k, hk, herror, hchild, hparent⟩ := exists_forkAndExit_eq rest
  rw [hk, ForkWorld.wp_fork (F := kernel) (c := Call.fork) rfl]
  refine ⟨?_, fun q hq => ⟨?_, ?_⟩⟩
  · rintro _ ⟨errno, rfl⟩
    rw [herror, ForkWorld.wp_ret]
    exact trivial
  · rw [hparent, ForkWorld.wp_ret]
    exact trivial
  · rw [hchild]
    exact h q hq

theorem daemonize_eq (path : List Byte) :
    daemonize path = forkAndExit (.call .setsid fun r =>
      if countValue r < 0 then .ret (.exited 1) else forkAndExit (redirect path)) := rfl

/-- In every process `daemonize` exits, or leaves a daemon behind. -/
theorem wp_daemonize (path : List Byte) (p : ℕ+) (w : Process) :
    kernel.wp (Post w) (daemonize path) p { w with events := [] } := by
  rw [daemonize_eq]
  refine wp_forkAndExit fun q _ => (ForkWorld.wp_call rfl).mpr fun r hr => ?_
  rcases hr with rfl | ⟨errno, rfl⟩
  · have hok : ¬ countValue (.ok (q : ℕ)) < 0 := by simp
    rw [if_neg hok]
    -- the process in the middle has the number of its session, and the last one has not
    refine wp_forkAndExit fun q' hq' => ForkWorld.wp_of_only only_redirect ?_
    refine wp_redirect ⟨hq'.symm, rfl, fun r hr => ?_, fun r hr => ⟨q, ?_⟩⟩ fun _ _ => rfl
    · simpa [kernel, world] using hr
    · simpa [kernel, world] using hr
  · exact trivial

/-- A process that has forked has exited. -/
theorem handsOver_forkAndExit {rest : Prog process Outcome}
    (h : kernel.HandsOver Outcome.Exited rest) :
    kernel.HandsOver Outcome.Exited (forkAndExit rest) := by
  obtain ⟨k, hk, herror, hchild, hparent⟩ := exists_forkAndExit_eq rest
  rw [hk]
  refine ⟨?_, fun r => ?_⟩
  · rintro _ _ ⟨⟩ q
    exact ⟨.exited 0, hparent q, trivial⟩
  · rcases r with errno | n
    · rw [herror]
      exact trivial
    · cases n with
      | zero =>
        rw [hchild]
        exact h
      | succ n =>
        rw [show k (.ok (n + 1)) = .ret (.exited 0) from hparent n.succPNat]
        exact trivial

theorem handsOver_daemonize (path : List Byte) :
    kernel.HandsOver Outcome.Exited (daemonize path) := by
  rw [daemonize_eq]
  refine handsOver_forkAndExit ⟨nofun, fun r => ?_⟩
  dsimp only
  split
  · exact trivial
  · exact handsOver_forkAndExit (ForkWorld.handsOver_of_only only_redirect)

/-! ## A run in which a process returns -/

theorem executes_reopen (path : List Byte) (h0 : w.table 0 = none) (h1 : w.table 1 = none)
    (h2 : w.table 2 = none) : ∃ v, Executes (world p) (reopen path) w .returned v := by
  have hfill0 : Filled 0 w.table := filled_zero
  have hfill1 := hfill0.update (.opened devNull .rdonly)
  have hfill2 := hfill1.update (.opened devNull .rdwr)
  refine ⟨_, .ok 0, (hfill0.allows_iff h0 _).mpr rfl, .ok 1, (hfill1.allows_iff ?_ _).mpr rfl,
    .ok 2, (hfill2.allows_iff ?_ _).mpr rfl, (), trivial, rfl, rfl⟩
  · exact h1
  · exact h2

theorem executes_redirect (path : List Byte) (p : ℕ+) (w : Process) :
    ∃ v, Executes (world p) (redirect path) w .returned v := by
  -- `EBADF`, which is returned if the descriptor was not open
  let r : Except Errno Unit := .error (.other 9)
  have hclose : ∀ (w : Process) (fd : ℕ), (world p).Allows w (.close fd) r := fun _ _ => nofun
  let w₁ := (world p).next w (.close 0) r
  let w₂ := (world p).next w₁ (.close 1) r
  let w₃ := (world p).next w₂ (.close 2) r
  obtain ⟨v, hv⟩ : ∃ v, Executes (world p) (reopen path) w₃ .returned v :=
    executes_reopen path rfl rfl rfl
  exact ⟨v, r, hclose w 0, r, hclose w₁ 1, r, hclose w₂ 2, hv⟩

/-- A fork that succeeds. -/
theorem reach_forkAndExit {π : Pool process Process ℕ+ Outcome} {q : ℕ+}
    {rest : Prog process Outcome} (hp : π p = some (forkAndExit rest, w)) (hq : π q = none) :
    ∃ ρ, kernel.Reach Outcome.Exited π ρ ∧
      ρ q = some (rest, (world q).next w .fork (.ok 0)) ∧ ∀ r, r ≠ p → r ≠ q → ρ r = π r := by
  obtain ⟨k, hk, -, hchild, -⟩ := exists_forkAndExit_eq rest
  rw [hk] at hp
  have hvacant : ForkWorld.Vacant Outcome.Exited (π q) := by
    rw [hq]
    exact trivial
  refine ⟨_, .single (.fork (F := kernel) (c := Call.fork) hp rfl hvacant), ?_, fun r hrp hrq => ?_⟩
  · rw [Function.update_self, hchild]
    rfl
  · rw [Function.update_of_ne hrq, Function.update_of_ne hrp]

/-- A `setsid` that succeeds. -/
theorem reach_setsid {π : Pool process Process ℕ+ Outcome} {rest : Prog process Outcome}
    (hp : π p = some (.call .setsid fun r =>
      if countValue r < 0 then .ret (.exited 1) else rest, w)) :
    ∃ ρ v, kernel.Reach Outcome.Exited π ρ ∧ ρ p = some (rest, v) ∧ ∀ r, r ≠ p → ρ r = π r := by
  have hallows : (world p).Allows w .setsid (.ok (p : ℕ)) := .inl rfl
  have hok : ¬ countValue (.ok (p : ℕ)) < 0 := by simp
  refine ⟨_, (world p).next w .setsid (.ok (p : ℕ)), .single (.call (F := kernel) hp hallows), ?_,
    fun r hr => Function.update_of_ne hr ..⟩
  rw [Function.update_self, if_neg hok]
  rfl

/-- Where the forks and `setsid` do not fail, a process returns. -/
theorem exists_returned (path : List Byte) (p : ℕ+) (w : Process) :
    ∃ π q, Run path p w π ∧ Returned π q := by
  have hmid : p + 1 ≠ p := (p.lt_add_right 1).ne'
  have hlast : p + 2 ≠ p := (p.lt_add_right 2).ne'
  have hne : p + 2 ≠ p + 1 := fun h => absurd (add_left_cancel h) (by decide)
  have hstart : ForkWorld.single p (daemonize path, { w with events := [] }) p =
      some (forkAndExit _, _) := ForkWorld.single_self
  obtain ⟨π₁, hrun₁, h₁, hsame₁⟩ := reach_forkAndExit hstart (ForkWorld.single_of_ne hmid)
  obtain ⟨π₂, v₂, hrun₂, h₂, hsame₂⟩ := reach_setsid h₁
  have hfree : π₂ (p + 2) = none := by
    rw [hsame₂ _ hne, hsame₁ _ hlast hne, ForkWorld.single_of_ne hlast]
  obtain ⟨π₃, hrun₃, h₃, -⟩ := reach_forkAndExit h₂ hfree
  obtain ⟨v, hv⟩ := executes_redirect path (p + 2) _
  exact ⟨_, p + 2, hrun₁.trans (hrun₂.trans (hrun₃.trans (hv.pool h₃))), v, Function.update_self ..⟩

/-! ## The daemon -/

/-- **The daemon.** Whatever the forks and `setsid` return, and however the processes interleave, at
most one process has returned from `daemonize`, and it has become a daemon. -/
theorem daemonize_daemonized {path : List Byte} {p : ℕ+} {w : Process}
    {π : Pool process Process ℕ+ Outcome} (h : Run path p w π) :
    (∀ q q', Returned π q → Returned π q' → q = q') ∧
      ∀ q v, π q = some (.ret .returned, v) → Daemonized w q v := by
  refine ⟨?_, fun q v hq => ?_⟩
  · have hlone := ForkWorld.Reach.lone h (handsOver_daemonize path)
    rintro q q' ⟨v, hq⟩ ⟨v', hq'⟩
    refine hlone.unique q q' ?_ ?_
    · rw [hq]
      exact id
    · rw [hq']
      exact id
  · exact ForkWorld.Reach.wp h (wp_daemonize path p w) hq

/-- A process that leads its session and has a terminal, with descriptors 1 and 5 open. -/
def shell : Process where
  session := 7
  terminal := some 1
  table fd := if fd = 1 ∨ fd = 5 then some (.other fd) else none
  events := []

theorem daemonize_daemonized_shell :
    ∃ q v, Daemonized shell q v ∧ v.table 5 = some (.other 5) := by
  obtain ⟨π, q, hrun, v, hq⟩ := exists_returned (text "/var/log/mydaemon.log") 7 shell
  have hdaemon := (daemonize_daemonized hrun).2 q v hq
  exact ⟨q, v, hdaemon, hdaemon.others 5 (by decide)⟩

end Daemon

end UnixNetwork
