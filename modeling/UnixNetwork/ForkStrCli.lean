import UnixNetwork.Posix
import UnixNetwork.Interaction.World

/-!
# The client with two processes

`str_cli` of `16/fork_strcli.c`. The process that calls it forks a child that copies from the
connection to the standard output, and itself copies from its file to the connection. When the
connection has ended, the child asks for its parent and ends it with `SIGTERM`.

A write on a connection that the server has reset ends the parent. If that happens before the child
has asked, the child is told the process that adopts orphans, and signals that one.

## Main definitions

* `ForkStrCli.body`: the program, in both processes
* `ForkStrCli.State`, `ForkStrCli.Step`, `ForkStrCli.Reach`: the two processes and the connection

## Main results

* `wp_body`: the child signals whom it has been told
* `signals_parent`: when it signals its parent
-/

namespace UnixNetwork

namespace ForkStrCli

open Interaction

/-! ## The program -/

/-- The calls of `str_cli`. -/
inductive Call where
  | fork
  | read (fd : ℤ) (dst : Span)
  | fputs (arg : List Byte)
  | getppid
  | kill (pid sig : ℕ)
  | fgets (size : ℕ)
  | write (fd : ℤ) (src : Span) (mem : List Byte)
  | shutdownWr (fd : ℤ)
  | pause

/-- The result of each call. `fgets` returns the bytes it has read, or `NULL`. -/
@[reducible] def Res : Call → Type
  | .fork | .write .. => Except Errno ℕ
  | .read .. => Except Errno (List Byte)
  | .getppid => ℕ
  | .fgets _ => Option (List Byte)
  | _ => Unit

/-- The interface of `str_cli`. -/
abbrev process : Interface := ⟨Call, Res⟩

/-- Where a process is, with its buffer. -/
inductive Locals where
  | start (sendLine recvline : Buf 1024)
  | child (recvline : Buf 1024)
  | parent (sendLine : Buf 1024)

/-- `str_cli(fp, sockfd)`: up to its `fork`, and one turn of the loop of either process. -/
def body (sockfd : ℤ) : Locals → Prog process (Locals ⊕ Unit)
  | .start sendLine recvline => do
    let r ← Prog.perform (I := process) .fork
    let pid := countValue r
    if pid = 0 then return .inl (.child recvline)
    else return .inl (.parent sendLine)
  | .child recvline => do
    let r ← Prog.perform (I := process) (.read sockfd (Span.whole 1024))
    let recvline := recvline.put 0 (readBytes r)
    if readValue r > 0 then do
      let _ ← Prog.perform (I := process) (.fputs recvline.toList)
      return .inl (.child recvline)
    else do
      let ppid ← Prog.perform (I := process) .getppid
      let _ ← Prog.perform (I := process) (.kill ppid 15)
      return .inr ()
  | .parent sendLine => do
    match ← Prog.perform (I := process) (.fgets 1024) with
    | some line => do
      let sendLine := sendLine.put 0 (line ++ [0])
      let n ← strlen sendLine
      let _ ← Prog.perform (I := process) (.write sockfd (Span.first 1024 n) sendLine.toList)
      return .inl (.parent sendLine)
    | none => do
      let _ ← Prog.perform (I := process) (.shutdownWr sockfd)
      let _ ← Prog.perform (I := process) .pause
      return .inr ()

/-! ## The system -/

/-- The processes that are there when `str_cli` is called, and its arguments. -/
structure Setup where
  /-- The process that calls `str_cli`. -/
  caller : ℕ
  /-- The process that adopts orphans. -/
  reaper : ℕ
  /-- They are two. -/
  ne : reaper ≠ caller
  /-- The connection. -/
  sockfd : ℤ
  /-- The buffers, which are not initialised. -/
  sendLine : Buf 1024
  recvline : Buf 1024

/-- What the child has been told and done. -/
structure View where
  /-- What `getppid` has returned. -/
  told : Option ℕ
  /-- The processes that have been signalled. -/
  signalled : List ℕ

/-- The state of the two processes and of the connection. -/
structure State where
  /-- What is left of the parent's turn. -/
  parent : Prog process (Locals ⊕ Unit)
  /-- The parent is dead. -/
  dead : Bool
  /-- What is left of the child's turn. -/
  child : Option (Prog process (Locals ⊕ Unit))
  /-- What the child has been told and done. -/
  view : View
  /-- The parent was dead when the child asked for it. -/
  orphaned : Bool
  /-- The server has closed the connection. -/
  closed : Bool
  /-- The server has reset the connection. -/
  reset : Bool

/-- The state when `str_cli` is called. -/
def initial (S : Setup) : State where
  parent := .ret (.inl (.start S.sendLine S.recvline))
  dead := false
  child := none
  view := ⟨none, []⟩
  orphaned := false
  closed := false
  reset := false

/-- What a call may return that neither forks nor signals nor waits for a signal. -/
def State.Allows (st : State) : (c : Call) → Res c → Prop
  | .read _ dst, .ok bs => (bs.length : ℤ) ≤ dst.len ∧ (bs = [] → st.closed = true)
  | .fgets size, some line => line.length < size
  | .read .., .error _ | .fputs _, _ | .fgets _, none | .shutdownWr _, _ => True
  | .write .., _ => st.reset = false
  | _, _ => False

/-- One step of one of the processes or of the server. The parent writes only in states in which
`P` holds. -/
inductive Step (S : Setup) (P : State → Prop) : State → State → Prop where
  /-- The parent begins a turn. -/
  | parentAgain {st : State} {s : Locals} (hd : st.dead = false) (hp : st.parent = .ret (.inl s)) :
      Step S P st { st with parent := body S.sockfd s }
  /-- A call of the parent returns. -/
  | parent {st : State} {c : Call} {k : Res c → Prog process (Locals ⊕ Unit)} {r : Res c}
      (hd : st.dead = false) (hp : st.parent = .call c k) (hr : st.Allows c r)
      (hP : ∀ fd src mem, c = .write fd src mem → P st) : Step S P st { st with parent := k r }
  /-- The parent writes on a connection that the server has reset. -/
  | sigpipe {st : State} {fd : ℤ} {src : Span} {mem : List Byte}
      {k : Except Errno ℕ → Prog process (Locals ⊕ Unit)} (hd : st.dead = false)
      (hp : st.parent = .call (.write fd src mem) k) (hr : st.reset = true) (hP : P st) :
      Step S P st { st with dead := true }
  /-- `fork` fails. -/
  | forkFails {st : State} {k : Except Errno ℕ → Prog process (Locals ⊕ Unit)} {e : Errno}
      (hd : st.dead = false) (hp : st.parent = .call .fork k) :
      Step S P st { st with parent := k (.error e) }
  /-- `fork` returns in both processes. -/
  | fork {st : State} {k : Except Errno ℕ → Prog process (Locals ⊕ Unit)} (pid : ℕ)
      (hd : st.dead = false) (hp : st.parent = .call .fork k) (hc : st.child = none) :
      Step S P st { st with parent := k (.ok (pid + 1)), child := some (k (.ok 0)) }
  /-- The child begins a turn. -/
  | childAgain {st : State} {s : Locals} (hp : st.child = some (.ret (.inl s))) :
      Step S P st { st with child := some (body S.sockfd s) }
  /-- A call of the child returns. -/
  | child {st : State} {c : Call} {k : Res c → Prog process (Locals ⊕ Unit)} {r : Res c}
      (hp : st.child = some (.call c k)) (hr : st.Allows c r) :
      Step S P st { st with child := some (k r) }
  /-- The child asks for its parent. -/
  | getppid {st : State} {k : ℕ → Prog process (Locals ⊕ Unit)}
      (hp : st.child = some (.call .getppid k)) :
      Step S P st { st with
        child := some (k (if st.dead then S.reaper else S.caller))
        view := { st.view with told := some (if st.dead then S.reaper else S.caller) }
        orphaned := st.dead }
  /-- The child signals a process, and that process ends. -/
  | kill {st : State} {k : Unit → Prog process (Locals ⊕ Unit)} {pid sig : ℕ}
      (hp : st.child = some (.call (.kill pid sig) k)) :
      Step S P st { st with
        child := some (k ())
        view := { st.view with signalled := st.view.signalled ++ [pid] }
        dead := st.dead || pid == S.caller }
  /-- The server closes the connection. -/
  | close {st : State} : Step S P st { st with closed := true }
  /-- The server resets the connection. -/
  | reset {st : State} : Step S P st { st with reset := true }

/-- `st` is a state of a run. -/
def Reach (S : Setup) (P : State → Prop) (st : State) : Prop :=
  Relation.ReflTransGen (Step S P) (initial S) st

/-! ## What the child has been told -/

namespace View

/-- Nothing has happened. -/
def start : View := ⟨none, []⟩

/-- What has happened once a call has returned. -/
def next (v : View) : (c : Call) → Res c → View
  | .getppid, pid => { v with told := some pid }
  | .kill pid _, _ => { v with signalled := v.signalled ++ [pid] }
  | _, _ => v

/-- Whoever has been signalled is who the child has been told. -/
def Told (v : View) : Prop := ∀ pid ∈ v.signalled, v.told = some pid

theorem told_start : start.Told := fun _ h => absurd h List.not_mem_nil

end View

/-- The surroundings of a process: every result may come back. -/
def world : World process View := ⟨fun _ _ _ => True, View.next⟩

/-- What holds when a process makes a call: it has not asked before it asks, and it signals whom it
has been told. -/
def guard : Guard process View :=
  ⟨fun v c => v.Told ∧ (c = .getppid → v.told = none) ∧
    ∀ pid sig, c = .kill pid sig → v.told = some pid, View.Told⟩

/-- What is left of a turn keeps to the guard. Between two turns nothing has happened. -/
abbrev TurnOk (p : Prog process (Locals ⊕ Unit)) (v : View) : Prop :=
  wp world guard p (Sum.elim (fun _ v => v = View.start) fun _ => View.Told) v

/-- A call that neither asks nor signals. -/
theorem call_start {c : Call} (hg : c ≠ .getppid) (hk : ∀ pid sig, c ≠ .kill pid sig) :
    guard.Call View.start c :=
  ⟨View.told_start, fun h => absurd h hg, fun pid sig h => absurd h (hk pid sig)⟩

/-- **A turn of a process.** -/
theorem wp_body (sockfd : ℤ) (s : Locals) : TurnOk (body sockfd s) .start := by
  rcases s with ⟨sendLine, recvline⟩ | recvline | sendLine
  · refine ⟨call_start (by simp) (by simp), fun r _ => ?_⟩
    dsimp only [Prog.bind]
    split
    · rfl
    · rfl
  · refine ⟨call_start (by simp) (by simp), fun r _ => ?_⟩
    dsimp only [Prog.bind]
    split
    · exact ⟨call_start (by simp) (by simp), fun _ _ => rfl⟩
    · -- the child asks, and signals whom it has been told
      refine ⟨⟨View.told_start, fun _ => rfl, fun _ _ h => (by cases h)⟩, fun ppid _ => ?_⟩
      refine ⟨⟨fun _ h => absurd h List.not_mem_nil, fun h => (by cases h), ?_⟩, fun _ _ => ?_⟩
      · intro pid sig h
        cases h
        rfl
      · intro pid h
        obtain rfl := List.mem_singleton.mp h
        rfl
  · refine ⟨call_start (by simp) (by simp), fun r _ => ?_⟩
    rcases r with _ | line
    · exact ⟨call_start (by simp) (by simp), fun _ _ =>
        ⟨call_start (by simp) (by simp), fun _ _ => View.told_start⟩⟩
    · dsimp only [Prog.bind]
      generalize sendLine.put 0 (line ++ [0]) = sendLine
      refine (silent_strlen sendLine).wp_bind View.told_start fun n => ?_
      exact ⟨call_start (by simp) (by simp), fun _ _ => rfl⟩

/-! ## Whom the child signals -/

variable {S : Setup} {P : State → Prop} {st st' : State}

/-- The invariant. -/
structure Good (S : Setup) (st : State) : Prop where
  /-- The parent neither asks nor signals. -/
  parent : TurnOk st.parent .start
  /-- Without a child nothing has happened. -/
  fresh : st.child = none → st.view = .start
  /-- The child signals whom it has been told. -/
  child : ∀ p, st.child = some p → TurnOk p st.view
  /-- It has been told its parent, unless that was dead. -/
  told : ∀ pid, st.view.told = some pid → pid = if st.orphaned then S.reaper else S.caller

theorem good_initial (S : Setup) : Good S (initial S) where
  parent := rfl
  fresh _ := rfl
  child _ h := by cases h
  told _ h := by cases h

theorem next_of_allows {c : Call} {r : Res c} (hr : st.Allows c r) (v : View) :
    v.next c r = v := by
  cases c with
  | getppid => exact hr.elim
  | kill pid sig => exact hr.elim
  | _ => rfl

namespace Good

/-- The child has gone on. -/
theorem of_child (h : Good S st) {p : Prog process (Locals ⊕ Unit)} {v : View}
    {orphaned dead : Bool} (hturn : TurnOk p v)
    (htold : ∀ pid, v.told = some pid → pid = if orphaned then S.reaper else S.caller) :
    Good S { st with child := some p, view := v, orphaned := orphaned, dead := dead } :=
  ⟨h.parent, fun hnone => (by cases hnone), fun _ hp => Option.some.inj hp ▸ hturn, htold⟩

/-- **A step** of one of the processes or of the server. -/
theorem step (h : Good S st) (hs : Step S P st st') : Good S st' := by
  cases hs with
  | parentAgain hd hp => exact ⟨wp_body _ _, h.fresh, h.child, h.told⟩
  | parent hd hp hr hP =>
    have hturn : TurnOk (.call _ _) .start := hp ▸ h.parent
    exact ⟨next_of_allows hr View.start ▸ hturn.2 _ trivial, h.fresh, h.child, h.told⟩
  | sigpipe hd hp hr hP => exact ⟨h.parent, h.fresh, h.child, h.told⟩
  | forkFails hd hp =>
    have hturn : TurnOk (.call .fork _) .start := hp ▸ h.parent
    exact ⟨hturn.2 _ trivial, h.fresh, h.child, h.told⟩
  | fork pid hd hp hc =>
    have hturn : TurnOk (.call .fork _) .start := hp ▸ h.parent
    refine ⟨hturn.2 _ trivial, fun hnone => (by cases hnone), fun p hp => ?_, h.told⟩
    rw [h.fresh hc]
    exact Option.some.inj hp ▸ hturn.2 (.ok 0) trivial
  | @childAgain s hp =>
    have hview : st.view = .start := h.child _ hp
    exact h.of_child (hview ▸ wp_body _ _) h.told
  | @child c k r hp hr =>
    have hturn : TurnOk (k r) (st.view.next c r) := (h.child _ hp).2 r trivial
    rw [next_of_allows hr] at hturn
    exact h.of_child hturn h.told
  | getppid hp =>
    have hturn := (h.child _ hp).2 (if st.dead then S.reaper else S.caller) trivial
    exact h.of_child hturn fun pid hpid => (Option.some.inj hpid).symm
  | kill hp =>
    have hturn := (h.child _ hp).2 () trivial
    exact h.of_child hturn h.told
  | close => exact ⟨h.parent, h.fresh, h.child, h.told⟩
  | reset => exact ⟨h.parent, h.fresh, h.child, h.told⟩

/-- Whoever has been signalled is who the child has been told. -/
theorem signalled (h : Good S st) : st.view.Told := by
  cases hc : st.child with
  | none => exact h.fresh hc ▸ View.told_start
  | some p =>
    refine wp_now (J := View.Told) (h.child p hc) ?_ (fun _ _ hcall => hcall.1) fun _ hf => hf
    rintro (s | u) v hv
    · exact (show v = .start from hv) ▸ View.told_start
    · exact hv

/-- The process that is signalled is the parent, unless that was dead. -/
theorem signalled_iff (h : Good S st) {pid : ℕ} (hpid : pid ∈ st.view.signalled) :
    pid = S.caller ↔ st.orphaned = false := by
  rw [h.told pid (h.signalled pid hpid)]
  cases st.orphaned
  · simp
  · simp [S.ne]

end Good

theorem reach_good (h : Reach S P st) : Good S st := by
  induction h with
  | refl => exact good_initial S
  | tail _ hs ih => exact ih.step hs

/-- The server has not reset the connection, or the child has asked for its parent. -/
def Careful (st : State) : Prop := st.reset = false ∨ st.view.told ≠ none

/-- A parent that writes with care lives when the child asks for it. -/
theorem reach_careful (h : Reach S Careful st) :
    (st.dead = true → st.view.told ≠ none) ∧ st.orphaned = false := by
  induction h with
  | refl => exact ⟨fun hd => (by cases hd), rfl⟩
  | @tail a b hrun hs ih =>
    have hgood := reach_good hrun
    cases hs with
    | sigpipe hd hp hr hP =>
      exact ⟨fun _ => hP.resolve_left (by simp [hr]), ih.2⟩
    | getppid hp =>
      have hask : a.view.told = none := (hgood.child _ hp).1.2.1 rfl
      refine ⟨fun _ => Option.some_ne_none _, ?_⟩
      show a.dead = false
      by_contra hd
      exact ih.1 (Bool.not_eq_false _ ▸ hd) hask
    | @kill k pid sig hp =>
      have htold : a.view.told = some pid := (hgood.child _ hp).1.2.2 pid sig rfl
      exact ⟨fun _ => htold ▸ Option.some_ne_none _, ih.2⟩
    | _ => exact ih

/-- **The child signals its parent** if the parent does not write on a connection that the server
has reset before the child has asked for it; and whatever the parent writes, the child signals it if
and only if it was not dead at that moment. -/
theorem signals_parent (S : Setup) :
    (∀ st, Reach S Careful st → ∀ pid ∈ st.view.signalled, pid = S.caller) ∧
    ∀ st, Reach S (fun _ => True) st → ∀ pid ∈ st.view.signalled,
      (pid = S.caller ↔ st.orphaned = false) :=
  ⟨fun _ h _ hpid => ((reach_good h).signalled_iff hpid).mpr (reach_careful h).2,
    fun _ h _ hpid => (reach_good h).signalled_iff hpid⟩

/-- A process that calls `str_cli`. -/
def shell : Setup where
  caller := 100
  reaper := 1
  ne := by decide
  sockfd := 3
  sendLine := Vector.replicate 1024 0
  recvline := Vector.replicate 1024 0

/-- The server closes the connection, and the child signals its parent. -/
theorem signals_parent_close : ∃ st, Reach shell Careful st ∧ st.view.signalled = [100] ∧
    ∀ pid ∈ st.view.signalled, pid = 100 := by
  have h := Relation.ReflTransGen.refl (r := Step shell Careful) (a := initial shell)
  have h := h.tail (.parentAgain rfl rfl)
  have h := h.tail (.fork 100 rfl rfl rfl)
  have h := h.tail .close
  have h := h.tail (.childAgain rfl)
  have h := h.tail (.child (c := .read 3 (Span.whole 1024)) (r := .ok []) rfl
    ⟨by decide, fun _ => rfl⟩)
  have h := h.tail (.getppid rfl)
  have h := h.tail (.kill rfl)
  exact ⟨_, h, rfl, (signals_parent shell).1 _ h⟩

/-- The parent writes the lines it has read. -/
theorem exists_write (sockfd : ℤ) (sendLine : Buf 1024) :
    ∃ k, body sockfd (.parent sendLine) = .call (.fgets 1024) k ∧
      ∀ line, line.length < 1024 → 0 ∉ line → ∃ mem k', k (some line) =
        .call (.write sockfd (Span.first 1024 line.length) mem) k' := by
  refine ⟨_, Prog.perform_bind _ _, fun line hlen h0 => ?_⟩
  dsimp only
  rw [strlen_put_line hlen h0]
  exact ⟨_, _, rfl⟩

/-- The server resets the connection, the parent writes a line and dies, and the child signals
whoever adopts orphans. -/
theorem not_signals_parent :
    ¬ ∀ st, Reach shell (fun _ => True) st → ∀ pid ∈ st.view.signalled, pid = shell.caller := by
  intro hall
  obtain ⟨k, hbody, hk⟩ := exists_write 3 shell.sendLine
  obtain ⟨mem, k', hk'⟩ := hk (text "hello\n") (by decide) (by decide)
  have h := Relation.ReflTransGen.refl (r := Step shell fun _ => True) (a := initial shell)
  have h := h.tail (.parentAgain rfl rfl)
  have h := h.tail (.fork 100 rfl rfl rfl)
  have h := h.tail (.parentAgain rfl rfl)
  have h := h.tail (.parent (c := .fgets 1024) (r := some (text "hello\n")) rfl hbody
    (show 6 < 1024 by decide) fun _ _ _ _ => trivial)
  have h := h.tail .reset
  have h := h.tail (.sigpipe rfl hk' rfl trivial)
  have h := h.tail (.childAgain rfl)
  have h := h.tail (.child (c := .read 3 (Span.whole 1024)) (r := .error (.other 104)) rfl trivial)
  have h := h.tail (.getppid rfl)
  have h := h.tail (.kill rfl)
  exact absurd (hall _ h 1 (List.mem_singleton_self 1)) (by decide)

end ForkStrCli

end UnixNetwork
