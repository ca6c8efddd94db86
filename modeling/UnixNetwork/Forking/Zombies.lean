import UnixNetwork.Forking
import Mathlib.Data.Finset.Card

/-!
# Children that are not waited for

A server, its handler of `SIGCHLD`, and its children. The signal is one bit that every child sets
when it exits. It is delivered at any moment at which the handler does not run, also between any two
calls of the program; the bit is cleared and the handler runs, and as long as it does the program
does not go on and the signal is not delivered again. Children begin and exit at any moment.

So there may be many exits for one run of the handler. What carries the proof is that a child that
has exited is either announced by the bit, or the handler will still call `waitpid`.

## Main definitions

* `Kids`, `world`: the children, and what the calls may return
* `Step`, `HandlerStep`, `Reach`: the server with its handler and its children
* `Reaping`: the handler will still call `waitpid`
* `ZombieFree`: what is asked of the server

## Main results

* `reach_good`: a child that has exited will be waited for
* `no_zombies`: both servers wait for all their children
-/

namespace UnixNetwork

namespace Forking

open Interaction

/-! ## The children -/

/-- The children of a process, and its `errno`. -/
structure Kids where
  /-- The children that have not exited. -/
  running : Finset ℕ
  /-- The children that have exited and have not been waited for. -/
  exited : Finset ℕ
  /-- `errno`. -/
  errno : Errno

namespace Kids

/-- A child has begun. -/
def born (k : Kids) (pid : ℕ) : Kids := { k with running := insert pid k.running }

/-- A child has exited. -/
def exit (k : Kids) (pid : ℕ) : Kids :=
  { k with running := k.running.erase pid, exited := insert pid k.exited }

/-- A call has failed, or not. -/
def fails {α : Type} (k : Kids) : Except Errno α → Kids
  | .ok _ => k
  | .error e => { k with errno := e }

@[simp] theorem exited_fails {α : Type} (k : Kids) (r : Except Errno α) :
    (k.fails r).exited = k.exited := by
  cases r <;> rfl

@[simp] theorem running_fails {α : Type} (k : Kids) (r : Except Errno α) :
    (k.fails r).running = k.running := by
  cases r <;> rfl

/-- What has happened once a call has returned. -/
def next (k : Kids) : (c : Call) → Res c → Kids
  | .fork, .ok pid => k.born pid
  | .waitpid .., .ok pid => { k with exited := k.exited.erase pid }
  | .fork, .error e | .waitpid .., .error e => { k with errno := e }
  | .accept _, r => k.fails r
  | .read .., r => k.fails r
  | .write .., r => k.fails r
  | .close _, r | .dup2 .., r | .execlp .., r => k.fails r
  | _, _ => k

end Kids

/-- `ECHILD`. -/
def echild : Errno := .other 10

/-- The surroundings of the server. `fork` returns in the parent. `waitpid` of any child returns one
that has exited; if there is none it returns 0 if it has been told not to wait, and fails if there
is no child at all. -/
def world : World process Kids where
  Allows k c r := match c, r with
    | .errno, r => r = k.errno
    | .fork, .ok pid => 0 < pid ∧ pid ∉ k.running ∧ pid ∉ k.exited
    | .waitpid pid _, .ok (child + 1) => pid = -1 ∧ child + 1 ∈ k.exited
    | .waitpid pid nohang, .ok 0 => pid = -1 ∧ nohang ∧ k.exited = ∅ ∧ k.running ≠ ∅
    | .waitpid pid _, .error e => pid = -1 ∧ k.exited = ∅ ∧ k.running = ∅ ∧ e = echild
    | _, _ => True
  next := Kids.next

/-! ## The system -/

variable {S : Server}

/-- The state of the server. -/
structure State (S : Server) where
  /-- What is left of the program's turn. -/
  main : Prog process (S.Locals ⊕ Unit)
  /-- What is left of the handler's turn, if it runs. -/
  handler : Option (Prog process (Unit ⊕ Unit))
  /-- The signal is pending. -/
  pending : Bool
  /-- The children. -/
  kids : Kids

/-- The server at the head of its loop, without children. -/
def State.start (S : Server) (errno : Errno) : State S := ⟨.ret (.inl S.head), none, false,
  ⟨∅, ∅, errno⟩⟩

/-- A step of the handler. -/
inductive HandlerStep (S : Server) : State S → State S → Prop where
  /-- A call of it returns, or it begins a turn. -/
  | step {st : State S} {h h' : Prog process (Unit ⊕ Unit)} {k : Kids} (hh : st.handler = some h)
      (hs : Interaction.Step world S.handler (h, st.kids) (h', k)) :
      HandlerStep S st { st with handler := some h', kids := k }
  /-- It is over. -/
  | returned {st : State S} (hh : st.handler = some (.ret (.inr ()))) :
      HandlerStep S st { st with handler := none }

/-- One step of the server, its handler or one of its children. -/
inductive Step (S : Server) : State S → State S → Prop where
  /-- The program, when the handler does not run. -/
  | main {st : State S} {p : Prog process (S.Locals ⊕ Unit)} {k : Kids} (hh : st.handler = none)
      (hs : Interaction.Step world S.body (st.main, st.kids) (p, k)) :
      Step S st { st with main := p, kids := k }
  /-- The handler. -/
  | handler {st st' : State S} (hs : HandlerStep S st st') : Step S st st'
  /-- The signal is delivered. -/
  | deliver {st : State S} (hh : st.handler = none) (hp : st.pending = true) :
      Step S st { st with handler := some (.ret (.inl ())), pending := false }
  /-- A child begins. -/
  | born {st : State S} {pid : ℕ} (hpos : 0 < pid) (hr : pid ∉ st.kids.running)
      (he : pid ∉ st.kids.exited) : Step S st { st with kids := st.kids.born pid }
  /-- A child exits. -/
  | exit {st : State S} {pid : ℕ} (hr : pid ∈ st.kids.running) :
      Step S st { st with kids := st.kids.exit pid, pending := true }

/-- `st` is a state of a run. -/
def Reach (S : Server) (st : State S) : Prop :=
  ∃ errno, Relation.ReflTransGen (Step S) (State.start S errno) st

/-! ## The handler -/

/-- The handler goes round its loop again. -/
def Returns (h : Prog process (Unit ⊕ Unit)) : Prop :=
  h = .ret (.inl ()) ∨
    ∃ before n after k, h = .call (.printfInt before n after) k ∧ k () = .ret (.inl ())

/-- The handler waits for a child, goes round its loop if there was one, and is over if not. -/
def Waits (h : Prog process (Unit ⊕ Unit)) : Prop :=
  ∃ k, h = .call (.waitpid (-1) true) k ∧ (∀ r, countValue r ≤ 0 → k r = .ret (.inr ())) ∧
    ∀ r, 0 < countValue r → Returns (k r)

/-- The handler will still call `waitpid`. -/
def Reaping (h : Prog process (Unit ⊕ Unit)) : Prop := Returns h ∨ Waits h

theorem waits_sigChld : Waits (sigChld ()) := by
  refine ⟨_, rfl, fun r hr => if_neg (not_lt.mpr hr), fun r hr => .inr ?_⟩
  exact ⟨_, _, _, _, if_pos hr, rfl⟩

theorem waits_sigchldHandler : Waits (sigchldHandler ()) :=
  ⟨_, rfl, fun _ hr => if_neg (not_lt.mpr hr), fun _ hr => .inl (if_pos hr)⟩

/-- How far the handler is from calling `waitpid` and being over. -/
def rank : Prog process (Unit ⊕ Unit) → ℕ
  | .ret (.inr _) => 0
  | .call (.waitpid ..) _ => 1
  | .ret (.inl _) => 2
  | _ => 3

theorem rank_le (h : Prog process (Unit ⊕ Unit)) : rank h ≤ 3 := by
  unfold rank
  split <;> decide

/-- A handler that is over calls nothing. -/
theorem not_reaping_done : ¬ Reaping (.ret (.inr ())) := by
  rintro ((h | ⟨_, _, _, _, h, -⟩) | ⟨_, h, -⟩)
  · cases h
  · cases h
  · cases h

/-- A handler that is in `waitpid` is over if there was no child. -/
theorem Reaping.done {nohang : Bool} {k : Except Errno ℕ → Prog process (Unit ⊕ Unit)}
    (h : Reaping (.call (.waitpid (-1) nohang) k)) {r : Except Errno ℕ} (hr : countValue r ≤ 0) :
    k r = .ret (.inr ()) := by
  rcases h with (h | ⟨_, _, _, _, h, -⟩) | ⟨_, h, hdone, -⟩
  · cases h
  · cases h
  · cases h
    exact hdone r hr

/-- What `waitpid` does: it has found no child that has exited, or one fewer is left. -/
theorem next_waitpid {k : Kids} {r : Except Errno ℕ} (hr : world.Allows k (.waitpid (-1) true) r) :
    (world.next k (.waitpid (-1) true) r).running = k.running ∧
      (world.next k (.waitpid (-1) true) r).exited ⊆ k.exited ∧
      (countValue r ≤ 0 ∧ (world.next k (.waitpid (-1) true) r).exited = ∅ ∨
        0 < countValue r ∧
          (world.next k (.waitpid (-1) true) r).exited.card < k.exited.card) := by
  rcases r with e | child
  · have hnone : k.exited = ∅ := hr.2.1
    exact ⟨rfl, subset_rfl, .inl ⟨by simp, hnone⟩⟩
  rcases child with _ | child
  · have hnone : k.exited = ∅ := hr.2.2.1
    refine ⟨rfl, Finset.erase_subset _ _, .inl ⟨by simp, ?_⟩⟩
    show k.exited.erase 0 = ∅
    rw [hnone, Finset.erase_empty]
  · have hmem : child + 1 ∈ k.exited := hr.2
    exact ⟨rfl, Finset.erase_subset _ _, .inr ⟨by simp, Finset.card_erase_lt_of_mem hmem⟩⟩

/-- **A step of the handler.** It goes on and comes closer to its end, or it has found that no child
has exited. -/
theorem reaping_step {body : Unit → Prog process (Unit ⊕ Unit)} (hbody : Waits (body ()))
    {h h' : Prog process (Unit ⊕ Unit)} {k k' : Kids} (hh : Reaping h)
    (hs : Interaction.Step world body (h, k) (h', k')) :
    k'.running = k.running ∧ k'.exited ⊆ k.exited ∧
      4 * k'.exited.card + rank h' < 4 * k.exited.card + rank h ∧
      (Reaping h' ∨ h' = .ret (.inr ()) ∧ k'.exited = ∅) := by
  rcases hh with (rfl | ⟨before, n, after, kont, rfl, hk⟩) | ⟨kont, rfl, hdone, hmore⟩
  · cases hs
    obtain ⟨kont, hb, -⟩ := id hbody
    have hrank : rank (body ()) = 1 := by rw [hb]; rfl
    refine ⟨rfl, subset_rfl, ?_, .inl (.inr hbody)⟩
    rw [hrank]
    exact Nat.lt_succ_self _
  · cases hs
    refine ⟨rfl, subset_rfl, ?_, .inl (.inl (.inl hk))⟩
    rw [show kont _ = .ret (.inl ()) from hk]
    exact Nat.lt_succ_self _
  · cases hs with
    | @call _ _ _ r hr =>
      obtain ⟨hrunning, hsub, hcases⟩ := next_waitpid hr
      rcases hcases with ⟨hle, hnone⟩ | ⟨hlt, hcard⟩
      · rw [hdone r hle]
        refine ⟨hrunning, hsub, ?_, .inr ⟨rfl, hnone⟩⟩
        rw [hnone]
        exact Nat.lt_succ_of_le (Nat.zero_le _)
      · refine ⟨hrunning, hsub, ?_, .inl (.inl (hmore r hlt))⟩
        have hrank := rank_le (kont r)
        show 4 * (world.next k (.waitpid (-1) true) r).exited.card + _ < 4 * k.exited.card + 1
        omega

/-- A `waitpid` that has been told not to wait does not. -/
theorem exists_waitpid {k : Kids} (hpos : ∀ pid ∈ k.exited, 0 < pid) :
    ∃ r, world.Allows k (.waitpid (-1) true) r := by
  by_cases hnone : k.exited = ∅
  · by_cases hrunning : k.running = ∅
    · exact ⟨.error echild, rfl, hnone, hrunning, rfl⟩
    · exact ⟨.ok 0, rfl, rfl, hnone, hrunning⟩
  · obtain ⟨pid, hpid⟩ := Finset.nonempty_iff_ne_empty.mpr hnone
    obtain ⟨child, rfl⟩ := Nat.exists_eq_succ_of_ne_zero (hpos pid hpid).ne'
    exact ⟨.ok (child + 1), rfl, hpid⟩

/-- The handler can always go on. -/
theorem exists_reaping_step {body : Unit → Prog process (Unit ⊕ Unit)}
    {h : Prog process (Unit ⊕ Unit)} (hh : Reaping h) {k : Kids}
    (hpos : ∀ pid ∈ k.exited, 0 < pid) : ∃ h' k', Interaction.Step world body (h, k) (h', k') := by
  rcases hh with (rfl | ⟨before, n, after, kont, rfl, -⟩) | ⟨kont, rfl, -⟩
  · exact ⟨_, _, .again⟩
  · exact ⟨_, _, .call (r := ()) trivial⟩
  · obtain ⟨r, hr⟩ := exists_waitpid hpos
    exact ⟨_, _, .call hr⟩

/-! ## Every child is waited for -/

/-- A call of the program adds no child that has exited. -/
theorem world_next (k : Kids) (c : Call) (r : Res c) (hr : world.Allows k c r) :
    (world.next k c r).exited ⊆ k.exited ∧
      ∀ pid ∈ (world.next k c r).running, pid ∈ k.running ∨ 0 < pid := by
  cases c with
  | fork =>
    rcases r with e | pid
    · exact ⟨subset_rfl, fun _ h => .inl h⟩
    · refine ⟨subset_rfl, fun pid' h => ?_⟩
      rcases Finset.mem_insert.mp h with rfl | h
      · exact .inr hr.1
      · exact .inl h
  | waitpid pid nohang =>
    rcases r with e | child
    · exact ⟨subset_rfl, fun _ h => .inl h⟩
    · exact ⟨Finset.erase_subset _ _, fun _ h => .inl h⟩
  | _ =>
    simp only [world, Kids.next, Kids.exited_fails, Kids.running_fails]
    exact ⟨subset_rfl, fun _ h => .inl h⟩

theorem main_step {k k' : Kids} {p p' : Prog process (S.Locals ⊕ Unit)}
    (hs : Interaction.Step world S.body (p, k) (p', k')) :
    k'.exited ⊆ k.exited ∧ ∀ pid ∈ k'.running, pid ∈ k.running ∨ 0 < pid := by
  cases hs with
  | call hr => exact world_next k _ _ hr
  | again => exact ⟨subset_rfl, fun _ h => .inl h⟩

/-- The invariant of the server. -/
structure Good (st : State S) : Prop where
  /-- The children have positive numbers. -/
  pos : ∀ pid, pid ∈ st.kids.running ∨ pid ∈ st.kids.exited → 0 < pid
  /-- The handler has found that no child has exited, or it will look. -/
  handler : ∀ h, st.handler = some h → Reaping h ∨ h = .ret (.inr ())
  /-- A child that has exited is announced, or the handler will look. -/
  announced : st.kids.exited ≠ ∅ → st.pending = true ∨ ∃ h, st.handler = some h ∧ Reaping h

namespace Good

variable {st st' : State S}

theorem start (errno : Errno) : Good (State.start S errno) where
  pos _ h := by simp [State.start] at h
  handler _ h := by simp [State.start] at h
  announced h := absurd rfl h

/-- **A step of the handler.** -/
theorem step_handler (hS : Waits (S.handler ())) (h : Good st) (hs : HandlerStep S st st') :
    Good st' := by
  cases hs with
  | @step h₀ h' k hh hs =>
    rcases h.handler h₀ hh with hreaping | rfl
    · obtain ⟨hrunning, hexited, -, hafter⟩ := reaping_step hS hreaping hs
      refine ⟨fun pid hpid => h.pos pid ?_, fun h₁ hh₁ => ?_, fun hne => ?_⟩
      · exact hpid.imp (fun hr => hrunning ▸ hr) fun he => hexited he
      · exact Option.some.inj hh₁ ▸ hafter.imp_right And.left
      · rcases hafter with hreaping | ⟨-, hnone⟩
        · exact .inr ⟨h', rfl, hreaping⟩
        · exact absurd hnone hne
    · cases hs
  | returned hh =>
    refine ⟨h.pos, fun _ hh' => (by cases hh'), fun hne => .inl ?_⟩
    rcases h.announced hne with hp | ⟨h', hh', hreaping⟩
    · exact hp
    · obtain rfl := Option.some.inj (hh.symm.trans hh')
      exact absurd hreaping not_reaping_done

/-- **A step of the server.** -/
theorem step (hS : Waits (S.handler ())) (h : Good st) (hs : Step S st st') : Good st' := by
  cases hs with
  | handler hs => exact h.step_handler hS hs
  | main hh hs =>
    have hkids := main_step hs
    refine ⟨fun pid hpid => ?_, h.handler, fun hne => h.announced fun hnone => hne ?_⟩
    · rcases hpid with hpid | hpid
      · exact (hkids.2 pid hpid).elim (fun hr => h.pos pid (.inl hr)) id
      · exact h.pos pid (.inr (hkids.1 hpid))
    · exact Finset.subset_empty.mp (hnone ▸ hkids.1)
  | deliver hh hp =>
    refine ⟨h.pos, fun h' hh' => ?_, fun _ => .inr ⟨_, rfl, .inl (.inl rfl)⟩⟩
    exact Option.some.inj hh' ▸ .inl (.inl (.inl rfl))
  | born hpos hr he =>
    refine ⟨fun pid hpid => ?_, h.handler, h.announced⟩
    rcases hpid with hpid | hpid
    · rcases Finset.mem_insert.mp hpid with rfl | hpid
      · exact hpos
      · exact h.pos pid (.inl hpid)
    · exact h.pos pid (.inr hpid)
  | exit hr =>
    refine ⟨fun pid hpid => ?_, h.handler, fun _ => .inl rfl⟩
    rcases hpid with hpid | hpid
    · exact h.pos pid (.inl (Finset.mem_of_mem_erase hpid))
    · rcases Finset.mem_insert.mp hpid with rfl | hpid
      · exact h.pos _ (.inl hr)
      · exact h.pos pid (.inr hpid)

end Good

variable {st : State S}

theorem reach_good (hS : Waits (S.handler ())) (h : Reach S st) : Good st := by
  obtain ⟨errno, h⟩ := h
  induction h with
  | refl => exact .start errno
  | tail _ hs ih => exact ih.step hS hs

/-- What is asked of a server. -/
structure ZombieFree (S : Server) : Prop where
  /-- When no signal is pending and no handler runs, no child has exited without having been waited
  for. -/
  noZombie : ∀ st, Reach S st → st.pending = false → st.handler = none → st.kids.exited = ∅
  /-- The handler is over as soon as `waitpid` finds no child that has exited. -/
  returned : ∀ st nohang k r, Reach S st → st.handler = some (.call (.waitpid (-1) nohang) k) →
    world.Allows st.kids (.waitpid (-1) nohang) r → countValue r ≤ 0 → k r = .ret (.inr ())
  /-- The handler never waits. -/
  goesOn : ∀ st h, Reach S st → st.handler = some h → ∃ st', HandlerStep S st st'
  /-- The handler does not run for ever. -/
  ends : ∀ st, Reach S st → Acc (fun st' st => HandlerStep S st st') st

namespace Good

theorem noZombie (h : Good st) (hp : st.pending = false) (hh : st.handler = none) :
    st.kids.exited = ∅ := by
  by_contra hne
  rcases h.announced hne with hp' | ⟨h', hh', -⟩
  · exact absurd (hp.symm.trans hp') (by decide)
  · cases hh.symm.trans hh'

theorem goesOn (h : Good st) {h₀ : Prog process (Unit ⊕ Unit)} (hh : st.handler = some h₀) :
    ∃ st', HandlerStep S st st' := by
  rcases h.handler h₀ hh with hreaping | rfl
  · obtain ⟨h', k, hs⟩ := exists_reaping_step hreaping fun pid hpid => h.pos pid (.inr hpid)
    exact ⟨_, .step hh hs⟩
  · exact ⟨_, .returned hh⟩

end Good

/-- How far the handler is from being over. -/
def left (st : State S) : ℕ :=
  match st.handler with
  | none => 0
  | some h => 4 * st.kids.exited.card + rank h + 1

theorem left_lt (hS : Waits (S.handler ())) (h : Good st) {st' : State S}
    (hs : HandlerStep S st st') : left st' < left st := by
  cases hs with
  | @step h₀ h' k hh hs =>
    rcases h.handler h₀ hh with hreaping | rfl
    · obtain ⟨-, -, hlt, -⟩ := reaping_step hS hreaping hs
      simp only [left, hh]
      omega
    · cases hs
  | returned hh =>
    simp only [left, hh]
    omega

theorem Good.ends (hS : Waits (S.handler ())) (h : Good st) :
    Acc (fun st' st => HandlerStep S st st') st := by
  induction hn : left st using Nat.strong_induction_on generalizing st with
  | _ n ih =>
    subst hn
    exact ⟨st, fun st' hs => ih _ (left_lt hS h hs) (h.step_handler hS hs) rfl⟩

theorem zombieFree (hS : Waits (S.handler ())) : ZombieFree S where
  noZombie st h hp hh := (reach_good hS h).noZombie hp hh
  returned st nohang k r h hh _ hr := by
    rcases (reach_good hS h).handler _ hh with hreaping | hret
    · exact hreaping.done hr
    · cases hret
  goesOn st h hst hh := (reach_good hS hst).goesOn hh
  ends st h := (reach_good hS h).ends hS

/-- **No child is left that has exited.** Both servers wait for all of their children. -/
theorem no_zombies (listenfd : ℤ) (buf : Buf 1024) :
    ZombieFree (.main01 listenfd buf) ∧ ZombieFree (.tcpUnix listenfd) :=
  ⟨zombieFree waits_sigChld, zombieFree waits_sigchldHandler⟩

end Forking

end UnixNetwork
