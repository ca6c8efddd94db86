import UnixNetwork.Forking.Zombies

/-!
# An accept that is interrupted

`main01` of `07/server.c` goes on when `accept` has failed with `EINTR`, and leaves its loop when it
has failed with anything else. It looks at `errno` for that, and so does its handler of `SIGCHLD`
without knowing it: the last `waitpid` of `sig_chld` fails with `ECHILD` if no child is left, and
the handler does not put `errno` back.

This module says exactly when the server is stopped by an `accept` that has only been interrupted:
when `waitpid` fails between that `accept` and the test.

## Main definitions

* `Noted`, `Run`: a run of a server with its handler, and the calls that have returned in it
* `Failed`: an `accept` has failed with something else than `EINTR`
* `Disturbed`: `waitpid` has failed between an interrupted `accept` and the test of `errno`

## Main results

* `Run.reach`, `Reach.exists_run`: the runs are those of `Forking.Step`
* `run_at`: where the server is in a run
* `left_iff`: when the server leaves its loop as it is meant to
-/

namespace UnixNetwork

namespace Forking

open Interaction

/-! ## Runs and what is noted about them -/

/-- A call that has returned, of the program or of its handler. -/
inductive Noted where
  | program (e : Event process)
  | handler (e : Event process)

variable {S : Server}

/-- A run of a server with its handler and its children, and the calls that have returned in it, the
last one first. -/
inductive Run (S : Server) : State S → List Noted → Prop where
  /-- Nothing has happened. -/
  | start (errno : Errno) : Run S (State.start S errno) []
  /-- A call of the program returns, when the handler does not run. -/
  | program {st : State S} {t : List Noted} {c : Call} {k : Res c → Prog process (S.Locals ⊕ Unit)}
      {r : Res c} (h : Run S st t) (hh : st.handler = none) (hm : st.main = .call c k)
      (hr : world.Allows st.kids c r) :
      Run S { st with main := k r, kids := world.next st.kids c r } (.program ⟨c, r⟩ :: t)
  /-- The program goes round its loop. -/
  | again {st : State S} {t : List Noted} {s : S.Locals} (h : Run S st t) (hh : st.handler = none)
      (hm : st.main = .ret (.inl s)) : Run S { st with main := S.body s } t
  /-- A call of the handler returns. -/
  | handler {st : State S} {t : List Noted} {c : Call} {k : Res c → Prog process (Unit ⊕ Unit)}
      {r : Res c} (h : Run S st t) (hh : st.handler = some (.call c k))
      (hr : world.Allows st.kids c r) :
      Run S { st with handler := some (k r), kids := world.next st.kids c r } (.handler ⟨c, r⟩ :: t)
  /-- The handler goes round its loop. -/
  | handlerAgain {st : State S} {t : List Noted} (h : Run S st t)
      (hh : st.handler = some (.ret (.inl ()))) :
      Run S { st with handler := some (S.handler ()) } t
  /-- The handler is over. -/
  | returned {st : State S} {t : List Noted} (h : Run S st t)
      (hh : st.handler = some (.ret (.inr ()))) : Run S { st with handler := none } t
  /-- The signal is delivered. -/
  | deliver {st : State S} {t : List Noted} (h : Run S st t) (hh : st.handler = none)
      (hp : st.pending = true) :
      Run S { st with handler := some (.ret (.inl ())), pending := false } t
  /-- A child begins. -/
  | born {st : State S} {t : List Noted} {pid : ℕ} (h : Run S st t) (hpos : 0 < pid)
      (hr : pid ∉ st.kids.running) (he : pid ∉ st.kids.exited) :
      Run S { st with kids := st.kids.born pid } t
  /-- A child exits. -/
  | exit {st : State S} {t : List Noted} {pid : ℕ} (h : Run S st t) (hr : pid ∈ st.kids.running) :
      Run S { st with kids := st.kids.exit pid, pending := true } t

theorem Run.reach {st : State S} {t : List Noted} (h : Run S st t) : Reach S st := by
  induction h with
  | start errno => exact ⟨errno, .refl⟩
  | @program st t c k r h hh hm hr ih =>
    obtain ⟨errno, ih⟩ := ih
    refine ⟨errno, ih.tail (.main hh ?_)⟩
    rw [hm]
    exact .call hr
  | again h hh hm ih =>
    obtain ⟨errno, ih⟩ := ih
    refine ⟨errno, ih.tail (.main hh ?_)⟩
    rw [hm]
    exact .again
  | handler h hh hr ih => exact ih.imp fun _ ih => ih.tail (.handler (.step hh (.call hr)))
  | handlerAgain h hh ih => exact ih.imp fun _ ih => ih.tail (.handler (.step hh .again))
  | returned h hh ih => exact ih.imp fun _ ih => ih.tail (.handler (.returned hh))
  | deliver h hh hp ih => exact ih.imp fun _ ih => ih.tail (.deliver hh hp)
  | born h hpos hr he ih => exact ih.imp fun _ ih => ih.tail (.born hpos hr he)
  | exit h hr ih => exact ih.imp fun _ ih => ih.tail (.exit hr)

/-- Every state of a run is the end of one in which the calls have been noted. -/
theorem Reach.exists_run {st : State S} (h : Reach S st) : ∃ t, Run S st t := by
  obtain ⟨errno, h⟩ := h
  induction h with
  | refl => exact ⟨[], .start errno⟩
  | @tail st st' _ hs ih =>
    obtain ⟨t, ih⟩ := ih
    cases hs with
    | @main p k hh hs =>
      generalize hm : st.main = m at hs
      cases hs with
      | call hr => exact ⟨_, ih.program hh hm hr⟩
      | again => exact ⟨_, ih.again hh hm⟩
    | handler hs =>
      cases hs with
      | step hh hs =>
        cases hs with
        | call hr => exact ⟨_, ih.handler hh hr⟩
        | again => exact ⟨_, ih.handlerAgain hh⟩
      | returned hh => exact ⟨_, ih.returned hh⟩
    | deliver hh hp => exact ⟨_, ih.deliver hh hp⟩
    | born hpos hr he => exact ⟨_, ih.born hpos hr he⟩
    | exit hr => exact ⟨_, ih.exit hr⟩

/-- An `accept` of the program has failed with something else than `EINTR`. -/
def Failed (t : List Noted) : Prop :=
  ∃ fd e, Noted.program ⟨.accept fd, .error e⟩ ∈ t ∧ e ≠ .eintr

/-- The last call of the program that has returned is an `accept` that has failed with `EINTR`. -/
def Interrupted : List Noted → Prop
  | .handler _ :: t => Interrupted t
  | .program ⟨.accept _, .error .eintr⟩ :: _ => True
  | _ => False

/-- `waitpid` has failed in the handler after an `accept` that has failed with `EINTR` and before
the next call of the program. -/
def Disturbed : List Noted → Prop
  | .handler ⟨.waitpid _ _, .error _⟩ :: t => Interrupted t ∨ Disturbed t
  | _ :: t => Disturbed t
  | [] => False

@[simp] theorem not_failed_nil : ¬ Failed [] := by
  rintro ⟨_, _, hmem, -⟩
  cases hmem

@[simp] theorem failed_handler (e : Event process) (t : List Noted) :
    Failed (.handler e :: t) ↔ Failed t := by
  simp [Failed]

@[simp] theorem failed_accept (fd : ℤ) (e : Errno) (t : List Noted) :
    Failed (.program ⟨.accept fd, .error e⟩ :: t) ↔ e ≠ .eintr ∨ Failed t := by
  constructor
  · rintro ⟨fd', e', hmem, hne⟩
    rcases List.mem_cons.mp hmem with he | hmem
    · cases he
      exact .inl hne
    · exact .inr ⟨fd', e', hmem, hne⟩
  · rintro (hne | ⟨fd', e', hmem, hne⟩)
    · exact ⟨fd, e, List.mem_cons_self, hne⟩
    · exact ⟨fd', e', List.mem_cons_of_mem _ hmem, hne⟩

/-- What has been noted stays as it is when another call has returned. -/
structure Unchanged (t t' : List Noted) : Prop where
  failed : Failed t' ↔ Failed t
  disturbed : Disturbed t' ↔ Disturbed t

/-- A call of the program that is not `accept` ends the interruption. -/
theorem unchanged_program {c : Call} (hc : ∀ fd, c ≠ .accept fd) (r : Res c) (t : List Noted) :
    Unchanged t (.program ⟨c, r⟩ :: t) ∧ ¬ Interrupted (.program ⟨c, r⟩ :: t) := by
  refine ⟨⟨?_, Iff.rfl⟩, ?_⟩
  · constructor
    · rintro ⟨fd, e, hmem, hne⟩
      rcases List.mem_cons.mp hmem with he | hmem
      · cases he
        exact absurd rfl (hc fd)
      · exact ⟨fd, e, hmem, hne⟩
    · rintro ⟨fd, e, hmem, hne⟩
      exact ⟨fd, e, List.mem_cons_of_mem _ hmem, hne⟩
  · cases c with
    | accept fd => exact absurd rfl (hc fd)
    | _ => exact id

/-! ## The program -/

/-- What `main01` does with the `errno` of an `accept` that has failed. -/
def afterFailed (errno : Errno) : Prog process (Main01 ⊕ Unit) :=
  if errno = .eintr then do
    let _ ← Prog.perform (I := process) (.printf (text "EINTR\n"))
    return .inl .head
  else do
    let errno ← Prog.perform (I := process) .errno
    let _ ← Prog.perform (I := process) (.printfErrno (text "errno is ") errno (text "\n"))
    return .inr ()

/-- The program accepts nothing more before its turn ends with `x`. -/
def Ends (x : Main01 ⊕ Unit) : Prog process (Main01 ⊕ Unit) → Prop
  | .ret y => y = x
  | .call c k => (∀ fd, c ≠ .accept fd) ∧ ∀ r, (∃ w, world.Allows w c r) → Ends x (k r)
  | .fault => False

theorem ends_afterFailed_eintr : Ends (.inl .head) (afterFailed .eintr) :=
  ⟨by simp, fun _ _ => rfl⟩

theorem ends_afterFailed {errno : Errno} (h : errno ≠ .eintr) :
    Ends (.inr ()) (afterFailed errno) := by
  rw [afterFailed, if_neg h]
  exact ⟨by simp, fun _ _ => ⟨by simp, fun _ _ => rfl⟩⟩

/-- A turn of `main01` begins with `accept`. -/
theorem exists_main01_eq (listenfd : ℤ) (buf : Buf 1024) : ∃ k : Res (.accept listenfd) → _,
    main01 listenfd buf .head = Prog.call (I := process) (.accept listenfd) k ∧
      (∀ e, k (.error e) = Prog.call (I := process) .errno afterFailed) ∧
      ∀ conn, Ends (.inl .head) (k (.ok conn)) := by
  refine ⟨_, rfl, fun _ => rfl, ?_⟩
  rintro ⟨connfd, cliddr⟩
  refine ⟨by simp, fun _ _ => ⟨by simp, fun r hr => ?_⟩⟩
  have hparent : countValue r ≠ 0 := by
    obtain ⟨w, hr⟩ := hr
    cases r with
    | ok pid =>
      have hpos : 0 < pid := hr.1
      show (pid : ℤ) ≠ 0
      omega
    | error e =>
      show (-1 : ℤ) ≠ 0
      decide
  -- the server is the parent
  show Ends _ (if countValue r = 0 then _ else _)
  rw [if_neg hparent]
  exact ⟨by simp, fun _ _ => rfl⟩

/-! ## Where the server is -/

variable {listenfd : ℤ} {buf : Buf 1024} {p : Prog process (Main01 ⊕ Unit)}
  {errno errno' : Errno} {t t' : List Noted}

/-- Nothing has gone wrong so far. -/
structure Fine (t : List Noted) : Prop where
  failed : ¬ Failed t
  disturbed : ¬ Disturbed t
  interrupted : ¬ Interrupted t

/-- The test of `errno` will stop the server. -/
structure Doomed (errno : Errno) (t : List Noted) : Prop where
  errno : errno ≠ .eintr
  failed_iff : Failed t ↔ ¬ Disturbed t
  interrupted : Failed t → ¬ Interrupted t

/-- Where the server is, what `errno` holds, and what has been noted. -/
inductive At (listenfd : ℤ) (buf : Buf 1024) :
    Prog process (Main01 ⊕ Unit) → Errno → List Noted → Prop where
  /-- At the head of its loop, or on the way there. -/
  | serving {p : Prog process (Main01 ⊕ Unit)} {errno : Errno} {t : List Noted}
      (hp : Ends (.inl .head) p) (h : Fine t) : At listenfd buf p errno t
  /-- In `accept`. -/
  | accepting {errno : Errno} {t : List Noted} (h : Fine t) :
      At listenfd buf (main01 listenfd buf .head) errno t
  /-- Before the test of `errno`, which will find `EINTR` if nothing happens. -/
  | interrupted {t : List Noted} (hf : ¬ Failed t) (hd : ¬ Disturbed t) (hi : Interrupted t) :
      At listenfd buf (Prog.call (I := process) .errno afterFailed) .eintr t
  /-- Before the test of `errno`, which will find something else. -/
  | doomed {errno : Errno} {t : List Noted} (h : Doomed errno t) :
      At listenfd buf (Prog.call (I := process) .errno afterFailed) errno t
  /-- Behind its loop, or on the way there. -/
  | leaving {p : Prog process (Main01 ⊕ Unit)} {errno : Errno} {t : List Noted}
      (hp : Ends (.inr ()) p) (h : Failed t ↔ ¬ Disturbed t) (hi : ¬ Interrupted t) :
      At listenfd buf p errno t

namespace At

/-- A call of the program. -/
theorem program {c : Call} {k : Res c → Prog process (Main01 ⊕ Unit)} {r : Res c} {kids : Kids}
    (h : At listenfd buf (.call c k) kids.errno t) (hr : world.Allows kids c r) :
    At listenfd buf (k r) (world.next kids c r).errno (.program ⟨c, r⟩ :: t) := by
  generalize hp : (Prog.call (I := process) c k) = p at h
  generalize herrno : kids.errno = errno at h
  cases h with
  | serving hends h =>
    subst hp
    obtain ⟨hu, hi⟩ := unchanged_program hends.1 r t
    exact .serving (hends.2 r ⟨_, hr⟩)
      ⟨fun hf => h.failed (hu.failed.mp hf), h.disturbed, hi⟩
  | accepting h =>
    obtain ⟨k', hmain, herror, hok⟩ := exists_main01_eq listenfd buf
    rw [hmain] at hp
    cases hp
    rcases r with e | conn
    · rw [herror]
      by_cases he : e = .eintr
      · subst he
        exact .interrupted (fun hf => ((failed_accept _ _ _).mp hf).elim (absurd rfl) h.failed)
          h.disturbed trivial
      · refine .doomed ⟨he, ?_, ?_⟩
        · exact iff_of_true ((failed_accept _ _ _).mpr (.inl he)) h.disturbed
        · cases e with
          | eintr => exact absurd rfl he
          | _ => exact fun _ => id
    · refine .serving (hok conn) ⟨?_, h.disturbed, id⟩
      rintro ⟨fd, e, hmem, hne⟩
      rcases List.mem_cons.mp hmem with he | hmem
      · cases he
      · exact h.failed ⟨fd, e, hmem, hne⟩
  | interrupted hf hd hi =>
    cases hp
    obtain rfl : r = kids.errno := hr
    obtain ⟨hu, hi⟩ := unchanged_program (c := .errno) (by simp) kids.errno t
    rw [herrno] at hu hi ⊢
    exact .serving ends_afterFailed_eintr ⟨fun h => hf (hu.failed.mp h), hd, hi⟩
  | doomed h =>
    cases hp
    obtain rfl : r = kids.errno := hr
    obtain ⟨hu, hi⟩ := unchanged_program (c := .errno) (by simp) kids.errno t
    rw [herrno] at hu hi ⊢
    exact .leaving (ends_afterFailed h.errno) (hu.failed.trans h.failed_iff) hi
  | leaving hends h hi =>
    subst hp
    obtain ⟨hu, hi⟩ := unchanged_program hends.1 r t
    exact .leaving (hends.2 r ⟨_, hr⟩) (hu.failed.trans h) hi

/-- The program goes round its loop. -/
theorem again {s : Main01} (h : At listenfd buf (.ret (.inl s)) errno t) :
    At listenfd buf (main01 listenfd buf s) errno t := by
  generalize hp : (Prog.ret (.inl s) : Prog process (Main01 ⊕ Unit)) = p at h
  cases h with
  | serving hends h =>
    subst hp
    cases hends
    exact .accepting h
  | accepting h => cases hp
  | interrupted hf hd hi => cases hp
  | doomed h => cases hp
  | leaving hends h hi =>
    subst hp
    cases hends

/-- A call of the handler that changes nothing of note. -/
theorem handler {e : Event process} (h : At listenfd buf p errno t)
    (hd : Disturbed (.handler e :: t) ↔ Disturbed t) :
    At listenfd buf p errno (.handler e :: t) := by
  have hf := failed_handler e t
  cases h with
  | serving hends h =>
    exact .serving hends ⟨fun h' => h.failed (hf.mp h'), fun h' => h.disturbed (hd.mp h'),
      h.interrupted⟩
  | accepting h =>
    exact .accepting ⟨fun h' => h.failed (hf.mp h'), fun h' => h.disturbed (hd.mp h'),
      h.interrupted⟩
  | interrupted hf' hd' hi =>
    exact .interrupted (fun h' => hf' (hf.mp h')) (fun h' => hd' (hd.mp h')) hi
  | doomed h =>
    exact .doomed ⟨h.errno, hf.trans (h.failed_iff.trans (not_congr hd.symm)),
      fun h' => h.interrupted (hf.mp h')⟩
  | leaving hends h hi => exact .leaving hends (hf.trans (h.trans (not_congr hd.symm))) hi

/-- A `waitpid` of the handler that fails. -/
theorem waitpid_error {pid : ℤ} {nohang : Bool} {e : Errno} (h : At listenfd buf p errno t)
    (he : errno' ≠ .eintr) :
    At listenfd buf p errno' (.handler ⟨.waitpid pid nohang, .error e⟩ :: t) := by
  have hf := failed_handler ⟨.waitpid pid nohang, .error e⟩ t
  have hd : Disturbed (.handler ⟨.waitpid pid nohang, .error e⟩ :: t) ↔
      Interrupted t ∨ Disturbed t := Iff.rfl
  cases h with
  | serving hends h =>
    exact .serving hends ⟨fun h' => h.failed (hf.mp h'), not_or.mpr ⟨h.interrupted, h.disturbed⟩,
      h.interrupted⟩
  | accepting h =>
    exact .accepting ⟨fun h' => h.failed (hf.mp h'), not_or.mpr ⟨h.interrupted, h.disturbed⟩,
      h.interrupted⟩
  | interrupted hf' hd' hi =>
    -- `errno` is no longer `EINTR`
    refine .doomed ⟨he, ?_, fun h' => absurd (hf.mp h') hf'⟩
    exact iff_of_false (fun h' => hf' (hf.mp h')) (not_not.mpr (hd.mpr (.inl hi)))
  | doomed h =>
    refine .doomed ⟨he, ?_, fun h' => h.interrupted (hf.mp h')⟩
    rw [hf, hd]
    constructor
    · intro h'
      exact not_or.mpr ⟨h.interrupted h', h.failed_iff.mp h'⟩
    · intro h'
      exact h.failed_iff.mpr (not_or.mp h').2
  | leaving hends h hi =>
    refine .leaving hends ?_ hi
    rw [hf, hd, or_iff_right hi]
    exact h

end At

/-- **Where the server is.** -/
theorem run_at {st : State (.main01 listenfd buf)} (h : Run (.main01 listenfd buf) st t) :
    At listenfd buf st.main st.kids.errno t := by
  induction h with
  | start errno => exact .serving rfl ⟨not_failed_nil, id, id⟩
  | program h hh hm hr ih =>
    rw [hm] at ih
    exact ih.program hr
  | again h hh hm ih =>
    rw [hm] at ih
    exact ih.again
  | @handler st t c k r h hh hr ih =>
    have hreaping := (reach_good waits_sigChld h.reach).handler _ hh
    rcases hreaping with (((hret | ⟨before, n, after, k', hcall, -⟩) | ⟨k', hcall, -, -⟩) | hret)
    · cases hret
    · cases hcall
      exact ih.handler Iff.rfl
    · cases hcall
      cases r with
      | ok pid => exact ih.handler Iff.rfl
      | error e =>
        obtain ⟨-, -, -, rfl⟩ := hr
        exact ih.waitpid_error (e := echild) (show echild ≠ .eintr by decide)
    · cases hret
  | handlerAgain h hh ih => exact ih
  | returned h hh ih => exact ih
  | deliver h hh hp ih => exact ih
  | born h hpos hr he ih => exact ih
  | exit h hr ih => exact ih

/-- **When the server leaves its loop as it is meant to.** In a run after which the server has left
its loop, an `accept` has failed with something else than `EINTR` if and only if `waitpid` has never
failed between an `accept` interrupted by a signal and the test of `errno`. -/
theorem left_iff (listenfd : ℤ) (buf : Buf 1024) (st : State (.main01 listenfd buf))
    (t : List Noted) (h : Run (.main01 listenfd buf) st t) (hover : st.main = .ret (.inr ())) :
    Failed t ↔ ¬ Disturbed t := by
  have hat := run_at h
  rw [hover] at hat
  generalize hp : (Prog.ret (.inr ()) : Prog process (Main01 ⊕ Unit)) = p at hat
  cases hat with
  | serving hends h =>
    subst hp
    cases hends
  | leaving hends h hi => exact h

/-- An `accept` fails. -/
theorem Run.accept_error {st : State (.main01 listenfd buf)} {kids : Kids}
    (h : Run (.main01 listenfd buf) st t) (hst : st = ⟨.ret (.inl .head), none, false, kids⟩)
    (e : Errno) :
    Run (.main01 listenfd buf)
      ⟨Prog.call (I := process) .errno afterFailed, none, false, { kids with errno := e }⟩
      (.program ⟨.accept listenfd, .error e⟩ :: t) := by
  subst hst
  exact (h.again rfl rfl).program (c := .accept listenfd) (r := .error e) rfl rfl trivial

/-- The server goes on after an `accept` that has been interrupted. -/
theorem Run.retry {st : State (.main01 listenfd buf)} {kids : Kids}
    (h : Run (.main01 listenfd buf) st t) (he : kids.errno = .eintr)
    (hst : st = ⟨Prog.call (I := process) .errno afterFailed, none, false, kids⟩) :
    Run (.main01 listenfd buf) ⟨.ret (.inl .head), none, false, kids⟩
      (.program ⟨.printf (text "EINTR\n"), ()⟩ :: .program ⟨.errno, kids.errno⟩ :: t) := by
  subst hst
  have htest := h.program (c := .errno) (r := kids.errno) rfl rfl rfl
  rw [afterFailed, if_pos he] at htest
  exact htest.program (c := .printf (text "EINTR\n")) (r := ()) rfl rfl trivial

/-- The server leaves its loop. -/
theorem Run.leave {st : State (.main01 listenfd buf)} {kids : Kids}
    (h : Run (.main01 listenfd buf) st t) (he : kids.errno ≠ .eintr)
    (hst : st = ⟨Prog.call (I := process) .errno afterFailed, none, false, kids⟩) :
    Run (.main01 listenfd buf) ⟨.ret (.inr ()), none, false, kids⟩
      (.program ⟨.printfErrno (text "errno is ") kids.errno (text "\n"), ()⟩ ::
        .program ⟨.errno, kids.errno⟩ :: .program ⟨.errno, kids.errno⟩ :: t) := by
  subst hst
  have htest := h.program (c := .errno) (r := kids.errno) rfl rfl rfl
  rw [afterFailed, if_neg he] at htest
  exact (htest.program (c := .errno) (r := kids.errno) rfl rfl rfl).program (r := ()) rfl rfl
    trivial

/-- An `accept` is interrupted and the server goes on. Then too many files are open. -/
theorem left_iff_emfile : ∃ st t, Run (.main01 3 (Buf.zeros 1024)) st t ∧
    st.main = .ret (.inr ()) ∧ (Failed t ↔ ¬ Disturbed t) := by
  have hstart : Run (.main01 3 (Buf.zeros 1024)) (State.start _ (.other 0)) [] := .start _
  have hretry := (hstart.accept_error rfl .eintr).retry rfl rfl
  have hrun := (hretry.accept_error rfl (.other 24)).leave (by decide) rfl
  exact ⟨_, _, hrun, rfl, left_iff 3 _ _ _ hrun rfl⟩

/-- A child exits while `accept` is being interrupted, and the server is stopped. -/
theorem left_of_child : ∃ st t, Run (.main01 3 (Buf.zeros 1024)) st t ∧
    st.main = .ret (.inr ()) ∧ ¬ Failed t := by
  have hstart : Run (.main01 3 (Buf.zeros 1024)) (State.start _ (.other 0)) [] := .start _
  have hfail := hstart.accept_error rfl .eintr
  have hchild := (hfail.born (by decide : 0 < 7) (by decide) (by decide)).exit
    (Finset.mem_insert_self 7 ∅)
  have hreaped := (((hchild.deliver rfl rfl).handlerAgain rfl).handler (c := .waitpid (-1) true)
    (r := .ok 7) rfl ⟨rfl, by decide⟩).handler (r := ()) rfl trivial
  have hnone := (hreaped.handlerAgain rfl).handler (c := .waitpid (-1) true) (r := .error echild)
    rfl ⟨rfl, by decide, by decide, rfl⟩
  have hover := (hnone.returned rfl).leave (by decide) rfl
  exact ⟨_, _, hover, rfl, by simp [Failed]⟩

end Forking

end UnixNetwork
