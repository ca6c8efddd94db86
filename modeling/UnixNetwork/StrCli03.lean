import UnixNetwork.Interaction.Unheard
import UnixNetwork.StrCli
import UnixNetwork.Streams

/-!
# The client that does not initialise `stdineof`

`str_cli_03` of `07/client.c`, the version before the last one. It prints what it is about to do,
and it reads `stdineof` before anything has been stored in it. Whatever is there decides what the
function does.

If it is 0, the function is `str_cli` but for what it prints. If it is not, the file is not waited
for, now or later: the function prints what comes from the server and never sends anything.

## Main definitions

* `StrCli03.body`, `StrCli03.strCli03`: one turn of the loop, and the function up to the loop
* `StrCli03.heard`: surroundings that remember all calls but those of `printf`

## Main results

* `StrCli03.resembles_body`: a turn is one of `str_cli` but for what is printed
* `StrCli03.wp_body`: a turn when `stdineof` is not 0
* `StrCli03.behaves`: what the function does for each value of `stdineof`
-/

namespace UnixNetwork

namespace StrCli03

open Interaction
open StrCli (Exit)

/-! ## The program -/

/-- The variables of `str_cli_03` that live from one turn of the loop to the next. -/
structure Locals where
  /-- The file has ended. -/
  stdineof : ℤ
  /-- The descriptors that `select` reported in the last turn. -/
  rset : FdSet
  /-- The buffer of both directions. -/
  buf : Buf 1024

/-- From the head of the loop to `select`; `fp` is `fileno(fp)`. -/
def watch (fp sockfd : ℤ) (s : Locals) : Prog posix Locals := do
  let rset ← if s.stdineof = 0 then fdSet fp s.rset else .ret s.rset
  let rset ← fdSet sockfd rset
  let sel ← select (max fp sockfd + 1) rset FdSet.zero
  return { s with rset := sel.rset }

/-- The branch of a readable socket. -/
def fromServer (fp sockfd : ℤ) (s : Locals) : Prog posix (Locals ⊕ Exit) := do
  let ready ← fdIsSet sockfd s.rset
  if ready then do
    let _ ← printf (text "read from socket is ready\n")
    let r ← read sockfd (Span.whole 1024)
    let n := readValue r
    let buf := s.buf.put 0 (readBytes r)
    if n = 0 then
      if s.stdineof = 1 then do
        let _ ← printf (text "normal termination\n")
        return .inr .returned
      else do
        let _ ← printf (text "server terninate prematurely\n")
        return .inr .exit1
    else do
      let _ ← write fp (Span.first 1024 n) buf
      return .inl { s with buf := buf }
  else return .inl s

/-- The branch of a readable file. -/
def fromFile (fp sockfd : ℤ) (s : Locals) : Prog posix Locals := do
  let ready ← fdIsSet fp s.rset
  if ready then do
    let _ ← printf (text "read from stdin is ready\n")
    let r ← read fp (Span.whole 1024)
    let n := readValue r
    let buf := s.buf.put 0 (readBytes r)
    if n = 0 then do
      let _ ← printf (text "end of file\n")
      let _ ← shutdownWr sockfd
      let rset ← fdClr fp s.rset
      return { stdineof := 1, rset := rset, buf := buf }
    else do
      let _ ← write sockfd (Span.first 1024 n) buf
      return { s with buf := buf }
  else return s

/-- One turn of `for(;;)`. -/
def body (fp sockfd : ℤ) (s : Locals) : Prog posix (Locals ⊕ Exit) := do
  let s ← watch fp sockfd s
  match ← fromServer fp sockfd s with
  | .inl s => do
    let s ← fromFile fp sockfd s
    return .inl s
  | .inr e => return .inr e

/-- `str_cli_03(fp, sockfd)`; `stdineof` and `buf` are not initialised. -/
def strCli03 (stdineof : ℤ) (buf : Buf 1024) : Prog posix (Locals ⊕ Exit) := do
  let _ ← printf (text "use select\n")
  return .inl ⟨stdineof, FdSet.zero, buf⟩

/-! ## What is heard of it -/

/-- A text is printed. -/
def Prints : Call → Prop
  | .printf _ => True
  | _ => False

/-- Surroundings that remember all calls but those of `printf`, the last one first. -/
def heard : World posix (List (Event posix)) where
  Allows _ := Streams.Feasible
  next t c r := match c with
    | .printf _ => t
    | c => ⟨c, r⟩ :: t

theorem unheard_of_prints {c : Call} (h : Prints c) : heard.Unheard c := by
  cases c with
  | printf msg => exact ⟨fun _ => ⟨(), trivial⟩, fun _ _ => rfl⟩
  | _ => exact h.elim

theorem mem_heard_next {t : List (Event posix)} {c : Call} {r : Res c} {e : Event posix}
    (h : e ∈ heard.next t c r) : e = ⟨c, r⟩ ∨ e ∈ t := by
  cases c with
  | printf msg => exact .inr h
  | _ => exact List.mem_cons.mp h

/-- A run of the function. -/
abbrev Run (fp sockfd stdineof : ℤ) (buf : Buf 1024) :
    Prog posix (Locals ⊕ Exit) × List (Event posix) → Prop :=
  Reach heard (body fp sockfd) (strCli03 stdineof buf, [])

/-- A run of `str_cli`. -/
abbrev LastRun (fp sockfd : ℤ) (buf : Buf 1024) :
    Prog posix (StrCli.Locals ⊕ Exit) × List (Event posix) → Prop :=
  Reach heard (StrCli.body fp sockfd) (StrCli.strCli buf, [])

/-! ## When `stdineof` is 0 -/

/-- The variables of `str_cli` are these variables. -/
def ofStrCli (t : StrCli.Locals) : Locals := ⟨if t.stdineof then 1 else 0, t.rset, t.buf⟩

/-- The variables are the same. -/
def Same (s : Locals) (t : StrCli.Locals) : Prop := s = ofStrCli t

variable (fp sockfd : ℤ)

/-- What follows the first `FD_SET`. -/
theorem resembles_wait (t : StrCli.Locals) (rset : FdSet) :
    (fdSet sockfd rset >>= fun rset => select (max fp sockfd + 1) rset FdSet.zero >>= fun sel =>
        Prog.ret { ofStrCli t with rset := sel.rset }).Resembles Prints Same
      (fdSet sockfd rset >>= fun rset => select (max fp sockfd + 1) rset FdSet.zero >>= fun sel =>
        Prog.ret { t with rset := sel.rset }) := by
  refine .bind (R := Eq) (.refl _) ?_
  rintro x _ rfl
  exact .call fun sel => .ret rfl

theorem resembles_watch (t : StrCli.Locals) :
    (watch fp sockfd (ofStrCli t)).Resembles Prints Same (StrCli.watch fp sockfd t) := by
  obtain ⟨b, rset, buf⟩ := t
  cases b with
  | true => exact resembles_wait fp sockfd ⟨true, rset, buf⟩ rset
  | false =>
    show Prog.Resembles _ _ (fdSet fp rset >>= _) (fdSet fp rset >>= _)
    refine .bind (R := Eq) (.refl _) ?_
    rintro x _ rfl
    exact resembles_wait fp sockfd ⟨false, rset, buf⟩ x

theorem resembles_fromServer (t : StrCli.Locals) :
    (fromServer fp sockfd (ofStrCli t)).Resembles Prints (Sum.LiftRel Same Eq)
      (StrCli.fromServer fp sockfd t) := by
  obtain ⟨b, rset, buf⟩ := t
  refine .bind (R := Eq) (.refl _) ?_
  rintro ready _ rfl
  cases ready with
  | false => exact .ret (.inl rfl)
  | true =>
    refine .left trivial fun _ => .call fun r => ?_
    show Prog.Resembles _ _ (ite _ _ _) (ite _ _ _)
    by_cases hr : readValue r = 0
    · rw [if_pos hr, if_pos hr]
      cases b with
      | true => exact .call fun _ => .ret (.inr rfl)
      | false => exact .call fun _ => .ret (.inr rfl)
    · rw [if_neg hr, if_neg hr]
      exact .call fun _ => .ret (.inl rfl)

theorem resembles_fromFile (t : StrCli.Locals) :
    (fromFile fp sockfd (ofStrCli t)).Resembles Prints Same (StrCli.fromFile fp sockfd t) := by
  obtain ⟨b, rset, buf⟩ := t
  refine .bind (R := Eq) (.refl _) ?_
  rintro ready _ rfl
  cases ready with
  | false => exact .ret rfl
  | true =>
    refine .left trivial fun _ => .call fun r => ?_
    show Prog.Resembles _ _ (ite _ _ _) (ite _ _ _)
    by_cases hr : readValue r = 0
    · rw [if_pos hr, if_pos hr]
      refine .call fun _ => .call fun _ => ?_
      show Prog.Resembles _ _ (fdClr fp rset >>= _) (fdClr fp rset >>= _)
      refine .bind (R := Eq) (.refl _) ?_
      rintro x _ rfl
      exact .ret rfl
    · rw [if_neg hr, if_neg hr]
      exact .call fun _ => .ret rfl

/-- **A turn is one of `str_cli`** but for what is printed. -/
theorem resembles_body (s : Locals) (t : StrCli.Locals) (h : Same s t) :
    (body fp sockfd s).Resembles Prints (Sum.LiftRel Same Eq) (StrCli.body fp sockfd t) := by
  obtain rfl := h
  refine .bind (resembles_watch fp sockfd t) ?_
  rintro _ t rfl
  refine .bind (resembles_fromServer fp sockfd t) ?_
  rintro _ _ (⟨rfl⟩ | ⟨rfl⟩)
  · refine .bind (resembles_fromFile fp sockfd _) ?_
    rintro _ t rfl
    exact .ret (.inl rfl)
  · exact .ret (.inr rfl)

theorem resembles_strCli03 (buf : Buf 1024) :
    (strCli03 0 buf).Resembles Prints (Sum.LiftRel Same Eq) (StrCli.strCli buf) :=
  .left trivial fun _ => .right trivial fun _ => .ret (.inl rfl)

/-! ## When it is not -/

/-- The file is read, or the server is sent something or told that nothing more comes. -/
def Forwards (fp sockfd : ℤ) : Call → Prop
  | .read fd _ => fd = fp
  | .write fd _ _ => fd = sockfd
  | .shutdownWr _ => True
  | _ => False

/-- Nothing is forwarded. -/
def keeps (fp sockfd : ℤ) : Guard posix (List (Event posix)) :=
  ⟨fun _ c => ¬ Forwards fp sockfd c, fun _ => True⟩

/-- The invariant of the loop. -/
structure Inv (fp stdineof : ℤ) (s : Locals) : Prop where
  /-- `stdineof` is what it was. -/
  stdineof : s.stdineof = stdineof
  /-- The file is not waited for. -/
  notMem : fp ∉ s.rset

/-- How the function ends. -/
def exit (stdineof : ℤ) : Exit := if stdineof = 1 then .returned else .exit1

variable {fp sockfd} {v : ℤ} {s : Locals} {t : List (Event posix)}

theorem wp_watch (hne : fp ≠ sockfd) (hv : v ≠ 0) (h : Inv fp v s) :
    wp heard (keeps fp sockfd) (watch fp sockfd s) (fun s' _ => Inv fp v s') t := by
  rw [watch, if_neg (h.stdineof ▸ hv)]
  show wp _ _ (fdSet sockfd s.rset >>= _) _ _
  by_cases hsock : InRange sockfd
  · rw [fdSet_of_inRange hsock, Prog.ret_bind]
    refine ⟨id, fun sel hsel => ⟨h.stdineof, fun hmem => ?_⟩⟩
    rcases FdSet.mem_insert.mp (hsel.1 fp hmem) with heq | hmem
    · exact hne heq
    · exact h.notMem hmem
  · rw [fdSet_of_not_inRange hsock]
    trivial

theorem wp_fromServer (hne : fp ≠ sockfd) (h : Inv fp v s) :
    wp heard (keeps fp sockfd) (fromServer fp sockfd s)
      (fun x _ => Sum.elim (Inv fp v) (· = exit v) x) t := by
  refine (silent_fdIsSet sockfd s.rset).wp_bind trivial fun ready => ?_
  cases ready with
  | false => exact h
  | true =>
    refine ⟨id, fun _ _ => ⟨hne.symm, fun r _ => ?_⟩⟩
    show wp _ _ (ite _ _ _) _ _
    by_cases hr : readValue r = 0
    · rw [if_pos hr, h.stdineof]
      by_cases hv : v = 1
      · rw [if_pos hv]
        exact ⟨id, fun _ _ => (if_pos hv).symm⟩
      · rw [if_neg hv]
        exact ⟨id, fun _ _ => (if_neg hv).symm⟩
    · rw [if_neg hr]
      exact ⟨hne, fun _ _ => ⟨h.stdineof, h.notMem⟩⟩

theorem wp_fromFile (h : Inv fp v s) :
    wp heard (keeps fp sockfd) (fromFile fp sockfd s) (fun s' _ => Inv fp v s') t := by
  by_cases hfp : InRange fp
  · rw [fromFile, fdIsSet_of_inRange hfp, Prog.ret_bind, if_neg (by simpa using h.notMem)]
    exact h
  · rw [fromFile, fdIsSet, if_neg hfp]
    trivial

/-- **A turn** that does not look at the file. -/
theorem wp_body (hne : fp ≠ sockfd) (hv : v ≠ 0) (s : Locals) (t : List (Event posix))
    (h : Inv fp v s) :
    wp heard (keeps fp sockfd) (body fp sockfd s)
      (Sum.elim (fun s' _ => Inv fp v s') fun e _ => e = exit v) t := by
  rw [body, wp_bind]
  refine wp_mono ?_ (wp_watch hne hv h)
  intro s t h
  rw [wp_bind]
  refine wp_mono ?_ (wp_fromServer hne h)
  rintro (s | e) t h
  · show wp _ _ (_ >>= _) _ _
    rw [wp_bind]
    exact wp_mono (fun _ _ h => h) (wp_fromFile h)
  · exact h

/-! ## What the function does -/

/-- What the function does, as what `stdineof` holds has it. -/
structure Behaves (fp sockfd stdineof : ℤ) (buf : Buf 1024) : Prop where
  /-- If `stdineof` is 0, what is heard of the function is what is heard of `str_cli`. -/
  same : stdineof = 0 → ∀ t, (∃ p, Run fp sockfd stdineof buf (p, t)) ↔
    ∃ q, LastRun fp sockfd buf (q, t)
  /-- If `stdineof` is 0, the function ends as `str_cli` does. -/
  ends : stdineof = 0 → ∀ e t, Run fp sockfd stdineof buf (.ret (.inr e), t) ↔
    LastRun fp sockfd buf (.ret (.inr e), t)
  /-- If `stdineof` is not 0, nothing is read from the file and nothing is sent. -/
  keeps : stdineof ≠ 0 → fp ≠ sockfd → ∀ p t, Run fp sockfd stdineof buf (p, t) →
    ∀ e ∈ t, ¬ Forwards fp sockfd e.1
  /-- If `stdineof` is not 0, how the function ends is known in advance. -/
  exits : stdineof ≠ 0 → fp ≠ sockfd → ∀ e t,
    Run fp sockfd stdineof buf (.ret (.inr e), t) → e = exit stdineof

/-- **What the function does**, whatever `stdineof` holds when it is read for the first time. -/
theorem behaves (fp sockfd stdineof : ℤ) (buf : Buf 1024) : Behaves fp sockfd stdineof buf := by
  have hwp : stdineof ≠ 0 → fp ≠ sockfd → ∀ p t, Run fp sockfd stdineof buf (p, t) →
      wp heard (keeps fp sockfd) p
        (Sum.elim (fun s _ => Inv fp stdineof s) fun e _ => e = exit stdineof) t :=
    fun hv hne p t h => h.wp (wp_body hne hv) ⟨id, fun _ _ => ⟨rfl, FdSet.notMem_zero⟩⟩
  have hbody := resembles_body fp sockfd
  have hstart := resembles_strCli03 buf
  have hU : ∀ c, Prints c → heard.Unheard c := fun _ => unheard_of_prints
  have hback := fun t s (h : Same s t) => (hbody s t h).swap liftRel_swap
  refine ⟨?_, ?_, fun hv hne p t h => ?_, fun hv hne e t h => hwp hv hne _ t h⟩
  · rintro rfl t
    constructor
    · rintro ⟨p, h⟩
      obtain ⟨q, hq, -⟩ := h.resembles hU hbody hstart
      exact ⟨q, hq⟩
    · rintro ⟨q, h⟩
      obtain ⟨p, hp, -⟩ := h.resembles hU hback (hstart.swap liftRel_swap)
      exact ⟨p, hp⟩
  · rintro rfl e t
    constructor
    · intro h
      obtain ⟨_, rfl, hq⟩ := h.resembles_done hU hbody hstart
      exact hq
    · intro h
      obtain ⟨_, rfl, hp⟩ := h.resembles_done hU hback (hstart.swap liftRel_swap)
      exact hp
  · refine h.monitor (J := fun t => ∀ e ∈ t, ¬ Forwards fp sockfd e.1) ?_ (by simp)
    intro c k t r hrun ht _ e he
    have hc : ¬ Forwards fp sockfd c := (hwp hv hne _ t hrun).1
    rcases mem_heard_next he with rfl | he
    · exact hc
    · exact ht e he

end StrCli03

end UnixNetwork
