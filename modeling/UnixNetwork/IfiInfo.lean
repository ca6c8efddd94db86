import UnixNetwork.Posix
import UnixNetwork.Interaction.World

/-!
# The list of interfaces

The loop of `get_ifi_info` of `17/print_finfo.c`, which asks for the list of interfaces with larger
and larger buffers. Its two tests stand in the wrong branch: what is to be done with a list that has
been stored is done where the call has failed. A success changes nothing, so the loop goes round
with another buffer of the same size; a failure ends the program if it is the second one. The
`break` is never reached.

## Main definitions

* `IfiInfo.body`: the program
* `IfiInfo.Kernel`, `IfiInfo.Memory`, `IfiInfo.world`: the kernel with its list, and the buffers
* `IfiInfo.Fits`: the buffer grows until the list fits into it

## Main results

* `IfiInfo.wp_body`: what a turn does
* `IfiInfo.allocated_of_run`: the buffers that have been leaked
* `IfiInfo.exit_of_run`: how the loop can end
* `IfiInfo.not_fits`: the buffer is never found to be large enough
-/

namespace UnixNetwork

namespace IfiInfo

open Interaction

/-! ## The program -/

/-- `EINVAL`. -/
def einval : Errno := .other 22

/-- `sizeof(struct ifreq)`. -/
def sizeofIfreq : ℤ := 40

/-- A pointer that `malloc` has returned. -/
abbrev Ptr : Type := ℕ

/-- The calls of the loop. `siocgifconf` is handed the two members of `ifc`. -/
inductive Call where
  | malloc (len : ℤ)
  | siocgifconf (fd : ℤ) (ifcLen : ℤ) (ifcBuf : Ptr)
  | free (p : Ptr)
  | perror (text : List Byte)

/-- The result of each call. `siocgifconf` returns the new `ifc_len`. -/
@[reducible] def Res : Call → Type
  | .malloc _ => Ptr
  | .siocgifconf .. => Except Errno ℤ
  | .free _ => Unit
  | .perror _ => Unit

/-- The interface of the loop. -/
abbrev ifconf : Interface := ⟨Call, Res⟩

/-- The variables of the loop. -/
structure Locals where
  /-- The size of the next buffer. -/
  len : ℤ
  /-- The length that the next one is compared with. -/
  lastlen : ℤ
  /-- `ifc.ifc_len`. -/
  ifcLen : ℤ
  /-- The buffer. -/
  buf : Ptr

/-- How the loop ends. -/
inductive Outcome where
  /-- The program has exited. -/
  | exit (status : ℕ)
  /-- The loop has been left with `break`. -/
  | left (s : Locals)

/-- One turn of the loop. -/
def body (sockfd : ℤ) (s : Locals) : Prog ifconf (Locals ⊕ Outcome) := do
  let buf ← Prog.perform (I := ifconf) (.malloc s.len)
  let s := { s with buf := buf, ifcLen := s.len }
  match ← Prog.perform (I := ifconf) (.siocgifconf sockfd s.ifcLen s.buf) with
  | .error errno =>
    if errno ≠ einval ∨ s.lastlen ≠ 0 then do
      let _ ← Prog.perform (I := ifconf) (.perror (text "ioctl error"))
      return .inr (.exit 1)
    else if s.ifcLen = s.lastlen then
      return .inr (.left s)
    else do
      let s := { s with lastlen := s.ifcLen, len := s.len + 10 * sizeofIfreq }
      let _ ← Prog.perform (I := ifconf) (.free s.buf)
      return .inl s
  | .ok ifcLen => return .inl { s with ifcLen := ifcLen }

/-- The variables at the head of the loop; `ifc_len` and `buf` are not initialised. -/
def start (ifcLen : ℤ) (buf : Ptr) : Locals := ⟨100 * sizeofIfreq, 0, ifcLen, buf⟩

/-! ## The kernel -/

/-- A kernel whose list of interfaces has `size` bytes, and what each of its answers is: the new
`ifc_len`, or a failure with `EINVAL`. -/
structure Kernel (size : ℤ) where
  /-- The answer to the call with this number and this buffer size. -/
  answer : ℕ → ℤ → Option ℤ
  /-- The list is stored if it fits. -/
  fits : ∀ k len, size ≤ len → answer k len = some size
  /-- If it does not, as much as fits may be stored. -/
  truncates : ∀ k len n, answer k len = some n → n ≤ len

/-- What an answer of the kernel looks like to the program. -/
def result : Option ℤ → Except Errno ℤ
  | some n => .ok n
  | none => .error einval

/-- The buffers, and how often the kernel has been asked. -/
structure Memory where
  /-- The buffers that have been allocated and not freed, the last one first. -/
  allocated : List Ptr
  /-- How often the list has been stored. -/
  stored : ℕ
  /-- How often the call has failed. -/
  failed : ℕ

variable {size : ℤ}

/-- What the calls return. -/
def Allows (K : Kernel size) (w : Memory) : (c : Call) → Res c → Prop
  | .malloc _, p => p ∉ w.allocated
  | .siocgifconf _ ifcLen _, r => r = result (K.answer (w.stored + w.failed) ifcLen)
  | _, _ => True

/-- The memory after a call. -/
def next (w : Memory) : (c : Call) → Res c → Memory
  | .malloc _, p => { w with allocated := p :: w.allocated }
  | .siocgifconf .., .ok _ => { w with stored := w.stored + 1 }
  | .siocgifconf .., .error _ => { w with failed := w.failed + 1 }
  | .free p, _ => { w with allocated := w.allocated.erase p }
  | .perror _, _ => w

/-- The surroundings of the loop. -/
def world (K : Kernel size) : World ifconf Memory := ⟨Allows K, next⟩

/-- A run of the loop. -/
abbrev Run (sockfd : ℤ) (K : Kernel size) (ifcLen : ℤ) (buf : Ptr) :
    Prog ifconf (Locals ⊕ Outcome) × Memory → Prop :=
  Reach (world K) (body sockfd) (.ret (.inl (start ifcLen buf)), ⟨[], 0, 0⟩)

/-- The buffer grows until the list fits into it. -/
structure Fits (sockfd : ℤ) (K : Kernel size) : Prop where
  /-- The loop ends, from every moment of every run. -/
  ends : ∀ ifcLen buf p w, Run sockfd K ifcLen buf (p, w) →
    ∃ o w', Reach (world K) (body sockfd) (p, w) (.ret (.inr o), w')
  /-- It is left, with the whole list in the only buffer that has not been freed. -/
  left : ∀ ifcLen buf o w, Run sockfd K ifcLen buf (.ret (.inr o), w) →
    ∃ s, o = .left s ∧ s.ifcLen = size ∧ w.allocated = [s.buf]

/-! ## A turn -/

/-- At the head of the loop: at most one call has failed, and every list that has been stored is in
a buffer that has not been freed. -/
structure Inv (s : Locals) (w : Memory) : Prop where
  /-- The buffer has grown with the failures. -/
  len : s.len = 100 * sizeofIfreq + 10 * sizeofIfreq * w.failed
  /-- The last length is that of the call that has failed. -/
  lastlen : w.failed = 0 ∧ s.lastlen = 0 ∨ w.failed = 1 ∧ s.lastlen ≠ 0
  /-- Every list that has been stored is in a buffer of its own. -/
  allocated : w.allocated.length = w.stored

/-- How the loop ends: the program exits at the second failure. -/
structure Exited (o : Outcome) (w : Memory) : Prop where
  /-- The status. -/
  exit : o = .exit 1
  /-- Two calls have failed. -/
  failed : w.failed = 2
  /-- The last buffer has not been freed either. -/
  allocated : w.allocated.length = w.stored + 1

variable {K : Kernel size} {sockfd : ℤ}

/-- What a turn does with each answer. -/
theorem exists_body_eq (sockfd : ℤ) (s : Locals) : ∃ k : Ptr → Except Errno ℤ → _,
    body sockfd s = (Prog.call (I := ifconf) (.malloc s.len) fun p =>
      Prog.call (I := ifconf) (.siocgifconf sockfd s.len p) (k p)) ∧
    (∀ p n, k p (.ok n) = .ret (.inl ⟨s.len, s.lastlen, n, p⟩)) ∧
    (∀ p, s.lastlen ≠ 0 → k p (.error einval) =
      Prog.call (I := ifconf) (.perror (text "ioctl error")) fun _ => .ret (.inr (.exit 1))) ∧
    ∀ p, s.lastlen = 0 → s.len ≠ 0 → k p (.error einval) =
      Prog.call (I := ifconf) (.free p) fun _ =>
        .ret (.inl ⟨s.len + 10 * sizeofIfreq, s.len, s.len, p⟩) := by
  refine ⟨_, rfl, fun _ _ => rfl, fun p hlast => ?_, fun p hlast hlen => ?_⟩
  · dsimp only [Prog.bind]
    rw [if_pos (.inr hlast)]
    rfl
  · dsimp only [Prog.bind]
    rw [if_neg (not_or_intro (not_not_intro rfl) (not_not_intro hlast)), if_neg (hlast ▸ hlen)]
    rfl

/-- **A turn** leaks a buffer if the list has been stored in it, and makes the buffer larger or ends
the program if it has not. -/
theorem wp_body (s : Locals) (w : Memory) (h : Inv s w) :
    wp (world K) Guard.none (body sockfd s) (Sum.elim Inv Exited) w := by
  obtain ⟨k, hbody, hstored, hexit, hgrow⟩ := exists_body_eq sockfd s
  rw [hbody]
  refine ⟨trivial, fun p _ => ⟨trivial, ?_⟩⟩
  intro r (hr : r = result (K.answer (w.stored + w.failed) s.len))
  cases hanswer : K.answer (w.stored + w.failed) s.len with
  | some n =>
    obtain rfl : r = .ok n := by rw [hr, hanswer, result]
    rw [hstored]
    exact ⟨h.len, h.lastlen, congrArg Nat.succ h.allocated⟩
  | none =>
    obtain rfl : r = .error einval := by rw [hr, hanswer, result]
    rcases h.lastlen with ⟨hfailed, hlast⟩ | ⟨hfailed, hlast⟩
    · have hlen : s.len = 4000 := by
        rw [h.len, hfailed]
        rfl
      rw [hgrow p hlast (by omega)]
      refine ⟨trivial, fun _ _ => ⟨?_, .inr ⟨congrArg Nat.succ hfailed, ?_⟩, ?_⟩⟩
      · show s.len + 10 * sizeofIfreq = 100 * sizeofIfreq + 10 * sizeofIfreq * (w.failed + 1 : ℕ)
        rw [hfailed, hlen]
        rfl
      · show s.len ≠ 0
        omega
      · show ((p :: w.allocated).erase p).length = w.stored
        rw [List.erase_cons_head, h.allocated]
    · rw [hexit p hlast]
      exact ⟨trivial, fun _ _ => ⟨rfl, congrArg Nat.succ hfailed, congrArg Nat.succ h.allocated⟩⟩

/-! ## A run -/

/-- What holds of the rest of a turn, at every moment. -/
theorem wp_run {ifcLen : ℤ} {buf : Ptr} {p : Prog ifconf (Locals ⊕ Outcome)} {w : Memory}
    (h : Run sockfd K ifcLen buf (p, w)) : wp (world K) Guard.none p (Sum.elim Inv Exited) w := by
  have hstart : Inv (start ifcLen buf) ⟨[], 0, 0⟩ := ⟨rfl, .inl ⟨rfl, rfl⟩, rfl⟩
  exact Reach.wp wp_body h hstart

/-- **Every list that has been stored is leaked.** -/
theorem allocated_of_run {ifcLen : ℤ} {buf : Ptr} {s : Locals} {w : Memory}
    (h : Run sockfd K ifcLen buf (.ret (.inl s), w)) : w.allocated.length = w.stored :=
  Inv.allocated (wp_run h)

/-- **The loop does not end** but with the status 1, at the second failure. -/
theorem exit_of_run {ifcLen : ℤ} {buf : Ptr} {o : Outcome} {w : Memory}
    (h : Run sockfd K ifcLen buf (.ret (.inr o), w)) : o = .exit 1 ∧ w.failed = 2 :=
  have hexited : Exited o w := wp_run h
  ⟨hexited.exit, hexited.failed⟩

/-- **The buffer is never found to be large enough**, whatever the list and the kernel. -/
theorem not_fits (sockfd : ℤ) {size : ℤ} (K : Kernel size) : ¬ Fits sockfd K := by
  intro h
  obtain ⟨o, w, hrun⟩ := h.ends 0 0 _ _ .refl
  obtain ⟨s, rfl, -⟩ := h.left 0 0 o w hrun
  cases (exit_of_run hrun).1

/-- One interface, and a kernel that stores as much as fits. -/
def oneInterface : Kernel 40 where
  answer _ len := some (min 40 len)
  fits _ _ h := congrArg some (min_eq_left h)
  truncates _ _ _ h := Option.some.inj h ▸ min_le_right _ _

/-- A list that fits into the first buffer. -/
theorem not_fits_oneInterface : ¬ Fits 3 oneInterface := by
  intro h
  obtain ⟨o, w, hrun⟩ := h.ends 0 0 _ _ .refl
  obtain ⟨s, rfl, -⟩ := h.left 0 0 o w hrun
  cases (exit_of_run hrun).1

end IfiInfo

end UnixNetwork
