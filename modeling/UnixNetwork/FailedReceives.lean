import UnixNetwork.Interaction.Receives
import UnixNetwork.ScanServer
import UnixNetwork.StrCli
import UnixNetwork.Udp

/-!
# Receives that fail

The server that scans descriptors, the client that waits for both sides and the two datagram
programs test the result of a receive for 0 at most. The -1 of one that has failed becomes the index
of the NUL in the server and in the datagram client, and the length of a `write` or a `sendto` in
the other two; the datagram server also prints its buffer once more. The server that scans
descriptors was to close the connection, as it does at its end.

So a failed receive is used as data whenever there is one.

## Main definitions

* `tcp`, `datagrams`: which calls receive, and which put something out
* `ScanServer.Dropped`: the server closes the connection and watches it no longer

## Main results

* `discarded_iff`: failed receives are used by all four programs
-/

namespace UnixNetwork

open Interaction

/-- What the calls of the TCP programs are for. -/
def tcp : Roles posix where
  role
    | .read .. => .receive
    | .write .. | .send .. => .output
    | _ => .other
  Failed
    | ⟨.read .., .error _⟩ => True
    | _ => False
  receive e he := by
    obtain ⟨c, r⟩ := e
    cases c with
    | read fd dst => rfl
    | _ => exact he.elim

/-- What the calls of the datagram programs are for. The server prints what it has received. -/
def datagrams (A : Type) : Roles (Udp.udp A) where
  role
    | .recvfrom .. => .receive
    | .sendto .. | .printfStr .. => .output
    | _ => .other
  Failed
    | ⟨.recvfrom .., .error _⟩ => True
    | _ => False
  receive e he := by
    obtain ⟨c, r⟩ := e
    cases c with
    | recvfrom fd dst addrlen => rfl
    | _ => exact he.elim

/-! ## The server that scans descriptors -/

namespace ScanServer

/-- The program closes `fd` before it reads again or its turn is over. -/
def Closes (fd : ℤ) {α : Type} : Prog posix α → Prop
  | .call c k => c = .close fd ∨ tcp.role c ≠ .receive ∧ ∀ r, Closes fd (k r)
  | _ => False

/-- If the last call is a read that has failed, the server closes the connection, and watches it no
longer at the next head of its loop. -/
def Dropped (p : Prog posix (Locals ⊕ Empty)) (t : List (Event posix)) : Prop :=
  ∀ fd dst e t', t = ⟨.read fd dst, .error e⟩ :: t' →
    Closes fd p ∧ p.Leaves (Sum.elim (fun s => fd ∉ s.readFds) fun _ => True)

variable {t : List (Event posix)}

theorem uses_serve (ht : ¬ tcp.HasFailed t) (i : ℤ) (s : Locals) :
    wp (.history posix) tcp.uses (serve i s) (fun _ t => ¬ tcp.HasFailed t) t := by
  rw [serve, read_bind]
  refine Roles.wp_call ht fun r => ?_
  cases r with
  | error e =>
    -- the index is -1
    trivial
  | ok bs =>
    have hok : ¬ tcp.HasFailed (⟨.read i (Span.whole 1024), .ok bs⟩ :: t) := id
    dsimp only
    split
    · refine Roles.wp_other hok rfl fun _ h₁ => Roles.wp_other h₁ rfl fun _ h₂ => ?_
      exact Roles.wp_silent (silent_fdClr _ _) fun _ => h₂
    · refine Roles.wp_silent (silent_storeAt _ _ _) fun buffer => ?_
      exact Roles.wp_other hok rfl fun _ _ => Roles.wp_output rfl fun _ h₂ => h₂

theorem uses_scan (ht : ¬ tcp.HasFailed t) (tempFds : FdSet) (left : ℕ) (i : ℤ) (s : Locals) :
    wp (.history posix) tcp.uses (scan tempFds left i s) (fun _ t => ¬ tcp.HasFailed t) t := by
  induction left generalizing i s t with
  | zero => exact ht
  | succ left ih =>
    rw [scan]
    refine Roles.wp_silent (silent_fdIsSet _ _) fun ready => ?_
    split
    · rw [wp_bind]
      exact wp_mono (fun s' t' ht' => ih ht' _ _) (uses_serve ht i s)
    · exact ih ht _ _

theorem uses_acceptClient (ht : ¬ tcp.HasFailed t) (listenFd : ℤ) (s : Locals) :
    wp (.history posix) tcp.uses (acceptClient listenFd s) (fun _ t => ¬ tcp.HasFailed t) t := by
  rw [acceptClient, accept_bind]
  refine Roles.wp_other ht rfl fun r h₁ => ?_
  rw [addClient]
  exact Roles.wp_silent (silent_fdSet _ _) fun _ => h₁

theorem uses_body (listenFd : ℤ) (s : Locals) (ht : ¬ tcp.HasFailed t) :
    wp (.history posix) tcp.uses (body listenFd s) (fun _ t => ¬ tcp.HasFailed t) t := by
  rw [body, round, Prog.bind_assoc, select_bind]
  refine Roles.wp_other ht rfl fun sel h₁ => ?_
  rw [wp_bind, handle]
  split
  · refine Roles.wp_other h₁ rfl fun _ h₂ => Roles.wp_silent (silent_fdIsSet _ _) fun ready => ?_
    have hscan : ∀ s' t', ¬ tcp.HasFailed t' → wp (.history posix) tcp.uses
        (scan sel.rset (s'.maxFd - listenFd).toNat (listenFd + 1) s')
        (fun _ t => ¬ tcp.HasFailed t) t' := fun s' t' ht' => uses_scan ht' _ _ _ _
    dsimp only
    split
    · rw [wp_bind]
      exact wp_mono hscan (uses_acceptClient h₂ listenFd s)
    · exact hscan s _ h₂
  · exact h₁

/-- The server that scans descriptors drops no connection on which a read has failed. -/
theorem dropped_iff (listenFd : ℤ) {p : Prog posix (Locals ⊕ Empty)}
    (h : Reach (.history posix) (body listenFd) (main listenFd, []) (p, t)) :
    tcp.Unused p t ∧ Dropped p t ↔ ¬ tcp.HasFailed t := by
  have hun : tcp.Unused p t ↔ ¬ tcp.HasFailed t := by
    refine Reach.unused_iff (fun s t ht => uses_body listenFd s ht) h ?_
    exact Roles.wp_silent (silent_fdSet _ _) fun _ => id
  rw [hun, and_iff_left_iff_imp]
  rintro ht fd dst e t' rfl
  exact absurd trivial ht

end ScanServer

/-! ## The client that waits for both sides -/

namespace StrCli

variable {t : List (Event posix)}

theorem uses_fromServer (ht : ¬ tcp.HasFailed t) (fp sockfd : ℤ) (s : Locals) :
    wp (.history posix) tcp.uses (fromServer fp sockfd s) (fun _ t => ¬ tcp.HasFailed t) t := by
  rw [fromServer]
  refine Roles.wp_silent (silent_fdIsSet _ _) fun ready => ?_
  split
  · rw [read_bind]
    refine Roles.wp_call ht fun r => ?_
    cases r with
    | error e =>
      -- the length is -1
      exact Roles.wp_output rfl fun _ h => h
    | ok bs =>
      have hok : ¬ tcp.HasFailed (⟨.read sockfd (Span.whole 1024), .ok bs⟩ :: t) := id
      dsimp only
      split
      · split
        · exact Roles.wp_other hok rfl fun _ h => h
        · exact Roles.wp_other hok rfl fun _ h => h
      · exact Roles.wp_output rfl fun _ h => h
  · exact ht

theorem uses_fromFile (ht : ¬ tcp.HasFailed t) (fp sockfd : ℤ) (s : Locals) :
    wp (.history posix) tcp.uses (fromFile fp sockfd s) (fun _ t => ¬ tcp.HasFailed t) t := by
  rw [fromFile]
  refine Roles.wp_silent (silent_fdIsSet _ _) fun ready => ?_
  split
  · rw [read_bind]
    refine Roles.wp_call ht fun r => ?_
    cases r with
    | error e =>
      -- the length is -1
      exact Roles.wp_output rfl fun _ h => h
    | ok bs =>
      have hok : ¬ tcp.HasFailed (⟨.read fp (Span.whole 1024), .ok bs⟩ :: t) := id
      dsimp only
      split
      · refine Roles.wp_other hok rfl fun _ h₁ => Roles.wp_other h₁ rfl fun _ h₂ => ?_
        exact Roles.wp_silent (silent_fdClr _ _) fun _ => h₂
      · exact Roles.wp_output rfl fun _ h => h
  · exact ht

theorem uses_watch (ht : ¬ tcp.HasFailed t) (fp sockfd : ℤ) (s : Locals) :
    wp (.history posix) tcp.uses (watch fp sockfd s) (fun _ t => ¬ tcp.HasFailed t) t := by
  rw [watch]
  have hselect : ∀ S : FdSet, wp (.history posix) tcp.uses
      (fdSet sockfd S >>= fun rset => select (max fp sockfd + 1) rset FdSet.zero >>= fun sel =>
        .ret { s with rset := sel.rset }) (fun _ t => ¬ tcp.HasFailed t) t :=
    fun S => Roles.wp_silent (silent_fdSet _ _) fun _ => Roles.wp_other ht rfl fun _ h => h
  dsimp only
  split
  · exact hselect s.rset
  · exact Roles.wp_silent (silent_fdSet _ _) hselect

theorem uses_body (fp sockfd : ℤ) (s : Locals) (ht : ¬ tcp.HasFailed t) :
    wp (.history posix) tcp.uses (body fp sockfd s) (fun _ t => ¬ tcp.HasFailed t) t := by
  rw [body, wp_bind]
  refine wp_mono (fun s₁ t₁ h₁ => ?_) (uses_watch ht fp sockfd s)
  rw [wp_bind]
  refine wp_mono ?_ (uses_fromServer h₁ fp sockfd s₁)
  rintro (s' | e) t' ht'
  · rw [wp_bind]
    exact wp_mono (fun _ _ h => h) (uses_fromFile ht' fp sockfd s')
  · exact ht'

/-- The client that waits for both sides discards no read that has failed. -/
theorem unused_iff (fp sockfd : ℤ) (buf : Buf 1024) {p : Prog posix (Locals ⊕ Exit)}
    (h : Reach (.history posix) (body fp sockfd) (strCli buf, []) (p, t)) :
    tcp.Unused p t ↔ ¬ tcp.HasFailed t := by
  refine Reach.unused_iff (fun s t ht => uses_body fp sockfd s ht) h ?_
  exact Roles.wp_other id rfl fun _ h => h

end StrCli

/-! ## The datagram programs -/

namespace Udp

variable {A : Type} {t : List (Event (udp A))}

theorem uses_echo (sockfd : ℤ) (len : ℕ) (s : Echo.Locals A) (ht : ¬ (datagrams A).HasFailed t) :
    wp (.history (udp A)) (datagrams A).uses (Echo.body sockfd len s)
      (fun _ t => ¬ (datagrams A).HasFailed t) t :=
  -- whatever `recvfrom` has returned, it is printed and sent
  Roles.wp_call ht fun _ => Roles.wp_output rfl fun _ _ => Roles.wp_output rfl fun _ h => h

theorem uses_cli (sockfd : ℤ) (servaddr : A) (len : ℕ) (buf : Buf 1024)
    (ht : ¬ (datagrams A).HasFailed t) :
    wp (.history (udp A)) (datagrams A).uses (Cli.body sockfd servaddr len buf)
      (fun _ t => ¬ (datagrams A).HasFailed t) t := by
  rw [Cli.body, Prog.perform_bind]
  refine Roles.wp_other ht rfl fun line h₁ => ?_
  cases line with
  | none => exact h₁
  | some line =>
    dsimp only
    generalize buf.put 0 (line ++ [0]) = buf
    refine Roles.wp_silent (silent_strlen _) fun l => ?_
    rw [Prog.perform_bind]
    refine Roles.wp_output rfl fun _ h₂ => ?_
    rw [Prog.perform_bind]
    refine Roles.wp_call h₂ fun r => ?_
    cases r with
    | error e =>
      -- the index is -1
      trivial
    | ok x =>
      refine Roles.wp_silent (silent_storeAt _ _ _) fun buf => ?_
      exact Roles.wp_output rfl fun _ h => h

end Udp

/-! ## All four -/

/-- **Failed receives are used as data.** At every moment of every run of the four programs,
whatever their calls return, the last call is dealt with as a failed receive should be if and only
if it is none. -/
theorem discarded_iff (listenFd fp sockfd : ℤ) (buf : Buf 1024) (A : Type) (servaddr : A) (len : ℕ)
    (echo : Udp.Echo.Locals A) :
    (∀ p t, Reach (.history posix) (ScanServer.body listenFd) (ScanServer.main listenFd, [])
      (p, t) → (tcp.Unused p t ∧ ScanServer.Dropped p t ↔ ¬ tcp.HasFailed t)) ∧
    (∀ p t, Reach (.history posix) (StrCli.body fp sockfd) (StrCli.strCli buf, []) (p, t) →
      (tcp.Unused p t ↔ ¬ tcp.HasFailed t)) ∧
    (∀ p t, Reach (.history (Udp.udp A)) (Udp.Echo.body sockfd len) (.ret (.inl echo), []) (p, t) →
      ((datagrams A).Unused p t ↔ ¬ (datagrams A).HasFailed t)) ∧
    ∀ p t, Reach (.history (Udp.udp A)) (Udp.Cli.body sockfd servaddr len) (.ret (.inl buf), [])
      (p, t) → ((datagrams A).Unused p t ↔ ¬ (datagrams A).HasFailed t) := by
  refine ⟨?_, ?_, ?_, ?_⟩
  · intro p t h
    exact ScanServer.dropped_iff listenFd h
  · intro p t h
    exact StrCli.unused_iff fp sockfd buf h
  · intro p t h
    exact Reach.unused_iff (fun s t ht => Udp.uses_echo sockfd len s ht) h id
  · intro p t h
    exact Reach.unused_iff (fun s t ht => Udp.uses_cli sockfd servaddr len s ht) h id

/-- The datagram server after a receive that has failed. -/
theorem Udp.exists_echo_eq {A : Type} (sockfd : ℤ) (len : ℕ) (s : Udp.Echo.Locals A) (e : Errno) :
    ∃ k₀ : Res (.recvfrom sockfd (Span.whole 80) len) → _, ∃ arg k k',
      Echo.body sockfd len s = Prog.call (I := udp A) (.recvfrom sockfd (Span.whole 80) len) k₀ ∧
      k₀ (.error e) = Prog.call (I := udp A)
        (.printfStr (text "recvfrom message: ") arg (text "\n")) k ∧
      k () = Prog.call (I := udp A) (.sendto sockfd (Span.first 80 (-1)) arg s.clientAddr len) k' :=
  ⟨_, _, _, _, rfl, rfl, rfl⟩

/-- The first receive of the datagram server fails. -/
theorem Udp.reach_failed {A : Type} (sockfd : ℤ) (len : ℕ) (s : Udp.Echo.Locals A) (e : Errno) :
    ∃ arg k k', Reach (.history (udp A)) (Echo.body sockfd len) (.ret (.inl s), [])
      (Prog.call (I := udp A) (.printfStr (text "recvfrom message: ") arg (text "\n")) k,
        [⟨.recvfrom sockfd (Span.whole 80) len, .error e⟩]) ∧
      k () = Prog.call (I := udp A) (.sendto sockfd (Span.first 80 (-1)) arg s.clientAddr len)
        k' := by
  obtain ⟨k₀, arg, k, k', hbody, hfail, hsend⟩ := exists_echo_eq sockfd len s e
  refine ⟨arg, k, k', ?_, hsend⟩
  have hagain : Reach (.history (udp A)) (Echo.body sockfd len) (.ret (.inl s), [])
      (Echo.body sockfd len s, []) := .single .again
  rw [hbody] at hagain
  rw [← hfail]
  exact hagain.tail (.call trivial)

/-- A message could not be delivered, and the server prints its buffer. -/
theorem discarded_iff_refused : ∃ p t,
    Reach (.history (Udp.udp Unit)) (Udp.Echo.body 3 16) (.ret (.inl ⟨Buf.zeros 80, ()⟩), [])
      (p, t) ∧ (datagrams Unit).HasFailed t ∧
    ((datagrams Unit).Unused p t ↔ ¬ (datagrams Unit).HasFailed t) := by
  obtain ⟨arg, k, -, h, -⟩ := Udp.reach_failed 3 16 (⟨Buf.zeros 80, ()⟩ : Udp.Echo.Locals Unit)
    (.other 111)
  exact ⟨_, _, h, trivial,
    (discarded_iff 3 0 3 (Buf.zeros 1024) Unit () 16 ⟨Buf.zeros 80, ()⟩).2.2.1 _ _ h⟩

/-- A message could not be delivered, and the server sends -1 bytes of its buffer. -/
theorem not_unused_refused : ∃ p t,
    Reach (.history (Udp.udp Unit)) (Udp.Echo.body 3 16) (.ret (.inl ⟨Buf.zeros 80, ()⟩), [])
      (p, t) ∧ t = [⟨.recvfrom 3 (Span.whole 80) 16, .error (.other 111)⟩] ∧
    (∃ before arg after k k', p = Prog.call (I := Udp.udp Unit) (.printfStr before arg after) k ∧
      k () = Prog.call (I := Udp.udp Unit) (.sendto 3 (Span.first 80 (-1)) arg () 16) k') ∧
    ¬ (datagrams Unit).Unused p t := by
  obtain ⟨arg, k, k', h, hsend⟩ := Udp.reach_failed 3 16
    (⟨Buf.zeros 80, ()⟩ : Udp.Echo.Locals Unit) (.other 111)
  refine ⟨_, _, h, rfl, ⟨_, arg, _, k, k', rfl, hsend⟩, ?_⟩
  intro hun
  rcases hun trivial with hreceive | ⟨hne, -⟩
  · cases hreceive
  · exact hne rfl

end UnixNetwork
