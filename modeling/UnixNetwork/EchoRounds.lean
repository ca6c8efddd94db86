import UnixNetwork.Posix
import Mathlib.Data.Finset.Card
import Mathlib.Order.Bounds.Basic

/-!
# Rounds of an echo server

What a round of an echo server that waits with `select` comes to, without saying how the server
finds the ready connections. A round is given by what its calls return: the ready descriptors, the
descriptor `accept` would return, and the data each connection would return to a `read`.

Two servers that both do what is described here have accepted the same connection, have read from
the same ones, have echoed the same to each of them and have closed the same ones, in whatever order
each of them went through the ready connections.

## Main definitions

* `Round`, `Round.answer`: the results of a round, and the results as answers to calls
* `Round.next`, `Round.nextMax`, `Round.Possible`: the watched descriptors, and what may happen when
  these are watched
* `Served`, `Round.Outcome`: a trace in which certain connections, or the ready ones, are served
* `SameRound`, `runRounds`: two traces that differ in order only; a server run round after round

## Main results

* `Served.append`: connections served one after the other
* `Round.Outcome.same`: what a round comes to is determined by its results
-/

namespace UnixNetwork

open Interaction

/-- The results of the calls of one round. -/
structure Round where
  /-- The descriptors `select` reports. -/
  ready : FdSet
  /-- There is at least one. -/
  nonempty : ready.bits.Nonempty
  /-- What `accept` returns. -/
  accepted : ℕ
  /-- It fits into an `fd_set`. -/
  inRange : InRange accepted
  /-- What a `read` returns, for each connection. -/
  data : ℤ → List Byte
  /-- There is always room for one byte more in a buffer of 1024. -/
  length_data : ∀ fd, (data fd).length ≤ 1023

namespace Round

/-- What `select` returns. -/
def selected (e : Round) : Selected := ⟨e.ready.bits.card, e.ready, FdSet.zero⟩

/-- The results as answers to calls. Writes are complete. -/
def answer (e : Round) : (c : Call) → Res c
  | .select .. => e.selected
  | .accept _ => .ok e.accepted
  | .read fd _ => .ok (e.data fd)
  | .write _ src _ => .ok src.len.toNat
  | .send _ src _ => .ok src.len.toNat
  | .close _ => ()
  | .shutdownWr _ => ()
  | .printf _ => ()
  | .eprintf _ => ()
  | .time => []

@[simp] theorem answer_read (e : Round) (fd : ℤ) (dst : Span) :
    e.answer (.read fd dst) = .ok (e.data fd) := rfl

/-- Whether the connection has ended. -/
def ends (e : Round) (fd : ℤ) : Bool := (e.data fd).isEmpty

/-- The watched descriptors after the round. -/
def next (e : Round) (listenfd : ℤ) (w : Set ℤ) : Set ℤ :=
  {fd | (fd ∈ w ∨ listenfd ∈ e.ready ∧ fd = e.accepted) ∧
    ¬ (fd ∈ e.ready ∧ fd ≠ listenfd ∧ e.ends fd = true)}

/-- The largest descriptor that was ever watched, after the round. -/
def nextMax (e : Round) (listenfd m : ℤ) : ℤ :=
  if listenfd ∈ e.ready then max m e.accepted else m

/-- What may happen when `w` is watched: only watched descriptors are ready, and `accept` returns
the lowest descriptor that is not open. The watched descriptors are open, and so are some others,
among them all below the listening one. -/
structure Possible (e : Round) (listenfd : ℤ) (w : Set ℤ) : Prop where
  /-- Only watched descriptors are ready. -/
  ready_sub : ∀ fd ∈ e.ready, fd ∈ w
  /-- `accept` returns the lowest free descriptor. -/
  lowest : listenfd ∈ e.ready → ∃ others : Set ℤ, (∀ fd, 0 ≤ fd → fd < listenfd → fd ∈ others) ∧
    IsLeast {fd : ℕ | (fd : ℤ) ∉ others ∧ (fd : ℤ) ∉ w} e.accepted

/-- Rounds that may happen one after the other, when `w` is watched at first. -/
def Possibles (listenfd : ℤ) : Set ℤ → List Round → Prop
  | _, [] => True
  | w, e :: es => e.Possible listenfd w ∧ Possibles listenfd (e.next listenfd w) es

variable {e : Round} {listenfd : ℤ} {w : Set ℤ}

/-- A new connection is not among the watched descriptors. -/
theorem Possible.accepted_notMem (h : e.Possible listenfd w) (hl : listenfd ∈ e.ready) :
    (e.accepted : ℤ) ∉ w := by
  obtain ⟨_, -, hleast⟩ := h.lowest hl
  exact hleast.1.2

/-- A new connection is above the listening descriptor. -/
theorem Possible.listen_lt (h : e.Possible listenfd w) (hl : listenfd ∈ e.ready) :
    listenfd < e.accepted := by
  obtain ⟨others, hbelow, hleast⟩ := h.lowest hl
  by_contra hle
  rcases lt_or_eq_of_le (not_lt.mp hle) with hlt | he
  · exact hleast.1.1 (hbelow _ (Int.natCast_nonneg _) hlt)
  · exact hleast.1.2 (he ▸ h.ready_sub listenfd hl)

end Round

/-! ## What a trace shows -/

/-- The descriptor an `accept` has returned. -/
def acceptOf : Event posix → Option ℤ
  | ⟨.accept _, r⟩ => some (countValue r)
  | _ => none

/-- The descriptor that was written to, and the bytes. -/
def echoOf : Event posix → Option (ℤ × List Byte)
  | ⟨.write fd src mem, _⟩ => some (fd, src.bytes mem)
  | ⟨.send fd src mem, _⟩ => some (fd, src.bytes mem)
  | _ => none

/-- The descriptor that was closed. -/
def closeOf : Event posix → Option ℤ
  | ⟨.close fd, _⟩ => some fd
  | _ => none

/-- In `t` the connections `fds` are served, in this order, and nothing is accepted: each is read
from once, and then closed at its end and sent its data otherwise. -/
structure Served (e : Round) (fds : List ℤ) (t : List (Event posix)) : Prop where
  /-- Nothing is accepted. -/
  accepts : t.filterMap acceptOf = []
  /-- Each of them is read from once. -/
  reads : readsOf t = fds
  /-- Those that have not ended are sent their data. -/
  echoes : t.filterMap echoOf = (fds.filter fun fd => !e.ends fd).map fun fd => (fd, e.data fd)
  /-- Those that have ended are closed. -/
  closes : t.filterMap closeOf = fds.filter e.ends

theorem served_nil (e : Round) : Served e [] [] := ⟨rfl, rfl, rfl, rfl⟩

/-- Connections served one after the other. -/
theorem Served.append {e : Round} {fds fds' : List ℤ} {t t' : List (Event posix)}
    (h : Served e fds t) (h' : Served e fds' t') : Served e (fds ++ fds') (t ++ t') where
  accepts := by rw [List.filterMap_append, h.accepts, h'.accepts, List.append_nil]
  reads := by rw [readsOf_append, h.reads, h'.reads]
  echoes := by
    rw [List.filterMap_append, h.echoes, h'.echoes, List.filter_append, List.map_append]
  closes := by rw [List.filterMap_append, h.closes, h'.closes, List.filter_append]

/-- What is left once `fd` has been served and then `fds` have. -/
theorem Round.left_cons (e : Round) {p : Prop} {x fd : ℤ} {fds : List ℤ} :
    (p ∧ ¬ (x = fd ∧ e.ends fd = true)) ∧ ¬ (x ∈ fds ∧ e.ends x = true) ↔
      p ∧ ¬ (x ∈ fd :: fds ∧ e.ends x = true) := by
  rw [List.mem_cons]
  constructor
  · rintro ⟨⟨hp, hne⟩, hrest⟩
    refine ⟨hp, ?_⟩
    rintro ⟨rfl | hm, hends⟩
    · exact hne ⟨rfl, hends⟩
    · exact hrest ⟨hm, hends⟩
  · rintro ⟨hp, hno⟩
    refine ⟨⟨hp, ?_⟩, fun ⟨hm, hends⟩ => hno ⟨.inr hm, hends⟩⟩
    rintro ⟨rfl, hends⟩
    exact hno ⟨.inl rfl, hends⟩

/-- In `t` the results of the round have been dealt with: the new connection is accepted, and the
ready ones are served, in some order. -/
structure Round.Outcome (e : Round) (listenfd : ℤ) (t : List (Event posix)) : Prop where
  /-- A connection is accepted if the listening descriptor is ready. -/
  accepts : t.filterMap acceptOf = if listenfd ∈ e.ready then [(e.accepted : ℤ)] else []
  /-- The ready connections are served. -/
  serves : ∃ fds : List ℤ, fds.Nodup ∧ (∀ fd, fd ∈ fds ↔ fd ∈ e.ready ∧ fd ≠ listenfd) ∧
    readsOf t = fds ∧
    t.filterMap echoOf = ((fds.filter fun fd => !e.ends fd).map fun fd => (fd, e.data fd)) ∧
    t.filterMap closeOf = fds.filter e.ends

/-- Events in which nothing is read, echoed or closed, and then connections served. -/
theorem Round.Outcome.of_served {e : Round} {listenfd : ℤ} {u t : List (Event posix)}
    {fds : List ℤ}
    (hacc : u.filterMap acceptOf = if listenfd ∈ e.ready then [(e.accepted : ℤ)] else [])
    (hread : readsOf u = []) (hecho : u.filterMap echoOf = [])
    (hclose : u.filterMap closeOf = []) (h : Served e fds t) (hnd : fds.Nodup)
    (hmem : ∀ fd, fd ∈ fds ↔ fd ∈ e.ready ∧ fd ≠ listenfd) : e.Outcome listenfd (u ++ t) where
  accepts := by rw [List.filterMap_append, hacc, h.accepts, List.append_nil]
  serves := by
    refine ⟨fds, hnd, hmem, ?_, ?_, ?_⟩
    · rw [readsOf_append, hread, h.reads, List.nil_append]
    · rw [List.filterMap_append, hecho, h.echoes, List.nil_append]
    · rw [List.filterMap_append, hclose, h.closes, List.nil_append]

/-- Two traces of a round that differ in the order of the connections only. -/
structure SameRound (t t' : List (Event posix)) : Prop where
  /-- The same connection is accepted. -/
  accepts : t.filterMap acceptOf = t'.filterMap acceptOf
  /-- The same connections are read from. -/
  reads : (readsOf t).Perm (readsOf t')
  /-- Each of them once. -/
  once : (readsOf t).Nodup
  /-- The same bytes are echoed to each of them. -/
  echoes : (t.filterMap echoOf).Perm (t'.filterMap echoOf)
  /-- The same connections are closed. -/
  closes : (t.filterMap closeOf).Perm (t'.filterMap closeOf)

/-- **What a round comes to is determined by its results.** -/
theorem Round.Outcome.same {e : Round} {listenfd : ℤ} {t t' : List (Event posix)}
    (h : e.Outcome listenfd t) (h' : e.Outcome listenfd t') : SameRound t t' := by
  obtain ⟨fds, hnd, hmem, hread, hecho, hclose⟩ := h.serves
  obtain ⟨fds', hnd', hmem', hread', hecho', hclose'⟩ := h'.serves
  have hperm : fds.Perm fds' :=
    (List.perm_ext_iff_of_nodup hnd hnd').mpr fun fd => (hmem fd).trans (hmem' fd).symm
  refine ⟨h.accepts.trans h'.accepts.symm, ?_, hread ▸ hnd, ?_, ?_⟩
  · rw [hread, hread']
    exact hperm
  · rw [hecho, hecho']
    exact (hperm.filter _).map _
  · rw [hclose, hclose']
    exact hperm.filter _

/-! ## A server run round after round -/

/-- Run a server round after round, each against the results of its round. It fails if a round has
undefined behaviour. -/
def runRounds {σ : Type} (round : σ → Prog posix σ) :
    List Round → σ → Option (List (List (Event posix)) × σ)
  | [], s => some ([], s)
  | e :: es, s => do
    let (t, s') ← (round s).run e.answer
    let (ts, s'') ← runRounds round es s'
    return (t :: ts, s'')

theorem runRounds_cons {σ : Type} {round : σ → Prog posix σ} {e : Round} {es : List Round}
    {s s' s'' : σ} {t : List (Event posix)} {ts : List (List (Event posix))}
    (h : (round s).run e.answer = some (t, s')) (h' : runRounds round es s' = some (ts, s'')) :
    runRounds round (e :: es) s = some (t :: ts, s'') := by
  simp [runRounds, h, h']

end UnixNetwork
