import UnixNetwork.Interaction.Prog
import UnixNetwork.CString
import Mathlib.Data.Finset.Basic
import Mathlib.Data.UInt

/-!
# The system calls and the memory the programs share

The interface of the TCP programs: `select`, `accept`, `read`, `write`, `send`, `close`, `shutdown`,
`printf`, `fprintf` to the standard error and the time of day, with the results each may return, and
the two kinds of memory their callers keep, arrays of fixed size and `fd_set`s.

An access outside an array and an `FD_SET`, `FD_CLR` or `FD_ISSET` of a descriptor that an `fd_set`
has no bit for are undefined in C, so they are `Prog.fault` here.

A call that takes a pointer and a length is modelled with the `Span` it is handed: which bytes of
which array. Whether the span lies in its array is a fact about the call, not a condition on making
it, because the length a program passes may be the negative result of an earlier call.

## Main definitions

* `FdSet`, `fdSet`, `fdClr`, `fdIsSet`: sets of descriptors below `FD_SETSIZE`
* `Buf.store`, `Span`: reading into and writing from an array
* `Call`, `Res`, `posix`: the interface
-/

namespace UnixNetwork

open Interaction

/-- The bytes of buffers and streams. -/
abbrev Byte : Type := UInt8

/-- `STDIN_FILENO`. -/
def stdinFileno : ℤ := 0

/-- `STDOUT_FILENO`. -/
def stdoutFileno : ℤ := 1

/-- `AF_INET`. -/
def afInet : ℕ := 2

variable {I : Interface} {α : Type} {n : ℕ}

/-! ## Sets of descriptors -/

/-- `FD_SETSIZE`: the number of bits of an `fd_set`. -/
def fdSetsize : ℕ := 1024

/-- A descriptor that an `fd_set` has a bit for. -/
def InRange (fd : ℤ) : Prop := 0 ≤ fd ∧ fd < fdSetsize

instance (fd : ℤ) : Decidable (InRange fd) := inferInstanceAs (Decidable (_ ∧ _))

/-- The first descriptor after the standard ones. -/
theorem inRange_three : InRange 3 := by decide

/-- The descriptor after that. -/
theorem inRange_four : InRange 4 := by decide

/-- An `fd_set`. -/
@[ext] structure FdSet where
  /-- The descriptors whose bits are set. -/
  bits : Finset ℤ
  /-- Each of them has a bit. -/
  inRange : ∀ fd ∈ bits, InRange fd

namespace FdSet

instance : Membership ℤ FdSet := ⟨fun s fd => fd ∈ s.bits⟩

instance (fd : ℤ) (s : FdSet) : Decidable (fd ∈ s) := inferInstanceAs (Decidable (fd ∈ s.bits))

/-- `FD_ZERO`. -/
def zero : FdSet := ⟨∅, by simp⟩

/-- Set a bit. -/
def insert (s : FdSet) (fd : ℤ) (h : InRange fd) : FdSet :=
  ⟨Insert.insert fd s.bits, fun x hx => by
    rcases Finset.mem_insert.mp hx with rfl | hx
    · exact h
    · exact s.inRange x hx⟩

/-- Clear a bit. -/
def erase (s : FdSet) (fd : ℤ) : FdSet :=
  ⟨s.bits.erase fd, fun x hx => s.inRange x (Finset.mem_of_mem_erase hx)⟩

@[simp] theorem mem_bits {fd : ℤ} {s : FdSet} : fd ∈ s.bits ↔ fd ∈ s := Iff.rfl

@[simp] theorem notMem_zero {fd : ℤ} : fd ∉ zero := Finset.notMem_empty fd

@[simp] theorem mem_insert {fd x : ℤ} {s : FdSet} {h : InRange fd} :
    x ∈ s.insert fd h ↔ x = fd ∨ x ∈ s := Finset.mem_insert

@[simp] theorem mem_erase {fd x : ℤ} {s : FdSet} : x ∈ s.erase fd ↔ x ≠ fd ∧ x ∈ s :=
  Finset.mem_erase

/-- The set of one descriptor. -/
def single (fd : ℤ) (h : InRange fd) : FdSet := zero.insert fd h

@[simp] theorem mem_single {fd x : ℤ} (h : InRange fd) : x ∈ single fd h ↔ x = fd := by
  simp [single]

theorem inRange_of_mem {fd : ℤ} {s : FdSet} (h : fd ∈ s) : InRange fd := s.inRange fd h

theorem ext_mem {s t : FdSet} (h : ∀ fd, fd ∈ s ↔ fd ∈ t) : s = t :=
  FdSet.ext (Finset.ext h)

instance : DecidableEq FdSet := fun _ _ => decidable_of_iff _ FdSet.ext_iff.symm

end FdSet

/-- `FD_SET(fd, &s)`. -/
def fdSet (fd : ℤ) (s : FdSet) : Prog I FdSet :=
  if h : InRange fd then .ret (s.insert fd h) else .fault

/-- `FD_CLR(fd, &s)`. -/
def fdClr (fd : ℤ) (s : FdSet) : Prog I FdSet :=
  if InRange fd then .ret (s.erase fd) else .fault

/-- `FD_ISSET(fd, &s)`. -/
def fdIsSet (fd : ℤ) (s : FdSet) : Prog I Bool :=
  if InRange fd then .ret (decide (fd ∈ s)) else .fault

@[simp] theorem fdSet_of_inRange {fd : ℤ} (h : InRange fd) (s : FdSet) :
    (fdSet fd s : Prog I FdSet) = .ret (s.insert fd h) := dif_pos h

@[simp] theorem fdClr_of_inRange {fd : ℤ} (h : InRange fd) (s : FdSet) :
    (fdClr fd s : Prog I FdSet) = .ret (s.erase fd) := if_pos h

@[simp] theorem fdIsSet_of_inRange {fd : ℤ} (h : InRange fd) (s : FdSet) :
    (fdIsSet fd s : Prog I Bool) = .ret (decide (fd ∈ s)) := if_pos h

theorem fdSet_of_not_inRange {fd : ℤ} (h : ¬ InRange fd) (s : FdSet) :
    (fdSet fd s : Prog I FdSet) = .fault := dif_neg h

theorem silent_fdSet (fd : ℤ) (s : FdSet) : (fdSet fd s : Prog I FdSet).Silent := by
  rw [fdSet]
  split <;> trivial

theorem silent_fdClr (fd : ℤ) (s : FdSet) : (fdClr fd s : Prog I FdSet).Silent := by
  rw [fdClr]
  split <;> trivial

theorem silent_fdIsSet (fd : ℤ) (s : FdSet) : (fdIsSet fd s : Prog I Bool).Silent := by
  rw [fdIsSet]
  split <;> trivial

/-! ## Arrays -/

/-- `a[i]`. -/
def load (a : Vector α n) (i : ℕ) : Prog I α :=
  if h : i < n then .ret a[i] else .fault

/-- `a[i] = v`. -/
def store (a : Vector α n) (i : ℕ) (v : α) : Prog I (Vector α n) :=
  if h : i < n then .ret (a.set i v h) else .fault

/-- `a[i] = v` for an index that may be negative. -/
def storeAt (a : Vector α n) (i : ℤ) (v : α) : Prog I (Vector α n) :=
  if 0 ≤ i then store a i.toNat v else .fault

@[simp] theorem load_of_lt {a : Vector α n} {i : ℕ} (h : i < n) :
    (load a i : Prog I α) = .ret a[i] := dif_pos h

@[simp] theorem store_of_lt {a : Vector α n} {i : ℕ} (h : i < n) (v : α) :
    (store a i v : Prog I (Vector α n)) = .ret (a.set i v h) := dif_pos h

@[simp] theorem storeAt_of_lt {a : Vector α n} {i : ℕ} (h : i < n) (v : α) :
    (storeAt a i v : Prog I (Vector α n)) = .ret (a.set i v h) := by
  simp [storeAt, h]

theorem silent_load (a : Vector α n) (i : ℕ) : (load a i : Prog I α).Silent := by
  rw [load]
  split <;> trivial

theorem silent_store (a : Vector α n) (i : ℕ) (v : α) :
    (store a i v : Prog I (Vector α n)).Silent := by
  rw [store]
  split <;> trivial

theorem silent_storeAt (a : Vector α n) (i : ℤ) (v : α) :
    (storeAt a i v : Prog I (Vector α n)).Silent := by
  rw [storeAt]
  split
  · exact silent_store a i.toNat v
  · trivial

theorem load_of_not_lt {a : Vector α n} {i : ℕ} (h : ¬ i < n) :
    (load a i : Prog I α) = .fault := dif_neg h

/-- A `char` array. -/
abbrev Buf (n : ℕ) : Type := Vector Byte n

/-- The array after `memset(b, 0, n)`. -/
def Buf.zeros (n : ℕ) : Buf n := Vector.replicate n 0

/-- The array once a call has put `bs` into it from offset `off` on. -/
def Buf.put (b : Buf n) (off : ℕ) (bs : List Byte) : Buf n :=
  Vector.ofFn fun i => if off ≤ i then bs.getD (i - off) b[i] else b[i]

/-- What a call stores at offset `off` of an array, which may lie outside of it. -/
def Buf.storeBytes (b : Buf n) (off : ℤ) (bs : List Byte) : Prog I (Buf n) :=
  if bs = [] ∨ 0 ≤ off ∧ off + bs.length ≤ n then .ret (b.put off.toNat bs) else .fault

theorem Buf.silent_storeBytes (b : Buf n) (off : ℤ) (bs : List Byte) :
    (b.storeBytes off bs : Prog I (Buf n)).Silent := by
  rw [storeBytes]
  split <;> trivial

/-- `len` bytes of the array from offset `off` on. -/
def Buf.slice (b : Buf n) (off len : ℕ) : List Byte := (b.toList.drop off).take len

/-- A part of what has been put into an array can be read back. -/
theorem Buf.slice_put_of_le {b : Buf n} {off i len : ℕ} {bs : List Byte}
    (h : off + bs.length ≤ n) (hi : i + len ≤ bs.length) :
    (b.put off bs).slice (off + i) len = (bs.drop i).take len := by
  refine List.ext_getElem ?_ fun j hj hj' => ?_
  · simp only [slice, List.length_take, List.length_drop, Vector.length_toList]
    omega
  · have hlt : i + j < bs.length := by
      rw [List.length_take] at hj'
      omega
    simp [slice, put, Nat.add_assoc, hlt]

/-- What is put into an array leaves the rest of it as it was. -/
theorem Buf.slice_put_of_disjoint {b : Buf n} {off i len : ℕ} {bs : List Byte}
    (h : i + len ≤ off ∨ off + bs.length ≤ i) : (b.put off bs).slice i len = b.slice i len := by
  refine List.ext_getElem ?_ fun j hj hj' => ?_
  · simp only [slice, List.length_take, List.length_drop, Vector.length_toList]
  · have hlt : j < len := by
      rw [slice, List.length_take] at hj'
      omega
    simp only [slice, put, List.getElem_take, List.getElem_drop, Vector.getElem_toList,
      Vector.getElem_ofFn]
    split
    · rw [List.getD_eq_getElem?_getD, List.getElem?_eq_none (by omega), Option.getD_none]
      rfl
    · rfl

/-- What has been put into an array can be read back. -/
@[simp] theorem Buf.slice_put {b : Buf n} {off : ℕ} {bs : List Byte} (h : off + bs.length ≤ n) :
    (b.put off bs).slice off bs.length = bs := by
  have := slice_put_of_le (b := b) (i := 0) h (Nat.zero_add _).le
  rwa [Nat.add_zero, List.drop_zero, List.take_length] at this

/-- What is put at the beginning of an array stands in front of the rest of it. -/
theorem Buf.toList_put_zero {b : Buf n} {bs : List Byte} (h : bs.length ≤ n) :
    (b.put 0 bs).toList = bs ++ b.toList.drop bs.length := by
  refine List.ext_getElem ?_ fun j hj hj' => ?_
  · simp only [Vector.length_toList, List.length_append, List.length_drop]
    omega
  · by_cases hlt : j < bs.length
    · simp [put, hlt]
    · simp only [put, Vector.getElem_toList, Vector.getElem_ofFn, Nat.zero_le, if_true,
        Nat.sub_zero, List.getElem_append_right (Nat.le_of_not_lt hlt), List.getElem_drop]
      rw [List.getD_eq_getElem?_getD, List.getElem?_eq_none (by omega), Option.getD_none]
      have hj : bs.length + (j - bs.length) = j := by omega
      simp only [hj]
      rfl

/-- What has been put at the beginning of an array and ended with a NUL. -/
theorem Buf.toList_put_set (b : Buf n) {bs : List Byte} (h : bs.length < n) :
    ((b.put 0 bs).set bs.length 0 h).toList = bs ++ 0 :: b.toList.drop (bs.length + 1) := by
  rw [Vector.toList_set, toList_put_zero h.le, List.set_append_right _ _ (Nat.le_refl _),
    Nat.sub_self, List.drop_eq_getElem_cons (by simpa using h), List.set_cons_zero]

/-- The bytes a call is handed: `len` of them, from offset `off` of an array of `size` bytes. -/
structure Span where
  /-- The size of the array. -/
  size : ℕ
  /-- Where the call is told to start. -/
  off : ℤ
  /-- How many bytes the call is told to use. -/
  len : ℤ
deriving DecidableEq

/-- The whole of an array. -/
def Span.whole (n : ℕ) : Span := ⟨n, 0, n⟩

/-- The first bytes of an array, as many as the program says. -/
def Span.first (n : ℕ) (len : ℤ) : Span := ⟨n, 0, len⟩

/-- The span lies in its array. -/
def Span.InBounds (s : Span) : Prop := 0 ≤ s.off ∧ 0 ≤ s.len ∧ s.off + s.len ≤ s.size

instance (s : Span) : Decidable s.InBounds := inferInstanceAs (Decidable (_ ∧ _ ∧ _))

theorem Span.inBounds_first {len : ℕ} (h : len ≤ n) : (Span.first n len).InBounds :=
  ⟨le_refl _, Int.natCast_nonneg _, by simp only [Span.first]; omega⟩

/-- The bytes a span selects from the contents of its array. -/
def Span.bytes (s : Span) (mem : List Byte) : List Byte :=
  (mem.drop s.off.toNat).take s.len.toNat

theorem Span.length_bytes_le (s : Span) (mem : List Byte) :
    (s.bytes mem).length ≤ s.len.toNat := List.length_take_le _ _

/-- The first bytes of what begins with them. -/
theorem Span.bytes_first_append (bs l : List Byte) :
    (Span.first n bs.length).bytes (bs ++ l) = bs := by
  simp [Span.first, Span.bytes]

/-- The first bytes of an array that has just been read into are the bytes that were read. -/
@[simp] theorem Span.bytes_first_put {b : Buf n} {bs : List Byte} (h : bs.length ≤ n) :
    (Span.first n bs.length).bytes (b.put 0 bs).toList = bs := by
  have : (b.put 0 bs).slice 0 bs.length = bs := Buf.slice_put (by simpa using h)
  simpa [Span.first, Span.bytes, Buf.slice] using this

/-- What is stored behind the first bytes does not change them. -/
theorem Span.bytes_first_set {b : Buf n} {len : ℕ} (h : len < n) (v : Byte) :
    (Span.first n len).bytes (b.set len v h).toList = (Span.first n len).bytes b.toList := by
  simp [Span.first, Span.bytes, Vector.toList_set, List.take_set_of_le]

/-- `strlen` of what an array holds. -/
def strlen (b : Buf n) : Prog I ℕ :=
  if CString.Terminated b.toList then .ret (CString.str b.toList).length else .fault

/-- A line that has been stored with its NUL. -/
theorem Buf.toList_put_line {b : Buf n} {line : List Byte} (hlen : line.length < n) :
    (b.put 0 (line ++ [0])).toList = line ++ 0 :: b.toList.drop (line.length + 1) := by
  rw [Buf.toList_put_zero (by simp only [List.length_append, List.length_singleton]; omega)]
  simp

/-- The `strlen` of a text with a NUL behind it. -/
theorem strlen_put_line {b : Buf n} {line : List Byte} (hlen : line.length < n)
    (h0 : 0 ∉ line) : (strlen (b.put 0 (line ++ [0])) : Prog I ℕ) = .ret line.length := by
  rw [strlen, Buf.toList_put_line hlen, if_pos (CString.terminated_append_zero _ _),
    CString.str_append_zero h0]

theorem silent_strlen (b : Buf n) : (strlen b : Prog I ℕ).Silent :=
  Prog.Silent.ite trivial trivial

/-! ## The interface -/

/-- The errors the programs tell apart. -/
inductive Errno where
  | eintr
  | ewouldblock
  | other (code : ℕ)
deriving DecidableEq

/-- The calls. A call that writes carries the contents of the array it is handed. -/
inductive Call where
  | select (nfds : ℤ) (rset wset : FdSet)
  | accept (fd : ℤ)
  | read (fd : ℤ) (dst : Span)
  | write (fd : ℤ) (src : Span) (mem : List Byte)
  | send (fd : ℤ) (src : Span) (mem : List Byte)
  | close (fd : ℤ)
  | shutdownWr (fd : ℤ)
  | printf (text : List Byte)
  | eprintf (text : List Byte)
  | time

/-- What `select` returns: its value, and the two sets as it leaves them. -/
structure Selected where
  /-- The number of ready descriptors, or `-1`. -/
  value : ℤ
  /-- The read set. -/
  rset : FdSet
  /-- The write set. -/
  wset : FdSet

/-- The result of each call. -/
@[reducible] def Res : Call → Type
  | .select .. => Selected
  | .accept _ => Except Errno ℕ
  | .read .. => Except Errno (List Byte)
  | .write .. => Except Errno ℕ
  | .send .. => Except Errno ℕ
  | .close _ => Unit
  | .shutdownWr _ => Unit
  | .printf _ => Unit
  | .eprintf _ => Unit
  | .time => List Byte

/-- The interface of the TCP programs. -/
abbrev posix : Interface := ⟨Call, Res⟩

/-- The value of a call that returns a number or fails with `-1`. -/
def countValue : Except Errno ℕ → ℤ
  | .ok n => n
  | .error _ => -1

/-- The value of a `read`: the number of bytes it has stored, or `-1`. -/
def readValue : Except Errno (List Byte) → ℤ
  | .ok bs => bs.length
  | .error _ => -1

/-- The bytes a `read` has stored; a failed one has stored none. -/
def readBytes : Except Errno (List Byte) → List Byte
  | .ok bs => bs
  | .error _ => []

@[simp] theorem countValue_ok (n : ℕ) : countValue (.ok n) = n := rfl

@[simp] theorem countValue_error (e : Errno) : countValue (.error e) = -1 := rfl

@[simp] theorem readValue_ok (bs : List Byte) : readValue (.ok bs) = bs.length := rfl

@[simp] theorem readValue_error (e : Errno) : readValue (.error e) = -1 := rfl

/-- A read returns 0 where the stream has ended. -/
theorem readValue_ok_eq_zero {bs : List Byte} : readValue (.ok bs) = 0 ↔ bs = [] := by
  rw [readValue_ok, Int.natCast_eq_zero, List.length_eq_zero_iff]

/-- A read that has found the end has stored nothing. -/
theorem readBytes_of_readValue {r : Except Errno (List Byte)} (h : readValue r = 0) :
    readBytes r = [] := by
  cases r with
  | ok bs => exact readValue_ok_eq_zero.mp h
  | error e => rfl

theorem readValue_ok_nonpos {bs : List Byte} : readValue (.ok bs) ≤ 0 ↔ bs = [] := by
  rw [← readValue_ok_eq_zero, readValue_ok]
  omega

@[simp] theorem readBytes_ok (bs : List Byte) : readBytes (.ok bs) = bs := rfl

@[simp] theorem readBytes_error (e : Errno) : readBytes (.error e) = [] := rfl

/-- The bytes of a write that have been taken. -/
def taken (bs : List Byte) (r : Except Errno ℕ) : List Byte := bs.take (countValue r).toNat

theorem length_readBytes_le (r : Except Errno (List Byte)) :
    ((readBytes r).length : ℤ) ≤ max (readValue r) 0 := by
  cases r <;> simp

/-- The descriptor a call reads from. -/
def Call.readFd : Call → Option ℤ
  | .read fd _ => some fd
  | _ => none

/-- The descriptors that are read from in a sequence of events. -/
def readsOf (t : List (Event posix)) : List ℤ := t.filterMap fun e => e.1.readFd

@[simp] theorem readsOf_nil : readsOf [] = [] := rfl

@[simp] theorem readsOf_append (t t' : List (Event posix)) :
    readsOf (t ++ t') = readsOf t ++ readsOf t' := List.filterMap_append

/-! Each call as a program. -/

/-- `select(nfds, &rset, &wset, NULL, NULL)`. -/
def select (nfds : ℤ) (rset wset : FdSet) : Prog posix Selected :=
  Prog.perform (I := posix) (Call.select nfds rset wset)

/-- `accept(fd, ...)`. -/
def accept (fd : ℤ) : Prog posix (Except Errno ℕ) :=
  Prog.perform (I := posix) (Call.accept fd)

/-- `read(fd, ...)`. -/
def read (fd : ℤ) (dst : Span) : Prog posix (Except Errno (List Byte)) :=
  Prog.perform (I := posix) (Call.read fd dst)

/-- `write(fd, ...)`. -/
def write (fd : ℤ) (src : Span) (mem : Buf n) : Prog posix (Except Errno ℕ) :=
  Prog.perform (I := posix) (Call.write fd src mem.toList)

/-- `send(fd, ..., 0)`. -/
def send (fd : ℤ) (src : Span) (mem : Buf n) : Prog posix (Except Errno ℕ) :=
  Prog.perform (I := posix) (Call.send fd src mem.toList)

/-- `close(fd)`. -/
def close (fd : ℤ) : Prog posix Unit := Prog.perform (I := posix) (Call.close fd)

/-- `shutdown(fd, SHUT_WR)`. -/
def shutdownWr (fd : ℤ) : Prog posix Unit := Prog.perform (I := posix) (Call.shutdownWr fd)

/-- `printf` of these bytes. -/
def printf (text : List Byte) : Prog posix Unit := Prog.perform (I := posix) (Call.printf text)

/-- `fprintf(stderr, ...)` of these bytes. -/
def eprintf (text : List Byte) : Prog posix Unit := Prog.perform (I := posix) (Call.eprintf text)

/-- `asctime(localtime(&t))` of the time of day. -/
def time : Prog posix (List Byte) := Prog.perform (I := posix) Call.time

section Bind

variable {β : Type}

@[simp] theorem select_bind (nfds : ℤ) (rset wset : FdSet) (f : Selected → Prog posix β) :
    select nfds rset wset >>= f = Prog.call (I := posix) (.select nfds rset wset) f := rfl

@[simp] theorem accept_bind (fd : ℤ) (f : Except Errno ℕ → Prog posix β) :
    accept fd >>= f = Prog.call (I := posix) (.accept fd) f := rfl

@[simp] theorem read_bind (fd : ℤ) (dst : Span) (f : Except Errno (List Byte) → Prog posix β) :
    read fd dst >>= f = Prog.call (I := posix) (.read fd dst) f := rfl

@[simp] theorem write_bind (fd : ℤ) (src : Span) (mem : Buf n)
    (f : Except Errno ℕ → Prog posix β) :
    write fd src mem >>= f = Prog.call (I := posix) (.write fd src mem.toList) f := rfl

@[simp] theorem send_bind (fd : ℤ) (src : Span) (mem : Buf n)
    (f : Except Errno ℕ → Prog posix β) :
    send fd src mem >>= f = Prog.call (I := posix) (.send fd src mem.toList) f := rfl

@[simp] theorem close_bind (fd : ℤ) (f : Unit → Prog posix β) :
    close fd >>= f = Prog.call (I := posix) (.close fd) f := rfl

@[simp] theorem shutdownWr_bind (fd : ℤ) (f : Unit → Prog posix β) :
    shutdownWr fd >>= f = Prog.call (I := posix) (.shutdownWr fd) f := rfl

@[simp] theorem printf_bind (text : List Byte) (f : Unit → Prog posix β) :
    printf text >>= f = Prog.call (I := posix) (.printf text) f := rfl

@[simp] theorem eprintf_bind (text : List Byte) (f : Unit → Prog posix β) :
    eprintf text >>= f = Prog.call (I := posix) (.eprintf text) f := rfl

@[simp] theorem time_bind (f : List Byte → Prog posix β) :
    time >>= f = Prog.call (I := posix) .time f := rfl

end Bind

/-- The bytes of a text. -/
def text (s : String) : List Byte := s.toUTF8.data.toList

end UnixNetwork
