import UnixNetwork.Forking

/-!
# The echo of the forking server

`str_echo` of `07/server.c` reads into a buffer of 1024 bytes and asks for 1024 of them. Before it
prints what has come it puts a NUL behind it, and behind a buffer that has been filled there is no
room for it.

Apart from that the echo is faithful: a read that has been interrupted is tried again, everything
that has come is written back in order, and the function returns at the first read that finds the
end of the stream or fails for another reason.

## Main definitions

* `StrEcho.Conn`, `StrEcho.world`: a connection whose reads are given, with complete writes
* `StrEcho.GoesOn`, `StrEcho.IsLast`: the reads before the last one, and the last one
* `StrEcho.Faithful`: what is asked of the echo

## Main results

* `StrEcho.wp_body`: a turn of the loop as long as no read fills the buffer
* `StrEcho.faithful_iff`: when the echo is faithful
-/

namespace UnixNetwork

namespace Forking

namespace StrEcho

open Interaction

/-! ## The connection -/

/-- A connection as `str_echo` sees it. -/
structure Conn where
  /-- What the reads to come will return. -/
  reads : List (Except Errno (List Byte))
  /-- `errno`. -/
  errno : Errno
  /-- The bytes that have been written. -/
  written : List Byte

/-- What the connection returns to a call. -/
def Allows (socketfd : ℤ) (w : Conn) : (c : Call) → Res c → Prop
  | .read fd _, r => fd = socketfd ∧ w.reads.head? = some r
  | .write fd src _, r => fd = socketfd ∧ r = .ok src.len.toNat
  | .errno, r => r = w.errno
  | _, _ => True

/-- The connection after a call. -/
def next (w : Conn) : (c : Call) → Res c → Conn
  | .read .., .ok _ => { w with reads := w.reads.tail }
  | .read .., .error e => { w with reads := w.reads.tail, errno := e }
  | .write _ src mem, _ => { w with written := w.written ++ src.bytes mem }
  | _, _ => w

/-- The surroundings of `str_echo`. -/
def world (socketfd : ℤ) : World process Conn := ⟨Allows socketfd, next⟩

/-- A read after which the stream goes on: it has returned data, or has been interrupted. -/
def GoesOn : Except Errno (List Byte) → Prop
  | .ok bs => bs ≠ [] ∧ bs.length ≤ 1024
  | .error e => e = .eintr

/-- The last read: the end of the stream, or an error. -/
def IsLast : Except Errno (List Byte) → Prop
  | .ok bs => bs = []
  | .error e => e ≠ .eintr

/-- A run of the loop on a connection whose reads are `going` and then `last`; `buf` is not
initialised. -/
abbrev Run (socketfd : ℤ) (buf : Buf 1024) (errno : Errno)
    (going : List (Except Errno (List Byte))) (last : Except Errno (List Byte)) :
    Prog process (Buf 1024 ⊕ Unit) × Conn → Prop :=
  Reach (world socketfd) (strEcho socketfd) (.ret (.inl buf), ⟨going ++ [last], errno, []⟩)

/-- What is asked of the echo. -/
structure Faithful (socketfd : ℤ) (buf : Buf 1024) (errno : Errno)
    (going : List (Except Errno (List Byte))) (last : Except Errno (List Byte)) : Prop where
  /-- Nothing is stored outside the buffer. -/
  safe : ∀ w, ¬ Run socketfd buf errno going last (.fault, w)
  /-- The function returns. -/
  returns : ∃ w, Run socketfd buf errno going last (.ret (.inr ()), w)
  /-- It returns after the last read and not before, and has written what it has read. -/
  echoed : ∀ w, Run socketfd buf errno going last (.ret (.inr ()), w) →
    w.reads = [] ∧ w.written = going.flatMap readBytes

/-! ## One turn -/

variable {socketfd : ℤ} {buf : Buf 1024} {w : Conn} {going todo : List (Except Errno (List Byte))}
  {last r : Except Errno (List Byte)} {bs : List Byte} {rest : List (Except Errno (List Byte))}

/-- What the program does with the `errno` of a read that has failed. -/
def afterFailed (buf : Buf 1024) (errno : Errno) : Prog process (Buf 1024 ⊕ Unit) :=
  if errno = .eintr then .ret (.inl buf)
  else Prog.call (I := process) (.printf (text "write rrror\n")) fun _ => .ret (.inr ())

/-- What a turn does with each result of its read. -/
theorem exists_strEcho_eq (socketfd : ℤ) (buf : Buf 1024) :
    ∃ k : Res (.read socketfd (Span.whole 1024)) → Prog process (Buf 1024 ⊕ Unit),
      strEcho socketfd buf = Prog.call (I := process) (.read socketfd (Span.whole 1024)) k ∧
      (∀ bs ≠ [], bs.length < 1024 → ∃ mem : Buf 1024,
        (Span.first 1024 bs.length).bytes mem.toList = bs ∧
        k (.ok bs) = Prog.call (I := process)
          (.printfStr (text "read from client: ") mem.toList (text "\n")) fun _ =>
            Prog.call (I := process) (.write socketfd (Span.first 1024 bs.length) mem.toList)
              fun _ => .ret (.inl mem)) ∧
      (∀ bs : List Byte, bs.length = 1024 → k (.ok bs) = .fault) ∧
      (k (.ok []) = Prog.call (I := process)
        (.printf (text "client socket closed because read return 0\n")) fun _ => .ret (.inr ())) ∧
      ∃ buf', ∀ e, k (.error e) = Prog.call (I := process) .errno (afterFailed buf') := by
  refine ⟨_, rfl, ?_, ?_, rfl, buf.put 0 [], fun e => rfl⟩
  · intro bs hne hlen
    have hpos : (bs.length : ℤ) > 0 := by
      have := List.length_pos_iff.mpr hne
      omega
    refine ⟨(buf.put 0 bs).set bs.length 0 hlen, ?_, ?_⟩
    · rw [Span.bytes_first_set hlen, Span.bytes_first_put hlen.le]
    · show (if (bs.length : ℤ) > 0 then storeAt (buf.put 0 bs) bs.length 0 >>= _ else _) = _
      rw [if_pos hpos, storeAt_of_lt hlen]
      rfl
  · intro bs hlen
    have hpos : (bs.length : ℤ) > 0 := by omega
    show (if (bs.length : ℤ) > 0 then storeAt (buf.put 0 bs) bs.length 0 >>= _ else _) = _
    rw [if_pos hpos, storeAt, if_pos (Int.natCast_nonneg _), Int.toNat_natCast, store,
      dif_neg (by omega)]
    rfl

/-- A turn after which the stream goes on. -/
theorem exists_executes (socketfd : ℤ) (buf : Buf 1024) (hr : GoesOn r)
    (hfull : ∀ bs, r = .ok bs → bs.length ≠ 1024) (hw : w.reads = r :: rest) :
    ∃ buf' w', Executes (world socketfd) (strEcho socketfd buf) w (.inl buf') w' ∧
      w'.reads = rest := by
  obtain ⟨k, hbody, hok, -, -, buf', herror⟩ := exists_strEcho_eq socketfd buf
  have hhead : w.reads.head? = some r := by rw [hw]; rfl
  have htail : w.reads.tail = rest := by rw [hw]; rfl
  rw [hbody]
  cases r with
  | ok bs =>
    have hlen : bs.length < 1024 := lt_of_le_of_ne hr.2 (hfull bs rfl)
    obtain ⟨mem, -, hk⟩ := hok bs hr.1 hlen
    refine ⟨mem, { w with
      reads := w.reads.tail
      written := w.written ++ (Span.first 1024 bs.length).bytes mem.toList },
      ⟨.ok bs, ⟨rfl, hhead⟩, ?_⟩, htail⟩
    rw [hk]
    exact ⟨(), trivial, .ok bs.length, ⟨rfl, rfl⟩, rfl, rfl⟩
  | error e =>
    obtain rfl : e = .eintr := hr
    refine ⟨buf', { w with reads := w.reads.tail, errno := .eintr },
      ⟨.error .eintr, ⟨rfl, hhead⟩, ?_⟩, htail⟩
    rw [herror]
    exact ⟨.eintr, rfl, rfl, rfl⟩

/-- The last turn. -/
theorem executes_last (socketfd : ℤ) (buf : Buf 1024) (hlast : IsLast last)
    (hw : w.reads = [last]) :
    ∃ w', Executes (world socketfd) (strEcho socketfd buf) w (.inr ()) w' := by
  obtain ⟨k, hbody, -, -, hend, buf', herror⟩ := exists_strEcho_eq socketfd buf
  have hhead : w.reads.head? = some last := by rw [hw]; rfl
  rw [hbody]
  cases last with
  | ok bs =>
    obtain rfl : bs = [] := hlast
    refine ⟨{ w with reads := w.reads.tail }, .ok [], ⟨rfl, hhead⟩, ?_⟩
    rw [hend]
    exact ⟨(), trivial, rfl, rfl⟩
  | error e =>
    refine ⟨{ w with reads := w.reads.tail, errno := e }, .error e, ⟨rfl, hhead⟩, ?_⟩
    rw [herror]
    refine ⟨e, rfl, ?_⟩
    rw [afterFailed, if_neg hlast]
    exact ⟨(), trivial, rfl, rfl⟩

/-! ## Whole runs -/

/-- The function returns if no read fills the buffer. -/
theorem exists_returns (socketfd : ℤ) (buf : Buf 1024) (hgo : ∀ r ∈ todo, GoesOn r)
    (hlast : IsLast last) (hfull : ∀ bs, .ok bs ∈ todo → bs.length ≠ 1024)
    (hw : w.reads = todo ++ [last]) :
    ∃ w', Reach (world socketfd) (strEcho socketfd) (.ret (.inl buf), w) (.ret (.inr ()), w') := by
  induction todo generalizing buf w with
  | nil =>
    obtain ⟨w', h⟩ := executes_last socketfd buf hlast hw
    exact ⟨w', .head .again h.reach⟩
  | cons r todo ih =>
    have hr := hgo r List.mem_cons_self
    obtain ⟨buf', w', h, hw'⟩ := exists_executes socketfd buf hr
      (fun bs he => hfull bs (he ▸ List.mem_cons_self)) hw
    obtain ⟨w'', h'⟩ := ih buf' (fun r hmem => hgo r (List.mem_cons_of_mem _ hmem))
      (fun bs hmem => hfull bs (List.mem_cons_of_mem _ hmem)) hw'
    exact ⟨w'', .head .again (h.reach.trans h')⟩

/-- A read that fills the buffer leads to a store behind it. -/
theorem exists_fault (socketfd : ℤ) (buf : Buf 1024) (hgo : ∀ r ∈ todo, GoesOn r)
    (hfull : ∃ bs, .ok bs ∈ todo ∧ bs.length = 1024) (hw : w.reads = todo ++ [last]) :
    ∃ w', Reach (world socketfd) (strEcho socketfd) (.ret (.inl buf), w) (.fault, w') := by
  induction todo generalizing buf w with
  | nil =>
    obtain ⟨bs, hmem, -⟩ := hfull
    cases hmem
  | cons r todo ih =>
    by_cases hr : ∃ bs, r = .ok bs ∧ bs.length = 1024
    · obtain ⟨bs, rfl, hlen⟩ := hr
      obtain ⟨k, hbody, -, hfault, -⟩ := exists_strEcho_eq socketfd buf
      have hagain : Reach (world socketfd) (strEcho socketfd) (.ret (.inl buf), w)
          (strEcho socketfd buf, w) := .single .again
      rw [hbody] at hagain
      have hread := hagain.tail (.call (I := process) (c := .read socketfd (Span.whole 1024))
        (r := .ok bs) ⟨rfl, by rw [hw]; rfl⟩)
      rw [hfault bs hlen] at hread
      exact ⟨_, hread⟩
    · have hne : ∀ bs, r = .ok bs → bs.length ≠ 1024 := fun bs he hlen => hr ⟨bs, he, hlen⟩
      obtain ⟨buf', w', h, hw'⟩ := exists_executes socketfd buf
        (hgo r List.mem_cons_self) hne hw
      have hrest : ∃ bs, .ok bs ∈ todo ∧ bs.length = 1024 := by
        obtain ⟨bs, hmem, hlen⟩ := hfull
        rcases List.mem_cons.mp hmem with he | hmem
        · exact absurd hlen (hne bs he.symm)
        · exact ⟨bs, hmem, hlen⟩
      obtain ⟨w'', h'⟩ := ih buf' (fun r hmem => hgo r (List.mem_cons_of_mem _ hmem))
        hrest hw'
      exact ⟨w'', .head .again (h.reach.trans h')⟩

/-- The invariant of the loop: what is still to come completes what has been written. -/
structure Inv (going : List (Except Errno (List Byte))) (last : Except Errno (List Byte))
    (w : Conn) : Prop where
  exists_todo : ∃ todo, w.reads = todo ++ [last] ∧ todo ⊆ going ∧
    w.written ++ todo.flatMap readBytes = going.flatMap readBytes

/-- Nothing is stored outside the buffer. -/
def guard : Guard process Conn := ⟨fun _ _ => True, fun _ => False⟩

/-- **A turn** on a stream that never fills the buffer. -/
theorem wp_body (hgo : ∀ r ∈ going, GoesOn r) (hlast : IsLast last)
    (hfull : ∀ bs, .ok bs ∈ going → bs.length ≠ 1024) (h : Inv going last w) :
    wp (world socketfd) guard (strEcho socketfd buf) (Sum.elim (fun _ => Inv going last)
      fun _ w => w.reads = [] ∧ w.written = going.flatMap readBytes) w := by
  obtain ⟨todo, hw, hsub, hwritten⟩ := h.exists_todo
  obtain ⟨k, hbody, hok, -, hend, buf', herror⟩ := exists_strEcho_eq socketfd buf
  rw [hbody]
  refine ⟨trivial, fun r hr => ?_⟩
  obtain ⟨-, hr⟩ := hr
  cases todo with
  | nil =>
    -- the last read
    have htail : w.reads.tail = [] := by rw [hw]; rfl
    rw [List.flatMap_nil, List.append_nil] at hwritten
    obtain rfl : last = r := by simpa [hw] using hr
    cases last with
    | ok bs =>
      obtain rfl : bs = [] := hlast
      rw [hend]
      exact ⟨trivial, fun _ _ => ⟨htail, hwritten⟩⟩
    | error e =>
      rw [herror]
      refine ⟨trivial, fun errno he => ?_⟩
      obtain rfl : errno = e := he
      rw [afterFailed, if_neg hlast]
      exact ⟨trivial, fun _ _ => ⟨htail, hwritten⟩⟩
  | cons x todo =>
    have htail : w.reads.tail = todo ++ [last] := by rw [hw]; rfl
    obtain rfl : x = r := by simpa [hw] using hr
    have hmem : x ∈ going := hsub List.mem_cons_self
    have hsub' : todo ⊆ going := fun y hy => hsub (List.mem_cons_of_mem _ hy)
    rw [List.flatMap_cons, ← List.append_assoc] at hwritten
    cases x with
    | ok bs =>
      have hgoes := hgo _ hmem
      obtain ⟨mem, hbytes, hk⟩ := hok bs hgoes.1 (lt_of_le_of_ne hgoes.2 (hfull bs hmem))
      rw [hk]
      refine ⟨trivial, fun _ _ => ⟨trivial, fun _ _ => ⟨todo, htail, hsub', ?_⟩⟩⟩
      show w.written ++ (Span.first 1024 bs.length).bytes mem.toList ++ _ = _
      rw [hbytes]
      exact hwritten
    | error e =>
      obtain rfl : e = .eintr := hgo _ hmem
      rw [herror]
      refine ⟨trivial, fun errno he => ?_⟩
      obtain rfl : errno = .eintr := he
      rw [readBytes_error, List.append_nil] at hwritten
      exact ⟨todo, htail, hsub', hwritten⟩

/-- **When the echo is faithful.** Whatever chunks of at most 1024 bytes come, wherever a read is
interrupted and however the stream ends, nothing is stored outside the buffer, the function returns
at the end and not before, and it has written what has come, if and only if no chunk fills the
buffer. -/
theorem faithful_iff (socketfd : ℤ) (buf : Buf 1024) (errno : Errno)
    (going : List (Except Errno (List Byte))) (last : Except Errno (List Byte))
    (hgo : ∀ r ∈ going, GoesOn r) (hlast : IsLast last) :
    Faithful socketfd buf errno going last ↔ ∀ bs, .ok bs ∈ going → bs.length ≠ 1024 := by
  constructor
  · intro h bs hmem hlen
    obtain ⟨w, hrun⟩ := exists_fault (w := ⟨going ++ [last], errno, []⟩) socketfd buf hgo
      ⟨bs, hmem, hlen⟩ rfl
    exact h.safe w hrun
  · intro hfull
    have hstart : Inv going last ⟨going ++ [last], errno, []⟩ := ⟨going, rfl, fun _ h => h, rfl⟩
    have hwp : ∀ x, Run socketfd buf errno going last x → wp (world socketfd) guard x.1
        (Sum.elim (fun _ => Inv going last)
          fun _ w => w.reads = [] ∧ w.written = going.flatMap readBytes) x.2 :=
      fun x hx => Reach.wp (fun _ _ h => wp_body hgo hlast hfull h) hx hstart
    refine ⟨fun w hrun => hwp _ hrun, ?_, fun w hrun => hwp _ hrun⟩
    exact exists_returns socketfd buf hgo hlast hfull rfl

/-- Two chunks, with an interruption between them, and the end of the stream. -/
theorem faithful_iff_interrupted : Faithful 4 (Buf.zeros 1024) (.other 0)
    [.ok (text "hello\n"), .error .eintr, .ok (text "bye\n")] (.ok []) :=
  (faithful_iff 4 (Buf.zeros 1024) (.other 0) _ (.ok [])
    (by
      have hhello : (text "hello\n").length = 6 := by decide
      have hbye : (text "bye\n").length = 4 := by decide
      simp only [List.mem_cons, List.not_mem_nil, or_false, forall_eq_or_imp, forall_eq]
      refine ⟨⟨?_, by omega⟩, rfl, ?_, by omega⟩
      · exact List.ne_nil_of_length_eq_add_one hhello
      · exact List.ne_nil_of_length_eq_add_one hbye) rfl).mpr
    (by
      have hhello : (text "hello\n").length = 6 := by decide
      have hbye : (text "bye\n").length = 4 := by decide
      intro bs hmem
      simp only [List.mem_cons, List.not_mem_nil, or_false, Except.ok.injEq, reduceCtorEq,
        false_or] at hmem
      rcases hmem with rfl | rfl
      · omega
      · omega)

/-- A chunk that fills the buffer. -/
theorem not_faithful_of_length (socketfd : ℤ) (buf : Buf 1024) (errno : Errno)
    (hlen : bs.length = 1024) :
    GoesOn (.ok bs) ∧ ¬ Faithful socketfd buf errno [.ok bs] (.ok []) := by
  have hgo : GoesOn (.ok bs) := ⟨List.ne_nil_of_length_eq_add_one hlen, hlen.le⟩
  refine ⟨hgo, fun h => ?_⟩
  obtain ⟨w, hrun⟩ := exists_fault (w := ⟨[.ok bs] ++ [.ok []], errno, []⟩) socketfd buf
    (List.forall_mem_singleton.mpr hgo) ⟨bs, List.mem_singleton_self _, hlen⟩ rfl
  exact h.safe w hrun

/-- A line of 1024 bytes, and a NUL is stored behind the buffer. -/
theorem not_faithful_full : GoesOn (.ok (List.replicate 1024 97)) ∧
    ¬ Faithful 4 (Buf.zeros 1024) (.other 0) [.ok (List.replicate 1024 97)] (.ok []) :=
  not_faithful_of_length 4 _ _ List.length_replicate

end StrEcho

end Forking

end UnixNetwork
