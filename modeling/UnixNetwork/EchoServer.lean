import UnixNetwork.Feed
import UnixNetwork.Stdio

/-!
# The first echo server

`main` of `05/server.c` from where it has accepted a connection. It clears its buffer, reads, prints
the buffer and writes it back as a string, and does so for ever: the result of `read` is not looked
at and there is no way out of the loop, so the `close` behind it is never reached.

What is written back of a chunk is what stands before its first NUL. A chunk that fills the buffer
and has no NUL in it leaves none in the buffer either, and `strlen` goes on behind it.

## Main definitions

* `EchoServer.body`: one turn of the loop
* `EchoServer.Echoed`: up to its end the stream is echoed
* `EchoServer.Echoes`: the stream is echoed and the connection ends with it

## Main results

* `EchoServer.reach_string`: what is written back
* `EchoServer.echoed_iff`: when the stream is echoed
* `EchoServer.not_echoes`: the connection never ends
-/

namespace UnixNetwork

namespace EchoServer

open Interaction

/-! ## The program -/

/-- One turn of `while (1)`. What the array holds at its beginning plays no part. The code behind
the loop would be reached through `Sum.inr`. -/
def body (connfd : ℤ) : Buf 1024 → Prog stdio (Buf 1024 ⊕ Unit) := fun _ => do
  let buf := Buf.zeros 1024
  let r ← Prog.perform (I := stdio) (.read connfd (Span.whole 1024))
  let buf := buf.put 0 (readBytes r)
  let _ ← Prog.perform (I := stdio) (.printfStr (text "Received: ") buf.toList (text "\n"))
  let n ← strlen buf
  let _ ← Prog.perform (I := stdio) (.write connfd (Span.first 1024 n) buf.toList)
  return .inl buf

/-! ## The connection -/

/-- What the connection returns to a call; once the given reads have been made every read returns
the end of the stream. Writes are complete. -/
def Allows (connfd : ℤ) (f : Feed) : (c : Stdio.Call) → Stdio.Res c → Prop
  | .read fd _, r => fd = connfd ∧ r = f.reads.headD (.ok [])
  | .write fd src _, r => fd = connfd ∧ r = .ok src.len.toNat
  | _, _ => True

/-- The connection after a call. -/
def next (f : Feed) : (c : Stdio.Call) → Stdio.Res c → Feed
  | .read .., _ => { f with reads := f.reads.tail }
  | .write _ src mem, _ => { f with writes := f.writes ++ [src.bytes mem] }
  | _, _ => f

/-- The surroundings of the server on the connection `connfd`. -/
def world (connfd : ℤ) : World stdio Feed := ⟨Allows connfd, next⟩

/-- A run of the loop on a connection that sends these chunks, and whose last read finds the end of
the stream or fails; `buf` is not initialised. -/
abbrev Run (connfd : ℤ) (buf : Buf 1024) (chunks : List (List Byte))
    (last : Except Errno (List Byte)) : Prog stdio (Buf 1024 ⊕ Unit) × Feed → Prop :=
  Reach (world connfd) (body connfd) (.ret (.inl buf), ⟨chunks.map .ok ++ [last], []⟩)

/-- What is asked of a program that stays inside its buffer. -/
def inBounds : Guard stdio Feed := ⟨fun _ => Stdio.InBounds, fun _ => False⟩

/-- Up to its end the stream is echoed. -/
structure Echoed (connfd : ℤ) (buf : Buf 1024) (chunks : List (List Byte))
    (last : Except Errno (List Byte)) : Prop where
  /-- Nothing outside the buffer is accessed. -/
  safe : ∀ p f, Run connfd buf chunks last (p, f) → Stdio.Safe p
  /-- Once all reads have been made, what has come has been written back. -/
  written : ∀ b f, Run connfd buf chunks last (.ret (.inl b), f) → f.reads = [] →
    f.writes.flatten = chunks.flatten

/-- The stream is echoed, and the loop is left after its end. -/
structure Echoes (connfd : ℤ) (buf : Buf 1024) (chunks : List (List Byte))
    (last : Except Errno (List Byte)) : Prop extends Echoed connfd buf chunks last where
  /-- The loop is left. -/
  left : ∃ f, Run connfd buf chunks last (.ret (.inr ()), f)

/-! ## One turn -/

/-- What the buffer holds once `bs` has been read. -/
abbrev filled (bs : List Byte) : Buf 1024 := (Buf.zeros 1024).put 0 bs

theorem toList_filled {bs : List Byte} (hlen : bs.length ≤ 1024) :
    (filled bs).toList = bs ++ List.replicate (1024 - bs.length) 0 := by
  rw [filled, Buf.toList_put_zero hlen, Buf.zeros, Vector.toList_replicate, List.drop_replicate]

/-- There is a NUL in the buffer unless the read has filled it with other bytes. -/
theorem terminated_filled {bs : List Byte} (hlen : bs.length ≤ 1024) :
    CString.Terminated (filled bs).toList ↔ 0 ∈ bs ∨ bs.length < 1024 := by
  rw [toList_filled hlen, CString.terminated_append_replicate, Nat.sub_pos_iff_lt]

theorem str_filled {bs : List Byte} (hlen : bs.length ≤ 1024) :
    CString.str (filled bs).toList = CString.str bs := by
  rw [toList_filled hlen, CString.str_append_replicate]

/-- A turn after its read. -/
def answer (connfd : ℤ) (bs : List Byte) : Prog stdio (Buf 1024 ⊕ Unit) :=
  Prog.call (I := stdio) (.printfStr (text "Received: ") (filled bs).toList (text "\n")) fun _ =>
    strlen (filled bs) >>= fun n =>
      Prog.call (I := stdio) (.write connfd (Span.first 1024 n) (filled bs).toList) fun _ =>
        .ret (.inl (filled bs))

theorem body_eq (connfd : ℤ) (buf : Buf 1024) :
    body connfd buf = Prog.call (I := stdio) (.read connfd (Span.whole 1024)) fun r =>
      answer connfd (readBytes r) := by
  rw [body, Prog.perform_bind]
  refine congrArg _ (funext fun r => ?_)
  rw [answer, filled]
  generalize (Buf.zeros 1024).put 0 (readBytes r) = buf
  rfl

/-- The answer to a chunk that leaves a NUL in the buffer. -/
theorem answer_of_terminated {bs : List Byte} (hlen : bs.length ≤ 1024)
    (h : 0 ∈ bs ∨ bs.length < 1024) (connfd : ℤ) :
    answer connfd bs = Prog.call (I := stdio)
      (.printfStr (text "Received: ") (filled bs).toList (text "\n")) fun _ =>
        Prog.call (I := stdio)
          (.write connfd (Span.first 1024 (CString.str bs).length) (filled bs).toList) fun _ =>
            .ret (.inl (filled bs)) := by
  rw [answer, strlen, if_pos ((terminated_filled hlen).mpr h), str_filled hlen, Prog.ret_bind]

/-- The answer to a chunk that fills the buffer and has no NUL in it. -/
theorem answer_of_not_terminated {bs : List Byte} (hlen : bs.length = 1024) (h : 0 ∉ bs)
    (connfd : ℤ) :
    answer connfd bs = Prog.call (I := stdio)
      (.printfStr (text "Received: ") (filled bs).toList (text "\n")) fun _ => .fault := by
  have hfault : ¬ CString.Terminated (filled bs).toList := by
    rw [terminated_filled hlen.le]
    rintro (h0 | hlt)
    · exact h h0
    · omega
  rw [answer, strlen, if_neg hfault, Prog.fault_bind]

/-- What is written is a string. -/
theorem bytes_filled {bs : List Byte} (hlen : bs.length ≤ 1024) :
    (Span.first 1024 (CString.str bs).length).bytes (filled bs).toList = CString.str bs := by
  rw [← str_filled hlen, CString.str]
  nth_rewrite 2 [← List.takeWhile_append_dropWhile (p := (· ≠ 0)) (l := (filled bs).toList)]
  exact Span.bytes_first_append _ _

section Turn

variable (connfd : ℤ) (buf : Buf 1024) (rs : List (Except Errno (List Byte)))
  (ws : List (List Byte))

/-- A read returns. -/
theorem reach_answer (r : Except Errno (List Byte)) :
    Reach (world connfd) (body connfd) (.ret (.inl buf), ⟨r :: rs, ws⟩)
      (answer connfd (readBytes r), ⟨rs, ws⟩) := by
  refine .head .again ?_
  rw [body_eq]
  exact .single (.call (I := stdio) (c := .read connfd (Span.whole 1024)) (r := r) ⟨rfl, rfl⟩)

/-- What leaves a NUL in the buffer is written back as a string. -/
theorem reach_write {bs : List Byte} (hlen : bs.length ≤ 1024) (h : 0 ∈ bs ∨ bs.length < 1024) :
    Reach (world connfd) (body connfd) (answer connfd bs, ⟨rs, ws⟩)
      (.ret (.inl (filled bs)), ⟨rs, ws ++ [CString.str bs]⟩) := by
  rw [answer_of_terminated hlen h]
  refine .head (.call (r := ()) trivial) ?_
  have hnext : (world connfd).next ⟨rs, ws⟩
      (.write connfd (Span.first 1024 (CString.str bs).length) (filled bs).toList)
      (.ok (CString.str bs).length) = ⟨rs, ws ++ [CString.str bs]⟩ :=
    congrArg (fun bytes => (⟨rs, ws ++ [bytes]⟩ : Feed)) (bytes_filled hlen)
  rw [← hnext]
  exact .single (.call (I := stdio) (c := .write ..) (r := .ok _) ⟨rfl, rfl⟩)

/-- A turn on a chunk that leaves a NUL in the buffer. -/
theorem reach_turn {bs : List Byte} (hlen : bs.length ≤ 1024) (h : 0 ∈ bs ∨ bs.length < 1024) :
    Reach (world connfd) (body connfd) (.ret (.inl buf), ⟨.ok bs :: rs, ws⟩)
      (.ret (.inl (filled bs)), ⟨rs, ws ++ [CString.str bs]⟩) :=
  (reach_answer connfd buf rs ws (.ok bs)).trans (reach_write connfd rs ws hlen h)

end Turn

/-! ## A run -/

section Run

variable {chunks : List (List Byte)} {last : Except Errno (List Byte)} (connfd : ℤ)
  (buf : Buf 1024) (rs : List (Except Errno (List Byte))) (ws : List (List Byte))

/-- **What is written back** of each chunk is what stands before its first NUL. -/
theorem reach_string (hlen : ∀ bs ∈ chunks, bs.length ≤ 1024)
    (h : ∀ bs ∈ chunks, 0 ∈ bs ∨ bs.length < 1024) :
    ∃ b, Reach (world connfd) (body connfd) (.ret (.inl buf), ⟨chunks.map .ok ++ rs, ws⟩)
      (.ret (.inl b), ⟨rs, ws ++ chunks.map CString.str⟩) := by
  induction chunks generalizing buf ws with
  | nil =>
    refine ⟨buf, ?_⟩
    rw [List.map_nil, List.map_nil, List.append_nil]
    exact .refl
  | cons bs chunks ih =>
    have hturn := reach_turn connfd buf (chunks.map .ok ++ rs) ws (hlen bs List.mem_cons_self)
      (h bs List.mem_cons_self)
    obtain ⟨b, hrest⟩ := ih (filled bs) (ws ++ [CString.str bs])
      (fun bs' hbs' => hlen bs' (List.mem_cons_of_mem bs hbs'))
      fun bs' hbs' => h bs' (List.mem_cons_of_mem bs hbs')
    rw [List.append_assoc] at hrest
    exact ⟨b, hturn.trans hrest⟩

/-- A chunk that fills the buffer and has no NUL in it is read behind its end. -/
theorem reach_fault (hlen : ∀ bs ∈ chunks, bs.length ≤ 1024)
    (h : ∃ bs ∈ chunks, ¬ (0 ∈ bs ∨ bs.length < 1024)) :
    ∃ f, Reach (world connfd) (body connfd) (.ret (.inl buf), ⟨chunks.map .ok ++ rs, ws⟩)
      (.fault, f) := by
  induction chunks generalizing buf ws with
  | nil =>
    obtain ⟨bs, hbs, -⟩ := h
    cases hbs
  | cons bs chunks ih =>
    have hbs := hlen bs List.mem_cons_self
    by_cases hhead : 0 ∈ bs ∨ bs.length < 1024
    · obtain ⟨bs', hmem, hbad⟩ := h
      rcases List.mem_cons.mp hmem with rfl | hmem
      · exact absurd hhead hbad
      · obtain ⟨f, hrest⟩ := ih (filled bs) (ws ++ [CString.str bs])
          (fun bs'' hbs'' => hlen bs'' (List.mem_cons_of_mem bs hbs'')) ⟨bs', hmem, hbad⟩
        exact ⟨f, (reach_turn connfd buf _ ws hbs hhead).trans hrest⟩
    · obtain ⟨h0, hge⟩ := not_or.mp hhead
      have hanswer := reach_answer connfd buf (chunks.map .ok ++ rs) ws (.ok bs)
      rw [readBytes_ok, answer_of_not_terminated (by omega) h0] at hanswer
      exact ⟨_, hanswer.tail (.call (r := ()) trivial)⟩

/-- The last read has brought nothing, and nothing is written. -/
theorem reach_end (hlast : readBytes last = []) :
    Reach (world connfd) (body connfd) (.ret (.inl buf), ⟨[last], ws⟩)
      (.ret (.inl (filled [])), ⟨[], ws ++ [[]]⟩) := by
  have hnil : ([] : List Byte).length ≤ 1024 := Nat.zero_le _
  have hread : Reach (world connfd) (body connfd) (.ret (.inl buf), ⟨[last], ws⟩)
      (answer connfd [], ⟨[], ws⟩) := by
    rw [← hlast]
    exact reach_answer connfd buf [] ws last
  exact hread.trans (reach_write connfd [] ws hnil (.inr (by decide)))

end Run

/-! ## Up to the end of the stream -/

variable {connfd : ℤ} {buf : Buf 1024} {chunks : List (List Byte)}
  {last : Except Errno (List Byte)}

/-- At the head of the loop: what has been written and what will be read are the stream, and no
chunk to come fills the buffer or has a NUL in it. -/
structure Inv (stream : List Byte) (f : Feed) : Prop where
  /-- Nothing has been lost. -/
  stream : f.writes.flatten ++ (f.reads.map readBytes).flatten = stream
  /-- No chunk to come fills the buffer or has a NUL in it. -/
  reads : ∀ r ∈ f.reads, 0 ∉ readBytes r ∧ (readBytes r).length < 1024

/-- A turn keeps the invariant. -/
theorem wp_turn {stream : List Byte} {f : Feed} (hf : Inv stream f) (buf : Buf 1024) :
    wp (world connfd) inBounds (body connfd buf)
      (Sum.elim (fun _ => Inv stream) fun _ _ => False) f := by
  rw [body_eq]
  refine ⟨⟨le_rfl, by decide, le_rfl⟩, ?_⟩
  rintro r ⟨-, rfl⟩
  generalize hr : f.reads.headD (.ok []) = r
  have hhead : (0 ∉ readBytes r ∧ (readBytes r).length < 1024) ∧
      readBytes r ++ (f.reads.tail.map readBytes).flatten = (f.reads.map readBytes).flatten ∧
      ∀ r' ∈ f.reads.tail, r' ∈ f.reads := by
    cases hreads : f.reads with
    | nil =>
      rw [hreads] at hr
      subst hr
      simp
    | cons r' rs =>
      rw [hreads] at hr
      obtain rfl : r' = r := hr
      exact ⟨hf.reads r' (hreads ▸ List.mem_cons_self), rfl, fun _ => List.mem_cons_of_mem r'⟩
  obtain ⟨⟨h0, hlt⟩, hstream, htail⟩ := hhead
  dsimp only
  rw [answer_of_terminated hlt.le (.inr hlt)]
  refine ⟨(terminated_filled hlt.le).mpr (.inr hlt), fun _ _ => ⟨?_, fun _ _ => ⟨?_, ?_⟩⟩⟩
  · exact Span.inBounds_first (((CString.length_str_le _).trans hlt.le))
  · show (f.writes ++ [_]).flatten ++ (f.reads.tail.map readBytes).flatten = stream
    rw [bytes_filled hlt.le, CString.str_eq_self_iff.mpr h0, List.flatten_append,
      List.append_assoc, List.flatten_singleton, hstream]
    exact hf.stream
  · exact fun r' hr' => hf.reads r' (htail r' hr')

/-! ## When the stream is echoed -/

/-- **The stream is echoed** if and only if no chunk fills the buffer or has a NUL in it. -/
theorem echoed_iff (hlen : ∀ bs ∈ chunks, bs.length ≤ 1024) (hlast : readBytes last = []) :
    Echoed connfd buf chunks last ↔ ∀ bs ∈ chunks, 0 ∉ bs ∧ bs.length < 1024 := by
  constructor
  · intro h
    have hterm : ∀ bs ∈ chunks, 0 ∈ bs ∨ bs.length < 1024 := by
      by_contra hbad
      simp only [not_forall] at hbad
      obtain ⟨bs, hbs, hbad⟩ := hbad
      obtain ⟨f, hrun⟩ := reach_fault connfd buf [last] [] hlen ⟨bs, hbs, hbad⟩
      exact h.safe _ f hrun
    obtain ⟨b, hrun⟩ := reach_string connfd buf [last] [] hlen hterm
    have hend := reach_end connfd b (chunks.map CString.str) hlast
    have hwritten := h.written _ _ (hrun.trans hend) rfl
    rw [List.flatten_append, List.flatten_singleton, List.append_nil, ← List.flatMap_def]
      at hwritten
    have h0 := CString.flatMap_str_eq_flatten_iff.mp hwritten
    exact fun bs hbs => ⟨h0 bs hbs, (hterm bs hbs).resolve_left (h0 bs hbs)⟩
  · intro h
    have hinv : Inv chunks.flatten ⟨chunks.map .ok ++ [last], []⟩ := by
      refine ⟨by simp [Function.comp_def, hlast], ?_⟩
      intro r hr
      rcases List.mem_append.mp hr with hr | hr
      · obtain ⟨bs, hbs, rfl⟩ := List.mem_map.mp hr
        exact h bs hbs
      · rw [List.mem_singleton.mp hr, hlast]
        simp
    have hwp : ∀ p f, Run connfd buf chunks last (p, f) → wp (world connfd) inBounds p
        (Sum.elim (fun _ => Inv chunks.flatten) fun _ _ => False) f :=
      fun p f hrun => Reach.wp (fun b f hf => wp_turn hf b) hrun hinv
    refine ⟨fun p f hrun => Stdio.safe_of_wp (fun _ _ hc => hc) (fun _ => id) (hwp p f hrun), ?_⟩
    intro b f hrun hreads
    have hf : Inv chunks.flatten f := hwp _ f hrun
    have hstream := hf.stream
    rwa [hreads, List.map_nil, List.flatten_nil, List.append_nil] at hstream

/-- There is no way out of the loop. -/
theorem not_left (f : Feed) : ¬ Run connfd buf chunks last (.ret (.inr ()), f) := by
  intro h
  refine Reach.leaves (Q := fun _ => False) (fun b => ?_) h trivial
  rw [body_eq, Prog.leaves_call]
  intro r
  rw [answer, Prog.leaves_call]
  generalize filled (readBytes r) = buf
  exact fun _ => (silent_strlen buf).leaves_bind fun _ _ => trivial

/-- **The connection never ends**, whatever the client sends. Up to its end the stream is echoed if
and only if no chunk fills the buffer or has a NUL in it. -/
theorem not_echoes (connfd : ℤ) (buf : Buf 1024) {chunks : List (List Byte)}
    {last : Except Errno (List Byte)} (hlen : ∀ bs ∈ chunks, 1 ≤ bs.length ∧ bs.length ≤ 1024)
    (hlast : last = .ok [] ∨ ∃ e, last = .error e) :
    ¬ Echoes connfd buf chunks last ∧
      (Echoed connfd buf chunks last ↔ ∀ bs ∈ chunks, 0 ∉ bs ∧ bs.length < 1024) := by
  have hempty : readBytes last = [] := by
    rcases hlast with rfl | ⟨e, rfl⟩
    · rfl
    · rfl
  refine ⟨?_, echoed_iff (fun bs hbs => (hlen bs hbs).2) hempty⟩
  intro h
  obtain ⟨f, hrun⟩ := h.left
  exact not_left f hrun

theorem not_echoes_line :
    ¬ Echoes 4 (Buf.zeros 1024) [text "hi\n"] (.ok []) ∧
      (Echoed 4 (Buf.zeros 1024) [text "hi\n"] (.ok []) ↔
        ∀ bs ∈ [text "hi\n"], 0 ∉ bs ∧ bs.length < 1024) :=
  not_echoes 4 (Buf.zeros 1024) (fun bs hbs => by rw [List.mem_singleton.mp hbs]; decide)
    (.inl rfl)

/-- The server goes on after a client that has sent a line and closed the connection. -/
theorem line_not_left :
    (∀ bs ∈ [text "hi\n"], 1 ≤ bs.length ∧ bs.length ≤ 1024) ∧
      ¬ Echoes 4 (Buf.zeros 1024) [text "hi\n"] (.ok []) := by
  refine ⟨fun bs hbs => by rw [List.mem_singleton.mp hbs]; decide, ?_⟩
  intro h
  obtain ⟨f, hrun⟩ := h.left
  exact not_left f hrun

end EchoServer

end UnixNetwork
