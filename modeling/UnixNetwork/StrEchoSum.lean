import UnixNetwork.Feed
import UnixNetwork.Encoding.Bytes

/-!
# The sum server

`str_echo_sum` of `07/server.c`: the peer sends pairs of numbers, each pair as the bytes of a
`struct args`, and is sent the bytes of a `struct result` with their sum. One call of `read` is
taken for one request.

The byte stream has no boundaries, and a `read` may return any part of a request. The function then
adds what is in `arg`, the new bytes at its beginning and older ones behind them, and answers that.
So it frames the requests correctly exactly if every read returned a whole one (`answers_iff`).

The memory of `arg` is not initialised. The order of the bytes of a `long` is a parameter.

## Main definitions

* `StrEchoSum.Args`, `StrEchoSum.body`: a request, and one turn of the loop
* `StrEchoSum.sums`: the sums the function computes on given chunks
* `StrEchoSum.Answers`: one answer for each request, and nothing else

## Main results

* `reach_done_iff_sums`: what the function writes
* `answers_iff`: when it answers the requests
-/

namespace UnixNetwork

namespace StrEchoSum

open Interaction Encoding

/-- `long`, of 64 bits. -/
abbrev Long : Type := BitVec 64

/-- The bytes of a `long`. -/
def longBytes (o : ByteOrder) (x : Long) : List Byte := o.encode 8 x.toNat

/-- The `long` that some bytes represent. -/
def longOf (o : ByteOrder) (bs : List Byte) : Long := BitVec.ofNat 64 (o.decode bs)

/-- `struct args`. -/
structure Args where
  /-- The first summand. -/
  arg1 : Long
  /-- The second summand. -/
  arg2 : Long

/-- The bytes of a `struct args`. -/
def Args.bytes (o : ByteOrder) (a : Args) : List Byte := longBytes o a.arg1 ++ longBytes o a.arg2

/-- The `struct args` in some memory. -/
def Args.ofMem (o : ByteOrder) (arg : Buf 16) : Args where
  arg1 := longOf o (arg.slice 0 8)
  arg2 := longOf o (arg.slice 8 8)

/-- What is added. -/
def Args.sum (a : Args) : Long := a.arg1 + a.arg2

/-- The memory of a `struct result`. -/
def resultMem (o : ByteOrder) (sum : Long) : Buf 8 :=
  ⟨(longBytes o sum).toArray, by simp [longBytes]⟩

/-- One turn of `for(;;)`; `arg` lives from one turn to the next. -/
def body (o : ByteOrder) (socketfd : ℤ) (arg : Buf 16) : Prog posix (Buf 16 ⊕ Unit) := do
  let r ← read socketfd (Span.whole 16)
  let n := readValue r
  let arg := arg.put 0 (readBytes r)
  if n = 0 then do
    let _ ← printf (text "client socket closed because read return 0\n")
    return .inr ()
  else do
    let sum := (Args.ofMem o arg).sum
    let _ ← printf (text ("sum is " ++ toString sum.toInt ++ "\n"))
    let _ ← write socketfd (Span.whole 8) (resultMem o sum)
    return .inl arg

theorem body_eq (o : ByteOrder) (socketfd : ℤ) (arg : Buf 16) :
    body o socketfd arg = Prog.call (I := posix) (.read socketfd (Span.whole 16)) fun r =>
      if readValue r = 0 then Prog.call (I := posix)
        (.printf (text "client socket closed because read return 0\n")) fun _ => .ret (.inr ())
      else Prog.call (I := posix) (.printf (text ("sum is " ++
          toString (Args.ofMem o (arg.put 0 (readBytes r))).sum.toInt ++ "\n"))) fun _ =>
        Prog.call (I := posix) (.write socketfd (Span.whole 8)
          (resultMem o (Args.ofMem o (arg.put 0 (readBytes r))).sum).toList) fun _ =>
            .ret (.inl (arg.put 0 (readBytes r))) := rfl

/-! ## Numbers in memory -/

@[simp] theorem length_longBytes (o : ByteOrder) (x : Long) : (longBytes o x).length = 8 :=
  o.length_encode 8 _

@[simp] theorem longOf_longBytes (o : ByteOrder) (x : Long) : longOf o (longBytes o x) = x := by
  rw [longOf, longBytes, o.decode_encode (by simpa using x.isLt), BitVec.ofNat_toNat,
    BitVec.setWidth_eq]

theorem length_bytes (o : ByteOrder) (a : Args) : (a.bytes o).length = 16 := by
  simp [Args.bytes]

/-- A whole request read into memory is that request. -/
theorem ofMem_put (o : ByteOrder) (arg : Buf 16) (a : Args) :
    Args.ofMem o (arg.put 0 (a.bytes o)) = a := by
  have hlen := length_bytes o a
  have h₁ : (arg.put 0 (a.bytes o)).slice 0 8 = longBytes o a.arg1 := by
    rw [Buf.slice_put_of_le (i := 0) (by omega) (by omega)]
    simp [Args.bytes]
  have h₂ : (arg.put 0 (a.bytes o)).slice 8 8 = longBytes o a.arg2 := by
    rw [← Nat.zero_add 8, Buf.slice_put_of_le (by omega) (by omega)]
    simp [Args.bytes]
  rw [Args.ofMem, h₁, h₂, longOf_longBytes, longOf_longBytes]

/-- The bytes that are written are those of the sum. -/
theorem bytes_resultMem (o : ByteOrder) (sum : Long) :
    (Span.whole 8).bytes (resultMem o sum).toList = longBytes o sum := by
  simp [Span.whole, Span.bytes, resultMem]

/-! ## What is written -/

/-- The sums that are computed when the reads return these chunks. -/
def sums (o : ByteOrder) : (arg : Buf 16) → (chunks : List (List Byte)) → List Long
  | _, [] => []
  | arg, c :: cs => (Args.ofMem o (arg.put 0 c)).sum :: sums o (arg.put 0 c) cs

@[simp] theorem length_sums (o : ByteOrder) (arg : Buf 16) (chunks : List (List Byte)) :
    (sums o arg chunks).length = chunks.length := by
  induction chunks generalizing arg with
  | nil => rfl
  | cons c cs ih => rw [sums, List.length_cons, ih, List.length_cons]

/-- Whole requests are answered. -/
theorem sums_bytes (o : ByteOrder) (arg : Buf 16) (requests : List Args) :
    sums o arg (requests.map (Args.bytes o)) = requests.map Args.sum := by
  induction requests generalizing arg with
  | nil => rfl
  | cons a as ih => rw [List.map_cons, sums, ofMem_put, ih, List.map_cons]

/-- A connection whose reads return these chunks and then the end of the stream. -/
def feedOf (chunks writes : List (List Byte)) : Feed := ⟨chunks.map .ok, writes⟩

variable {o : ByteOrder} {socketfd : ℤ} {arg : Buf 16} {chunks writes : List (List Byte)}

/-- A turn at the end of the stream ends the loop. -/
theorem executes_nil {x : Buf 16 ⊕ Unit} {f : Feed} :
    Executes (Feed.world socketfd) (body o socketfd arg) (feedOf [] writes) x f ↔
      x = .inr () ∧ f = feedOf [] writes := by
  have hzero : readValue (.ok []) = 0 := readValue_ok_eq_zero.mpr rfl
  rw [body_eq, Feed.executes_read]
  show Executes _ (ite (readValue (.ok []) = 0) _ _) _ _ _ ↔ _
  rw [if_pos hzero, Feed.executes_printf, executes_ret]
  rfl

/-- A turn in which some bytes are read answers what is then in `arg`. -/
theorem executes_cons {c : List Byte} (hc : c ≠ []) {x : Buf 16 ⊕ Unit} {f : Feed} :
    Executes (Feed.world socketfd) (body o socketfd arg) (feedOf (c :: chunks) writes) x f ↔
      x = .inl (arg.put 0 c) ∧ f = feedOf chunks
        (writes ++ [longBytes o (Args.ofMem o (arg.put 0 c)).sum]) := by
  have hpos : ¬ readValue (.ok c) = 0 := mt readValue_ok_eq_zero.mp hc
  rw [body_eq, Feed.executes_read]
  show Executes _ (ite (readValue (.ok c) = 0) _ _) _ _ _ ↔ _
  rw [if_neg hpos, Feed.executes_printf, Feed.executes_write, executes_ret, bytes_resultMem]
  rfl

/-- **What is written.** The loop ends, and for each chunk one sum has been written. -/
theorem reach_done_iff_sums (hne : ∀ c ∈ chunks, c ≠ []) {f : Feed} :
    Reach (Feed.world socketfd) (body o socketfd) (.ret (.inl arg), feedOf chunks writes)
      (.ret (.inr ()), f) ↔
    f = feedOf [] (writes ++ (sums o arg chunks).map (longBytes o)) := by
  induction chunks generalizing arg writes with
  | nil =>
    rw [reach_done_iff, executes_nil]
    constructor
    · rintro (⟨-, rfl⟩ | ⟨s, w, h, -⟩)
      · simp [sums]
      · cases (executes_nil.mp h).1
    · rintro rfl
      exact .inl ⟨rfl, by simp [sums]⟩
  | cons c cs ih =>
    have hc := hne c List.mem_cons_self
    have ih' := @ih (arg.put 0 c) (writes ++ [longBytes o (Args.ofMem o (arg.put 0 c)).sum])
      fun d hd => hne d (List.mem_cons_of_mem c hd)
    rw [List.append_assoc] at ih'
    rw [reach_done_iff, executes_cons hc]
    constructor
    · rintro (⟨h, -⟩ | ⟨s, w, h, hrest⟩)
      · cases h
      · obtain ⟨he, rfl⟩ := (executes_cons hc).mp h
        cases he
        exact ih'.mp hrest
    · intro h
      exact .inr ⟨_, _, (executes_cons hc).mpr ⟨rfl, rfl⟩, ih'.mpr h⟩

/-! ## Framing -/

/-- The function answers these requests, on a connection whose reads return these chunks: it ends,
having written the sum of each request in order, one write for each, and nothing else. -/
def Answers (o : ByteOrder) (socketfd : ℤ) (arg : Buf 16) (requests : List Args)
    (chunks : List (List Byte)) : Prop :=
  ∃ f, Reach (Feed.world socketfd) (body o socketfd) (.ret (.inl arg), feedOf chunks [])
      (.ret (.inr ()), f) ∧ f.writes = requests.map fun a => longBytes o a.sum

/-- Where the requests are answered there are as many chunks as requests. -/
theorem Answers.length_eq {requests : List Args} (hne : ∀ c ∈ chunks, c ≠ [])
    (h : Answers o socketfd arg requests chunks) : chunks.length = requests.length := by
  obtain ⟨f, hreach, hwrites⟩ := h
  rw [reach_done_iff_sums hne] at hreach
  have hlen := congrArg List.length hwrites
  simpa [hreach, feedOf] using hlen

/-- **Framing.** However the requests are cut into the chunks that the reads return, they are
answered if and only if every chunk is a whole request. -/
theorem answers_iff (o : ByteOrder) (socketfd : ℤ) (arg : Buf 16) {requests : List Args}
    {chunks : List (List Byte)} (hcut : chunks.flatten = (requests.map (Args.bytes o)).flatten)
    (hlen : ∀ c ∈ chunks, 0 < c.length ∧ c.length ≤ 16) :
    Answers o socketfd arg requests chunks ↔ ∀ c ∈ chunks, c.length = 16 := by
  have hne : ∀ c ∈ chunks, c ≠ [] := fun c hc => List.ne_nil_of_length_pos (hlen c hc).1
  have hblocks : ∀ c ∈ requests.map (Args.bytes o), c.length = 16 := by
    intro c hc
    obtain ⟨a, -, rfl⟩ := List.mem_map.mp hc
    exact length_bytes o a
  constructor
  · intro h
    refine length_eq_of_length_flatten (fun c hc => (hlen c hc).2) ?_
    rw [hcut, length_flatten_of_length_eq hblocks, List.length_map, h.length_eq hne]
  · intro h
    obtain rfl : chunks = requests.map (Args.bytes o) :=
      eq_of_flatten_eq (by decide) h hblocks hcut
    refine ⟨_, (reach_done_iff_sums hne).mpr rfl, ?_⟩
    rw [sums_bytes, List.map_map]
    rfl

/-- Three requests, each of them in a chunk of its own. -/
theorem answers_iff_whole : Answers .little 4 (Buf.zeros 16) [⟨1, 2⟩, ⟨3, 4⟩, ⟨-1, 2⟩]
    ([⟨1, 2⟩, ⟨3, 4⟩, ⟨-1, 2⟩].map (Args.bytes .little)) := by
  have hlen : ∀ c ∈ [⟨1, 2⟩, ⟨3, 4⟩, ⟨-1, 2⟩].map (Args.bytes .little), c.length = 16 := by
    intro c hc
    obtain ⟨a, -, rfl⟩ := List.mem_map.mp hc
    exact length_bytes .little a
  refine (answers_iff .little 4 (Buf.zeros 16) rfl fun c hc => ?_).mpr hlen
  rw [hlen c hc]
  decide

/-- The request to add 1 and 2, cut between the two numbers, is not answered: there are two answers
to it. -/
theorem not_answers_cut :
    [longBytes .little 1, longBytes .little 2].flatten =
      ([⟨1, 2⟩].map (Args.bytes .little)).flatten ∧
    (∀ c ∈ [longBytes .little 1, longBytes .little 2], 0 < c.length ∧ c.length ≤ 16) ∧
    ¬ Answers .little 4 (Buf.zeros 16) [⟨1, 2⟩] [longBytes .little 1, longBytes .little 2] := by
  refine ⟨rfl, by simp, ?_⟩
  intro h
  have hlen := h.length_eq fun c hc => List.ne_nil_of_length_pos (by
    rcases List.mem_pair.mp hc with rfl | rfl <;> simp)
  simp at hlen

end StrEchoSum

end UnixNetwork
