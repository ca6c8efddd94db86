import UnixNetwork.Posix
import UnixNetwork.Encoding.Chunks
import UnixNetwork.Interaction.Live

/-!
# The daytime client

The loop of `main` of `01/01-client.c`. It prints what it reads chunk by chunk, and of each chunk
only what stands before its first colon. Where a chunk begins and ends is not up to the server, so
the text that is printed for one reply is not always the same.

## Main definitions

* `Daytime.strchr`, `Daytime.cut`, `Daytime.body`: the program
* `Daytime.Terminal`, `Daytime.world`: a connection that brings given chunks, and a terminal
* `Daytime.Uniform`: what is printed does not depend on how the reply is cut

## Main results

* `Daytime.wp_turn`: what one turn prints
* `Daytime.uniform_iff`: when the text does not depend on how the reply is cut
-/

namespace UnixNetwork

namespace Daytime

open Interaction Encoding

variable {n : ℕ}

/-! ## The program -/

/-- `':'`. -/
def colon : Byte := 58

/-- The calls of the loop. -/
inductive Call where
  | read (fd : ℤ) (dst : Span)
  | fputs (arg : List Byte)
  | perror (text : List Byte)

/-- The result of each call. `fputs` says whether it has returned `EOF`. -/
@[reducible] def Res : Call → Type
  | .read .. => Except Errno (List Byte)
  | .fputs _ => Bool
  | .perror _ => Unit

/-- The interface of the client. -/
abbrev daytime : Interface := ⟨Call, Res⟩

/-- `strchr` of what an array holds, for a `c` other than NUL: the index of the first `c`. -/
def strchr (b : Buf n) (c : Byte) : Prog daytime (Option ℕ) :=
  if CString.Terminated b.toList then
    .ret (if c ∈ CString.str b.toList then some ((CString.str b.toList).idxOf c) else none)
  else .fault

/-- `if(strchr(recvline,':')) *strchr(recvline,':')='\0';`. -/
def cut (recvline : Buf 81) : Prog daytime (Buf 81) := do
  match ← strchr recvline colon with
  | none => return recvline
  | some _ =>
    match ← strchr recvline colon with
    | none => .fault
    | some i => store recvline i 0

/-- One turn of the loop, and what follows it once it is left. -/
def body (sockfd : ℤ) (recvline : Buf 81) : Prog daytime (Buf 81 ⊕ Unit) := do
  let r ← Prog.perform (I := daytime) (.read sockfd (Span.first 81 80))
  let n := readValue r
  let recvline := recvline.put 0 (readBytes r)
  if n > 0 then do
    let recvline ← storeAt recvline n 0
    let recvline ← cut recvline
    let eof ← Prog.perform (I := daytime) (.fputs recvline.toList)
    if eof then do
      let _ ← Prog.perform (I := daytime) (.perror (text "fputs error"))
      return .inl recvline
    else return .inl recvline
  else if n < 0 then do
    let _ ← Prog.perform (I := daytime) (.perror (text "read error"))
    return .inr ()
  else return .inr ()

/-! ## The connection and the terminal -/

/-- The chunks the reads to come will return, and what has been printed. -/
structure Terminal where
  /-- The chunks to come. After the last one every read returns the end of the stream. -/
  reads : List (List Byte)
  /-- The text on the standard output. -/
  printed : List Byte

section World

variable (sockfd : ℤ)

/-- What the calls return. The standard output takes what it is given. -/
def Allows (w : Terminal) : (c : Call) → Res c → Prop
  | .read fd _, r => fd = sockfd ∧ r = .ok (w.reads.headD [])
  | .fputs _, r => r = false
  | .perror _, _ => True

/-- The terminal after a call. -/
def next (w : Terminal) : (c : Call) → Res c → Terminal
  | .read .., _ => { w with reads := w.reads.tail }
  | .fputs arg, _ => { w with printed := w.printed ++ CString.str arg }
  | .perror _, _ => w

/-- The surroundings of the client. -/
def world : World daytime Terminal := ⟨Allows sockfd, next⟩

/-- A run of the loop on these chunks; `recvline` is not initialised. -/
abbrev Run (recvline : Buf 81) (cs : List (List Byte)) :
    Prog daytime (Buf 81 ⊕ Unit) × Terminal → Prop :=
  Reach (world sockfd) (body sockfd) (.ret (.inl recvline), ⟨cs, []⟩)

end World

/-- The call stays inside the array it is handed. -/
def InBounds : Call → Prop
  | .read _ dst => dst.InBounds
  | .fputs arg => CString.Terminated arg
  | .perror _ => True

/-- What is printed for the reply `s` does not depend on how it is cut into chunks. -/
structure Uniform (sockfd : ℤ) (s : List Byte) : Prop where
  /-- Nothing outside the array is accessed. -/
  safe : ∀ b cs, Cutting 80 s cs → ∀ p w, Run sockfd b cs (p, w) → p.Within InBounds
  /-- The loop can be left at any time. -/
  left : ∀ b cs, Cutting 80 s cs → ∀ p w, Run sockfd b cs (p, w) →
    ∃ w', Reach (world sockfd) (body sockfd) (p, w) (.ret (.inr ()), w')
  /-- The text that has been printed when it is left is the same each time. -/
  printed : ∀ b b' cs cs' w w', Cutting 80 s cs → Cutting 80 s cs' →
    Run sockfd b cs (.ret (.inr ()), w) → Run sockfd b' cs' (.ret (.inr ()), w') →
    w.printed = w'.printed

/-! ## A turn -/

/-- What is printed of a chunk. -/
def shown (bs : List Byte) : List Byte := bs.takeWhile (· ≠ colon)

theorem shown_eq_take (s : List Byte) : shown s = s.take (s.idxOf colon) := by
  rw [shown, List.takeWhile_eq_take_findIdx_not, List.idxOf]
  refine congrArg (fun i => s.take i) (congrArg (fun p => s.findIdx p) (funext fun b => ?_))
  simp [beq_eq_decide]

/-- What stands before the first colon is left. -/
theorem exists_cut_eq {recvline : Buf 81} (h : CString.Terminated recvline.toList) :
    ∃ b, cut recvline = .ret b ∧ CString.Terminated b.toList ∧
      CString.str b.toList = shown (CString.str recvline.toList) := by
  rw [cut, strchr, if_pos h]
  by_cases hc : colon ∈ CString.str recvline.toList
  · have hidx := List.idxOf_lt_length_of_mem hc
    have hlt : (CString.str recvline.toList).idxOf colon < 81 :=
      hidx.trans_le ((CString.length_str_le _).trans Vector.length_toList.le)
    rw [if_pos hc, Prog.ret_bind]
    refine ⟨_, store_of_lt hlt 0, ?_, ?_⟩
    · rw [Vector.toList_set]
      exact List.mem_set (by simpa using hlt) _
    · rw [Vector.toList_set, CString.str_set hidx, shown_eq_take]
  · rw [if_neg hc, Prog.ret_bind]
    refine ⟨recvline, rfl, h, (List.takeWhile_eq_self_iff.mpr fun b hb => ?_).symm⟩
    exact decide_eq_true fun hbc => hc (hbc ▸ hb)

/-- The calls of a turn. -/
theorem exists_body_eq (sockfd : ℤ) (recvline : Buf 81) :
    ∃ k : Except Errno (List Byte) → _,
      body sockfd recvline = Prog.call (I := daytime) (.read sockfd (Span.first 81 80)) k ∧
      k (.ok []) = .ret (.inr ()) ∧
      ∀ bs ≠ [], bs.length ≤ 80 → 0 ∉ bs → ∃ (b : Buf 81) (k' : Bool → _),
        k (.ok bs) = Prog.call (I := daytime) (.fputs b.toList) k' ∧ k' false = .ret (.inl b) ∧
        CString.Terminated b.toList ∧ CString.str b.toList = shown bs := by
  rw [body, Prog.perform_bind]
  refine ⟨_, rfl, rfl, fun bs hne hlen h0 => ?_⟩
  have hlt : bs.length < 81 := Nat.lt_succ_of_le hlen
  have hpos : (bs.length : ℤ) > 0 := Int.natCast_pos.mpr (List.length_pos_iff.mpr hne)
  have hmem := Buf.toList_put_set recvline hlt
  obtain ⟨b, hcut, hterm, hstr⟩ := exists_cut_eq (hmem ▸ CString.terminated_append_zero bs _)
  rw [hmem, CString.str_append_zero h0] at hstr
  refine ⟨b, fun eof => if eof then Prog.call (I := daytime) (.perror (text "fputs error"))
    fun _ => .ret (.inl b) else .ret (.inl b), ?_, rfl, hterm, hstr⟩
  dsimp only [readValue_ok, readBytes_ok]
  rw [if_pos hpos, storeAt_of_lt hlt, Prog.ret_bind, hcut]
  rfl

section Turn

variable (sockfd : ℤ)

/-- At the head of the loop: what has been printed, and what will be for the chunks to come. -/
structure Inv (out : List Byte) (w : Terminal) : Prop where
  /-- The text. -/
  out : w.printed ++ w.reads.flatMap shown = out
  /-- The chunks to come fit into the array and have no NUL in them. -/
  reads : ∀ bs ∈ w.reads, bs ≠ [] ∧ bs.length ≤ 80 ∧ 0 ∉ bs

/-- **A turn** prints what stands before the first colon of a chunk, or is the last one. -/
theorem wp_turn {out : List Byte} (b : Buf 81) (w : Terminal) (hw : Inv out w) :
    wp (world sockfd) (Guard.within (world sockfd) InBounds) (body sockfd b)
      (Sum.elim (fun _ w' => Inv out w' ∧ w'.reads.length < w.reads.length)
        fun _ w' => w'.printed = out) w := by
  obtain ⟨k, hbody, hend, hchunk⟩ := exists_body_eq sockfd b
  have hread : (Span.first 81 80).InBounds := by decide
  obtain ⟨reads, printed⟩ := w
  rw [hbody]
  refine ⟨⟨hread, _, rfl, rfl⟩, ?_⟩
  rintro r ⟨-, rfl⟩
  cases reads with
  | nil =>
    rw [List.headD_nil, hend]
    have hout := hw.out
    rwa [List.flatMap_nil, List.append_nil] at hout
  | cons bs reads =>
    obtain ⟨hne, hlen, h0⟩ := hw.reads bs List.mem_cons_self
    obtain ⟨b', k', hk, hk', hterm, hstr⟩ := hchunk bs hne hlen h0
    rw [List.headD_cons, hk]
    refine ⟨⟨hterm, _, rfl⟩, ?_⟩
    rintro r rfl
    rw [hk']
    refine ⟨⟨?_, fun bs' hbs' => hw.reads bs' (List.mem_cons_of_mem bs hbs')⟩, Nat.lt_succ_self _⟩
    show (printed ++ CString.str b'.toList) ++ reads.flatMap shown = out
    rw [hstr, List.append_assoc]
    exact hw.out

end Turn

/-! ## A reply -/

section Reply

variable {sockfd : ℤ} {s : List Byte} {b : Buf 81} {cs : List (List Byte)}

theorem inv_start (h0 : 0 ∉ s) (hcs : Cutting 80 s cs) : Inv (cs.flatMap shown) ⟨cs, []⟩ := by
  refine ⟨rfl, fun bs hbs => ?_⟩
  obtain ⟨hpos, hle⟩ := hcs.length bs hbs
  exact ⟨List.length_pos_iff.mp hpos, hle,
    fun h => h0 (hcs.flatten ▸ List.mem_flatten_of_mem hbs h)⟩

/-- **What is printed** for a reply that arrives in these chunks. -/
theorem wp_run (h0 : 0 ∉ s) (hcs : Cutting 80 s cs) {p : Prog daytime (Buf 81 ⊕ Unit)}
    {w : Terminal} (h : Run sockfd b cs (p, w)) :
    wp (world sockfd) (Guard.within (world sockfd) InBounds) p
      (Sum.elim (fun _ => Inv (cs.flatMap shown)) fun _ w' => w'.printed = cs.flatMap shown) w :=
  Reach.wp_of_lt (μ := fun _ w => w.reads.length) (fun b w hw => wp_turn sockfd b w hw) h
    (inv_start h0 hcs)

/-- Every reply is printed. -/
theorem exists_printed (sockfd : ℤ) (h0 : 0 ∉ s) (hcs : Cutting 80 s cs) (b : Buf 81) :
    ∃ w, Run sockfd b cs (.ret (.inr ()), w) ∧ w.printed = cs.flatMap shown := by
  obtain ⟨_, w, hrun, hw⟩ := (Guard.live_within (world sockfd) InBounds).exists_done
    (μ := fun _ w => w.reads.length) (fun b w hw => wp_turn sockfd b w hw) (s := b)
    (inv_start h0 hcs)
  exact ⟨w, hrun, hw⟩

/-- **The text does not depend on how the reply is cut** if and only if nothing but colons comes
after its first colon. -/
theorem uniform_iff (sockfd : ℤ) {s : List Byte} (h0 : 0 ∉ s) :
    Uniform sockfd s ↔ s.Pairwise fun a b => a = colon → b = colon := by
  have huncut : Uncut 80 shown s ↔ s.Pairwise fun a b => a = colon → b = colon := by
    refine (uncut_takeWhile_iff (by decide)).trans (List.Pairwise.iff fun a b => ?_)
    simp [not_imp_not]
  rw [← huncut]
  constructor
  · intro h cs cs' hcs hcs'
    obtain ⟨w, hrun, hw⟩ := exists_printed sockfd h0 hcs (Buf.zeros 81)
    obtain ⟨w', hrun', hw'⟩ := exists_printed sockfd h0 hcs' (Buf.zeros 81)
    rw [← hw, ← hw']
    exact h.printed _ _ cs cs' w w' hcs hcs' hrun hrun'
  · intro h
    refine ⟨?_, ?_, ?_⟩
    · intro b cs hcs p w hrun
      exact Prog.within_of_wp (wp_run h0 hcs hrun)
    · intro b cs hcs p w hrun
      obtain ⟨_, w', hend⟩ := (Guard.live_within (world sockfd) InBounds).returns
        (μ := fun _ w => w.reads.length) (fun b w hw => wp_turn sockfd b w hw) (inv_start h0 hcs)
        hrun
      exact ⟨w', hend⟩
    · intro b b' cs cs' w w' hcs hcs' hrun hrun'
      have hw : w.printed = cs.flatMap shown := wp_run h0 hcs hrun
      have hw' : w'.printed = cs'.flatMap shown := wp_run h0 hcs' hrun'
      rw [hw, hw', h cs cs' hcs hcs']

end Reply

theorem uniform_iff_date : Uniform 3 (text "30 JUN 1993\r\n") ↔
    (text "30 JUN 1993\r\n").Pairwise fun a b => a = colon → b = colon :=
  uniform_iff 3 (by decide)

/-- A reply of the server. -/
def reply : List Byte := text "Wed Jun 30 21:49:08 1993\r\n"

/-- The reply as one chunk, and byte by byte. -/
theorem not_uniform_reply : 0 ∉ reply ∧ ¬ Uniform 3 reply := by
  have h0 : 0 ∉ reply := by decide
  refine ⟨h0, fun h => ?_⟩
  have hlen : 1 ≤ reply.length ∧ reply.length ≤ 80 := by decide
  have hone := cutting_singleton hlen
  have hbytes := cutting_map_singleton (by decide : 0 < 80) reply
  obtain ⟨w, hrun, hw⟩ := exists_printed 3 h0 hone (Buf.zeros 81)
  obtain ⟨w', hrun', hw'⟩ := exists_printed 3 h0 hbytes (Buf.zeros 81)
  have hne : [reply].flatMap shown ≠ (reply.map ([·])).flatMap shown := by decide
  rw [← hw, ← hw'] at hne
  exact hne (h.printed _ _ _ _ w w' hone hbytes hrun hrun')

end Daytime

end UnixNetwork
