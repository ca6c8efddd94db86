import UnixNetwork.StrCli02
import UnixNetwork.ForkStrCli
import UnixNetwork.Udp
import UnixNetwork.Interaction.Receives

/-!
# What is printed for a chunk

`dlg_echo`, `str_cli02` and the child of the client with two processes print what they receive as a
string, without having put a NUL behind it. Their buffers are reused and never cleared, so what is
printed ends at the first NUL of the chunk or, if there is none in it, somewhere in what earlier
chunks have left in the buffer, or behind the buffer.

The surroundings return what the calls can really return, and everything is remembered.

## Main definitions

* `Printing`, `Printing.Shows`: what is printed for a chunk at the end of a run
* `Alone`: the text that is printed depends on the chunk alone, and consists of bytes of it

## Main results

* `Printing.exists_put`: what is printed is the buffer with the chunk at its beginning
* `printed_alone_iff`: when the text depends on the chunk alone
-/

namespace UnixNetwork

open Interaction

/-! ## Chunks that are printed -/

section Printing

variable {I : Interface} {σ ρ : Type}

/-- Which calls have received a chunk, and which print an array. -/
structure Printing (I : Interface) where
  /-- The results the surroundings may return. -/
  Feasible : (c : I.Call) → I.Res c → Prop
  /-- The chunk that has been received. -/
  received : Event I → Option (List Byte)
  /-- The contents of the array that is printed as a string. -/
  printed : I.Call → Option (List Byte)

namespace Printing

variable (P : Printing I)

/-- The surroundings. They remember all calls with their results, the last one first. -/
def world : World I (List (Event I)) := ⟨fun _ => P.Feasible, (World.history I).next⟩

/-- At the end of some run of the loop from `start` the chunk `bs` has been received, and the array
`arg` is about to be printed. -/
def Shows (body : σ → Prog I (σ ⊕ ρ)) (start : Prog I (σ ⊕ ρ)) (bs arg : List Byte) : Prop :=
  ∃ e t c k, P.received e = some bs ∧ P.printed c = some arg ∧
    Reach P.world body (start, []) (.call c k, e :: t)

/-- What is asked of a program with a buffer of `n` bytes: it prints what it has received at the
beginning of the buffer. Its behaviour may be undefined. -/
def overlay (n : ℕ) : Guard I (List (Event I)) where
  Call t c := ∀ e t' bs arg, t = e :: t' → P.received e = some bs → P.printed c = some arg →
    ∃ b : Buf n, arg = (b.put 0 bs).toList
  Fault _ := True

variable {P} {n : ℕ} {body : σ → Prog I (σ ⊕ ρ)} {start : Prog I (σ ⊕ ρ)} {bs arg : List Byte}

/-- A call that prints nothing. -/
theorem overlay_of_printed {c : I.Call} (hc : P.printed c = none) (t : List (Event I)) :
    (P.overlay n).Call t c := by
  intro e t' bs arg _ _ harg
  cases hc.symm.trans harg

/-- A call after the last one. -/
theorem overlay_cons {e : Event I} {t : List (Event I)} {c : I.Call}
    (h : ∀ bs arg, P.received e = some bs → P.printed c = some arg →
      ∃ b : Buf n, arg = (b.put 0 bs).toList) : (P.overlay n).Call (e :: t) c := by
  rintro e' t' bs arg he hbs harg
  obtain ⟨rfl, -⟩ := List.cons.inj he
  exact h bs arg hbs harg

/-- What is printed is the buffer with the chunk at its beginning. -/
theorem exists_put (hbody : ∀ s t, wp P.world (P.overlay n) (body s) (fun _ _ => True) t)
    (hstart : wp P.world (P.overlay n) start (fun _ _ => True) [])
    (h : P.Shows body start bs arg) : ∃ b : Buf n, arg = (b.put 0 bs).toList := by
  obtain ⟨e, t, c, k, he, hc, hreach⟩ := h
  have hwp := hreach.wp_post (fun s t _ => hbody s t) hstart
  exact hwp.1 e t bs arg rfl he hc

end Printing

/-- The text that is printed for the chunk is the same in both runs, it ends in the buffer, and it
consists of bytes of the chunk. -/
def Alone (shows₁ shows₂ : List Byte → List Byte → Prop) (bs : List Byte) : Prop :=
  ∀ arg₁ arg₂, shows₁ bs arg₁ → shows₂ bs arg₂ →
    (CString.Terminated arg₁ ∧ CString.str arg₁ <+: bs) ∧
    (CString.Terminated arg₂ ∧ CString.str arg₂ <+: bs) ∧ CString.str arg₁ = CString.str arg₂

/-- The text of a buffer with a NUL in the chunk at its beginning. -/
theorem str_put {n : ℕ} {bs : List Byte} (hlen : bs.length ≤ n) (h0 : 0 ∈ bs) (b : Buf n) :
    CString.Terminated (b.put 0 bs).toList ∧ CString.str (b.put 0 bs).toList = CString.str bs := by
  rw [Buf.toList_put_zero hlen]
  exact ⟨List.mem_append_left _ h0, CString.str_append_of_mem h0 _⟩

/-- When the text depends on the chunk alone, where a chunk without a NUL can be followed by what an
earlier one has left. -/
theorem alone_iff {n : ℕ} {shows₁ shows₂ : List Byte → List Byte → Prop} {bs : List Byte}
    (hlen : bs.length ≤ n) (h₁ : ∀ arg, shows₁ bs arg → ∃ b : Buf n, arg = (b.put 0 bs).toList)
    (h₂ : ∀ arg, shows₂ bs arg → ∃ b : Buf n, arg = (b.put 0 bs).toList)
    (hleak : 0 ∉ bs → (∃ arg, shows₁ bs arg ∧
      ¬ (CString.Terminated arg ∧ CString.str arg <+: bs)) ∧ ∃ arg, shows₂ bs arg) :
    Alone shows₁ shows₂ bs ↔ 0 ∈ bs := by
  constructor
  · intro h
    by_contra h0
    obtain ⟨⟨arg₁, hs₁, hbad⟩, arg₂, hs₂⟩ := hleak h0
    exact hbad (h arg₁ arg₂ hs₁ hs₂).1
  · intro h0 arg₁ arg₂ hs₁ hs₂
    obtain ⟨b₁, rfl⟩ := h₁ arg₁ hs₁
    obtain ⟨b₂, rfl⟩ := h₂ arg₂ hs₂
    obtain ⟨ht₁, he₁⟩ := str_put hlen h0 b₁
    obtain ⟨ht₂, he₂⟩ := str_put hlen h0 b₂
    refine ⟨⟨ht₁, ?_⟩, ⟨ht₂, ?_⟩, he₁.trans he₂.symm⟩
    · rw [he₁]
      exact CString.str_prefix bs
    · rw [he₂]
      exact CString.str_prefix bs

/-- A message that ends at once, and whose other bytes stay in the buffer. -/
def longMessage (n : ℕ) : List Byte := 0 :: List.replicate (n - 1) 1

theorem length_longMessage {n : ℕ} (hn : 0 < n) : (longMessage n).length = n := by
  rw [longMessage, List.length_cons, List.length_replicate]
  omega

/-- A chunk without a NUL in front of what it has left does not end in the buffer. -/
theorem not_terminated_put {n : ℕ} {bs : List Byte} (hlen : bs.length ≤ n) (hne : bs ≠ [])
    (h0 : 0 ∉ bs) (b : Buf n) :
    ¬ CString.Terminated ((b.put 0 (longMessage n)).put 0 bs).toList := by
  have hpos : 0 < bs.length := List.length_pos_iff.mpr hne
  have hlong : (longMessage n).length = n := length_longMessage (by omega)
  have hrest : b.toList.drop n = [] := List.drop_eq_nil_of_le (Vector.length_toList).le
  rw [Buf.toList_put_zero hlen, Buf.toList_put_zero hlong.le, hlong, hrest, List.append_nil]
  intro hmem
  rcases List.mem_append.mp hmem with hmem | hmem
  · exact h0 hmem
  · obtain ⟨m, hm⟩ := Nat.exists_eq_succ_of_ne_zero hpos.ne'
    rw [hm, longMessage, List.drop_succ_cons] at hmem
    have := List.eq_of_mem_replicate (List.mem_of_mem_drop hmem)
    exact absurd this (by decide)

end Printing

/-! ## The datagram server -/

namespace Udp

variable {A : Type}

/-- What the datagram server receives and prints. -/
def printing (A : Type) : Printing (udp A) where
  Feasible
    | .recvfrom _ dst _, .ok x => (x.1.length : ℤ) ≤ dst.len
    | .sendto _ src _ _ _, .ok n => (n : ℤ) ≤ src.len
    | _, _ => True
  received
    | ⟨.recvfrom .., .ok x⟩ => some x.1
    | _ => none
  printed
    | .printfStr _ arg _ => some arg
    | _ => none

theorem overlay_echo (sockfd : ℤ) (len : ℕ) (s : Echo.Locals A) (t : List (Event (udp A))) :
    wp (printing A).world ((printing A).overlay 80) (Echo.body sockfd len s)
      (fun _ _ => True) t := by
  refine ⟨Printing.overlay_of_printed rfl t, fun r _ => ⟨Printing.overlay_cons ?_, fun _ _ => ?_⟩⟩
  · intro bs arg hbs harg
    obtain rfl := Option.some.inj harg
    cases r with
    | ok x =>
      obtain rfl := Option.some.inj hbs
      exact ⟨s.sendline, rfl⟩
    | error e => cases hbs
  · exact ⟨Printing.overlay_of_printed rfl _, fun _ _ => trivial⟩

/-- What is left of a turn once `bs` has been received from `a`. -/
def afterChunk (sockfd : ℤ) (len : ℕ) (s : Echo.Locals A) (bs : List Byte) (a : A) :
    Prog (udp A) (Echo.Locals A ⊕ Empty) :=
  Prog.call (I := udp A)
    (.printfStr (text "recvfrom message: ") (s.sendline.put 0 bs).toList (text "\n")) fun _ =>
      Prog.call (I := udp A)
        (.sendto sockfd (Span.first 80 bs.length) (s.sendline.put 0 bs).toList a len) fun _ =>
          .ret (.inl ⟨s.sendline.put 0 bs, a⟩)

theorem exists_body_eq (sockfd : ℤ) (len : ℕ) (s : Echo.Locals A) :
    ∃ k : Res (.recvfrom sockfd (Span.whole 80) len) → _,
      Echo.body sockfd len s = Prog.call (I := udp A) (.recvfrom sockfd (Span.whole 80) len) k ∧
      ∀ bs a, k (.ok (bs, a)) = afterChunk sockfd len s bs a :=
  ⟨_, rfl, fun _ _ => rfl⟩

variable {sockfd : ℤ} {len : ℕ} {s s' : Echo.Locals A} {t : List (Event (udp A))} {bs : List Byte}

/-- A chunk is received. -/
theorem reach_chunk
    (h : Reach (printing A).world (Echo.body sockfd len) (.ret (.inl s), []) (.ret (.inl s'), t))
    (a : A) (hlen : bs.length ≤ 80) :
    Reach (printing A).world (Echo.body sockfd len) (.ret (.inl s), [])
      (afterChunk sockfd len s' bs a,
        ⟨.recvfrom sockfd (Span.whole 80) len, .ok (bs, a)⟩ :: t) := by
  obtain ⟨k, hbody, hk⟩ := exists_body_eq sockfd len s'
  have hagain := h.tail .again
  rw [hbody] at hagain
  have hrecv := hagain.tail (.call (I := udp A) (c := .recvfrom sockfd (Span.whole 80) len)
    (r := .ok (bs, a)) (Int.ofNat_le.mpr hlen))
  rw [hk] at hrecv
  exact hrecv

/-- The chunk is received at the end of a run. -/
theorem shows_of_reach
    (h : Reach (printing A).world (Echo.body sockfd len) (.ret (.inl s), []) (.ret (.inl s'), t))
    (a : A) (hlen : bs.length ≤ 80) :
    (printing A).Shows (Echo.body sockfd len) (.ret (.inl s)) bs (s'.sendline.put 0 bs).toList :=
  ⟨_, _, _, _, rfl, rfl, reach_chunk h a hlen⟩

/-- A turn that receives a chunk. -/
theorem reach_turn (s : Echo.Locals A) (a : A) (hlen : bs.length ≤ 80) :
    ∃ t, Reach (printing A).world (Echo.body sockfd len)
      (.ret (.inl s), []) (.ret (.inl ⟨s.sendline.put 0 bs, a⟩), t) := by
  have hstart : Reach (printing A).world (Echo.body sockfd len) (.ret (.inl s), [])
      (.ret (.inl s), []) := .refl
  have hprint := (reach_chunk hstart a hlen).tail (.call (r := ()) trivial)
  have hsend := hprint.tail (.call (I := udp A)
    (c := .sendto sockfd (Span.first 80 bs.length) _ a len) (r := .ok bs.length) le_rfl)
  exact ⟨_, hsend⟩

/-- A message without a NUL shows what an earlier one has left. -/
theorem exists_leak (sockfd : ℤ) (len : ℕ) (s : Echo.Locals A) {bs : List Byte}
    (hlen : bs.length ≤ 80) (h0 : 0 ∉ bs) :
    ∃ arg, (printing A).Shows (Echo.body sockfd len) (.ret (.inl s)) bs arg ∧
      ¬ (CString.Terminated arg ∧ CString.str arg <+: bs) := by
  by_cases hne : bs = []
  · -- an empty message leaves the text of the one before
    subst hne
    have htext : ([1] ++ [0] : List Byte).length ≤ 80 := by decide
    have hone : (0 : Byte) ∉ [1] := by decide
    obtain ⟨t, h⟩ := reach_turn s s.clientAddr htext
    refine ⟨_, shows_of_reach h s.clientAddr hlen, ?_⟩
    rintro ⟨-, hpre⟩
    rw [Buf.toList_put_zero hlen, List.nil_append, List.length_nil, List.drop_zero,
      Buf.toList_put_line (by decide), CString.str_append_zero hone] at hpre
    exact absurd (List.prefix_nil.mp hpre) (by decide)
  · have hlong : (longMessage 80).length = 80 := length_longMessage (by decide)
    obtain ⟨t, h⟩ := reach_turn s s.clientAddr hlong.le
    refine ⟨_, shows_of_reach h s.clientAddr hlen, ?_⟩
    rintro ⟨hterm, -⟩
    exact not_terminated_put hlen hne h0 s.sendline hterm

end Udp

/-! ## The client with `select` and lines -/

namespace StrCli02

/-- What the client receives and prints. -/
def printing : Printing stdio where
  Feasible := Stdio.Feasible
  received
    | ⟨.read .., .ok bs⟩ => some bs
    | _ => none
  printed
    | .fputs arg => some arg
    | _ => none

theorem overlay_fromServer (sockfd : ℤ) (s : Locals) (t : List (Event stdio)) :
    wp printing.world (printing.overlay 1024) (fromServer sockfd s) (fun _ _ => True) t := by
  rw [fromServer]
  refine (silent_fdIsSet _ _).wp_bind trivial fun ready => ?_
  split
  · rw [Prog.perform_bind]
    refine ⟨Printing.overlay_of_printed rfl t, fun r _ => ?_⟩
    dsimp only
    split
    · exact ⟨Printing.overlay_of_printed rfl _, fun _ _ => trivial⟩
    · refine ⟨Printing.overlay_cons ?_, fun _ _ => trivial⟩
      intro bs arg hbs harg
      obtain rfl := Option.some.inj harg
      cases r with
      | ok bs' =>
        obtain rfl := Option.some.inj hbs
        exact ⟨s.recvline, rfl⟩
      | error e => cases hbs
  · trivial

theorem overlay_fromFile (fp sockfd : ℤ) (s : Locals) (t : List (Event stdio)) :
    wp printing.world (printing.overlay 1024) (fromFile fp sockfd s) (fun _ _ => True) t := by
  rw [fromFile]
  refine (silent_fdIsSet _ _).wp_bind trivial fun ready => ?_
  split
  · rw [Prog.perform_bind]
    refine ⟨Printing.overlay_of_printed rfl t, fun line _ => ?_⟩
    cases line with
    | none => trivial
    | some line =>
      dsimp only
      generalize s.sendline.put 0 (line ++ [0]) = sendline
      refine (silent_strlen _).wp_bind trivial fun n => ?_
      exact ⟨Printing.overlay_of_printed rfl _, fun _ _ => trivial⟩
  · trivial

theorem overlay_body (fp sockfd : ℤ) (s : Locals) (t : List (Event stdio)) :
    wp printing.world (printing.overlay 1024) (body fp sockfd s) (fun _ _ => True) t := by
  rw [body]
  refine (silent_fdSet _ _).wp_bind trivial fun _ => (silent_fdSet _ _).wp_bind trivial fun _ => ?_
  rw [Prog.perform_bind]
  refine ⟨Printing.overlay_of_printed rfl t, fun sel _ => ?_⟩
  rw [wp_bind]
  refine wp_mono ?_ (overlay_fromServer sockfd _ _)
  rintro (s' | e) t' -
  · exact overlay_fromFile fp sockfd s' t'
  · trivial

/-- What is left of a turn once `bs` has been received. -/
def afterChunk (sockfd : ℤ) (hsock : InRange sockfd) (s : Locals) (bs : List Byte) :
    Prog stdio (Locals ⊕ Exit) :=
  Prog.call (I := stdio) (.fputs (s.recvline.put 0 bs).toList) fun _ =>
    .ret (.inl { s with rset := FdSet.single sockfd hsock, recvline := s.recvline.put 0 bs })

variable {fp sockfd : ℤ} {start : Prog stdio (Locals ⊕ Exit)} {s : Locals}
  {t : List (Event stdio)} {bs : List Byte}

/-- A chunk is received. -/
theorem reach_chunk (hfp : InRange fp) (hsock : InRange sockfd) (hdiff : fp ≠ sockfd)
    (h : Reach printing.world (body fp sockfd) (start, []) (.ret (.inl s), t)) (hne : bs ≠ [])
    (hlen : bs.length ≤ 1024) :
    ∃ t', Reach printing.world (body fp sockfd) (start, [])
      (afterChunk sockfd hsock s bs, ⟨.read sockfd (Span.whole 1024), .ok bs⟩ :: t') := by
  have hagain := h.tail .again
  rw [body_eq hfp hsock] at hagain
  have hmem : sockfd ∈ FdSet.single sockfd hsock := (FdSet.mem_single hsock).mpr rfl
  have hselect := hagain.tail (.call (I := stdio) (c := .select ..)
    (r := Selected.mk 1 (FdSet.single sockfd hsock) FdSet.zero)
    ⟨fun fd hfd => by simp [(FdSet.mem_single hsock).mp hfd], fun _ hfd => hfd⟩)
  rw [fromServer_of_mem hmem, Prog.call_bind] at hselect
  have hread := hselect.tail (.call (I := stdio) (c := .read sockfd (Span.whole 1024))
    (r := .ok bs) (Int.ofNat_le.mpr hlen))
  rw [if_neg (mt readValue_ok_eq_zero.mp hne), Prog.call_bind] at hread
  have hfile : ∀ s' : Locals, s'.rset = FdSet.single sockfd hsock →
      fromFile fp sockfd s' = .ret (.inl s') := by
    intro s' hs'
    refine fromFile_of_notMem hfp ?_
    rw [hs', FdSet.mem_single]
    exact hdiff
  simp only [Prog.ret_bind, Sum.elim_inl, hfile] at hread
  exact ⟨_, hread⟩

/-- A message without a NUL shows what an earlier one has left. -/
theorem exists_leak (hfp : InRange fp) (hsock : InRange sockfd) (hdiff : fp ≠ sockfd)
    (sendline recvline : Buf 1024) (hne : bs ≠ []) (hlen : bs.length ≤ 1024) (h0 : 0 ∉ bs) :
    ∃ arg, printing.Shows (body fp sockfd) (strCli02 sendline recvline) bs arg ∧
      ¬ (CString.Terminated arg ∧ CString.str arg <+: bs) := by
  have hlong : (longMessage 1024).length = 1024 := length_longMessage (by decide)
  have hstart : Reach printing.world (body fp sockfd) (strCli02 sendline recvline, []) _ :=
    .single (.call (r := ()) trivial)
  obtain ⟨t, hfirst⟩ := reach_chunk hfp hsock hdiff hstart
    (List.ne_nil_of_length_eq_add_one hlong) hlong.le
  have hprint := hfirst.tail (.call (r := ()) trivial)
  obtain ⟨t', hsecond⟩ := reach_chunk hfp hsock hdiff hprint hne hlen
  refine ⟨_, ⟨_, _, _, _, rfl, rfl, hsecond⟩, ?_⟩
  rintro ⟨hterm, -⟩
  exact not_terminated_put hlen hne h0 recvline hterm

end StrCli02

/-! ## The child of the client with two processes -/

namespace ForkStrCli

/-- What the child receives and prints. -/
def printing : Printing process where
  Feasible
    | .read _ dst, .ok bs => (bs.length : ℤ) ≤ dst.len
    | .write _ src _, .ok n => (n : ℤ) ≤ src.len
    | .fgets size, some line => line.length < size
    | _, _ => True
  received
    | ⟨.read .., .ok bs⟩ => some bs
    | _ => none
  printed
    | .fputs arg => some arg
    | _ => none

theorem overlay_body (sockfd : ℤ) (s : Locals) (t : List (Event process)) :
    wp printing.world (printing.overlay 1024) (body sockfd s) (fun _ _ => True) t := by
  cases s with
  | start sendLine recvline =>
    refine ⟨Printing.overlay_of_printed rfl t, fun r _ => ?_⟩
    show wp _ _ (if countValue r = 0 then _ else _) _ _
    split <;> trivial
  | child recvline =>
    refine ⟨Printing.overlay_of_printed rfl t, fun r _ => ?_⟩
    show wp _ _ (if readValue r > 0 then _ else _) _ _
    split
    · refine ⟨Printing.overlay_cons ?_, fun _ _ => trivial⟩
      intro bs arg hbs harg
      obtain rfl := Option.some.inj harg
      cases r with
      | ok bs' =>
        obtain rfl := Option.some.inj hbs
        exact ⟨recvline, rfl⟩
      | error e => cases hbs
    · refine ⟨Printing.overlay_of_printed rfl _, fun _ _ => ?_⟩
      exact ⟨Printing.overlay_of_printed rfl _, fun _ _ => trivial⟩
  | parent sendLine =>
    rw [body, Prog.perform_bind]
    refine ⟨Printing.overlay_of_printed rfl t, fun line _ => ?_⟩
    cases line with
    | none =>
      refine ⟨Printing.overlay_of_printed rfl _, fun _ _ => ?_⟩
      exact ⟨Printing.overlay_of_printed rfl _, fun _ _ => trivial⟩
    | some line =>
      dsimp only
      generalize sendLine.put 0 (line ++ [0]) = sendLine
      refine (silent_strlen _).wp_bind trivial fun n => ?_
      exact ⟨Printing.overlay_of_printed rfl _, fun _ _ => trivial⟩

/-- What is left of a turn of the child once `bs` has been received. -/
def afterChunk (recvline : Buf 1024) (bs : List Byte) : Prog process (Locals ⊕ Unit) :=
  Prog.call (I := process) (.fputs (recvline.put 0 bs).toList) fun _ =>
    .ret (.inl (.child (recvline.put 0 bs)))

theorem exists_child_eq (sockfd : ℤ) (recvline : Buf 1024) :
    ∃ k : Res (.read sockfd (Span.whole 1024)) → _,
      body sockfd (.child recvline) = Prog.call (I := process) (.read sockfd (Span.whole 1024)) k ∧
      ∀ bs ≠ [], k (.ok bs) = afterChunk recvline bs := by
  refine ⟨_, rfl, fun bs hne => ?_⟩
  have hpos : readValue (.ok bs) > 0 := by
    have := List.length_pos_iff.mpr hne
    rw [readValue_ok]
    omega
  show (if readValue (.ok bs) > 0 then _ else _) = _
  rw [if_pos hpos]
  rfl

variable {sockfd : ℤ} {start : Prog process (Locals ⊕ Unit)} {recvline : Buf 1024}
  {t : List (Event process)} {bs : List Byte}

/-- A chunk is received. -/
theorem reach_chunk
    (h : Interaction.Reach printing.world (body sockfd) (start, [])
      (.ret (.inl (.child recvline)), t)) (hne : bs ≠ []) (hlen : bs.length ≤ 1024) :
    Interaction.Reach printing.world (body sockfd) (start, [])
      (afterChunk recvline bs, ⟨.read sockfd (Span.whole 1024), .ok bs⟩ :: t) := by
  obtain ⟨k, hbody, hk⟩ := exists_child_eq sockfd recvline
  have hagain := h.tail .again
  rw [hbody] at hagain
  have hread := hagain.tail (.call (I := process) (c := .read sockfd (Span.whole 1024))
    (r := .ok bs) (Int.ofNat_le.mpr hlen))
  rw [hk bs hne] at hread
  exact hread

/-- A message without a NUL shows what an earlier one has left. -/
theorem exists_leak (sockfd : ℤ) (sendLine recvline : Buf 1024) (hne : bs ≠ [])
    (hlen : bs.length ≤ 1024) (h0 : 0 ∉ bs) :
    ∃ arg, printing.Shows (body sockfd) (.ret (.inl (.start sendLine recvline))) bs arg ∧
      ¬ (CString.Terminated arg ∧ CString.str arg <+: bs) := by
  have hlong : (longMessage 1024).length = 1024 := length_longMessage (by decide)
  have hfork : Interaction.Reach printing.world (body sockfd)
      (.ret (.inl (.start sendLine recvline)), [])
      (.ret (.inl (.child recvline)), [⟨.fork, .ok 0⟩]) :=
    .tail (.single .again) (.call (I := process) (c := .fork) (r := .ok 0) trivial)
  have hfirst := reach_chunk hfork (List.ne_nil_of_length_eq_add_one hlong) hlong.le
  have hsecond := reach_chunk (hfirst.tail (.call (r := ()) trivial)) hne hlen
  refine ⟨_, ⟨_, _, _, _, rfl, rfl, hsecond⟩, ?_⟩
  rintro ⟨hterm, -⟩
  exact not_terminated_put hlen hne h0 recvline hterm

end ForkStrCli

/-! ## All three -/

/-- **When the text depends on the chunk alone.** In any two runs of one of the three programs, with
whatever buffers they start and whatever has been received before, the same text is printed for the
chunk, and it consists of bytes of the chunk, if and only if there is a NUL in the chunk. -/
theorem printed_alone_iff (fp sockfd : ℤ) (len : ℕ) (A : Type) (bs : List Byte) :
    (bs.length ≤ 80 → ∀ s₁ s₂ : Udp.Echo.Locals A,
      (Alone ((Udp.printing A).Shows (Udp.Echo.body sockfd len) (.ret (.inl s₁)))
        ((Udp.printing A).Shows (Udp.Echo.body sockfd len) (.ret (.inl s₂))) bs ↔ 0 ∈ bs)) ∧
    (InRange fp → InRange sockfd → fp ≠ sockfd → bs ≠ [] → bs.length ≤ 1024 →
      ∀ send₁ recv₁ send₂ recv₂ : Buf 1024,
      (Alone (StrCli02.printing.Shows (StrCli02.body fp sockfd) (StrCli02.strCli02 send₁ recv₁))
        (StrCli02.printing.Shows (StrCli02.body fp sockfd) (StrCli02.strCli02 send₂ recv₂)) bs ↔
          0 ∈ bs)) ∧
    (bs ≠ [] → bs.length ≤ 1024 → ∀ send₁ recv₁ send₂ recv₂ : Buf 1024,
      (Alone (ForkStrCli.printing.Shows (ForkStrCli.body sockfd)
          (.ret (.inl (.start send₁ recv₁))))
        (ForkStrCli.printing.Shows (ForkStrCli.body sockfd)
          (.ret (.inl (.start send₂ recv₂)))) bs ↔ 0 ∈ bs)) := by
  refine ⟨?_, ?_, ?_⟩
  · intro hlen s₁ s₂
    refine alone_iff hlen (fun arg h => ?_) (fun arg h => ?_) fun h0 => ⟨?_, ?_⟩
    · exact Printing.exists_put (Udp.overlay_echo sockfd len) (by trivial) h
    · exact Printing.exists_put (Udp.overlay_echo sockfd len) (by trivial) h
    · exact Udp.exists_leak sockfd len s₁ hlen h0
    · exact (Udp.exists_leak sockfd len s₂ hlen h0).imp fun _ h => h.1
  · intro hfp hsock hdiff hne hlen send₁ recv₁ send₂ recv₂
    have hstart : ∀ send recv : Buf 1024, wp StrCli02.printing.world
        (StrCli02.printing.overlay 1024) (StrCli02.strCli02 send recv) (fun _ _ => True) [] :=
      fun _ _ => ⟨Printing.overlay_of_printed rfl _, fun _ _ => trivial⟩
    refine alone_iff hlen (fun arg h => ?_) (fun arg h => ?_) fun h0 => ⟨?_, ?_⟩
    · exact Printing.exists_put (StrCli02.overlay_body fp sockfd) (hstart _ _) h
    · exact Printing.exists_put (StrCli02.overlay_body fp sockfd) (hstart _ _) h
    · exact StrCli02.exists_leak hfp hsock hdiff send₁ recv₁ hne hlen h0
    · exact (StrCli02.exists_leak hfp hsock hdiff send₂ recv₂ hne hlen h0).imp fun _ h => h.1
  · intro hne hlen send₁ recv₁ send₂ recv₂
    refine alone_iff hlen (fun arg h => ?_) (fun arg h => ?_) fun h0 => ⟨?_, ?_⟩
    · exact Printing.exists_put (ForkStrCli.overlay_body sockfd) (by trivial) h
    · exact Printing.exists_put (ForkStrCli.overlay_body sockfd) (by trivial) h
    · exact ForkStrCli.exists_leak sockfd send₁ recv₁ hne hlen h0
    · exact (ForkStrCli.exists_leak sockfd send₂ recv₂ hne hlen h0).imp fun _ h => h.1

/-- A message that ends with a NUL. -/
theorem printed_alone_iff_nul :
    Alone ((Udp.printing Unit).Shows (Udp.Echo.body 3 16) (.ret (.inl ⟨Buf.zeros 80, ()⟩)))
      ((Udp.printing Unit).Shows (Udp.Echo.body 3 16) (.ret (.inl ⟨Buf.zeros 80, ()⟩)))
      [104, 105, 0] ∧
    Alone (StrCli02.printing.Shows (StrCli02.body 0 3)
        (StrCli02.strCli02 (Buf.zeros 1024) (Buf.zeros 1024)))
      (StrCli02.printing.Shows (StrCli02.body 0 3)
        (StrCli02.strCli02 (Buf.zeros 1024) (Buf.zeros 1024))) [104, 105, 0] ∧
    Alone (ForkStrCli.printing.Shows (ForkStrCli.body 3)
        (.ret (.inl (.start (Buf.zeros 1024) (Buf.zeros 1024)))))
      (ForkStrCli.printing.Shows (ForkStrCli.body 3)
        (.ret (.inl (.start (Buf.zeros 1024) (Buf.zeros 1024))))) [104, 105, 0] := by
  obtain ⟨hudp, hcli, hfork⟩ := printed_alone_iff 0 3 16 Unit [104, 105, 0]
  refine ⟨(hudp (by decide) _ _).mpr (by decide), ?_, ?_⟩
  · exact (hcli (by decide) (by decide) (by decide) (by decide) (by decide) _ _ _ _).mpr (by decide)
  · exact (hfork (by decide) (by decide) _ _ _ _).mpr (by decide)

/-- The end of one client's message is printed behind another one's. -/
theorem not_alone_secret :
    (∃ arg, (Udp.printing Unit).Shows (Udp.Echo.body 3 16) (.ret (.inl ⟨Buf.zeros 80, ()⟩))
      (text "hi") arg ∧ CString.str arg = text "hicret") ∧
    ¬ Alone ((Udp.printing Unit).Shows (Udp.Echo.body 3 16) (.ret (.inl ⟨Buf.zeros 80, ()⟩)))
      ((Udp.printing Unit).Shows (Udp.Echo.body 3 16) (.ret (.inl ⟨Buf.zeros 80, ()⟩)))
      (text "hi") := by
  have hlen : (text "hi").length ≤ 80 := by decide
  have hsecret : (text "secret" ++ [0]).length ≤ 80 := by decide
  obtain ⟨t, h⟩ := Udp.reach_turn (⟨Buf.zeros 80, ()⟩ : Udp.Echo.Locals Unit) () hsecret
  have hshown := Udp.shows_of_reach h () hlen
  have hstr : CString.str
      (((Buf.zeros 80).put 0 (text "secret" ++ [0])).put 0 (text "hi")).toList = text "hicret" := by
    rw [Buf.toList_put_zero hlen, Buf.toList_put_line (by decide)]
    have hrest : ∀ l, (text "secret" ++ 0 :: l).drop (text "hi").length = text "cret" ++ 0 :: l :=
      fun _ => rfl
    rw [hrest, ← List.append_assoc]
    exact CString.str_append_zero (by decide) _
  refine ⟨⟨_, hshown, hstr⟩, fun halone => ?_⟩
  have hpre := (halone _ _ hshown hshown).1.2
  rw [hstr] at hpre
  exact absurd hpre.length_le (by decide)

end UnixNetwork
