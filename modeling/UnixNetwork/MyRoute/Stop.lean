import UnixNetwork.MyRoute.Dump
import UnixNetwork.MyRoute.Inspection
import Mathlib.Data.List.TakeWhile

/-!
# Where the receive loop stops

Behind the loop over the messages of a reply, `query_route_table` reads `nlh->nlmsg_type` once more
to find out whether that loop has been left at an `NLMSG_DONE`. If it has not, `nlh` stands where no
message does: at the end of what has been received, behind it, or at a message that is cut off. The
two bytes of the type may then belong to the request, to an earlier reply, or to nothing that has
ever been written.

The replies are arbitrary bytes of any length that the `iovec` has room for.

## Main definitions

* `MyRoute.HasDone`: a message of the type `NLMSG_DONE` lies in the bytes received
* `MyRoute.receiving`: the surroundings, with the result of the last `recvmsg`
* `MyRoute.Ended`: the loop is to end after that result
* `MyRoute.Decided`: the bytes received decide whether it does

## Main results

* `wp_body_iff`: one turn of the receive loop
* `ended_iff`: in every run whose replies are decided, the loop ends where it is to end
-/

namespace UnixNetwork

namespace MyRoute

open Interaction Encoding Inspection

/-! ## When the loop is to end -/

/-- A message of the type `NLMSG_DONE` lies in the bytes. -/
def HasDone (o : ByteOrder) (bs : List Byte) : Prop :=
  ∃ m ∈ (messageFraming o).records bs, msgType o m = nlmsgDone

/-- The loop is to end after the last result of `recvmsg`. -/
def Ended (o : ByteOrder) : Option (Except Errno (List Byte)) → Prop
  | none => False
  | some (.error _) => True
  | some (.ok bs) => HasDone o bs

/-- The surroundings. `recvmsg` fails, or it stores some bytes, of which `C` holds and for which
there is room. -/
def receiving (C : List Byte → Prop) : World netlink (Option (Except Errno (List Byte))) where
  Allows _
    | .recvmsg _ dst, .ok bs => bs.length ≤ dst.len ∧ C bs
    | _, _ => True
  next w
    | .recvmsg .., r => some r
    | _, _ => w

/-- Nothing undefined is done. -/
def defined {S : Type} : Guard netlink S := ⟨fun _ _ => True, fun _ => False⟩

/-- Where `nlh` stands behind the loop over the messages. -/
def stop (o : ByteOrder) (bs : List Byte) : ℕ := (messageFraming o).extent (handled o bs)

/-- The bytes decide whether the loop ends: there is an `NLMSG_DONE` in them, or so much of the type
where `nlh` stands that it cannot be one, whatever follows. -/
def Decided (o : ByteOrder) (bs : List Byte) : Prop :=
  HasDone o bs ∨ ∀ t : List Byte, t.length = 2 → bytesAt bs (stop o bs + 4) 2 <+: t →
    o.decode t ≠ nlmsgDone

/-- Whatever the buffer holds when these bytes are received, the turn does nothing undefined, and it
is the last one if and only if it is to be. -/
def StopsRight (o : ByteOrder) (s : Locals) (bs : List Byte) : Prop :=
  ∀ buffer, wp (receiving (· = bs)) defined (body o ⟨s.sockfd, buffer, s.iov⟩)
    (fun x w => x = .inr () ↔ Ended o w) none

/-! ## The loop over the messages -/

section Messages

variable {o : ByteOrder} {C : List Byte → Prop} {b : Buf sizeofBuffer}
  {w : Option (Except Errno (List Byte))}

/-- The loop over the messages ends behind those that are handled. -/
theorem wp_messages {nlh : ℕ} {k : ℤ} (hk : 0 < k → nlh + k ≤ sizeofBuffer)
    {Q : ℕ → Option (Except Errno (List Byte)) → Prop} :
    wp (receiving C) defined (messages o b nlh k) Q w ↔
      Q (nlh + (messageFraming o).extent (handled o (bytesAt b.toList nlh k.toNat))) w := by
  induction hj : k.toNat using Nat.strong_induction_on generalizing nlh k with
  | _ j ih =>
  subst hj
  by_cases h16 : k < 16
  · rw [messages_of_lt h16, wp_ret, handled_of_lt h16]
    rfl
  have h16 : 16 ≤ k := not_lt.mp h16
  have hk := hk (by omega)
  have hroom : nlh + k ≤ b.toList.length := by
    rw [Vector.length_toList]
    exact hk
  have hquiet : ∀ P : Prop, True ∧ (∀ _ : Unit, True → P) ↔ P := fun P => by simp
  rw [messages_of_le h16 (by omega)]
  by_cases hok : 16 ≤ lenAt o b nlh ∧ (lenAt o b nlh : ℤ) ≤ k
  · have hlenAt : o.decode (bytesAt b.toList nlh 4) = lenAt o b nlh := rfl
    rw [if_pos hok, handled_of_le hlenAt hroom hok]
    generalize lenAt o b nlh = len at hok
    have halign := le_nlmsgAlign len
    have hlen : (bytesAt b.toList nlh len).length = len := length_bytesAt (by omega)
    have htype : typeAt o b nlh = msgType o (bytesAt b.toList nlh len) :=
      (msgType_bytesAt o b.toList nlh (by omega)).symm
    rw [htype]
    split
    · rw [Framing.extent_nil, Nat.add_zero]
      exact hquiet (Q nlh w)
    · have hrest : wp (receiving C) defined
          (messages o b (nlh + nlmsgAlign len) (k - nlmsgAlign len)) Q w ↔ _ :=
        ih _ (by omega) (by omega) rfl
      rw [Framing.extent_cons, hlen, ← Nat.add_assoc]
      exact (hquiet (wp _ _ (messages o b _ _) Q w)).trans hrest
  · rw [if_neg hok, wp_ret, handled_of_not hroom h16 hok]
    rfl

end Messages

/-! ## What stands behind them -/

section Behind

variable {o : ByteOrder} {bs : List Byte}

theorem four_dvd_extent (o : ByteOrder) (rs : List (List Byte)) :
    4 ∣ (messageFraming o).extent rs := by
  induction rs with
  | nil => exact dvd_zero 4
  | cons r rs ih =>
    rw [Framing.extent_cons]
    exact (Dvd.intro_left _ rfl).add ih

/-- If there is an `NLMSG_DONE`, then `nlh` stands at the first one. -/
theorem of_hasDone (h : HasDone o bs) :
    stop o bs + 6 ≤ bs.length ∧ o.decode (bytesAt bs (stop o bs + 4) 2) = nlmsgDone := by
  have hne : ((messageFraming o).records bs).dropWhile (fun m => msgType o m ≠ nlmsgDone) ≠ [] := by
    obtain ⟨m, hm, hdone⟩ := h
    intro hnil
    exact absurd hdone (by simpa using List.dropWhile_eq_nil_iff.mp hnil m hm)
  obtain ⟨m, ms, hms⟩ := List.exists_cons_of_ne_nil hne
  have hsplit : (messageFraming o).records bs = handled o bs ++ m :: ms := by
    rw [← hms, handled, List.takeWhile_append_dropWhile]
  have hdone : msgType o m = nlmsgDone := by
    have hhead := List.head_dropWhile_not (fun m => decide (msgType o m ≠ nlmsgDone)) hne
    simp only [hms, List.head_cons] at hhead
    exact of_not_not (of_decide_eq_false hhead)
  obtain ⟨htake, hle⟩ := Framing.of_records_eq hsplit
  have hheader : 16 ≤ m.length := by
    have hmem : m ∈ (messageFraming o).records bs := by
      rw [hsplit]
      simp
    exact (Framing.mem_records hmem).1
  refine ⟨Nat.le_trans (Nat.add_le_add_left (Nat.le_trans (by omega) hheader) _) hle, ?_⟩
  have hm : bytesAt bs (stop o bs + 4) 2 = bytesAt m 4 2 := by
    have hsub : bytesAt (bytesAt bs (stop o bs) m.length) 4 2 = bytesAt bs (stop o bs + 4) 2 :=
      bytesAt_bytesAt (by omega)
    rw [← hsub]
    exact congrArg (bytesAt · 4 2) htake
  rw [hm]
  exact hdone

/-- What follows some bytes in memory follows a part of them. -/
theorem bytesAt_prefix (l l' : List Byte) (i k : ℕ) : bytesAt l i k <+: bytesAt (l ++ l') i k :=
  ((List.prefix_append l l').drop i).take k

/-- The type that is read, in the buffer that the bytes have been stored in. -/
theorem typeAt_put (b : Buf sizeofBuffer) (hbs : bs.length ≤ sizeofBuffer) :
    typeAt o (b.put 0 bs) (stop o bs) =
      o.decode (bytesAt (bs ++ b.toList.drop bs.length) (stop o bs + 4) 2) := by
  rw [← Buf.toList_put_zero hbs]
  rfl

/-- Where the bytes that are received decide, the type that is read is `NLMSG_DONE` if there is an
`NLMSG_DONE` among them, and it lies in the buffer. -/
theorem Decided.typeAt (h : Decided o bs) (hbs : bs.length ≤ sizeofBuffer)
    (b : Buf sizeofBuffer) : stop o bs + 6 ≤ sizeofBuffer ∧
      (typeAt o (b.put 0 bs) (stop o bs) = nlmsgDone ↔ HasDone o bs) := by
  have hpre := bytesAt_prefix bs (b.toList.drop bs.length) (stop o bs + 4) 2
  by_cases hdone : HasDone o bs
  · obtain ⟨hle, htype⟩ := of_hasDone hdone
    have heq : bytesAt bs (stop o bs + 4) 2 =
        bytesAt (bs ++ b.toList.drop bs.length) (stop o bs + 4) 2 := by
      refine hpre.eq_of_length_le ((List.length_take_le _ _).trans_eq ?_)
      rw [length_bytesAt (by omega)]
    rw [typeAt_put b hbs, ← heq]
    exact ⟨hle.trans hbs, iff_of_true htype hdone⟩
  · have hout := h.resolve_left hdone
    have hroom : stop o bs + 6 ≤ sizeofBuffer := by
      by_contra hlt
      have hdvd : 4 ∣ stop o bs := four_dvd_extent o _
      have hnil : bytesAt bs (stop o bs + 4) 2 = [] := by
        rw [bytesAt, List.drop_eq_nil_of_le, List.take_nil]
        rw [sizeofBuffer] at hlt hbs
        omega
      refine hout (o.encode 2 nlmsgDone) (o.length_encode 2 _) ?_ (o.decode_encode (by decide))
      rw [hnil]
      exact List.nil_prefix
    refine ⟨hroom, iff_of_false ?_ hdone⟩
    rw [typeAt_put b hbs]
    refine hout _ (length_bytesAt ?_) hpre
    rw [List.length_append, List.length_drop, Vector.length_toList]
    omega

/-- Bytes that agree with what is stored in front of them are still there. -/
theorem bytesAt_put_put {n i : ℕ} (b : Buf n) {t : List Byte} (hi : i + t.length ≤ n)
    (hbs : bs.length ≤ n) (hpre : bytesAt bs i t.length <+: t) :
    bytesAt ((b.put i t).put 0 bs).toList i t.length = t := by
  rw [Buf.toList_put_zero hbs]
  refine List.ext_getElem ?_ fun j hj hj' => ?_
  · rw [length_bytesAt]
    rw [List.length_append, List.length_drop, Vector.length_toList]
    omega
  · simp only [bytesAt, List.getElem_take, List.getElem_drop]
    by_cases hlt : i + j < bs.length
    · have hj₁ : j < (bytesAt bs i t.length).length := by
        rw [bytesAt, List.length_take, List.length_drop]
        omega
      rw [List.getElem_append_left hlt, ← hpre.getElem hj₁]
      simp [bytesAt]
    · rw [List.getElem_append_right (Nat.le_of_not_lt hlt)]
      have hidx : bs.length + (i + j - bs.length) = i + j := by omega
      simp [Buf.put, hidx, hj']

/-- Where they do not, there is a buffer that decides otherwise. -/
theorem exists_buffer (h : ¬ Decided o bs) (hbs : bs.length ≤ sizeofBuffer)
    (hroom : stop o bs + 6 ≤ sizeofBuffer) :
    ∃ b : Buf sizeofBuffer, typeAt o (b.put 0 bs) (stop o bs) = nlmsgDone ∧ ¬ HasDone o bs := by
  obtain ⟨hdone, hout⟩ := not_or.mp h
  push Not at hout
  obtain ⟨t, hlen, hpre, htype⟩ := hout
  refine ⟨(Buf.zeros _).put (stop o bs + 4) t, ?_, hdone⟩
  rw [← hlen] at hpre
  have ht := bytesAt_put_put (Buf.zeros sizeofBuffer) (by omega) hbs hpre
  rw [hlen] at ht
  show o.decode (bytesAt _ (stop o bs + 4) 2) = nlmsgDone
  rw [ht, htype]

end Behind

/-! ## One turn -/

section Turn

variable {o : ByteOrder} {C : List Byte → Prop} {s : Locals} {k : ℕ}
  {w : Option (Except Errno (List Byte))}

theorem wp_perror {t : String} {s : Locals}
    {Q : Locals ⊕ Unit → Option (Except Errno (List Byte)) → Prop} :
    wp (receiving C) defined (perform (.perror t) >>= fun _ => leave s.sockfd) Q w ↔
      Q (.inr ()) w := by
  constructor
  · intro h
    exact (h.2 () trivial).2 () trivial
  · intro h
    exact ⟨trivial, fun _ _ => ⟨trivial, fun _ _ => h⟩⟩

/-- What follows the loop over the messages. -/
theorem wp_type {s s' : Locals} {b : Buf sizeofBuffer} {nlh : ℕ}
    {Q : Locals ⊕ Unit → Option (Except Errno (List Byte)) → Prop} :
    wp (receiving C) defined ((nlmsgType o b nlh : Prog netlink ℕ) >>= fun type =>
      if type = nlmsgDone then leave s.sockfd else .ret (.inl s')) Q w ↔
      nlh + 6 ≤ sizeofBuffer ∧
        Q (if typeAt o b nlh = nlmsgDone then .inr () else .inl s') w := by
  by_cases hroom : nlh + 6 ≤ sizeofBuffer
  · rw [nlmsgType_of_le hroom, Prog.ret_bind, and_iff_right hroom]
    split
    · constructor
      · intro h
        exact h.2 () trivial
      · intro h
        exact ⟨trivial, fun _ _ => h⟩
    · exact wp_ret
  · have hfault : (nlmsgType o b nlh : Prog netlink ℕ) = .fault := if_neg (by omega)
    rw [hfault]
    exact iff_of_false id fun h => hroom h.1

/-- What a turn does with a reply. -/
theorem wp_reply (hiov : s.iov = ⟨sizeofBuffer, 0, k⟩) (hk : k ≤ sizeofBuffer)
    {Q : Locals ⊕ Unit → Option (Except Errno (List Byte)) → Prop} {bs : List Byte}
    (hbs : bs.length ≤ k) :
    wp (receiving C) defined (s.buffer.storeBytes s.iov.off bs >>= fun buffer =>
      perform (.printf ("Received " ++ toString bs.length ++ " bytes of Netlink response.\n")) >>=
        fun _ => messages o buffer 0 bs.length >>= fun nlh =>
          (nlmsgType o buffer nlh : Prog netlink ℕ) >>= fun type =>
            if type = nlmsgDone then leave s.sockfd
            else .ret (.inl ⟨s.sockfd, buffer, s.iov⟩)) Q (some (.ok bs)) ↔
      stop o bs + 6 ≤ sizeofBuffer ∧
        Q (if typeAt o (s.buffer.put 0 bs) (stop o bs) = nlmsgDone then .inr ()
          else .inl { s with buffer := s.buffer.put 0 bs }) (some (.ok bs)) := by
  have hstore : (s.buffer.storeBytes s.iov.off bs : Prog netlink _) =
      .ret (s.buffer.put 0 bs) := by
    rw [hiov]
    exact if_pos (.inr ⟨le_rfl, by push_cast; omega⟩)
  have hwindow : bytesAt (s.buffer.put 0 bs).toList 0 (bs.length : ℤ).toNat = bs := by
    rw [Buf.toList_put_zero (hbs.trans hk), Int.toNat_natCast, bytesAt, List.drop_zero,
      List.take_left]
  have hmessages : ∀ f : ℕ → Prog netlink (Locals ⊕ Unit), wp (receiving C) defined
      (messages o (s.buffer.put 0 bs) 0 bs.length >>= f) Q (some (.ok bs)) ↔
        wp (receiving C) defined (f (stop o bs)) Q (some (.ok bs)) := by
    intro f
    rw [Interaction.wp_bind, wp_messages (by omega), hwindow, Nat.zero_add]
    rfl
  rw [hstore, Prog.ret_bind, ← wp_type]
  constructor
  · intro h
    exact (hmessages _).mp (h.2 () trivial)
  · intro h
    exact ⟨trivial, fun _ _ => (hmessages _).mpr h⟩

/-- **One turn** of the receive loop. -/
theorem wp_body_iff (hiov : s.iov = ⟨sizeofBuffer, 0, k⟩) (hk : k ≤ sizeofBuffer)
    {Q : Locals ⊕ Unit → Option (Except Errno (List Byte)) → Prop} :
    wp (receiving C) defined (body o s) Q w ↔
      (∀ e, Q (.inr ()) (some (.error e))) ∧ ∀ bs : List Byte, bs.length ≤ k → C bs →
        stop o bs + 6 ≤ sizeofBuffer ∧
          Q (if typeAt o (s.buffer.put 0 bs) (stop o bs) = nlmsgDone then .inr ()
            else .inl { s with buffer := s.buffer.put 0 bs }) (some (.ok bs)) := by
  have hlen : s.iov.len = k := by rw [hiov]
  constructor
  · intro h
    refine ⟨fun e => wp_perror.mp ((h.2 () trivial).2 (.error e) trivial), ?_⟩
    intro bs hbs hC
    exact (wp_reply hiov hk hbs).mp
      ((h.2 () trivial).2 (.ok bs) ⟨by rw [hlen]; exact_mod_cast hbs, hC⟩)
  · rintro ⟨herror, hreply⟩
    refine ⟨trivial, fun _ _ => ⟨trivial, fun r hr => ?_⟩⟩
    cases r with
    | error e => exact wp_perror.mpr (herror e)
    | ok bs =>
      have hbs : bs.length ≤ k := by
        have := hr.1
        rw [hlen] at this
        exact_mod_cast this
      exact (wp_reply hiov hk hbs).mpr (hreply bs hbs hr.2)

end Turn

/-! ## Runs -/

section Run

variable {o : ByteOrder} {s : Locals} {k : ℕ}

/-- A turn stops where it is to stop, whatever the buffer holds, if and only if the bytes received
decide. -/
theorem stopsRight_iff (hiov : s.iov = ⟨sizeofBuffer, 0, k⟩) (hk : k ≤ sizeofBuffer)
    {bs : List Byte} (hbs : bs.length ≤ k) : StopsRight o s bs ↔ Decided o bs := by
  have hturn : ∀ buffer, wp (receiving (· = bs)) defined (body o ⟨s.sockfd, buffer, s.iov⟩)
      (fun x w => x = .inr () ↔ Ended o w) none ↔ stop o bs + 6 ≤ sizeofBuffer ∧
        (typeAt o (buffer.put 0 bs) (stop o bs) = nlmsgDone ↔ HasDone o bs) := by
    intro buffer
    rw [wp_body_iff (s := ⟨s.sockfd, buffer, s.iov⟩) hiov hk]
    constructor
    · rintro ⟨-, h⟩
      obtain ⟨hroom, hx⟩ := h bs hbs rfl
      refine ⟨hroom, ?_⟩
      simpa [Ended, apply_ite] using hx
    · rintro ⟨hroom, hx⟩
      refine ⟨fun e => by simp [Ended], ?_⟩
      rintro bs' - rfl
      refine ⟨hroom, ?_⟩
      simpa [Ended] using hx
  constructor
  · intro h
    by_contra hnot
    obtain ⟨b, htype, hdone⟩ := exists_buffer hnot (hbs.trans hk) ((hturn s.buffer).mp (h _)).1
    exact hdone (((hturn b).mp (h b)).2.mp htype)
  · intro h buffer
    exact (hturn buffer).mpr (h.typeAt (hbs.trans hk) buffer)

/-- **Where the receive loop ends.** In a run in which the bytes of every reply decide, nothing
undefined is done, and the loop has ended if and only if the last `recvmsg` has failed or has
received an `NLMSG_DONE`. A turn does so whatever the buffer has held before if and only if the
bytes received decide. -/
theorem ended_iff (hiov : s.iov = ⟨sizeofBuffer, 0, k⟩) (hk : k ≤ sizeofBuffer) :
    (∀ p w, Reach (receiving (Decided o)) (body o) (.ret (.inl s), none) (p, w) →
      p ≠ .fault ∧ ∀ x, p = .ret x → (x = .inr () ↔ Ended o w)) ∧
    ∀ bs : List Byte, bs.length ≤ k → (StopsRight o s bs ↔ Decided o bs) := by
  refine ⟨?_, fun bs hbs => stopsRight_iff hiov hk hbs⟩
  intro p w h
  have hbody : ∀ (s' : Locals) w, s'.iov = ⟨sizeofBuffer, 0, k⟩ ∧ ¬ Ended o w →
      wp (receiving (Decided o)) defined (body o s')
        (Sum.elim (fun s' w => s'.iov = ⟨sizeofBuffer, 0, k⟩ ∧ ¬ Ended o w)
          fun _ w => Ended o w) w := by
    rintro s' w ⟨hiov, -⟩
    refine (wp_body_iff hiov hk).mpr ⟨fun _ => trivial, ?_⟩
    intro bs hbs hdecided
    obtain ⟨hroom, htype⟩ := hdecided.typeAt (hbs.trans hk) s'.buffer
    refine ⟨hroom, ?_⟩
    split
    · next hdone => exact htype.mp hdone
    · next hdone => exact ⟨hiov, fun hd => hdone (htype.mpr hd)⟩
  have hwp := Reach.wp hbody h ⟨hiov, id⟩
  refine ⟨?_, ?_⟩
  · rintro rfl
    exact hwp
  · rintro (s' | ⟨⟩) rfl
    · exact iff_of_false (fun h => by cases h) hwp.2
    · exact iff_of_true rfl hwp

/-- The loop as it is reached. -/
theorem ended_iff_setup : ∃ t s, (setup .little (Buf.zeros _)).After t (.ret (.inl s)) ∧
    (∀ p w, Reach (receiving (Decided .little)) (body .little) (.ret (.inl s), none) (p, w) →
      p ≠ .fault ∧ ∀ x, p = .ret x → (x = .inr () ↔ Ended .little w)) ∧
    ∀ bs : List Byte, bs.length ≤ 28 → (StopsRight .little s bs ↔ Decided .little bs) := by
  obtain ⟨t, s, hs⟩ := exists_setup .little (Buf.zeros _)
  exact ⟨t, s, hs, ended_iff (setup_iov hs) (by decide)⟩

end Run

/-- A message says its own length. -/
theorem Nlmsg.wellFormed (o : ByteOrder) {m : Nlmsg} (hm : m.len < 256 ^ 4) :
    (messageFraming o).WellFormed (m.bytes o) := by
  refine ⟨?_, ?_⟩
  · rw [m.length_bytes]
    exact m.sixteen_le_len
  · have hlen := m.sixteen_le_len
    have htake : (m.padded o ++ []).take 4 = (m.bytes o).take 4 := by
      rw [List.append_nil, Nlmsg.padded, List.take_append_of_le_length]
      rw [m.length_bytes]
      omega
    show o.decode ((m.bytes o).take 4) = _
    rw [← htake, decode_len m hm, m.length_bytes]

/-- A turn of the receive loop can receive any reply for which there is room. -/
theorem reach_reply {o : ByteOrder} {s : Locals} {k : ℕ} (hiov : s.iov = ⟨sizeofBuffer, 0, k⟩)
    (hk : k ≤ sizeofBuffer) (bs : List Byte) (hbs : bs.length ≤ k)
    (hroom : stop o bs + 6 ≤ sizeofBuffer) (w : Option (Except Errno (List Byte))) :
    Reach (receiving fun _ => True) (body o) (.ret (.inl s), w)
      (.ret (if typeAt o (s.buffer.put 0 bs) (stop o bs) = nlmsgDone then .inr ()
        else .inl { s with buffer := s.buffer.put 0 bs }), some (.ok bs)) := by
  generalize hx : (if typeAt o (s.buffer.put 0 bs) (stop o bs) = nlmsgDone then
    (.inr () : Locals ⊕ Unit) else .inl { s with buffer := s.buffer.put 0 bs }) = x
  have hdefined : wp (receiving (· = bs)) defined (body o s) (fun _ _ => True) w := by
    refine (wp_body_iff hiov hk).mpr ⟨fun _ => trivial, ?_⟩
    rintro bs' - rfl
    exact ⟨hroom, trivial⟩
  have hnot : ¬ wp (receiving (· = bs)) defined (body o s)
      (fun x' w' => ¬ (x' = x ∧ w' = some (.ok bs))) w := by
    intro h
    obtain ⟨-, h⟩ := (wp_body_iff hiov hk).mp h
    exact (h bs hbs rfl).2 ⟨hx, rfl⟩
  obtain ⟨x', w', hexec, hend⟩ := exists_executes_of_not_wp hdefined hnot
  obtain ⟨rfl, rfl⟩ := of_not_not hend
  have hallows : ∀ w c r, (receiving (· = bs)).Allows w c r →
      (receiving fun _ => True).Allows (id w) c r := by
    intro _ c r hr
    cases c <;> cases r <;> first | trivial | exact ⟨hr.1, trivial⟩
  exact .head .again (hexec.reach.map (f := id) hallows fun _ _ _ => rfl)

/-- The first 28 bytes of a longer `RTM_NEWROUTE` message. Its route is in the table 3. -/
def cutRoute : List Byte :=
  ({ viaGateway with rtm := [2, 0, 0, 0, 3, 0, 0, 0, 0, 0, 0, 0], length_rtm := rfl }.bytes
    .little).take 28

/-- No message lies in these bytes as a whole, and `nlh` stays where it is. -/
theorem stop_cutRoute : stop .little cutRoute = 0 := by
  have hok : ¬ (16 ≤ ByteOrder.little.decode (bytesAt cutRoute 0 4) ∧
      (ByteOrder.little.decode (bytesAt cutRoute 0 4) : ℤ) ≤ 28) := by decide
  have hcut : bytesAt cutRoute 0 (28 : ℤ).toNat = cutRoute := by decide
  have hnil : handled .little (bytesAt cutRoute 0 (28 : ℤ).toNat) = [] :=
    handled_of_not (by decide) (by decide) hok
  rw [hcut] at hnil
  rw [stop, hnil, Framing.extent_nil]

theorem records_newroute :
    (messageFraming .little).records ((newroute 0).bytes .little) =
      [(newroute 0).bytes .little] := by
  have hwf := Nlmsg.wellFormed .little (m := newroute 0) (by decide)
  have h := Framing.records_last hwf [] (le_nlmsgAlign _)
  rwa [List.append_nil] at h

theorem not_hasDone_newroute : ¬ HasDone .little ((newroute 0).bytes .little) := by
  rintro ⟨m, hm, hdone⟩
  rw [records_newroute, List.mem_singleton] at hm
  rw [hm] at hdone
  revert hdone
  decide

/-- The message is handled, and `nlh` stands behind it. -/
theorem stop_newroute : stop .little ((newroute 0).bytes .little) = 16 := by
  have hhandled : handled .little ((newroute 0).bytes .little) = [(newroute 0).bytes .little] := by
    rw [handled, records_newroute, List.takeWhile_cons_of_pos (by decide), List.takeWhile_nil]
  rw [stop, hhandled, Framing.extent_cons]
  rfl

/-- A datagram of 28 bytes and one of 16, a message without an attribute. Behind the second one the
bytes of the first one have been left over, and they look like the type `NLMSG_DONE`. -/
theorem not_ended_stale : ∃ t s, (setup .little (Buf.zeros _)).After t (.ret (.inl s)) ∧
    ¬ ∀ p w, Reach (receiving fun _ => True) (body .little) (.ret (.inl s), none) (p, w) →
      ∀ x, p = .ret x → (x = .inr () ↔ Ended .little w) := by
  obtain ⟨t, s, hs⟩ := exists_setup .little (Buf.zeros _)
  refine ⟨t, s, hs, ?_⟩
  intro hall
  have hiov := setup_iov hs
  have hcut : typeAt .little (s.buffer.put 0 cutRoute) (stop .little cutRoute) ≠ nlmsgDone := by
    rw [typeAt_put _ (by decide), stop_cutRoute]
    show ByteOrder.little.decode [24, 0] ≠ nlmsgDone
    decide
  have hfirst := reach_reply hiov (by decide) cutRoute (by decide)
    (by rw [stop_cutRoute]; decide) none
  rw [if_neg hcut] at hfirst
  have hstale : typeAt .little ((s.buffer.put 0 cutRoute).put 0 ((newroute 0).bytes .little))
      (stop .little ((newroute 0).bytes .little)) = nlmsgDone := by
    rw [typeAt_put _ (by decide), stop_newroute, Buf.toList_put_zero (by decide)]
    show ByteOrder.little.decode [3, 0] = nlmsgDone
    decide
  have hsecond := reach_reply (s := { s with buffer := s.buffer.put 0 cutRoute }) hiov (by decide)
    ((newroute 0).bytes .little) (by decide) (by rw [stop_newroute]; decide)
    (some (.ok cutRoute))
  rw [if_pos hstale] at hsecond
  exact not_hasDone_newroute ((hall _ _ (hfirst.trans hsecond) _ rfl).mp rfl)

end MyRoute

end UnixNetwork
