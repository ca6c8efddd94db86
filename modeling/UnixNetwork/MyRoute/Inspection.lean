import UnixNetwork.MyRoute.Attributes

/-!
# What is inspected of a reply

The loop over the messages of a reply, with `handle_route_message` called in it, and every field
read through a call of its own. The bytes of the reply are arbitrary, and so is what stands behind
them in the memory.

The fields that the loops read lie in a message and in the bytes received. So do the addresses that
`inet_ntop` is handed if the attribute is long enough to hold one. That is not checked, as `RTA_OK`
asks for a header only, but a reply is received through the `iovec` of the request, of 28 bytes, and
no message in it has room for an attribute.

## Main definitions

* `MyRoute.Inspection.messages`: the loop over the messages
* `MyRoute.Inspection.enclosing`, `MyRoute.Inspection.inBounds`: the message and the attribute whose
  length has been read last, and what may be inspected then
* `MyRoute.Inspection.Bounded`: the loops end and inspect nothing else

## Main results

* `Inspection.interp_messages`: the loop is that of `MyRoute.messages`
* `Inspection.bounded_iff`: when nothing else is inspected of some bytes, however many they are
* `Inspection.bounded_of_setup`: nothing else is inspected of a reply of the program
-/

namespace UnixNetwork

namespace MyRoute

namespace Inspection

open Interaction Encoding

/-- The loop over the messages of a reply, from `nlh` on and with `n` bytes left. It returns where
`nlh` stands afterwards. -/
def messages (nlh : ℕ) (n : ℤ) : Prog fields ℕ :=
  -- the three conditions of `NLMSG_OK`
  if _ : n < sizeofNlmsghdr then .ret nlh
  else (access (.nlmsgLen nlh)).bind fun (len : ℕ) =>
    if _ : sizeofNlmsghdr ≤ len ∧ (len : ℤ) ≤ n then do
      let type ← access (.nlmsgType nlh)
      if type = nlmsgDone then do
        let _ ← access (.printf "End of Netlink response.\n" [])
        return nlh
      else do
        let _ ← handleRouteMessage nlh
        -- `NLMSG_NEXT`
        messages (nlh + nlmsgAlign len) (n - nlmsgAlign len)
    else .ret nlh
termination_by n.toNat
decreasing_by
  have hn : ¬ n < (16 : ℕ) := ‹¬ n < sizeofNlmsghdr›
  have hlen : 16 ≤ len := And.left ‹sizeofNlmsghdr ≤ len ∧ (len : ℤ) ≤ n›
  have hle : len ≤ nlmsgAlign len := le_nlmsgAlign len
  omega

section Loop

variable {nlh : ℕ} {n : ℤ}

theorem messages_of_lt (h : n < 16) : messages nlh n = .ret nlh := by
  rw [messages, dif_pos (show n < sizeofNlmsghdr from h)]

theorem messages_of_le (h : 16 ≤ n) : messages nlh n =
    Prog.call (I := fields) (.nlmsgLen nlh) fun (len : ℕ) => if 16 ≤ len ∧ (len : ℤ) ≤ n then
      Prog.call (I := fields) (.nlmsgType nlh) fun (type : ℕ) => if type = nlmsgDone then
        Prog.call (I := fields) (.printf "End of Netlink response.\n" []) fun _ => .ret nlh
      else handleRouteMessage nlh >>= fun _ =>
        messages (nlh + nlmsgAlign len) (n - nlmsgAlign len)
    else .ret nlh := by
  have hn : ¬ n < sizeofNlmsghdr := not_lt.mpr h
  rw [messages, dif_neg hn]
  rfl

end Loop

/-! ## The loop and the function it calls -/

/-- What is printed. -/
abbrev prints : Interface := ⟨String × List (List Byte), fun _ => Unit⟩

/-- A number in the memory. -/
def number (o : ByteOrder) (mem : List Byte) (off size : ℕ) : Prog prints ℕ :=
  if off + size ≤ mem.length then .ret (o.decode (bytesAt mem off size)) else .fault

/-- The fields of the memory. -/
def fromMemory (o : ByteOrder) (mem : List Byte) : (a : Access) → Prog prints a.Res
  | .nlmsgLen nlh => number o mem nlh 4
  | .nlmsgType nlh => number o mem (nlh + 4) 2
  | .rtaLen rta => number o mem rta 2
  | .rtaType rta => number o mem (rta + 2) 2
  | .inetNtop addr =>
    if addr + 4 ≤ mem.length then .ret (dotted (bytesAt mem addr 4)) else .fault
  | .printf format args => Prog.perform (I := prints) (format, args)

/-- `handle_route_message` in the place of a call of it. The loop over the messages makes no other
call but `printf`. -/
def linked (o : ByteOrder) : (c : Call) → Prog prints (Res c)
  | .printf text => Prog.perform (I := prints) (text, [])
  | .handleRouteMessage nlh => (handleRouteMessage 0).interp (fromMemory o nlh)
  | _ => .fault

section Linked

variable {o : ByteOrder} {mem : List Byte} {nlh : ℕ}

theorem interp_access {J : Interface} {β : Type} {h : (a : Access) → Prog J a.Res} (a : Access)
    (f : a.Res → Prog fields β) :
    (access a >>= f).interp h = h a >>= fun r => (f r).interp h := rfl

theorem bytesAt_drop (off size : ℕ) :
    bytesAt (mem.drop nlh) off size = bytesAt mem (nlh + off) size := by
  rw [bytesAt, List.drop_drop, bytesAt]

theorem number_drop (off : ℕ) {size : ℕ} (h : 0 < size) :
    number o (mem.drop nlh) off size = number o mem (nlh + off) size := by
  rw [number, number, bytesAt_drop, List.length_drop]
  exact if_congr (by omega) rfl rfl

/-- What is read through a pointer is what is read of the rest of the memory. -/
theorem interp_switch (type rta : ℕ) (s : Texts) :
    (switch type (nlh + rta) s).interp (fromMemory o mem) =
      (switch type rta s).interp (fromMemory o (mem.drop nlh)) := by
  have hntop : fromMemory o mem (.inetNtop (nlh + rta + rtaData)) =
      fromMemory o (mem.drop nlh) (.inetNtop (rta + rtaData)) := by
    rw [fromMemory, fromMemory, bytesAt_drop, List.length_drop, Nat.add_assoc nlh]
    exact if_congr (by omega) rfl rfl
  rw [switch, switch]
  split
  · rw [interp_access, interp_access, hntop]
    rfl
  · split
    · rw [interp_access, interp_access, hntop]
      rfl
    · rfl

theorem interp_attributes (rta : ℕ) (rtl : ℤ) (s : Texts) :
    (attributes (nlh + rta) rtl s).interp (fromMemory o mem) =
      (attributes rta rtl s).interp (fromMemory o (mem.drop nlh)) := by
  induction hk : rtl.toNat using Nat.strong_induction_on generalizing rta rtl s with
  | _ k ih =>
  by_cases h4 : rtl < 4
  · rw [attributes_of_lt h4, attributes_of_lt h4]
    rfl
  rw [attributes_of_le (not_lt.mp h4), attributes_of_le (not_lt.mp h4), Prog.interp_call,
    Prog.interp_call]
  have hlen : fromMemory o mem (.rtaLen (nlh + rta)) =
      fromMemory o (mem.drop nlh) (.rtaLen rta) := (number_drop rta (by decide)).symm
  rw [hlen]
  refine congrArg _ (funext fun (len : ℕ) => ?_)
  split
  · next hok =>
    have halign := le_rtaAlign len
    have htype : fromMemory o mem (.rtaType (nlh + rta)) =
        fromMemory o (mem.drop nlh) (.rtaType rta) := (number_drop (rta + 2) (by decide)).symm
    rw [Prog.interp_call, Prog.interp_call, htype]
    refine congrArg _ (funext fun (type : ℕ) => ?_)
    rw [Prog.interp_bind, Prog.interp_bind, interp_switch]
    refine congrArg _ (funext fun s => ?_)
    rw [Nat.add_assoc nlh]
    exact ih _ (by omega) _ _ _ rfl
  · rfl

/-- `handle_route_message` reads what stands behind its pointer. -/
theorem interp_handleRouteMessage : (handleRouteMessage nlh).interp (fromMemory o mem) =
    (handleRouteMessage 0).interp (fromMemory o (mem.drop nlh)) := by
  have htype : fromMemory o mem (.nlmsgType nlh) = fromMemory o (mem.drop nlh) (.nlmsgType 0) :=
    (number_drop 4 (by decide)).symm
  have hlen : fromMemory o mem (.nlmsgLen nlh) = fromMemory o (mem.drop nlh) (.nlmsgLen 0) :=
    (number_drop 0 (by decide)).symm
  rw [handleRouteMessage, handleRouteMessage, interp_access, interp_access, htype]
  refine congrArg _ (funext fun (type : ℕ) => ?_)
  split
  · rw [interp_access, interp_access, hlen]
    refine congrArg _ (funext fun (len : ℕ) => ?_)
    rw [Prog.interp_bind, Prog.interp_bind, interp_attributes, Nat.zero_add]
    rfl
  · rfl

/-- A number that is read directly. -/
theorem interp_loadNat {n : ℕ} {I : Interface} {h : (c : I.Call) → Prog prints (I.Res c)}
    (b : Buf n) (off size : ℕ) :
    (loadNat o b off size : Prog I ℕ).interp h = number o b.toList off size := by
  rw [loadNat, number, Vector.length_toList]
  split <;> rfl

theorem messages_eq {b : Buf sizeofBuffer} {nlh : ℕ} {n : ℤ} (h : 16 ≤ n) :
    MyRoute.messages o b nlh n = nlmsgLen o b nlh >>= fun len =>
      if 16 ≤ len ∧ (len : ℤ) ≤ n then nlmsgType o b nlh >>= fun type =>
        if type = nlmsgDone then
          Prog.call (I := netlink) (.printf "End of Netlink response.\n") fun _ => .ret nlh
        else Prog.call (I := netlink) (.handleRouteMessage (b.toList.drop nlh)) fun _ =>
          MyRoute.messages o b (nlh + nlmsgAlign len) (n - nlmsgAlign len)
      else .ret nlh := by
  have hn : ¬ n < sizeofNlmsghdr := not_lt.mpr h
  rw [MyRoute.messages, dif_neg hn]
  rfl

/-- **The same loop.** The loop over the messages of a reply, with `handle_route_message` in the
place of its calls, reads and prints what this one does. -/
theorem interp_messages (b : Buf sizeofBuffer) (nlh : ℕ) (n : ℤ) :
    (MyRoute.messages o b nlh n).interp (linked o) =
      (messages nlh n).interp (fromMemory o b.toList) := by
  induction hk : n.toNat using Nat.strong_induction_on generalizing nlh n with
  | _ k ih =>
  by_cases h16 : n < 16
  · rw [MyRoute.messages_of_lt h16, messages_of_lt h16]
    rfl
  rw [messages_of_le (not_lt.mp h16), messages_eq (not_lt.mp h16), Prog.interp_call,
    Prog.interp_bind, nlmsgLen, interp_loadNat]
  refine congrArg _ (funext fun (len : ℕ) => ?_)
  split
  · next hok =>
    have halign := le_nlmsgAlign len
    rw [Prog.interp_call, Prog.interp_bind, nlmsgType, interp_loadNat]
    refine congrArg _ (funext fun (type : ℕ) => ?_)
    split
    · rfl
    · have hrest := ih _ (by omega) (nlh + nlmsgAlign len) (n - nlmsgAlign len) rfl
      rw [Prog.interp_call, Prog.interp_bind, interp_handleRouteMessage, hrest]
      rfl
  · rfl

end Linked

/-! ## What encloses what is inspected -/

/-- Where the message and the attribute begin whose length has been read last, and how long they
are. -/
structure Enclosing where
  /-- The message. -/
  msg : ℕ × ℕ
  /-- The attribute. -/
  attr : ℕ × ℕ

/-- What they are once an access has returned. -/
def Enclosing.next (w : Enclosing) : (a : Access) → a.Res → Enclosing
  | .nlmsgLen nlh, len => { w with msg := (nlh, len) }
  | .rtaLen rta, len => { w with attr := (rta, len) }
  | _, _ => w

/-- A memory. -/
def enclosing (o : ByteOrder) (mem : List Byte) : World fields Enclosing :=
  ⟨fun _ => Answers o mem, Enclosing.next⟩

/-- The message has room for a header and lies in the first `n` bytes. -/
def Enclosing.MessageIn (w : Enclosing) (n : ℕ) : Prop :=
  sizeofNlmsghdr ≤ w.msg.2 ∧ w.msg.1 + w.msg.2 ≤ n

/-- The attribute has room for a header and lies in the message. -/
def Enclosing.AttributeIn (w : Enclosing) : Prop :=
  sizeofRtattr ≤ w.attr.2 ∧ w.msg.1 ≤ w.attr.1 ∧
    w.attr.1 + w.attr.2 ≤ w.msg.1 + w.msg.2

/-- What may be inspected of the first `n` bytes: headers of messages that lie in them, headers of
attributes that lie in the message, and addresses that lie in the attribute. -/
def inBounds (n : ℕ) : Guard fields Enclosing where
  Call w
    | .nlmsgLen nlh => nlh + sizeofNlmsghdr ≤ n
    | .nlmsgType nlh => nlh = w.msg.1 ∧ w.MessageIn n
    | .rtaLen rta => w.msg.1 ≤ rta ∧ rta + sizeofRtattr ≤ w.msg.1 + w.msg.2 ∧
        w.MessageIn n
    | .rtaType rta => rta = w.attr.1 ∧ w.AttributeIn ∧ w.MessageIn n
    | .inetNtop addr => w.attr.1 ≤ addr ∧ addr + 4 ≤ w.attr.1 + w.attr.2 ∧
        w.AttributeIn ∧ w.MessageIn n
    | .printf .. => True
  Fault _ := False

/-- The loops end, and everything that they inspect of the bytes received lies in the attribute and
in the message it belongs to, and in these bytes. Whatever is inspected behind them counts as well:
`rest` is the rest of the memory. -/
def Bounded (o : ByteOrder) (bs rest : List Byte) : Prop :=
  (∃ nlh w, Executes (enclosing o (bs ++ rest)) (messages 0 bs.length) ⟨(0, 0), (0, 0)⟩ nlh w) ∧
    wp (enclosing o (bs ++ rest)) (inBounds bs.length) (messages 0 bs.length) (fun _ _ => True)
      ⟨(0, 0), (0, 0)⟩

/-! ## Messages as records -/

/-- Messages are records. -/
def messageFraming (o : ByteOrder) : Framing Byte where
  header := sizeofNlmsghdr
  header_pos := by decide
  len l := o.decode (l.take 4)
  len_append l r h := by
    have hl : 16 ≤ l.length := h
    rw [List.take_append_of_le_length (by omega)]
  align := nlmsgAlign
  le_align := le_nlmsgAlign

/-- `nlmsg_type` of a message. -/
def msgType (o : ByteOrder) (m : List Byte) : ℕ := o.decode (bytesAt m 4 2)

/-- The messages in some bytes that come before `NLMSG_DONE`. -/
def handled (o : ByteOrder) (bs : List Byte) : List (List Byte) :=
  ((messageFraming o).records bs).takeWhile fun m => msgType o m ≠ nlmsgDone

/-- The type of a message that stands in the memory. -/
theorem msgType_bytesAt (o : ByteOrder) (mem : List Byte) (nlh : ℕ) {len : ℕ} (h : 6 ≤ len) :
    msgType o (bytesAt mem nlh len) = o.decode (bytesAt mem (nlh + 4) 2) := by
  rw [msgType, bytesAt_bytesAt h]

section Window

variable {o : ByteOrder} {mem : List Byte} {nlh : ℕ} {k : ℤ}

/-- No message is handled where there is no room for a header. -/
theorem handled_of_lt (h : k < 16) : handled o (bytesAt mem nlh k.toNat) = [] := by
  have hnil : (messageFraming o).records (bytesAt mem nlh k.toNat) = [] :=
    Framing.records_window_of_lt h
  rw [handled, hnil]
  rfl

/-- No message is handled where its length is too small or too large. -/
theorem handled_of_not (hroom : nlh + k ≤ mem.length) (h : 16 ≤ k)
    (hok : ¬ (16 ≤ o.decode (bytesAt mem nlh 4) ∧ (o.decode (bytesAt mem nlh 4) : ℤ) ≤ k)) :
    handled o (bytesAt mem nlh k.toNat) = [] := by
  have hnil : (messageFraming o).records (bytesAt mem nlh k.toNat) = [] :=
    Framing.records_window_of_not hroom h hok
  rw [handled, hnil]
  rfl

/-- A message is handled, with those behind it, unless it is an `NLMSG_DONE`. -/
theorem handled_of_le {len : ℕ} (hlen : o.decode (bytesAt mem nlh 4) = len)
    (hroom : nlh + k ≤ mem.length) (hok : 16 ≤ len ∧ (len : ℤ) ≤ k) :
    handled o (bytesAt mem nlh k.toNat) =
      if msgType o (bytesAt mem nlh len) = nlmsgDone then []
      else bytesAt mem nlh len ::
        handled o (bytesAt mem (nlh + nlmsgAlign len) (k - nlmsgAlign len).toNat) := by
  have hrecords : (messageFraming o).records (bytesAt mem nlh k.toNat) =
      bytesAt mem nlh len :: (messageFraming o).records
        (bytesAt mem (nlh + nlmsgAlign len) (k - nlmsgAlign len).toNat) := by
    subst hlen
    have h16 : 16 ≤ k := by omega
    exact Framing.records_window hroom h16 hok
  rw [handled, hrecords]
  split
  · next hdone => rw [List.takeWhile_cons_of_neg (by simpa using hdone)]
  · next hdone =>
    rw [List.takeWhile_cons_of_pos (by simpa using hdone)]
    rfl

end Window

/-- The attributes in a message. -/
def attributesIn (o : ByteOrder) (m : List Byte) : List (List Byte) :=
  (attributeFraming o).records (bytesAt m rtmRta (rtmPayload m.length).toNat)

/-- The addresses of a message that are looked at are as long as they should be. -/
def LongAddrs (o : ByteOrder) (m : List Byte) : Prop :=
  msgType o m = rtmNewroute → ∀ a ∈ attributesIn o m, IsAddr o a → 8 ≤ a.length

/-! ## The loops end -/

theorem total_access (a : Access) : (access a).Total := fun _ => trivial

theorem total_switch (type rta : ℕ) (s : Texts) : (switch type rta s).Total := by
  rw [switch]
  split
  · exact (total_access _).bind fun _ => trivial
  · split
    · exact (total_access _).bind fun _ => trivial
    · trivial

theorem total_attributes (rta : ℕ) (rtl : ℤ) (s : Texts) : (attributes rta rtl s).Total := by
  induction hk : rtl.toNat using Nat.strong_induction_on generalizing rta rtl s with
  | _ k ih =>
  by_cases h4 : rtl < 4
  · rw [attributes_of_lt h4]
    trivial
  · rw [attributes_of_le (not_lt.mp h4)]
    intro (len : ℕ)
    have halign := le_rtaAlign len
    dsimp only
    split
    · exact fun _ => (total_switch _ _ _).bind fun _ => ih _ (by omega) _ _ _ rfl
    · trivial

theorem total_handleRouteMessage (nlh : ℕ) : (handleRouteMessage nlh).Total := by
  refine (total_access _).bind fun (type : ℕ) => ?_
  split
  · exact (total_access _).bind fun _ => (total_attributes _ _ _).bind fun _ => total_access _
  · trivial

theorem total_messages (nlh : ℕ) (n : ℤ) : (messages nlh n).Total := by
  induction hk : n.toNat using Nat.strong_induction_on generalizing nlh n with
  | _ k ih =>
  by_cases h16 : n < 16
  · rw [messages_of_lt h16]
    trivial
  · rw [messages_of_le (not_lt.mp h16)]
    intro (len : ℕ)
    have halign := le_nlmsgAlign len
    dsimp only
    split
    · intro (type : ℕ)
      dsimp only
      split
      · exact fun _ => trivial
      · exact (total_handleRouteMessage _).bind fun _ => ih _ (by omega) _ _ rfl
    · trivial

/-- **The loops end**, whatever the memory holds. -/
theorem exists_executes_messages (o : ByteOrder) (mem : List Byte) (nlh : ℕ) (n : ℤ)
    (w : Enclosing) : ∃ nlh' w', Executes (enclosing o mem) (messages nlh n) w nlh' w' := by
  refine (total_messages nlh n).exists_executes ?_ w
  intro w a
  cases a with
  | printf => exact ⟨(), trivial⟩
  | _ => exact ⟨_, rfl⟩

/-! ## What they inspect -/

section Bounds

variable {o : ByteOrder} {mem : List Byte} {n : ℕ} {w : Enclosing} {C : Prop}

theorem wp_switch {type rta len : ℕ} {s : Texts} {Q : Texts → Enclosing → Prop}
    (hattr : w.attr = (rta, len)) (hin : w.AttributeIn) (hmsg : w.MessageIn n)
    (hQ : ∀ s, Q s w ↔ C) : wp (enclosing o mem) (inBounds n) (switch type rta s) Q w ↔
      (type = rtaDst ∨ type = rtaGateway → 8 ≤ len) ∧ C := by
  have hcall : (inBounds n).Call w (.inetNtop (rta + rtaData)) ↔ 8 ≤ len := by
    have hdata : rtaData = 4 := rfl
    simp only [inBounds, hattr, hin, hmsg, hdata, and_true]
    omega
  have hntop : ∀ f : List Byte → Texts, wp (enclosing o mem) (inBounds n)
      (access (.inetNtop (rta + rtaData)) >>= fun t => .ret (f t)) Q w ↔ 8 ≤ len ∧ C := by
    intro f
    refine and_congr hcall ?_
    constructor
    · intro h
      exact (hQ _).mp (h _ rfl)
    · intro hC r _
      exact (hQ _).mpr hC
  rw [switch]
  split
  · next hdst => rw [imp_iff_right (.inl hdst)]; exact hntop _
  · next hdst =>
    split
    · next hgw => rw [imp_iff_right (.inr hgw)]; exact hntop _
    · next hgw =>
      have hno : ¬ (type = rtaDst ∨ type = rtaGateway) := not_or.mpr ⟨hdst, hgw⟩
      rw [Prog.pure_eq, wp_ret, hQ]
      exact (and_iff_right fun h => absurd h hno).symm

/-- The type of an attribute that lies in the message, and what is looked at because of it. -/
theorem wp_attribute {rta len : ℕ} {s : Texts} {f : Texts → Prog fields Texts}
    {Q : Texts → Enclosing → Prop} (hattr : w.attr = (rta, len)) (hin : w.AttributeIn)
    (hmsg : w.MessageIn n) (hmem : rta + len ≤ mem.length)
    (hrest : ∀ s, wp (enclosing o mem) (inBounds n) (f s) Q w ↔ C) :
    wp (enclosing o mem) (inBounds n)
      (Prog.call (I := fields) (.rtaType rta) fun type => switch type rta s >>= f) Q w ↔
      (IsAddr o (bytesAt mem rta len) → 8 ≤ (bytesAt mem rta len).length) ∧ C := by
  have hheader : 4 ≤ len := by
    have hle := hin.1
    rwa [hattr] at hle
  have hcall : (inBounds n).Call w (.rtaType rta) := by
    refine ⟨?_, hin, hmsg⟩
    rw [hattr]
  have htype : ∀ r : ℕ, (enclosing o mem).Allows w (.rtaType rta) r ↔
      r = attrType o (bytesAt mem rta len) := fun _ => by
    rw [attrType_bytesAt o mem rta hheader]
    exact Iff.rfl
  refine (wp_call_of_unique htype).trans ((and_iff_right hcall).trans ?_)
  rw [Interaction.wp_bind, length_bytesAt hmem]
  exact wp_switch hattr hin hmsg hrest

/-- The loop over the attributes reads headers in the message. The addresses lie in their attributes
if these are long enough. -/
theorem wp_attributes {i l : ℕ} (hin : sizeofNlmsghdr ≤ l ∧ i + l ≤ n) (hn : n ≤ mem.length)
    {rta : ℕ} {rtl : ℤ} {s : Texts} {Q : Texts → Enclosing → Prop} (hmsg : w.msg = (i, l))
    (hle : i ≤ rta) (hend : 0 < rtl → rta + rtl ≤ i + l)
    (hQ : ∀ s w', w'.msg = (i, l) → (Q s w' ↔ C)) :
    wp (enclosing o mem) (inBounds n) (attributes rta rtl s) Q w ↔
      (∀ a ∈ (attributeFraming o).records (bytesAt mem rta rtl.toNat), IsAddr o a → 8 ≤ a.length) ∧
        C := by
  induction hk : rtl.toNat using Nat.strong_induction_on generalizing rta rtl s w with
  | _ k ih =>
  subst hk
  by_cases h4 : rtl < 4
  · have hnil : (attributeFraming o).records (bytesAt mem rta rtl.toNat) = [] :=
      Framing.records_window_of_lt h4
    rw [attributes_of_lt h4, wp_ret, hQ s w hmsg, hnil]
    simp
  have h4 : 4 ≤ rtl := not_lt.mp h4
  have hend := hend (by omega)
  have hroom : rta + rtl ≤ mem.length := by omega
  have hmsgIn : w.MessageIn n := by
    rw [Enclosing.MessageIn, hmsg]
    exact hin
  have hheader : (inBounds n).Call w (.rtaLen rta) := by
    refine ⟨?_, ?_, hmsgIn⟩
    · rw [hmsg]
      exact hle
    · rw [hmsg, sizeofRtattr]
      show rta + 4 ≤ i + l
      omega
  have hlenOf : ∀ r : ℕ, (enclosing o mem).Allows w (.rtaLen rta) r ↔
      r = o.decode (bytesAt mem rta 2) := fun _ => Iff.rfl
  rw [attributes_of_le h4, wp_call_of_unique hlenOf, and_iff_right hheader]
  by_cases hok : 4 ≤ o.decode (bytesAt mem rta 2) ∧ (o.decode (bytesAt mem rta 2) : ℤ) ≤ rtl
  · have hrecords : (attributeFraming o).records (bytesAt mem rta rtl.toNat) =
        bytesAt mem rta (o.decode (bytesAt mem rta 2)) :: (attributeFraming o).records
          (bytesAt mem (rta + rtaAlign (o.decode (bytesAt mem rta 2)))
            (rtl - rtaAlign (o.decode (bytesAt mem rta 2))).toNat) :=
      Framing.records_window hroom h4 hok
    rw [if_pos hok, hrecords, List.forall_mem_cons, and_assoc]
    generalize o.decode (bytesAt mem rta 2) = len at hok
    have halign := le_rtaAlign len
    have hin' : (⟨w.msg, (rta, len)⟩ : Enclosing).AttributeIn := by
      refine ⟨hok.1, ?_, ?_⟩
      · rw [hmsg]
        exact hle
      · rw [hmsg]
        show rta + len ≤ i + l
        omega
    exact wp_attribute rfl hin' hmsgIn (by omega) fun s =>
      ih _ (by omega) hmsg (by omega) (by omega) rfl
  · have hnil : (attributeFraming o).records (bytesAt mem rta rtl.toNat) = [] :=
      Framing.records_window_of_not hroom h4 hok
    rw [if_neg hok, wp_ret, hnil]
    refine (hQ s ⟨w.msg, (rta, o.decode (bytesAt mem rta 2))⟩ hmsg).trans ?_
    simp

theorem rtmPayload_le {len : ℕ} (h : 0 < rtmPayload len) : rtmPayload len + rtmRta ≤ len := by
  have hspace : nlmsgSpace sizeofRtmsg = 28 := rfl
  have hrta : rtmRta = 28 := rfl
  rw [rtmPayload, hspace, Int.bmod_def] at h ⊢
  rw [hrta]
  split at h <;> omega

/-- The attributes of a message stand behind its headers. -/
theorem attributesIn_bytesAt {nlh len : ℕ} (hlen : nlh + len ≤ mem.length) :
    attributesIn o (bytesAt mem nlh len) =
      (attributeFraming o).records (bytesAt mem (nlh + rtmRta) (rtmPayload len).toNat) := by
  rw [attributesIn, length_bytesAt hlen]
  by_cases hpos : 0 < rtmPayload len
  · have hle := rtmPayload_le hpos
    rw [bytesAt_bytesAt (by omega)]
  · rw [Int.toNat_of_nonpos (not_lt.mp hpos)]
    rfl

/-- `handle_route_message` inspects its message if the addresses in it are long enough. -/
theorem wp_handleRouteMessage {nlh len : ℕ} (hin : sizeofNlmsghdr ≤ len ∧ nlh + len ≤ n)
    (hn : n ≤ mem.length) (hmsg : w.msg = (nlh, len)) (hlen : o.decode (bytesAt mem nlh 4) = len)
    {Q : Unit → Enclosing → Prop} (hQ : ∀ w', Q () w' ↔ C) :
    wp (enclosing o mem) (inBounds n) (handleRouteMessage nlh) Q w ↔
      LongAddrs o (bytesAt mem nlh len) ∧ C := by
  obtain ⟨hge, hle⟩ := hin
  have h16 : 16 ≤ len := hge
  have hmsgIn : w.MessageIn n := by
    rw [Enclosing.MessageIn, hmsg]
    exact ⟨hge, hle⟩
  have hcall : (inBounds n).Call w (.nlmsgType nlh) := by
    refine ⟨?_, hmsgIn⟩
    rw [hmsg]
  have htypeOf : ∀ r : ℕ, (enclosing o mem).Allows w (.nlmsgType nlh) r ↔
      r = msgType o (bytesAt mem nlh len) := fun _ => by
    rw [msgType_bytesAt o mem nlh (by omega)]
    exact Iff.rfl
  rw [handleRouteMessage, access_bind, wp_call_of_unique htypeOf, and_iff_right hcall]
  by_cases hnew : msgType o (bytesAt mem nlh len) = rtmNewroute
  · have hheader : (inBounds n).Call w (.nlmsgLen nlh) := Nat.le_trans (by omega) hle
    have hlenOf : ∀ r : ℕ, (enclosing o mem).Allows
        ((enclosing o mem).next w (.nlmsgType nlh) (msgType o (bytesAt mem nlh len)))
        (.nlmsgLen nlh) r ↔ r = len := fun _ => by
      rw [← hlen]
      exact Iff.rfl
    have hprintf : ∀ (s : Texts) (w' : Enclosing), w'.msg = (nlh, len) →
        (wp (enclosing o mem) (inBounds n) (access (.printf "Destination: %s, Gateway: %s\n"
          [s.dst.toList, s.gateway.toList])) Q w' ↔ C) := by
      intro s w' _
      refine (and_iff_right trivial).trans ?_
      constructor
      · intro h
        exact (hQ _).mp (h () trivial)
      · intro hC r _
        exact (hQ _).mpr hC
    have hend : 0 < rtmPayload len →
        ((nlh + rtmRta : ℕ) : ℤ) + rtmPayload len ≤ nlh + len := by
      intro hpos
      have := rtmPayload_le hpos
      omega
    rw [if_pos hnew, LongAddrs, imp_iff_right hnew, attributesIn_bytesAt (hle.trans hn),
      access_bind, wp_call_of_unique hlenOf]
    refine (and_iff_right hheader).trans ?_
    rw [Interaction.wp_bind]
    exact wp_attributes ⟨hge, hle⟩ hn rfl (Nat.le_add_right nlh rtmRta) hend hprintf
  · rw [if_neg hnew, Prog.pure_eq, wp_ret, hQ]
    exact (and_iff_right fun h => absurd h hnew).symm

/-- The loop over the messages inspects its bytes if the addresses in the messages that are handled
are long enough. -/
theorem wp_messages (hn : n ≤ mem.length) {nlh : ℕ} {k : ℤ} (hend : 0 < k → nlh + k ≤ n) :
    wp (enclosing o mem) (inBounds n) (messages nlh k) (fun _ _ => True) w ↔
      ∀ m ∈ handled o (bytesAt mem nlh k.toNat), LongAddrs o m := by
  induction hk : k.toNat using Nat.strong_induction_on generalizing nlh k w with
  | _ j ih =>
  subst hk
  by_cases h16 : k < 16
  · rw [messages_of_lt h16, wp_ret, handled_of_lt h16]
    simp
  have h16 : 16 ≤ k := not_lt.mp h16
  have hend := hend (by omega)
  have hroom : nlh + k ≤ mem.length := by omega
  have hheader : (inBounds n).Call w (.nlmsgLen nlh) := by
    show nlh + 16 ≤ n
    omega
  have hlenOf : ∀ r : ℕ, (enclosing o mem).Allows w (.nlmsgLen nlh) r ↔
      r = o.decode (bytesAt mem nlh 4) := fun _ => Iff.rfl
  rw [messages_of_le h16, wp_call_of_unique hlenOf, and_iff_right hheader]
  by_cases hok : 16 ≤ o.decode (bytesAt mem nlh 4) ∧ (o.decode (bytesAt mem nlh 4) : ℤ) ≤ k
  · rw [if_pos hok, handled_of_le rfl hroom hok]
    generalize hlen : o.decode (bytesAt mem nlh 4) = len at hok
    have halign := le_nlmsgAlign len
    have hin : sizeofNlmsghdr ≤ len ∧ nlh + len ≤ n := ⟨hok.1, by omega⟩
    have hcall : (inBounds n).Call ⟨(nlh, len), w.attr⟩ (.nlmsgType nlh) := ⟨rfl, hin⟩
    have htypeOf : ∀ r : ℕ, (enclosing o mem).Allows ⟨(nlh, len), w.attr⟩ (.nlmsgType nlh) r ↔
        r = msgType o (bytesAt mem nlh len) := fun _ => by
      rw [msgType_bytesAt o mem nlh (by omega)]
      exact Iff.rfl
    have hnext : ∀ w', wp (enclosing o mem) (inBounds n)
        (messages (nlh + nlmsgAlign len) (k - nlmsgAlign len)) (fun _ _ => True) w' ↔
          ∀ m ∈ handled o (bytesAt mem (nlh + nlmsgAlign len) (k - nlmsgAlign len).toNat),
            LongAddrs o m := fun w' =>
      ih _ (by omega) (by omega) rfl
    refine (wp_call_of_unique htypeOf).trans ((and_iff_right hcall).trans ?_)
    dsimp only
    by_cases hdone : msgType o (bytesAt mem nlh len) = nlmsgDone
    · rw [if_pos hdone, if_pos hdone]
      refine iff_of_true ⟨trivial, fun _ _ => trivial⟩ ?_
      simp
    · rw [if_neg hdone, if_neg hdone, List.forall_mem_cons, Interaction.wp_bind]
      exact wp_handleRouteMessage hin hn rfl hlen hnext
  · rw [if_neg hok, wp_ret, handled_of_not hroom h16 hok]
    simp

end Bounds

theorem bounded_iff_longAddrs {o : ByteOrder} {bs rest : List Byte} :
    Bounded o bs rest ↔ ∀ m ∈ handled o bs, LongAddrs o m := by
  have hbs : bytesAt (bs ++ rest) 0 (bs.length : ℤ).toNat = bs := by
    rw [bytesAt, List.drop_zero, Int.toNat_natCast, List.take_left]
  have hwp : wp (enclosing o (bs ++ rest)) (inBounds bs.length) (messages 0 bs.length)
      (fun _ _ => True) ⟨(0, 0), (0, 0)⟩ ↔ _ :=
    wp_messages (o := o) (by rw [List.length_append]; omega) (by omega)
  rw [hbs] at hwp
  exact (and_iff_right (exists_executes_messages _ _ _ _ _)).trans hwp

/-- Whatever the bytes are, and however many, the loops end, and they inspect only what lies in
these bytes, in the message and in the attribute it belongs to, if and only if every `RTA_DST` and
every `RTA_GATEWAY` that is looked at has room for an address. -/
theorem bounded_iff (o : ByteOrder) (bs rest : List Byte) :
    Bounded o bs rest ↔ ∀ m ∈ handled o bs, msgType o m = rtmNewroute →
      ∀ a ∈ attributesIn o m, IsAddr o a → 8 ≤ a.length :=
  bounded_iff_longAddrs

/-- A route is found as the only message in its bytes. -/
theorem handled_route {o : ByteOrder} {m : Route} (hlen : m.len o < 2 ^ 31) :
    handled o (m.bytes o) = [m.bytes o] := by
  have hmem : m.bytes o = [] ++ (m.bytes o ++ []) := by simp
  have hlength : (m.bytes o).length = m.len o := by
    rw [Route.bytes, List.length_append, m.length_headers, Route.len]
  have hwf : (messageFraming o).WellFormed (m.bytes o) := by
    refine ⟨?_, (decode_route_len hmem hlen).trans hlength.symm⟩
    rw [hlength]
    have hheader : (messageFraming o).header ≤ rtmRta := show 16 ≤ 28 by omega
    exact Nat.le_trans hheader (Nat.le_add_right rtmRta _)
  have hrecords : (messageFraming o).records (m.bytes o) = [m.bytes o] := by
    have h := Framing.records_last hwf [] (le_nlmsgAlign _)
    rwa [List.append_nil] at h
  have htype : msgType o (m.bytes o) = rtmNewroute := decode_route_type hmem
  rw [handled, hrecords, List.takeWhile_cons_of_pos, List.takeWhile_nil]
  rw [htype]
  decide

/-- Of a route it is the payload of the attributes that counts. -/
theorem bounded_route_iff {o : ByteOrder} {m : Route} {rest : List Byte}
    (hlen : m.len o < 2 ^ 31) :
    Bounded o (m.bytes o) rest ↔ ∀ a ∈ m.attrs, a.IsAddr → 4 ≤ a.payload.length := by
  have hmem : m.bytes o = [] ++ (m.bytes o ++ []) := by simp
  have hlength : (m.bytes o).length = m.len o := by
    rw [Route.bytes, List.length_append, m.length_headers, Route.len]
  have htype : msgType o (m.bytes o) = rtmNewroute := decode_route_type hmem
  have hattrs : attributesIn o (m.bytes o) = m.attrs.map (Rtattr.bytes o) := by
    have h := records_route hmem hlen
    rwa [List.length_nil, Nat.zero_add, ← hlength] at h
  rw [bounded_iff_longAddrs, handled_route hlen, List.forall_mem_singleton, LongAddrs,
    imp_iff_right htype, hattrs, List.forall_mem_map]
  refine forall₂_congr fun a _ => ?_
  rw [IsAddr, a.attrType_bytes, a.length_bytes, Rtattr.len, sizeofRtattr, Rtattr.IsAddr]
  exact imp_congr_right fun _ => by omega

/-- **What is inspected of a reply of the program.** Whatever the bytes are that are received
through the `iovec` of the request, the loops end, and they inspect only what lies in these bytes,
in the message and in the attribute it belongs to: no message among them holds an attribute. -/
theorem bounded_of_setup {o : ByteOrder} {buffer : Buf sizeofBuffer} {t : List (Event netlink)}
    {s : Locals} (hs : (setup o buffer).After t (.ret (.inl s))) {bs rest : List Byte}
    (hbs : bs.length ≤ s.iov.len) : Bounded o bs rest := by
  rw [setup_iov hs] at hbs
  have hshort : (bs.length : ℤ) ≤ 28 := hbs
  rw [bounded_iff_longAddrs]
  intro m hm _ a ha
  have hle : m.length ≤ bs.length :=
    (Framing.mem_records (List.takeWhile_subset _ hm)).2.2
  have hpayload : ¬ 0 < rtmPayload m.length := by
    intro hpos
    have hrta : rtmRta = 28 := rfl
    have := rtmPayload_le hpos
    omega
  rw [attributesIn, Int.toNat_of_nonpos (not_lt.mp hpayload)] at ha
  have hnil : (attributeFraming o).records (bytesAt m rtmRta 0) = [] := Framing.records_nil
  rw [hnil] at ha
  cases ha

/-- A reply of 28 bytes. It begins with an `RTM_NEWROUTE` of 17 bytes, which is too short for a
`struct rtmsg`. -/
def oddReply : List Byte :=
  ByteOrder.little.encode 4 17 ++ ByteOrder.little.encode 2 rtmNewroute ++ List.replicate 22 255

theorem bounded_of_setup_odd :
    ∃ t s, (setup .little (Buf.zeros _)).After t (.ret (.inl s)) ∧ Bounded .little oddReply [] := by
  obtain ⟨t, s, hs⟩ := exists_setup .little (Buf.zeros _)
  have hlen : oddReply.length ≤ s.iov.len := by
    rw [setup_iov hs]
    decide
  exact ⟨t, s, hs, bounded_of_setup hs hlen⟩

end Inspection

end MyRoute

end UnixNetwork
