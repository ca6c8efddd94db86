import UnixNetwork.MyRoute
import UnixNetwork.Encoding.Framing

/-!
# The attributes of a route

`handle_route_message` of `18/my_route.c` goes through the attributes behind the `struct rtmsg` of
an `RTM_NEWROUTE` message and prints the destination and the gateway it has found.

Every field of a header is read where the function reads it, through a call that says which field
at which place, and so is the address that `inet_ntop` is handed. What the memory holds there is
what the call returns; a pointer is an offset in the memory. The macros of `linux/rtnetlink.h` are
definitions under their names. `rtl` is a signed number, and `RTM_PAYLOAD` is a difference of
unsigned numbers that is converted to one.

## Main definitions

* `MyRoute.Access`, `MyRoute.fields`: the interface
* `MyRoute.attributes`, `MyRoute.handleRouteMessage`: the loop over the attributes, and the function
* `MyRoute.Rtattr`, `MyRoute.Route`: attributes, and messages made of them
* `MyRoute.reading`: the memory, with the attributes visited and the texts printed

## Main results

* `executes_attributes`: the loop visits the attributes that stand in its bytes
* `executes_handleRouteMessage_iff`: what has been encoded is what is visited and printed
-/

namespace UnixNetwork

namespace MyRoute

open Interaction Encoding

/-! ## Constants and macros -/

/-- `RTM_NEWROUTE`. -/
def rtmNewroute : ℕ := 24

/-- `RTA_DST`. -/
def rtaDst : ℕ := 1

/-- `RTA_GATEWAY`. -/
def rtaGateway : ℕ := 5

/-- `INET_ADDRSTRLEN`. -/
def inetAddrstrlen : ℕ := 16

/-- `sizeof(struct rtattr)`. -/
def sizeofRtattr : ℕ := 4

/-- `RTA_ALIGN(len)`. -/
def rtaAlign (len : ℕ) : ℕ := (len + 3) / 4 * 4

theorem le_rtaAlign (len : ℕ) : len ≤ rtaAlign len := by
  rw [rtaAlign]
  omega

/-- `NLMSG_SPACE(len)`. -/
def nlmsgSpace (len : ℕ) : ℕ := nlmsgAlign (nlmsgLength len)

/-- `RTM_RTA(rtm)`, as an offset from `nlh`. -/
def rtmRta : ℕ := nlmsgData + nlmsgAlign sizeofRtmsg

/-- `RTA_DATA(rta)`, as an offset from `rta`. -/
def rtaData : ℕ := rtaAlign sizeofRtattr

/-- `RTM_PAYLOAD(nlh)`, converted to an `int`. -/
def rtmPayload (len : ℕ) : ℤ := ((len : ℤ) - nlmsgSpace sizeofRtmsg).bmod (2 ^ 32)

/-! ## The interface -/

/-- The fields that are read and the calls that are made. A `printf` carries the contents of the
arrays it is handed. -/
inductive Access where
  | nlmsgLen (nlh : ℕ)
  | nlmsgType (nlh : ℕ)
  | rtaLen (rta : ℕ)
  | rtaType (rta : ℕ)
  | inetNtop (addr : ℕ)
  | printf (format : String) (args : List (List Byte))

/-- The result of each: the number that is read, or the text that `inet_ntop` stores. -/
@[reducible] def Access.Res : Access → Type
  | .nlmsgLen _ => ℕ
  | .nlmsgType _ => ℕ
  | .rtaLen _ => ℕ
  | .rtaType _ => ℕ
  | .inetNtop _ => List Byte
  | .printf .. => Unit

/-- The interface of the functions that go through a reply. -/
abbrev fields : Interface := ⟨Access, Access.Res⟩

/-- Read a field, or make a call. -/
def access (a : Access) : Prog fields a.Res := Prog.perform (I := fields) a

@[simp] theorem access_bind {β : Type} (a : Access) (f : a.Res → Prog fields β) :
    access a >>= f = Prog.call (I := fields) a f := rfl

/-! ## The function -/

/-- The arrays `dst` and `gateway`. -/
structure Texts where
  /-- `dst`. -/
  dst : Buf inetAddrstrlen
  /-- `gateway`. -/
  gateway : Buf inetAddrstrlen

/-- The arrays as they are initialised. -/
def Texts.zeros : Texts := ⟨Buf.zeros _, Buf.zeros _⟩

/-- The `switch` on the type of an attribute. -/
def switch (type rta : ℕ) (s : Texts) : Prog fields Texts :=
  if type = rtaDst then do
    let t ← access (.inetNtop (rta + rtaData))
    return { s with dst := s.dst.put 0 (t ++ [0]) }
  else if type = rtaGateway then do
    let t ← access (.inetNtop (rta + rtaData))
    return { s with gateway := s.gateway.put 0 (t ++ [0]) }
  else return s

/-- The loop over the attributes, from `rta` on and with `rtl` bytes left. -/
def attributes (rta : ℕ) (rtl : ℤ) (s : Texts) : Prog fields Texts :=
  -- the three conditions of `RTA_OK`
  if _ : rtl < sizeofRtattr then .ret s
  else (access (.rtaLen rta)).bind fun (len : ℕ) =>
    if _ : sizeofRtattr ≤ len ∧ (len : ℤ) ≤ rtl then do
      let type ← access (.rtaType rta)
      let s ← switch type rta s
      -- `RTA_NEXT`
      attributes (rta + rtaAlign len) (rtl - rtaAlign len) s
    else .ret s
termination_by rtl.toNat
decreasing_by
  have hrtl : ¬ rtl < (4 : ℕ) := ‹¬ rtl < sizeofRtattr›
  have hlen : 4 ≤ len := And.left ‹sizeofRtattr ≤ len ∧ (len : ℤ) ≤ rtl›
  have hle : len ≤ rtaAlign len := le_rtaAlign len
  omega

/-- `handle_route_message(nlh)`. -/
def handleRouteMessage (nlh : ℕ) : Prog fields Unit := do
  let type ← access (.nlmsgType nlh)
  if type = rtmNewroute then do
    let len ← access (.nlmsgLen nlh)
    let s ← attributes (nlh + rtmRta) (rtmPayload len) .zeros
    access (.printf "Destination: %s, Gateway: %s\n" [s.dst.toList, s.gateway.toList])
  else return ()

/-! ## The memory -/

/-- `len` bytes of the memory. -/
def bytesAt (mem : List Byte) (off len : ℕ) : List Byte := (mem.drop off).take len

/-- The character of a digit. -/
def digit (n : ℕ) : Byte := UInt8.ofNat (48 + n)

/-- The decimal digits of a byte. -/
def decimal (b : Byte) : List Byte :=
  let n := b.toNat
  if n < 10 then [digit n]
  else if n < 100 then [digit (n / 10), digit (n % 10)]
  else [digit (n / 100), digit (n / 10 % 10), digit (n % 10)]

/-- The dotted form of an address. -/
def dotted : List Byte → List Byte
  | [] => []
  | [b] => decimal b
  | b :: c :: l => decimal b ++ 46 :: dotted (c :: l)

/-- What is read is what the memory holds. -/
def Answers (o : ByteOrder) (mem : List Byte) : (a : Access) → a.Res → Prop
  | .nlmsgLen nlh, r => r = o.decode (bytesAt mem nlh 4)
  | .nlmsgType nlh, r => r = o.decode (bytesAt mem (nlh + 4) 2)
  | .rtaLen rta, r => r = o.decode (bytesAt mem rta 2)
  | .rtaType rta, r => r = o.decode (bytesAt mem (rta + 2) 2)
  | .inetNtop addr, r => r = dotted (bytesAt mem addr 4)
  | .printf .., _ => True

/-- What `handle_route_message` has done. -/
structure Log where
  /-- The attributes that it has looked at the type of. -/
  visited : List (List Byte)
  /-- What it has printed. -/
  printed : List (String × List (List Byte))

/-- What has been done once an access has returned. -/
def Log.next (o : ByteOrder) (mem : List Byte) (w : Log) : (a : Access) → a.Res → Log
  | .rtaType rta, _ =>
    { w with visited := w.visited ++ [bytesAt mem rta (o.decode (bytesAt mem rta 2))] }
  | .printf format args, _ =>
    { w with printed := w.printed ++ [(format, args.map CString.str)] }
  | _, _ => w

/-- A memory, with a log. -/
def reading (o : ByteOrder) (mem : List Byte) : World fields Log :=
  ⟨fun _ => Answers o mem, Log.next o mem⟩

/-! ## Attributes as records -/

/-- Attributes are records. -/
def attributeFraming (o : ByteOrder) : Framing Byte where
  header := sizeofRtattr
  header_pos := by decide
  len l := o.decode (l.take 2)
  len_append l r h := by
    have hl : 4 ≤ l.length := h
    rw [List.take_append_of_le_length (by omega)]
  align := rtaAlign
  le_align := le_rtaAlign

/-- `rta_type` of an attribute. -/
def attrType (o : ByteOrder) (a : List Byte) : ℕ := o.decode (bytesAt a 2 2)

/-- The address in it is handed to `inet_ntop`. -/
def IsAddr (o : ByteOrder) (a : List Byte) : Prop :=
  attrType o a = rtaDst ∨ attrType o a = rtaGateway

instance (o : ByteOrder) (a : List Byte) : Decidable (IsAddr o a) :=
  inferInstanceAs (Decidable (_ ∨ _))

/-- An array that is kept for the attributes of one type, once an attribute has been seen. -/
def keep (o : ByteOrder) (type : ℕ) (b : Buf inetAddrstrlen) (a : List Byte) :
    Buf inetAddrstrlen :=
  if attrType o a = type then b.put 0 (dotted (bytesAt a rtaData 4) ++ [0]) else b

/-- The arrays once an attribute has been seen. -/
def Texts.after (o : ByteOrder) (s : Texts) (a : List Byte) : Texts :=
  ⟨keep o rtaDst s.dst a, keep o rtaGateway s.gateway a⟩

/-- A part of a window is a part of the memory. -/
theorem bytesAt_bytesAt {mem : List Byte} {rta len i k : ℕ} (h : i + k ≤ len) :
    bytesAt (bytesAt mem rta len) i k = bytesAt mem (rta + i) k := by
  rw [bytesAt, bytesAt, bytesAt, List.drop_take, List.take_take, List.drop_drop,
    Nat.min_eq_left (by omega)]

theorem length_bytesAt {mem : List Byte} {off len : ℕ} (h : off + len ≤ mem.length) :
    (bytesAt mem off len).length = len := by
  rw [bytesAt, List.length_take_of_le]
  rw [List.length_drop]
  omega

/-- The type of an attribute that stands in the memory. -/
theorem attrType_bytesAt (o : ByteOrder) (mem : List Byte) (rta : ℕ) {len : ℕ} (h : 4 ≤ len) :
    attrType o (bytesAt mem rta len) = o.decode (bytesAt mem (rta + 2) 2) := by
  rw [attrType, bytesAt_bytesAt h]

/-! ## The loop over the attributes -/

section Loop

variable {o : ByteOrder} {mem : List Byte} {rta : ℕ} {rtl : ℤ} {s : Texts}

theorem attributes_of_lt (h : rtl < 4) : attributes rta rtl s = .ret s := by
  rw [attributes, dif_pos (show rtl < sizeofRtattr from h)]

theorem attributes_of_le (h : 4 ≤ rtl) : attributes rta rtl s =
    Prog.call (I := fields) (.rtaLen rta) fun (len : ℕ) => if 4 ≤ len ∧ (len : ℤ) ≤ rtl then
      Prog.call (I := fields) (.rtaType rta) fun type => switch type rta s >>= fun s =>
        attributes (rta + rtaAlign len) (rtl - rtaAlign len) s
    else .ret s := by
  have hn : ¬ rtl < sizeofRtattr := not_lt.mpr h
  rw [attributes, dif_neg hn]
  rfl

theorem executes_switch {a : List Byte} (ha : a = bytesAt mem rta a.length)
    (haddr : IsAddr o a → 8 ≤ a.length) {w w' : Log} {x : Texts} :
    Executes (reading o mem) (switch (attrType o a) rta s) w x w' ↔ x = s.after o a ∧ w' = w := by
  have haddr' : IsAddr o a → bytesAt a rtaData 4 = bytesAt mem (rta + rtaData) 4 := by
    intro h
    have hsub : bytesAt (bytesAt mem rta a.length) rtaData 4 = bytesAt mem (rta + rtaData) 4 :=
      bytesAt_bytesAt (haddr h)
    rwa [← ha] at hsub
  have hntop : ∀ r : List Byte, (reading o mem).Allows w (.inetNtop (rta + rtaData)) r ↔
      r = dotted (bytesAt mem (rta + rtaData) 4) := fun _ => Iff.rfl
  rw [switch]
  split
  · next hdst =>
    have hgw : attrType o a ≠ rtaGateway := by
      rw [hdst]
      decide
    rw [access_bind, executes_call_of_unique hntop, ← haddr' (.inl hdst)]
    simp [Texts.after, keep, hdst, reading, Log.next, rtaDst, rtaGateway]
  · next hdst =>
    split
    · next hgw =>
      rw [access_bind, executes_call_of_unique hntop, ← haddr' (.inr hgw)]
      simp [Texts.after, keep, hgw, reading, Log.next, rtaDst, rtaGateway]
    · next hgw => simp [Texts.after, keep, hdst, hgw]

/-- A turn of the loop, where a whole attribute stands. -/
theorem executes_attributes_of_le {len : ℕ} (hl : o.decode (bytesAt mem rta 2) = len)
    (hmem : rta + rtl ≤ mem.length) (h4 : 4 ≤ len) (hle : (len : ℤ) ≤ rtl)
    (haddr : IsAddr o (bytesAt mem rta len) → 8 ≤ len) {w w' : Log} {x : Texts} :
    Executes (reading o mem) (attributes rta rtl s) w x w' ↔
      Executes (reading o mem) (attributes (rta + rtaAlign len) (rtl - rtaAlign len)
        (s.after o (bytesAt mem rta len)))
        { w with visited := w.visited ++ [bytesAt mem rta len] } x w' := by
  have hlen : ∀ r : ℕ, (reading o mem).Allows w (.rtaLen rta) r ↔
      r = o.decode (bytesAt mem rta 2) := fun _ => Iff.rfl
  have hcall : ∀ r : ℕ, (reading o mem).Allows w (.rtaType rta) r ↔
      r = attrType o (bytesAt mem rta len) := fun _ => by
    rw [attrType_bytesAt o mem rta h4]
    exact Iff.rfl
  have ha : (bytesAt mem rta len).length = len := length_bytesAt (by omega)
  have hswitch : ∀ w₁ y, Executes (reading o mem)
      (switch (attrType o (bytesAt mem rta len)) rta s)
      { w with visited := w.visited ++ [bytesAt mem rta len] } y w₁ ↔
        y = s.after o (bytesAt mem rta len) ∧
          w₁ = { w with visited := w.visited ++ [bytesAt mem rta len] } := by
    intro w₁ y
    refine executes_switch ?_ ?_
    · rw [ha]
    · rwa [ha]
  have hnext : (reading o mem).next ((reading o mem).next w (.rtaLen rta) len) (.rtaType rta)
      (attrType o (bytesAt mem rta len)) =
        { w with visited := w.visited ++ [bytesAt mem rta len] } := by
    rw [← hl]
    rfl
  rw [attributes_of_le (by omega), executes_call_of_unique hlen, hl, if_pos ⟨h4, hle⟩,
    executes_call_of_unique hcall, hnext, executes_bind]
  simp only [hswitch]
  constructor
  · rintro ⟨_, _, ⟨rfl, rfl⟩, h⟩
    exact h
  · exact fun h => ⟨_, _, ⟨rfl, rfl⟩, h⟩

/-- **The loop over the attributes.** It visits the attributes that stand in its bytes, in order,
and stops. -/
theorem executes_attributes (hmem : 0 < rtl → rta + rtl ≤ mem.length) {rs : List (List Byte)}
    (hrs : (attributeFraming o).records (bytesAt mem rta rtl.toNat) = rs)
    (haddr : ∀ a ∈ rs, IsAddr o a → 8 ≤ a.length) {w w' : Log} {x : Texts} :
    Executes (reading o mem) (attributes rta rtl s) w x w' ↔
      x = rs.foldl (Texts.after o) s ∧ w' = { w with visited := w.visited ++ rs } := by
  induction hk : rtl.toNat using Nat.strong_induction_on generalizing rta rtl s w rs with
  | _ k ih =>
  by_cases h4 : rtl < 4
  · have hnil : rs = [] := hrs.symm.trans (Framing.records_window_of_lt h4)
    rw [attributes_of_lt h4, executes_ret, hnil, List.append_nil]
    rfl
  have h4 : 4 ≤ rtl := not_lt.mp h4
  have hrtl : rta + rtl ≤ mem.length := hmem (by omega)
  by_cases hok : 4 ≤ o.decode (bytesAt mem rta 2) ∧ (o.decode (bytesAt mem rta 2) : ℤ) ≤ rtl
  · have hcons := (Framing.records_window (F := attributeFraming o) hrtl h4 hok).symm.trans hrs
    generalize hl : o.decode (bytesAt mem rta 2) = len at hok
    have halign := le_rtaAlign len
    have ha : (bytesAt mem rta len).length = len := length_bytesAt (by omega)
    obtain ⟨rs', rfl⟩ : ∃ rs', rs = bytesAt mem rta len :: rs' := by
      rw [← hcons, ← hl]
      exact ⟨_, rfl⟩
    have hrest : (attributeFraming o).records
        (bytesAt mem (rta + rtaAlign len) (rtl - rtaAlign len).toNat) = rs' := by
      subst hl
      exact List.tail_eq_of_cons_eq hcons
    have haddr' := haddr _ List.mem_cons_self
    rw [ha] at haddr'
    rw [executes_attributes_of_le hl hrtl hok.1 hok.2 haddr',
      ih _ (by omega) (by omega) hrest (fun a ha => haddr a (List.mem_cons_of_mem _ ha)) rfl,
      List.append_assoc]
    rfl
  · have hlen : ∀ r : ℕ, (reading o mem).Allows w (.rtaLen rta) r ↔
        r = o.decode (bytesAt mem rta 2) := fun _ => Iff.rfl
    have hnil : rs = [] := hrs.symm.trans (Framing.records_window_of_not hrtl h4 hok)
    rw [attributes_of_le h4, executes_call_of_unique hlen, if_neg hok, executes_ret, hnil,
      List.append_nil]
    rfl

end Loop

/-! ## The texts -/

/-- There is nothing but digits in the decimal form of a byte. -/
theorem notMem_decimal {c : Byte} (hc : ∀ n < 10, c ≠ digit n) (b : Byte) : c ∉ decimal b := by
  have hb : b.toNat < 256 := b.toNat_lt
  rw [decimal]
  split
  · simp [hc b.toNat (by omega)]
  · split
    · simp [hc (b.toNat / 10) (by omega), hc (b.toNat % 10) (by omega)]
    · simp [hc (b.toNat / 100) (by omega), hc (b.toNat / 10 % 10) (by omega),
        hc (b.toNat % 10) (by omega)]

theorem zero_notMem_decimal (b : Byte) : 0 ∉ decimal b := notMem_decimal (by decide) b

theorem length_decimal_le (b : Byte) : (decimal b).length ≤ 3 := by
  rw [decimal]
  split
  · simp
  · split <;> simp

/-- A dotted address is its bytes, with a dot between them. -/
theorem dotted_eq_intercalate (l : List Byte) : dotted l = [46].intercalate (l.map decimal) := by
  induction l using dotted.induct with
  | case1 => rfl
  | case2 b => simp [dotted]
  | case3 b c l ih => simp [dotted, ih]

theorem zero_notMem_dotted (l : List Byte) : 0 ∉ dotted l := by
  induction l using dotted.induct with
  | case1 => simp [dotted]
  | case2 b => exact zero_notMem_decimal b
  | case3 b c l ih =>
    rw [dotted, List.mem_append, List.mem_cons, not_or, not_or]
    exact ⟨zero_notMem_decimal b, by decide, ih⟩

theorem length_dotted_le (l : List Byte) : (dotted l).length ≤ 4 * l.length - 1 := by
  induction l using dotted.induct with
  | case1 => simp [dotted]
  | case2 b => exact length_decimal_le b
  | case3 b c l ih =>
    have hb := length_decimal_le b
    rw [dotted, List.length_append, List.length_cons]
    simp only [List.length_cons] at ih ⊢
    omega

/-- A dotted address fits into the array that it is stored in. -/
theorem length_dotted_bytesAt_lt (mem : List Byte) (off : ℕ) :
    (dotted (bytesAt mem off 4)).length < inetAddrstrlen := by
  have hdot := length_dotted_le (bytesAt mem off 4)
  have hlen : (bytesAt mem off 4).length ≤ 4 := List.length_take_le _ _
  rw [inetAddrstrlen]
  omega

/-- A text can be read back. -/
theorem str_put_dotted (b : Buf inetAddrstrlen) (mem : List Byte) (off : ℕ) :
    CString.str (b.put 0 (dotted (bytesAt mem off 4) ++ [0])).toList =
      dotted (bytesAt mem off 4) := by
  rw [Buf.toList_put_line (length_dotted_bytesAt_lt mem off),
    CString.str_append_zero (zero_notMem_dotted _)]

theorem foldl_after (o : ByteOrder) (rs : List (List Byte)) (s : Texts) :
    rs.foldl (Texts.after o) s =
      ⟨rs.foldl (keep o rtaDst) s.dst, rs.foldl (keep o rtaGateway) s.gateway⟩ := by
  induction rs generalizing s with
  | nil => rfl
  | cons a rs ih => rw [List.foldl_cons, ih]; rfl

/-- An array holds the address of the last attribute of its type. -/
theorem str_foldl_keep (o : ByteOrder) (type : ℕ) (b : Buf inetAddrstrlen)
    (rs : List (List Byte)) : CString.str (rs.foldl (keep o type) b).toList =
      match (rs.filter fun a => attrType o a = type).getLast? with
      | none => CString.str b.toList
      | some a => dotted (bytesAt a rtaData 4) := by
  induction rs using List.reverseRecOn with
  | nil => rfl
  | append_singleton rs a ih =>
    rw [List.foldl_concat, keep, List.filter_append]
    split
    · next ha =>
      rw [str_put_dotted]
      simp [ha]
    · next ha =>
      rw [ih]
      simp [ha]

/-! ## Routes -/

/-- An attribute, with the padding behind it. -/
structure Rtattr where
  /-- `rta_type`. -/
  type : UInt16
  /-- What follows the header. -/
  payload : List Byte
  /-- The padding. -/
  pad : List Byte
  /-- `rta_len` has 16 bits. -/
  fits : sizeofRtattr + payload.length < 2 ^ 16
  /-- The padding reaches to the next multiple of `RTA_ALIGNTO`. -/
  aligned : sizeofRtattr + payload.length + pad.length = rtaAlign (sizeofRtattr + payload.length)

namespace Rtattr

/-- `rta_len`. -/
def len (a : Rtattr) : ℕ := sizeofRtattr + a.payload.length

/-- The bytes of the attribute. -/
def bytes (o : ByteOrder) (a : Rtattr) : List Byte :=
  o.encode 2 a.len ++ (o.encode 2 a.type.toNat ++ a.payload)

/-- The address in the attribute is handed to `inet_ntop`. -/
def IsAddr (a : Rtattr) : Prop := a.type.toNat = rtaDst ∨ a.type.toNat = rtaGateway

instance (a : Rtattr) : Decidable a.IsAddr := inferInstanceAs (Decidable (_ ∨ _))

variable {o : ByteOrder} {a : Rtattr}

theorem length_bytes (o : ByteOrder) (a : Rtattr) : (a.bytes o).length = a.len := by
  simp only [bytes, List.length_append, ByteOrder.length_encode, len, sizeofRtattr]
  omega

theorem attrType_bytes (o : ByteOrder) (a : Rtattr) : attrType o (a.bytes o) = a.type.toNat := by
  have h : bytesAt (a.bytes o) 2 2 = o.encode 2 a.type.toNat := by
    rw [bytes, bytesAt, List.drop_left' (o.length_encode 2 _),
      List.take_left' (o.length_encode 2 _)]
  rw [attrType, h, o.decode_encode (by simpa using a.type.toNat_lt)]

theorem bytesAt_bytes (o : ByteOrder) (a : Rtattr) :
    bytesAt (a.bytes o) rtaData 4 = a.payload.take 4 := by
  have hlen : (o.encode 2 a.len ++ o.encode 2 a.type.toNat).length = rtaData := by
    simp [rtaData, rtaAlign, sizeofRtattr]
  rw [bytes, ← List.append_assoc, bytesAt, List.drop_left' hlen]

theorem wellFormed (o : ByteOrder) (a : Rtattr) :
    (attributeFraming o).WellFormed (a.bytes o) where
  header_le := by
    rw [length_bytes]
    exact Nat.le_add_right _ _
  len_eq := by
    have hfits : a.len < 256 ^ 2 := a.fits
    have h : (a.bytes o).take 2 = o.encode 2 a.len := List.take_left' (o.length_encode 2 _)
    show o.decode ((a.bytes o).take 2) = _
    rw [h, o.decode_encode hfits, length_bytes]

end Rtattr

/-- The bytes of some attributes, one behind the other. The last one may go without its padding. -/
def attrBytes (o : ByteOrder) (padded : Bool) : List Rtattr → List Byte
  | [] => []
  | a :: as =>
    a.bytes o ++ ((if as.isEmpty && !padded then [] else a.pad) ++ attrBytes o padded as)

/-- Attributes are found again in their bytes. -/
theorem records_attrBytes (o : ByteOrder) (padded : Bool) (as : List Rtattr) :
    (attributeFraming o).records (attrBytes o padded as) = as.map (Rtattr.bytes o) := by
  induction as with
  | nil => exact Framing.records_nil
  | cons a as ih =>
    have haligned : (a.bytes o).length + a.pad.length =
        (attributeFraming o).align (a.bytes o).length := by
      rw [a.length_bytes]
      exact a.aligned
    rw [attrBytes]
    split
    · next h =>
      obtain rfl : as = [] := List.isEmpty_iff.mp (Bool.and_eq_true_iff.mp h).1
      exact Framing.records_last (a.wellFormed o) []
        (Nat.le_trans (Nat.le_add_right _ _) haligned.le)
    · rw [Framing.records_cons (a.wellFormed o) haligned, ih, List.map_cons]

/-- An `RTM_NEWROUTE` message. -/
structure Route where
  /-- `nlmsg_flags`. -/
  flags : UInt16
  /-- `nlmsg_seq`. -/
  seq : UInt32
  /-- `nlmsg_pid`. -/
  pid : UInt32
  /-- The `struct rtmsg`. -/
  rtm : List Byte
  /-- Its size. -/
  length_rtm : rtm.length = sizeofRtmsg
  /-- The attributes. -/
  attrs : List Rtattr
  /-- The length of the message counts the padding of the last attribute. -/
  padded : Bool

namespace Route

/-- `nlmsg_len`. -/
def len (o : ByteOrder) (m : Route) : ℕ := rtmRta + (attrBytes o m.padded m.attrs).length

/-- The headers of the message. -/
def headers (o : ByteOrder) (m : Route) : List Byte :=
  o.encode 4 (m.len o) ++ (o.encode 2 rtmNewroute ++ (o.encode 2 m.flags.toNat ++
    (o.encode 4 m.seq.toNat ++ (o.encode 4 m.pid.toNat ++ m.rtm))))

/-- The bytes of the message. -/
def bytes (o : ByteOrder) (m : Route) : List Byte := m.headers o ++ attrBytes o m.padded m.attrs

/-- The dotted address in the last attribute of a type, if there is one. -/
def shown (m : Route) (type : ℕ) : List Byte :=
  match (m.attrs.filter fun a => a.type.toNat = type).getLast? with
  | none => []
  | some a => dotted (a.payload.take 4)

end Route

section Round

variable {o : ByteOrder} {mem before behind : List Byte}

/-- What stands behind a part of the memory. -/
theorem bytesAt_of_prefix {b l : List Byte} {off k : ℕ} (h : b ++ l <+: mem)
    (hoff : b.length = off) (hk : l.length = k) : bytesAt mem off k = l := by
  obtain ⟨z, rfl⟩ := h
  rw [bytesAt, List.append_assoc, List.drop_left' hoff, List.take_left' hk]

theorem Route.length_headers (o : ByteOrder) (m : Route) : (m.headers o).length = rtmRta := by
  simp only [Route.headers, List.length_append, ByteOrder.length_encode, m.length_rtm]
  rfl

/-- What is printed of the address of a type. -/
theorem str_foldl_keep_map (m : Route) (type : ℕ) :
    CString.str ((m.attrs.map (Rtattr.bytes o)).foldl (keep o type) (Buf.zeros _)).toList =
      m.shown type := by
  have hfilter : (m.attrs.map (Rtattr.bytes o)).filter (fun a => attrType o a = type) =
      (m.attrs.filter fun a => a.type.toNat = type).map (Rtattr.bytes o) := by
    rw [List.filter_map]
    refine congrArg _ (List.filter_congr fun a _ => ?_)
    simp [Rtattr.attrType_bytes]
  have hzeros : CString.str (Buf.zeros inetAddrstrlen).toList = [] := by decide
  rw [str_foldl_keep, hfilter, List.getLast?_map, Route.shown]
  cases (m.attrs.filter fun a => a.type.toNat = type).getLast? with
  | none => exact hzeros
  | some a => exact congrArg dotted (a.bytesAt_bytes o)

theorem rtmPayload_of_lt {n : ℕ} (h : rtmRta + n < 2 ^ 31) : rtmPayload (rtmRta + n) = n := by
  have hrta : nlmsgSpace sizeofRtmsg = rtmRta := rfl
  rw [rtmPayload, hrta, Int.bmod_eq_of_le (by omega) (by omega)]
  omega

section Encoded

variable {m : Route} (hmem : mem = before ++ (m.bytes o ++ behind))

include hmem

/-- The type of the message, read from the memory. -/
theorem decode_route_type : o.decode (bytesAt mem (before.length + 4) 2) = rtmNewroute := by
  have h : bytesAt mem (before.length + 4) 2 = o.encode 2 rtmNewroute := by
    refine bytesAt_of_prefix (b := before ++ o.encode 4 (m.len o)) ?_ ?_ (o.length_encode 2 _)
    · rw [hmem, Route.bytes, Route.headers]
      simp only [List.append_assoc, List.prefix_append_right_inj, List.prefix_append]
    · rw [List.length_append, o.length_encode]
  rw [h, o.decode_encode (by decide)]

/-- The length of the message, read from the memory. -/
theorem decode_route_len (hlen : m.len o < 2 ^ 31) :
    o.decode (bytesAt mem before.length 4) = m.len o := by
  have h : bytesAt mem before.length 4 = o.encode 4 (m.len o) := by
    refine bytesAt_of_prefix ?_ rfl (o.length_encode 4 _)
    rw [hmem, Route.bytes, Route.headers]
    simp only [List.append_assoc, List.prefix_append_right_inj, List.prefix_append]
  rw [h, o.decode_encode (hlen.trans (by decide))]

/-- The attributes of the message, read from the memory. -/
theorem records_route (hlen : m.len o < 2 ^ 31) :
    (attributeFraming o).records (bytesAt mem (before.length + rtmRta)
      (rtmPayload (m.len o)).toNat) = m.attrs.map (Rtattr.bytes o) := by
  have h : bytesAt mem (before.length + rtmRta) (attrBytes o m.padded m.attrs).length =
      attrBytes o m.padded m.attrs := by
    refine bytesAt_of_prefix (b := before ++ m.headers o) ?_ ?_ rfl
    · rw [hmem, Route.bytes]
      simp only [List.append_assoc, List.prefix_append_right_inj, List.prefix_append]
    · rw [List.length_append, m.length_headers]
  rw [Route.len, rtmPayload_of_lt hlen, Int.toNat_natCast, h, records_attrBytes]

/-- There is room for them. -/
theorem route_le_length (hlen : m.len o < 2 ^ 31) :
    ((before.length + rtmRta : ℕ) : ℤ) + rtmPayload (m.len o) ≤ mem.length := by
  rw [Route.len, rtmPayload_of_lt hlen, hmem, Route.bytes]
  simp only [List.length_append, m.length_headers]
  omega

end Encoded

/-- **The round trip of a route.** Of a message that is encoded somewhere in the memory,
`handle_route_message` visits the attributes it has been made of, once each and in order, and then
prints the addresses in the last `RTA_DST` and in the last `RTA_GATEWAY`. -/
theorem executes_handleRouteMessage_iff {m : Route} (hlen : m.len o < 2 ^ 31)
    (haddr : ∀ a ∈ m.attrs, a.IsAddr → 4 ≤ a.payload.length)
    (hmem : mem = before ++ (m.bytes o ++ behind)) {x : Unit} {w : Log} :
    Executes (reading o mem) (handleRouteMessage before.length) ⟨[], []⟩ x w ↔
      w = ⟨m.attrs.map (Rtattr.bytes o),
        [("Destination: %s, Gateway: %s\n", [m.shown rtaDst, m.shown rtaGateway])]⟩ := by
  have hlong : ∀ a ∈ m.attrs.map (Rtattr.bytes o), IsAddr o a → 8 ≤ a.length := by
    intro a ha
    obtain ⟨b, hb, rfl⟩ := List.mem_map.mp ha
    rw [IsAddr, b.attrType_bytes, b.length_bytes, Rtattr.len, sizeofRtattr]
    intro h
    have := haddr b hb h
    omega
  have htype : ∀ r : ℕ, (reading o mem).Allows ⟨[], []⟩ (.nlmsgType before.length) r ↔
      r = rtmNewroute := by
    intro r
    rw [← decode_route_type hmem]
    rfl
  have hmlen : ∀ r : ℕ, (reading o mem).Allows ⟨[], []⟩ (.nlmsgLen before.length) r ↔
      r = m.len o := by
    intro r
    rw [← decode_route_len hmem hlen]
    rfl
  have hprintf : ∀ (w : Log) (f : String) (l : List (List Byte)) (r : Unit),
      (reading o mem).Allows w (.printf f l) r ↔ r = () := fun _ _ _ _ => iff_of_true trivial rfl
  rw [handleRouteMessage, access_bind, executes_call_of_unique htype, if_pos rfl, access_bind]
  refine (executes_call_of_unique hmlen).trans ?_
  rw [executes_bind]
  simp only [executes_attributes (fun _ => route_le_length hmem hlen) (records_route hmem hlen)
    hlong]
  have hprinted : ∀ w : Log, Executes (reading o mem)
      (access (.printf "Destination: %s, Gateway: %s\n"
        [((m.attrs.map (Rtattr.bytes o)).foldl (Texts.after o) .zeros).dst.toList,
          ((m.attrs.map (Rtattr.bytes o)).foldl (Texts.after o) .zeros).gateway.toList]))
      ⟨m.attrs.map (Rtattr.bytes o), []⟩ x w ↔ w = ⟨m.attrs.map (Rtattr.bytes o),
        [("Destination: %s, Gateway: %s\n", [m.shown rtaDst, m.shown rtaGateway])]⟩ := by
    intro w
    refine (executes_call_of_unique (hprintf _ _ _)).trans ?_
    rw [executes_ret, foldl_after]
    simp only [reading, Log.next, List.map_cons, List.map_nil, Texts.zeros, str_foldl_keep_map,
      List.nil_append, true_and]
  constructor
  · rintro ⟨_, _, ⟨rfl, rfl⟩, h⟩
    exact (hprinted w).mp h
  · intro h
    exact ⟨_, _, ⟨rfl, rfl⟩, (hprinted w).mpr h⟩

/-- A route with a destination, an attribute of another type and a gateway. The last one is not
padded. -/
def viaGateway : Route where
  flags := 2
  seq := 1
  pid := 0
  rtm := List.replicate 12 0
  length_rtm := rfl
  attrs :=
    [⟨1, [10, 0, 0, 0], [], by decide, rfl⟩, ⟨52, [7], [0, 0, 0], by decide, rfl⟩,
      ⟨5, [10, 0, 0, 255, 9], [0, 0, 0], by decide, rfl⟩]
  padded := false

/-- What is printed of it. -/
theorem executes_handleRouteMessage_viaGateway :
    Executes (reading .little (viaGateway.bytes .little ++ [])) (handleRouteMessage 0) ⟨[], []⟩ ()
      ⟨viaGateway.attrs.map (Rtattr.bytes .little), [("Destination: %s, Gateway: %s\n",
        [dotted [10, 0, 0, 0], dotted [10, 0, 0, 255]])]⟩ :=
  executes_handleRouteMessage_iff (m := viaGateway) (by decide) (by decide)
    (show _ = [] ++ _ from rfl) |>.mpr rfl

end Round

end MyRoute

end UnixNetwork
