import UnixNetwork.Interaction.Link
import UnixNetwork.MyRoute.Stop

/-!
# What the route program prints

The whole of `18/my_route.c`: `query_route_table` with `handle_route_message` in the place of its
call, which reads the message out of the buffer.

Since a reply is received through the `iovec` of the request, of 28 bytes, no message in it is
longer than its headers. So whatever the kernel replies, `handle_route_message` finds no attribute
in a message, and no address is ever printed.

## Main definitions

* `MyRoute.Printed.placed`, `MyRoute.Printed.world`: the functions in the place of their calls, and
  the kernel, which replies with anything
* `MyRoute.Printed.Brief`: what is known of the calls of `query_route_table`

## Main results

* `Printed.wp_setup`, `Printed.wp_body`: the calls of `query_route_table`
* `Printed.prints_no_address`: no address is printed, and nothing undefined is done
-/

namespace UnixNetwork

namespace MyRoute

namespace Printed

open Interaction Encoding Inspection

/-! ## The program -/

/-- The calls of the program. -/
inductive Call where
  | kernel (c : MyRoute.Call)
  | printf (format : String) (args : List (List Byte))

/-- The result of each call. -/
@[reducible] def Res : Call → Type
  | .kernel c => MyRoute.Res c
  | .printf .. => Unit

/-- The interface of the program. -/
abbrev whole : Interface := ⟨Call, Res⟩

/-- A `printf` of `handle_route_message`. -/
def print (x : String × List (List Byte)) : Prog whole Unit :=
  Prog.perform (I := whole) (.printf x.1 x.2)

/-- `handle_route_message` in the place of a call of it. -/
def placed (o : ByteOrder) : (c : MyRoute.Call) → Prog whole (MyRoute.Res c)
  | .handleRouteMessage nlh => ((handleRouteMessage 0).interp (fromMemory o nlh)).interp print
  | c => Prog.perform (I := whole) (.kernel c)

/-- The line that is printed of a route, with the texts in its arrays. -/
abbrev Line : Type := String × List (List Byte)

/-- The surroundings: what has been printed of routes. A `recvmsg` fails, or it stores any bytes for
which there is room. -/
def world : World whole (List Line) where
  Allows _
    | .kernel c, r => (receiving fun _ => True).Allows none c r
    | .printf .., _ => True
  next w
    | .printf format args, _ => w ++ [(format, args.map CString.str)]
    | .kernel _, _ => w

/-- A line without an address. -/
def blankLine : Line := ("Destination: %s, Gateway: %s\n", [[], []])

/-! ## The calls of `query_route_table` -/

/-- What is known of the calls. -/
def Brief (o : ByteOrder) : MyRoute.Call → Prop
  | .recvmsg _ dst => dst = ⟨sizeofBuffer, 0, 28⟩
  | .handleRouteMessage nlh => 6 ≤ nlh.length ∧ o.decode (bytesAt nlh 0 4) ≤ 28
  | _ => True

/-- No other call is made, and nothing undefined is done. -/
def brief (o : ByteOrder) : Guard netlink (Option (Except Errno (List Byte))) :=
  ⟨fun _ => Brief o, fun _ => False⟩

variable {o : ByteOrder} {w : Option (Except Errno (List Byte))}

/-- The loop over the messages of a reply of 28 bytes at most. -/
theorem wp_messages (b : Buf sizeofBuffer) {nlh : ℕ} {n : ℤ} (h : nlh + n ≤ 28) (hn : -3 ≤ n) :
    wp (receiving fun _ => True) (brief o) (MyRoute.messages o b nlh n) (fun nlh' _ => nlh' ≤ 31)
      w := by
  induction hk : n.toNat using Nat.strong_induction_on generalizing nlh n with
  | _ k ih =>
  by_cases h16 : n < 16
  · rw [MyRoute.messages_of_lt h16]
    show nlh ≤ 31
    omega
  have h16 : 16 ≤ n := not_lt.mp h16
  rw [MyRoute.messages_of_le h16 (by rw [sizeofBuffer]; omega)]
  have hlenAt : bytesAt (b.toList.drop nlh) 0 4 = b.slice nlh 4 := rfl
  split
  · next hok =>
    split
    · exact ⟨trivial, fun _ _ => show nlh ≤ 31 by omega⟩
    · have hle := le_nlmsgAlign (lenAt o b nlh)
      have halign : nlmsgAlign (lenAt o b nlh) ≤ lenAt o b nlh + 3 := by
        rw [nlmsgAlign]
        omega
      refine ⟨⟨?_, ?_⟩, fun _ _ => ?_⟩
      · rw [List.length_drop, Vector.length_toList, sizeofBuffer]
        omega
      · rw [hlenAt]
        show lenAt o b nlh ≤ 28
        omega
      · exact ih _ (by omega) (by omega) (by omega) rfl
  · show nlh ≤ 31
    omega

/-- **The receive loop** receives at most 28 bytes, and hands on no message that is longer. -/
theorem wp_body {s : Locals} (hs : s.iov = ⟨sizeofBuffer, 0, 28⟩) :
    wp (receiving fun _ => True) (brief o) (body o s)
      (fun x _ => ∀ s', x = .inl s' → s'.iov = ⟨sizeofBuffer, 0, 28⟩) w := by
  have hleave : ∀ w, wp (receiving fun _ => True) (brief o) (leave s.sockfd)
      (fun x _ => ∀ s', x = .inl s' → s'.iov = ⟨sizeofBuffer, 0, 28⟩) w :=
    fun w => ⟨trivial, fun _ _ => nofun⟩
  refine ⟨trivial, fun _ _ => ⟨hs, ?_⟩⟩
  rintro (e | bs) hr
  · exact ⟨trivial, fun _ _ => hleave _⟩
  have hbs : (bs.length : ℤ) ≤ 28 := by
    have hle := hr.1
    rwa [hs] at hle
  have hstore : (s.buffer.storeBytes s.iov.off bs : Prog netlink _) = .ret (s.buffer.put 0 bs) := by
    rw [hs]
    exact if_pos (.inr ⟨le_rfl, by rw [sizeofBuffer, zero_add]; omega⟩)
  show wp _ _ (s.buffer.storeBytes s.iov.off bs >>= _) _ _
  rw [hstore, Prog.ret_bind]
  refine ⟨trivial, fun _ _ => ?_⟩
  show wp _ _ (MyRoute.messages o _ 0 bs.length >>= _) _ _
  rw [wp_bind]
  refine wp_mono ?_ (wp_messages (s.buffer.put 0 bs) (by omega) (by omega))
  intro nlh w hnlh
  rw [nlmsgType_of_le (by rw [sizeofBuffer]; omega), Prog.ret_bind]
  split
  · exact hleave w
  · exact fun s' he => by cases he; exact hs

/-- What comes before the loop. -/
theorem wp_setup (buffer : Buf sizeofBuffer) :
    wp (receiving fun _ => True) (brief o) (setup o buffer)
      (fun x _ => ∀ s, x = .inl s → s.iov = ⟨sizeofBuffer, 0, 28⟩) w := by
  refine ⟨trivial, fun r _ => ?_⟩
  show wp _ _ (ite (countValue r < 0) _ _) _ _
  split
  · exact ⟨trivial, fun _ _ => nofun⟩
  refine ⟨trivial, fun pid _ => ⟨trivial, fun r _ => ?_⟩⟩
  show wp _ _ (ite (countValue r < 0) _ _) _ _
  split
  · exact ⟨trivial, fun _ _ => ⟨trivial, fun _ _ => nofun⟩⟩
  refine ⟨trivial, fun pid' _ => ⟨trivial, fun _ _ => ⟨trivial, fun r _ => ?_⟩⟩⟩
  show wp _ _ (ite (countValue r < 0) _ _) _ _
  split
  · exact ⟨trivial, fun _ _ => ⟨trivial, fun _ _ => nofun⟩⟩
  refine ⟨trivial, fun _ _ s hs => ?_⟩
  cases hs
  rw [decode_request]
  rfl

/-! ## The whole program -/

/-- Only lines without an address have been printed. -/
def Blank (w : List Line) : Prop := ∀ x ∈ w, x = blankLine

/-- What is asked of the whole program. -/
def printsBlank : Guard whole (List Line) := ⟨fun w _ => Blank w, fun _ => False⟩

/-- In a message that is not longer than its headers there is no attribute. -/
theorem wp_handleRouteMessage {nlh : List Byte} (hlen : 6 ≤ nlh.length)
    (h : o.decode (bytesAt nlh 0 4) ≤ 28) {w : List Line} (hw : Blank w) :
    wp world printsBlank (placed o (.handleRouteMessage nlh)) (fun _ w' => Blank w') w := by
  have htype : fromMemory o nlh (.nlmsgType 0) = .ret (o.decode (bytesAt nlh 4 2)) := if_pos hlen
  have hlenAt : fromMemory o nlh (.nlmsgLen 0) = .ret (o.decode (bytesAt nlh 0 4)) :=
    if_pos (by omega)
  have hspace : nlmsgSpace sizeofRtmsg = 28 := rfl
  have hpayload : rtmPayload (o.decode (bytesAt nlh 0 4)) < 4 := by
    rw [rtmPayload, hspace, Int.bmod_eq_of_le (by omega) (by omega)]
    omega
  have hzeros : CString.str Texts.zeros.dst.toList = [] ∧
      CString.str Texts.zeros.gateway.toList = [] := by decide
  rw [placed, handleRouteMessage, interp_access, htype, Prog.ret_bind]
  split
  · rw [interp_access, hlenAt, Prog.ret_bind, attributes_of_lt hpayload]
    refine ⟨hw, fun _ _ => ?_⟩
    show Blank (w ++ [(_, [CString.str Texts.zeros.dst.toList,
      CString.str Texts.zeros.gateway.toList])])
    rw [hzeros.1, hzeros.2]
    intro x hx
    rcases List.mem_append.mp hx with hx | hx
    · exact hw x hx
    · exact List.mem_singleton.mp hx
  · exact hw

/-- The whole program does what the calls of `query_route_table` are said to do. -/
theorem implements (o : ByteOrder) :
    Implements (receiving fun _ => True) (brief o) world printsBlank (fun _ w => Blank w)
      (placed o) where
  call s w c hw hc := by
    cases c with
    | handleRouteMessage nlh =>
      exact wp_mono (fun _ _ h => ⟨trivial, h⟩) (wp_handleRouteMessage hc.1 hc.2 hw)
    | _ => exact ⟨hw, fun r hr => ⟨hr, hw⟩⟩
  fault _ _ _ hf := hf

/-- A run of the whole program; `buffer` is not initialised. -/
abbrev Run (o : ByteOrder) (buffer : Buf sizeofBuffer) :
    Prog whole (Locals ⊕ Unit) × List Line → Prop :=
  Reach world (fun s => (body o s).interp (placed o)) ((setup o buffer).interp (placed o), [])

/-- The program prints no address. -/
structure PrintsNoAddress (o : ByteOrder) (buffer : Buf sizeofBuffer) : Prop where
  /-- Nothing undefined is done. -/
  defined : ∀ w, ¬ Run o buffer (.fault, w)
  /-- Every line that is printed of a route is without an address. -/
  blank : ∀ p w, Run o buffer (p, w) → ∀ x ∈ w, x = blankLine

/-- **No address is printed**, whatever the kernel replies. -/
theorem prints_no_address (o : ByteOrder) (buffer : Buf sizeofBuffer) :
    PrintsNoAddress o buffer := by
  have hwp : ∀ p w, Run o buffer (p, w) → wp world printsBlank p _ w := fun p w h =>
    (implements o).reach (Q := fun x _ => ∀ s, x = .inl s → s.iov = ⟨sizeofBuffer, 0, 28⟩)
      (s := none) (fun s _ hs => wp_body (hs s rfl)) (fun _ hx => absurd hx List.not_mem_nil)
      (wp_setup buffer) h
  refine ⟨fun w h => hwp _ w h, fun p w h => ?_⟩
  refine wp_now (hwp p w h) ?_ (fun _ _ hc => hc) fun _ hf => hf.elim
  rintro _ _ ⟨_, hw, -⟩
  exact hw

end Printed

end MyRoute

end UnixNetwork
