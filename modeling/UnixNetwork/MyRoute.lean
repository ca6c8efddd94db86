import UnixNetwork.Posix
import UnixNetwork.Encoding.Bytes
import UnixNetwork.Interaction.World

/-!
# The routing table over netlink

`query_route_table` of `18/my_route.c`: a request for a dump of the routing table is built in
`buffer` and sent, and the replies are received into the same buffer, through the same `msghdr` and
the same `iovec`. The `iov_len` of that `iovec` is the length of the request, and nothing changes it
before the replies are received.

The macros of `linux/netlink.h` are on unsigned numbers of 32 bits; `nlmsg_len` is at most `n`
wherever `NLMSG_ALIGN` is applied to it, so nothing wraps around. A call of `handle_route_message`
is an event here, which carries what its pointer gives access to: the buffer from `nlh` on.

The order of the bytes of a number is a parameter. The fields `msg_control`, `msg_controllen` and
`msg_flags` of the `msghdr`, which are never set, are left out.

## Main definitions

* `MyRoute.Call`, `MyRoute.Res`, `MyRoute.netlink`: the interface
* `MyRoute.request`, `MyRoute.setup`: the request, and the function up to the receive loop
* `MyRoute.messages`, `MyRoute.body`: the loop over the messages of a reply, and one turn of
  `while (1)`

## Main results

* `setup_iov`: the replies are received through an `iovec` of 28 bytes
-/

namespace UnixNetwork

namespace MyRoute

open Interaction Encoding

/-! ## Constants and macros -/

/-- `sizeof(buffer)`. -/
def sizeofBuffer : ℕ := 16384

/-- `sizeof(struct nlmsghdr)`. -/
def sizeofNlmsghdr : ℕ := 16

/-- `sizeof(struct rtmsg)`. -/
def sizeofRtmsg : ℕ := 12

/-- `NLMSG_ALIGN(len)`. -/
def nlmsgAlign (len : ℕ) : ℕ := (len + 3) / 4 * 4

theorem le_nlmsgAlign (len : ℕ) : len ≤ nlmsgAlign len := by
  rw [nlmsgAlign]
  omega

/-- `NLMSG_LENGTH(len)`. -/
def nlmsgLength (len : ℕ) : ℕ := len + nlmsgAlign sizeofNlmsghdr

/-- `NLMSG_DONE`. -/
def nlmsgDone : ℕ := 3

/-- `RTM_GETROUTE`. -/
def rtmGetroute : ℕ := 26

/-- `NLM_F_REQUEST`. -/
def nlmFRequest : ℕ := 0x001

/-- `NLM_F_DUMP`. -/
def nlmFDump : ℕ := 0x300

/-- `RT_TABLE_MAIN`. -/
def rtTableMain : Byte := 254

/-- `AF_NETLINK`. -/
def afNetlink : ℕ := 16

/-- `SOCK_RAW`. -/
def sockRaw : ℕ := 3

/-- `NETLINK_ROUTE`. -/
def netlinkRoute : ℕ := 0

/-- `NLMSG_DATA(nlh)`, as an offset from `nlh`. -/
def nlmsgData : ℕ := nlmsgLength 0

/-! ## The interface -/

/-- `struct sockaddr_nl`. -/
structure SockaddrNl where
  /-- `nl_family`. -/
  nlFamily : ℕ
  /-- `nl_pid`. -/
  nlPid : ℕ
  /-- `nl_groups`. -/
  nlGroups : ℕ

/-- The calls. -/
inductive Call where
  | socket (domain type protocol : ℕ)
  | bind (fd : ℤ) (addr : SockaddrNl)
  | getpid
  | sendmsg (fd : ℤ) (name : SockaddrNl) (src : Span) (mem : List Byte)
  | recvmsg (fd : ℤ) (dst : Span)
  | close (fd : ℤ)
  | perror (text : String)
  | printf (text : String)
  | handleRouteMessage (nlh : List Byte)

/-- The result of each call. -/
@[reducible] def Res : Call → Type
  | .socket .. => Except Errno ℕ
  | .bind .. => Except Errno ℕ
  | .getpid => ℕ
  | .sendmsg .. => Except Errno ℕ
  | .recvmsg .. => Except Errno (List Byte)
  | .close _ => Unit
  | .perror _ => Unit
  | .printf _ => Unit
  | .handleRouteMessage _ => Unit

/-- The interface of the program. -/
abbrev netlink : Interface := ⟨Call, Res⟩

/-- Make a call. -/
def perform (c : Call) : Prog netlink (Res c) := Prog.perform (I := netlink) c

@[simp] theorem perform_bind {β : Type} (c : Call) (f : Res c → Prog netlink β) :
    perform c >>= f = Prog.call (I := netlink) c f := rfl

/-! ## Up to the receive loop -/

/-- The variables of `query_route_table` that the receive loop uses. -/
structure Locals where
  /-- The socket. -/
  sockfd : ℤ
  /-- The buffer of the request and of the replies. -/
  buffer : Buf sizeofBuffer
  /-- What `iov` describes. -/
  iov : Span

/-- The buffer once the request has been built in it; the rest of it is not initialised. -/
def request (o : ByteOrder) (pid : ℕ) (buffer : Buf sizeofBuffer) : Buf sizeofBuffer :=
  let buffer := buffer.put 0 (o.encode 4 (nlmsgLength sizeofRtmsg))
  let buffer := buffer.put 4 (o.encode 2 rtmGetroute)
  let buffer := buffer.put 6 (o.encode 2 (nlmFRequest ||| nlmFDump))
  let buffer := buffer.put 8 (o.encode 4 1)
  let buffer := buffer.put 12 (o.encode 4 pid)
  let buffer := buffer.put nlmsgData [UInt8.ofNat afInet]
  buffer.put (nlmsgData + 4) [rtTableMain]

/-- `query_route_table` up to `while (1)`: it has returned, or goes on with the loop. -/
def setup (o : ByteOrder) (buffer : Buf sizeofBuffer) : Prog netlink (Locals ⊕ Unit) := do
  let r ← perform (.socket afNetlink sockRaw netlinkRoute)
  let sockfd := countValue r
  if sockfd < 0 then do
    let _ ← perform (.perror "socket")
    return .inr ()
  else do
    let pid ← perform .getpid
    let addr : SockaddrNl := { nlFamily := afNetlink, nlPid := pid, nlGroups := 0 }
    let r ← perform (.bind sockfd addr)
    if countValue r < 0 then do
      let _ ← perform (.perror "bind")
      let _ ← perform (.close sockfd)
      return .inr ()
    else do
      let pid ← perform .getpid
      let buffer := request o pid buffer
      -- `iov_len` is read back from the request
      let iov : Span := ⟨sizeofBuffer, 0, o.decode (buffer.slice 0 4)⟩
      let _ ← perform (.printf "Sending Netlink request...\n")
      let r ← perform (.sendmsg sockfd addr iov buffer.toList)
      if countValue r < 0 then do
        let _ ← perform (.perror "sendmsg")
        let _ ← perform (.close sockfd)
        return .inr ()
      else do
        let _ ← perform (.printf "Netlink request sent.\n")
        return .inl ⟨sockfd, buffer, iov⟩

/-! ## The receive loop -/

variable {I : Interface}

/-- A number in memory. -/
def loadNat {n : ℕ} (o : ByteOrder) (b : Buf n) (off size : ℕ) : Prog I ℕ :=
  if off + size ≤ n then .ret (o.decode (b.slice off size)) else .fault

/-- `nlh->nlmsg_len`. -/
def nlmsgLen {n : ℕ} (o : ByteOrder) (b : Buf n) (nlh : ℕ) : Prog I ℕ := loadNat o b nlh 4

/-- `nlh->nlmsg_type`. -/
def nlmsgType {n : ℕ} (o : ByteOrder) (b : Buf n) (nlh : ℕ) : Prog I ℕ := loadNat o b (nlh + 4) 2

/-- The loop over the messages of a reply, from `nlh` on and with `n` bytes left. It returns where
`nlh` stands afterwards. -/
def messages (o : ByteOrder) (buffer : Buf sizeofBuffer) (nlh : ℕ) (n : ℤ) : Prog netlink ℕ :=
  -- the three conditions of `NLMSG_OK`
  if _ : n < sizeofNlmsghdr then .ret nlh
  else (nlmsgLen o buffer nlh).bind fun len =>
    if _ : sizeofNlmsghdr ≤ len ∧ (len : ℤ) ≤ n then do
      let type ← nlmsgType o buffer nlh
      if type = nlmsgDone then do
        let _ ← perform (.printf "End of Netlink response.\n")
        return nlh
      else do
        let _ ← perform (.handleRouteMessage (buffer.toList.drop nlh))
        -- `NLMSG_NEXT`
        messages o buffer (nlh + nlmsgAlign len) (n - nlmsgAlign len)
    else .ret nlh
termination_by n.toNat
decreasing_by
  have hn : ¬ n < (16 : ℕ) := ‹¬ n < sizeofNlmsghdr›
  have hlen : 16 ≤ len := And.left ‹sizeofNlmsghdr ≤ len ∧ (len : ℤ) ≤ n›
  have hle : len ≤ nlmsgAlign len := le_nlmsgAlign len
  omega

/-- After the loop. -/
def leave (sockfd : ℤ) : Prog netlink (Locals ⊕ Unit) := do
  let _ ← perform (.close sockfd)
  return .inr ()

/-- One turn of `while (1)`. -/
def body (o : ByteOrder) (s : Locals) : Prog netlink (Locals ⊕ Unit) := do
  let _ ← perform (.printf "Waiting for Netlink response...\n")
  match ← perform (.recvmsg s.sockfd s.iov) with
  | .error _ => do
    let _ ← perform (.perror "recvmsg")
    leave s.sockfd
  | .ok bs => do
    let buffer ← s.buffer.storeBytes s.iov.off bs
    let _ ← perform (.printf ("Received " ++ toString bs.length ++ " bytes of Netlink response.\n"))
    let nlh ← messages o buffer 0 bs.length
    let type ← nlmsgType o buffer nlh
    if type = nlmsgDone then leave s.sockfd
    else return .inl { s with buffer := buffer }

/-! ## Headers in memory -/

/-- The number that is read as `nlh->nlmsg_len`. -/
def lenAt {n : ℕ} (o : ByteOrder) (b : Buf n) (nlh : ℕ) : ℕ := o.decode (b.slice nlh 4)

/-- The number that is read as `nlh->nlmsg_type`. -/
def typeAt {n : ℕ} (o : ByteOrder) (b : Buf n) (nlh : ℕ) : ℕ := o.decode (b.slice (nlh + 4) 2)

theorem nlmsgLen_of_le {n : ℕ} {o : ByteOrder} {b : Buf n} {nlh : ℕ} (h : nlh + 4 ≤ n) :
    (nlmsgLen o b nlh : Prog I ℕ) = .ret (lenAt o b nlh) := if_pos h

theorem nlmsgType_of_le {n : ℕ} {o : ByteOrder} {b : Buf n} {nlh : ℕ} (h : nlh + 6 ≤ n) :
    (nlmsgType o b nlh : Prog I ℕ) = .ret (typeAt o b nlh) := if_pos (by omega)

section Messages

variable {o : ByteOrder} {b : Buf sizeofBuffer} {nlh : ℕ} {n : ℤ}

theorem messages_of_lt (h : n < 16) : messages o b nlh n = .ret nlh := by
  rw [messages, dif_pos (show n < sizeofNlmsghdr from h)]

theorem messages_of_le (h : 16 ≤ n) (hb : nlh + 16 ≤ sizeofBuffer) :
    messages o b nlh n = if 16 ≤ lenAt o b nlh ∧ (lenAt o b nlh : ℤ) ≤ n then
      if typeAt o b nlh = nlmsgDone then
        Prog.call (I := netlink) (.printf "End of Netlink response.\n") fun _ => .ret nlh
      else Prog.call (I := netlink) (.handleRouteMessage (b.toList.drop nlh)) fun _ =>
        messages o b (nlh + nlmsgAlign (lenAt o b nlh)) (n - nlmsgAlign (lenAt o b nlh))
    else .ret nlh := by
  have hn : ¬ n < sizeofNlmsghdr := not_lt.mpr h
  rw [messages, dif_neg hn, nlmsgLen_of_le (by omega), nlmsgType_of_le (by omega)]
  rfl

end Messages

/-! ## The `iovec` of the replies -/

/-- `nlmsg_len` of the request. -/
theorem decode_request (o : ByteOrder) (pid : ℕ) (buffer : Buf sizeofBuffer) :
    o.decode ((request o pid buffer).slice 0 4) = 28 := by
  have hput : (buffer.put 0 (o.encode 4 28)).slice 0 4 = o.encode 4 28 := by
    have hslice : (buffer.put 0 (o.encode 4 28)).slice 0 (o.encode 4 28).length = o.encode 4 28 :=
      Buf.slice_put (by simp [sizeofBuffer])
    rwa [o.length_encode] at hslice
  simp only [request]
  iterate 6 rw [Buf.slice_put_of_disjoint (.inl (by decide))]
  exact (congrArg o.decode hput).trans (o.decode_encode (by decide))

/-- A program that completes goes on after its first call. -/
theorem after_perform {α : Type} {c : Call} {f : Res c → Prog netlink α} {b : α}
    {t : List (Event netlink)} (h : (perform c >>= f).After t (.ret b)) :
    ∃ r t', (f r).After t' (.ret b) := by
  obtain ⟨r, t', -, h⟩ := Prog.after_call_ret.mp h
  exact ⟨r, t', h⟩

/-- The replies are received through an `iovec` of 28 bytes at the beginning of the buffer. -/
theorem setup_iov {o : ByteOrder} {buffer : Buf sizeofBuffer} {t : List (Event netlink)}
    {s : Locals} (h : (setup o buffer).After t (.ret (.inl s))) :
    s.iov = ⟨sizeofBuffer, 0, 28⟩ := by
  obtain ⟨r, _, h⟩ := after_perform h
  dsimp only at h
  split at h
  · obtain ⟨_, _, h⟩ := after_perform h
    cases (Prog.after_ret.mp h).2
  · obtain ⟨pid, _, h⟩ := after_perform h
    obtain ⟨r, _, h⟩ := after_perform h
    split at h
    · obtain ⟨_, _, h⟩ := after_perform h
      obtain ⟨_, _, h⟩ := after_perform h
      cases (Prog.after_ret.mp h).2
    · obtain ⟨pid, _, h⟩ := after_perform h
      obtain ⟨_, _, h⟩ := after_perform h
      obtain ⟨r, _, h⟩ := after_perform h
      split at h
      · obtain ⟨_, _, h⟩ := after_perform h
        obtain ⟨_, _, h⟩ := after_perform h
        cases (Prog.after_ret.mp h).2
      · obtain ⟨_, _, h⟩ := after_perform h
        cases (Prog.after_ret.mp h).2
        rw [decode_request]
        rfl

/-- The function can reach its receive loop. -/
theorem exists_setup (o : ByteOrder) (buffer : Buf sizeofBuffer) :
    ∃ t s, (setup o buffer).After t (.ret (.inl s)) := by
  refine ⟨[⟨.socket afNetlink sockRaw netlinkRoute, .ok 3⟩, ⟨.getpid, 1⟩,
    ⟨.bind 3 ⟨afNetlink, 1, 0⟩, .ok 0⟩, ⟨.getpid, 1⟩,
    ⟨.printf "Sending Netlink request...\n", ()⟩, ⟨.sendmsg 3 ⟨afNetlink, 1, 0⟩
      ⟨sizeofBuffer, 0, o.decode ((request o 1 buffer).slice 0 4)⟩ (request o 1 buffer).toList,
      .ok 28⟩, ⟨.printf "Netlink request sent.\n", ()⟩],
    ⟨3, request o 1 buffer, ⟨sizeofBuffer, 0, o.decode ((request o 1 buffer).slice 0 4)⟩⟩, ?_⟩
  exact .cons (.cons (.cons (.cons (.cons (.cons (.cons (.nil _)))))))

end MyRoute

end UnixNetwork
