import UnixNetwork.Inet
import UnixNetwork.Encoding.Hexadecimal

/-!
# Adding an entry to the ARP table

`add_arp_entry` of `17/arp.c`. The result of `inet_pton` is looked at, that of `sscanf` is not: what
it has stored of the six bytes is used, and the bytes that it has not stored as well.

A byte that has not been written is `none`.

## Main definitions

* `Arp.sscanf`, `Arp.addArpEntry`: the program
* `Arp.IsMac`: the text of a hardware address
* `Arp.Checks`: only well-formed addresses are accepted

## Main results

* `Arp.sscanf_of_isMac`: a well-formed hardware address is read as it is
* `Arp.checks_iff`: when only well-formed addresses are accepted
-/

namespace UnixNetwork

namespace Arp

open Interaction Encoding
open Inet (inetPton inetPton_eq_some_iff IsIp)
open MyRoute (dotted)

/-! ## Addresses -/

/-- `SOCK_DGRAM`. -/
def sockDgram : ℕ := 2

/-- `IFNAMSIZ`. -/
def ifnamsiz : ℕ := 16

/-- `ARPHRD_ETHER`. -/
def arphrdEther : ℕ := 1

/-- `ATF_COM`. -/
def atfCom : ℕ := 2

/-- `ATF_PERM`. -/
def atfPerm : ℕ := 4

/-- A `struct sockaddr`. In a `struct sockaddr_in` the four bytes of the address stand behind two
bytes of the port. -/
structure Sockaddr (α : Type) where
  /-- `sa_family`. -/
  family : ℕ
  /-- `sa_data`. -/
  data : Vector α 14

/-- A `struct arpreq`; `α` are the bytes of its hardware address. -/
structure Arpreq (α : Type) where
  /-- `arp_pa`: the protocol address. -/
  pa : Sockaddr Byte
  /-- `arp_ha`: the hardware address. -/
  ha : Sockaddr α
  /-- `arp_flags`. -/
  flags : ℕ
  /-- `arp_netmask`. -/
  netmask : Sockaddr Byte
  /-- `arp_dev`. -/
  dev : Buf ifnamsiz

/-- The structure after `memset(&arp_req, 0, sizeof(arp_req))`. -/
def Arpreq.zeros {α : Type} (zero : α) : Arpreq α :=
  ⟨⟨0, Buf.zeros 14⟩, ⟨0, Vector.replicate 14 zero⟩, 0, ⟨0, Buf.zeros 14⟩, Buf.zeros ifnamsiz⟩

/-! ## The program -/

/-- The bytes that `n` conversions `%hhx` with a `:` between them store. -/
def scanGroups : ℕ → List Byte → List Byte
  | 0, _ => []
  | n + 1, s =>
    match scanHex s with
    | none => []
    | some (x, s) => UInt8.ofNat x :: if s.head? = some 58 then scanGroups n s.tail else []

/-- `sscanf(mac, "%hhx:%hhx:%hhx:%hhx:%hhx:%hhx", ...)`: what is then in `mac_addr`, which is not
initialised. -/
def sscanf (mac : List Byte) : Vector (Option Byte) 6 :=
  Vector.ofFn fun i => (scanGroups 6 mac)[i]?

/-- The calls of the function. -/
inductive Call where
  | socket (domain type protocol : ℕ)
  | siocsarp (fd : ℕ) (req : Arpreq (Option Byte))
  | perror (msg : List Byte)
  | printf (text : List Byte)
  | close (fd : ℕ)

/-- The result of each call. -/
@[reducible] def Res : Call → Type
  | .socket .. => Except Errno ℕ
  | .siocsarp .. => Except Errno Unit
  | _ => Unit

/-- The interface of the function. -/
abbrev arp : Interface := ⟨Call, Res⟩

/-- What is in `arp_req` when `SIOCSARP` is called. -/
def arpReq (ifname addr mac : List Byte) : Arpreq (Option Byte) :=
  let req := Arpreq.zeros (some 0)
  let req := { req with dev := req.dev.put 0 (CString.strncpy ifname (ifnamsiz - 1)) }
  let req := { req with pa := ⟨afInet, Buf.put req.pa.data 2 addr⟩ }
  let macAddr := sscanf mac
  -- `memcpy` of the six bytes to the beginning of `sa_data`
  let data : Vector (Option Byte) (6 + 8) := macAddr ++ Vector.replicate 8 (some (0 : Byte))
  { req with ha := ⟨arphrdEther, data⟩, flags := atfPerm ||| atfCom }

/-- `add_arp_entry(ifname, ip, mac)`. -/
def addArpEntry (ifname ip mac : List Byte) : Prog arp ℤ := do
  match ← Prog.perform (I := arp) (.socket afInet sockDgram 0) with
  | .error _ => do
    let _ ← Prog.perform (I := arp) (.perror (text "socket"))
    return -1
  | .ok fd =>
    match inetPton ip with
    | none => do
      let _ ← Prog.perform (I := arp) (.perror (text "inet_pton"))
      let _ ← Prog.perform (I := arp) (.close fd)
      return -1
    | some addr => do
      match ← Prog.perform (I := arp) (.siocsarp fd (arpReq ifname addr mac)) with
      | .error _ => do
        let _ ← Prog.perform (I := arp) (.perror (text "ioctl(SIOCSARP)"))
        let _ ← Prog.perform (I := arp) (.close fd)
        return -1
      | .ok () => do
        let _ ← Prog.perform (I := arp)
          (.printf (text "ARP entry added: IP=" ++ ip ++ text ", MAC=" ++ mac ++ text "\n"))
        let _ ← Prog.perform (I := arp) (.close fd)
        return 0

example : sscanf (text "0x1f: -1:zz") = #v[some 31, some 255, none, none, none, none] := by decide

/-! ## Well-formed addresses -/

/-- One or two hexadecimal digits. -/
def IsGroup (g : List Byte) : Prop := 1 ≤ g.length ∧ g.length ≤ 2 ∧ ∀ b ∈ g, isHexDigit b

/-- The text is six groups with a colon between them, which stand for these bytes. -/
def IsMac (mac bytes : List Byte) : Prop :=
  ∃ gs : List (List Byte), gs.length = 6 ∧ (∀ g ∈ gs, IsGroup g) ∧ mac = [58].intercalate gs ∧
    bytes = gs.map fun g => UInt8.ofNat (hexVal g)

/-- The sockets that have been opened. -/
def opened (t : List (Event arp)) : List ℕ := t.filterMap fun
  | ⟨.socket .., .ok fd⟩ => some fd
  | _ => none

/-- The sockets that have been closed. -/
def closed (t : List (Event arp)) : List ℕ := t.filterMap fun
  | ⟨.close fd, _⟩ => some fd
  | _ => none

/-- The entries that the kernel has been asked to add. -/
def asked (t : List (Event arp)) : List (Arpreq (Option Byte)) := t.filterMap fun
  | ⟨.siocsarp _ req, _⟩ => some req
  | _ => none

/-- Only well-formed addresses are accepted. -/
structure Checks (ifname ip mac : List Byte) : Prop where
  /-- An entry that is asked for has the two addresses. -/
  entry : ∀ t fd req k, (addArpEntry ifname ip mac).After t (.call (.siocsarp fd req) k) →
    ∃ addr bytes, addr.length = 4 ∧ ip = dotted addr ∧ Buf.slice req.pa.data 2 4 = addr ∧
      IsMac mac bytes ∧ req.ha.data.toList.take 6 = bytes.map some
  /-- For other texts the function fails, with its socket closed and no entry asked for. -/
  rejects : ¬ (IsIp ip ∧ ∃ bytes, IsMac mac bytes) →
    ∀ t r, (addArpEntry ifname ip mac).After t (.ret r) →
      r = -1 ∧ closed t = opened t ∧ asked t = []

/-! ## Hardware addresses -/

/-- A group is read as it is, whatever follows it, if that is a colon or nothing. -/
theorem scanHex_group {g t : List Byte} (hg : IsGroup g) (ht : ∀ b ∈ t.head?, b = 58) :
    scanHex (g ++ t) = some (hexVal g, t) := by
  obtain ⟨hpos, hle, hdigits⟩ := hg
  refine scanHex_append hdigits (List.length_pos_iff.mp hpos) (by omega) fun b hb => ?_
  rw [ht b hb]
  decide

/-- Groups with a colon between them are read one after the other. -/
theorem scanGroups_intercalate {gs : List (List Byte)} (hgs : ∀ g ∈ gs, IsGroup g) :
    scanGroups gs.length ([58].intercalate gs) = gs.map fun g => UInt8.ofNat (hexVal g) := by
  induction gs with
  | nil => rfl
  | cons g gs ih =>
    obtain ⟨hg, hgs⟩ := List.forall_mem_cons.mp hgs
    cases gs with
    | nil =>
      have hscan := scanHex_group (t := []) hg (by simp)
      rw [List.append_nil] at hscan
      rw [List.intercalate_singleton, List.length_singleton, scanGroups, hscan]
      rfl
    | cons g' gs =>
      have hscan := scanHex_group (t := 58 :: [58].intercalate (g' :: gs)) hg (by simp)
      rw [List.intercalate_cons_cons, List.append_assoc, List.singleton_append, List.length_cons,
        scanGroups, hscan, List.map_cons, ← ih hgs]
      rfl

/-- **A well-formed address is read as it is.** -/
theorem sscanf_of_isMac {mac bytes : List Byte} (h : IsMac mac bytes) :
    (sscanf mac).toList = bytes.map some := by
  obtain ⟨gs, hlen, hgs, rfl, rfl⟩ := h
  have hscan := scanGroups_intercalate hgs
  rw [hlen] at hscan
  rw [sscanf, hscan]
  refine List.ext_getElem (by simp [hlen]) fun i hi hi' => ?_
  have hlt : i < gs.length := by simpa using hi'
  simp [hlt]

/-! ## The function -/

variable {ifname ip mac : List Byte}

/-- What is asked for. -/
theorem exists_of_after {t : List (Event arp)} {fd : ℕ} {req : Arpreq (Option Byte)}
    {k : Except Errno Unit → Prog arp ℤ}
    (h : (addArpEntry ifname ip mac).After t (.call (.siocsarp fd req) k)) :
    ∃ addr, inetPton ip = some addr ∧ req = arpReq ifname addr mac := by
  have honly : (addArpEntry ifname ip mac).Only fun c : Call => ∀ fd req,
      c = .siocsarp fd req → ∃ addr, inetPton ip = some addr ∧ req = arpReq ifname addr mac := by
    refine ⟨nofun, fun r => ?_⟩
    rcases r with e | fd
    · exact ⟨nofun, fun _ => trivial⟩
    dsimp only
    cases hip : inetPton ip with
    | none => exact ⟨nofun, fun _ => ⟨nofun, fun _ => trivial⟩⟩
    | some addr =>
      refine ⟨?_, fun r => ?_⟩
      · rintro fd' req hreq
        obtain ⟨-, rfl⟩ := Call.siocsarp.inj hreq
        exact ⟨addr, rfl, rfl⟩
      · rcases r with e | u
        · exact ⟨nofun, fun _ => ⟨nofun, fun _ => trivial⟩⟩
        · exact ⟨nofun, fun _ => ⟨nofun, fun _ => trivial⟩⟩
  exact h.only honly fd req rfl

/-- A text that is no dotted address is rejected. -/
theorem rejects_of_inetPton (hip : inetPton ip = none) {t : List (Event arp)} {r : ℤ}
    (h : (addArpEntry ifname ip mac).After t (.ret r)) :
    r = -1 ∧ closed t = opened t ∧ asked t = [] := by
  rw [addArpEntry, Prog.perform_bind, Prog.after_call_ret] at h
  obtain ⟨s, t', rfl, h⟩ := h
  rcases s with e | fd
  · obtain ⟨_, _, rfl, hret⟩ := Prog.after_call_ret.mp h
    obtain ⟨rfl, hr⟩ := Prog.after_ret.mp hret
    exact ⟨Prog.ret.inj hr, rfl, rfl⟩
  · rw [hip] at h
    obtain ⟨_, _, rfl, hclose⟩ := Prog.after_call_ret.mp h
    obtain ⟨_, _, rfl, hret⟩ := Prog.after_call_ret.mp hclose
    obtain ⟨rfl, hr⟩ := Prog.after_ret.mp hret
    refine ⟨Prog.ret.inj hr, ?_, ?_⟩
    · rfl
    · rfl

/-- An entry is asked for if the text of the protocol address is well-formed, whatever the other
one is. -/
theorem exists_after (ifname ip mac : List Byte) {addr : List Byte}
    (hip : inetPton ip = some addr) (fd : ℕ) : ∃ t k,
      (addArpEntry ifname ip mac).After t (.call (.siocsarp fd (arpReq ifname addr mac)) k) := by
  rw [addArpEntry, Prog.perform_bind, hip]
  exact ⟨[⟨.socket afInet sockDgram 0, .ok fd⟩], _, .cons (.nil _)⟩

/-- What is in the two addresses of `arp_req`. -/
theorem slice_arpReq {addr : List Byte} (h : addr.length = 4) (ifname mac : List Byte) :
    Buf.slice (arpReq ifname addr mac).pa.data 2 4 = addr := by
  have hput : ((Buf.zeros 14).put 2 addr).slice 2 addr.length = addr := Buf.slice_put (by omega)
  rwa [h] at hput

theorem take_arpReq (ifname addr mac : List Byte) :
    (arpReq ifname addr mac).ha.data.toList.take 6 = (sscanf mac).toList := by
  have hlen : (sscanf mac).toList.length = 6 := Vector.length_toList
  show (sscanf mac ++ Vector.replicate 8 (some (0 : Byte))).toList.take 6 = _
  rw [Vector.toList_append, List.take_append_of_le_length hlen.ge, List.take_of_length_le hlen.le]

/-- **Only well-formed addresses are accepted** if and only if the text of the protocol address is
not well-formed, or that of the hardware address is. -/
theorem checks_iff (ifname ip mac : List Byte) :
    Checks ifname ip mac ↔ ¬ IsIp ip ∨ ∃ bytes, IsMac mac bytes := by
  constructor
  · intro h
    by_cases hip : IsIp ip
    · obtain ⟨addr, haddr⟩ := hip
      obtain ⟨t, k, hafter⟩ := exists_after ifname ip mac (inetPton_eq_some_iff.mpr haddr) 3
      obtain ⟨_, bytes, -, -, -, hmac, -⟩ := h.entry t 3 _ k hafter
      exact .inr ⟨bytes, hmac⟩
    · exact .inl hip
  · intro h
    constructor
    · intro t fd req k hafter
      obtain ⟨addr, hip, rfl⟩ := exists_of_after hafter
      obtain ⟨hlen, rfl⟩ := inetPton_eq_some_iff.mp hip
      obtain ⟨bytes, hmac⟩ := h.resolve_left (not_not_intro ⟨addr, hlen, rfl⟩)
      refine ⟨addr, bytes, hlen, rfl, slice_arpReq hlen ifname mac, hmac, ?_⟩
      rw [take_arpReq, sscanf_of_isMac hmac]
    · intro hnot t r hafter
      have hip : ¬ IsIp ip := by
        rcases h with hip | hmac
        · exact hip
        · exact fun hip => hnot ⟨hip, hmac⟩
      refine rejects_of_inetPton ?_ hafter
      rw [Option.eq_none_iff_forall_ne_some]
      exact fun addr haddr => hip ⟨addr, inetPton_eq_some_iff.mp haddr⟩

/-- An address of which three bytes are given. -/
theorem not_checks_short : ¬ Checks (text "enp0s8") (text "192.168.1.100") (text "00:11:22") := by
  intro h
  have hip : inetPton (text "192.168.1.100") = some [192, 168, 1, 100] :=
    inetPton_eq_some_iff.mpr ⟨rfl, rfl⟩
  obtain ⟨t, k, hafter⟩ := exists_after (text "enp0s8") _ (text "00:11:22") hip 3
  obtain ⟨_, bytes, -, -, -, -, hbytes⟩ := h.entry t 3 _ k hafter
  rw [take_arpReq] at hbytes
  have hnone : none ∈ (sscanf (text "00:11:22")).toList := by decide
  rw [hbytes] at hnone
  simp at hnone

end Arp

end UnixNetwork
