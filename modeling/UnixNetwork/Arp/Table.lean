import Mathlib.Logic.Function.Basic
import UnixNetwork.Arp
import UnixNetwork.Interaction.Link

/-!
# The ARP table

`add_arp_entry` and `delete_arp_entry` of `17/arp.c`, and the program that calls the one and then
the other. The kernel keeps an entry for a device and an address. It may refuse any request, and
then it changes nothing.

The table of the kernel is a map that the two functions write to: a function that returns 0 has
entered what its texts say, or has removed it, and one that returns -1 has changed nothing, however
many calls of them follow each other and wherever they fail. None leaves a socket open.

## Main definitions

* `Arp.Table.deleteArpEntry`, `Arp.Table.main`: the program
* `Arp.Table.Kernel`, `Arp.Table.world`: the kernel
* `Arp.Table.Request.apply`: what a request is to do to a table

## Main results

* `Arp.Table.wp_perform`: one request
* `Arp.Table.refines`: any number of requests
* `Arp.Table.wp_main`: what the program leaves in the table
-/

namespace UnixNetwork

namespace Arp

namespace Table

open Interaction Encoding
open Inet (inetPton inetPton_eq_some_iff IsIp)

/-! ## The program -/

/-- The calls of the program. -/
inductive Call where
  | adding (c : Arp.Call)
  | siocdarp (fd : ℕ) (req : Arpreq Byte)
  | eprintf (text : List Byte)

/-- The result of each call. -/
@[reducible] def Res : Call → Type
  | .adding c => Arp.Res c
  | .siocdarp .. => Except Errno Unit
  | .eprintf _ => Unit

/-- The interface of the program. -/
abbrev manager : Interface := ⟨Call, Res⟩

/-- A call that `add_arp_entry` makes as well. -/
def perform (c : Arp.Call) : Prog manager (Arp.Res c) := Prog.perform (I := manager) (.adding c)

/-- What is in `arp_req` when `SIOCDARP` is called. -/
def arpReq (ifname addr : List Byte) : Arpreq Byte :=
  let req := Arpreq.zeros 0
  let req := { req with dev := req.dev.put 0 (CString.strncpy ifname (ifnamsiz - 1)) }
  { req with pa := ⟨afInet, Buf.put req.pa.data 2 addr⟩ }

/-- `delete_arp_entry(ifname, ip)`. -/
def deleteArpEntry (ifname ip : List Byte) : Prog manager ℤ := do
  match ← perform (.socket afInet sockDgram 0) with
  | .error _ => do
    let _ ← perform (.perror (text "socket"))
    return -1
  | .ok fd =>
    match inetPton ip with
    | none => do
      let _ ← perform (.perror (text "inet_pton"))
      let _ ← perform (.close fd)
      return -1
    | some addr => do
      match ← Prog.perform (I := manager) (.siocdarp fd (arpReq ifname addr)) with
      | .error _ => do
        let _ ← perform (.perror (text "ioctl(SIOCDARP)"))
        let _ ← perform (.close fd)
        return -1
      | .ok () => do
        let _ ← perform (.printf (text "ARP entry deleted: IP=" ++ ip ++ text "\n"))
        let _ ← perform (.close fd)
        return 0

/-- `add_arp_entry`, in a program that makes other calls as well. -/
def addArpEntry (ifname ip mac : List Byte) : Prog manager ℤ :=
  (Arp.addArpEntry ifname ip mac).interp perform

/-- `main`. -/
def main : Prog manager ℤ := do
  let ifname := text "enp0s8"
  let ip := text "192.168.1.100"
  let mac := text "00:11:22:33:44:55"
  let r ← addArpEntry ifname ip mac
  if r < 0 then do
    let _ ← Prog.perform (I := manager) (.eprintf (text "Failed to add ARP entry\n"))
    return 1
  else do
    let r ← deleteArpEntry ifname ip
    if r < 0 then do
      let _ ← Prog.perform (I := manager) (.eprintf (text "Failed to delete ARP entry\n"))
      return 1
    else return 0

/-! ## The kernel -/

/-- A table: what is entered for a device and an address. -/
abbrev Entries : Type := List Byte × List Byte → Option (List (Option Byte))

/-- The kernel: its table, and the sockets that are open. -/
structure Kernel where
  /-- The table. -/
  table : Entries
  /-- The sockets. -/
  fds : List ℕ

/-- What a request is about: the name of a device and an address. -/
def key {α : Type} (req : Arpreq α) : List Byte × List Byte :=
  (CString.str req.dev.toList, Buf.slice req.pa.data 2 4)

/-- What a request is to enter. -/
def hardware (req : Arpreq (Option Byte)) : List (Option Byte) := req.ha.data.toList.take 6

/-- What the calls of `add_arp_entry` may return. A socket is a new one. -/
def Allows (w : Kernel) : (c : Arp.Call) → Arp.Res c → Prop
  | .socket .., .ok fd => fd ∉ w.fds
  | _, _ => True

/-- The kernel after them. -/
def Kernel.next (w : Kernel) : (c : Arp.Call) → Arp.Res c → Kernel
  | .socket .., .ok fd => { w with fds := fd :: w.fds }
  | .siocsarp _ req, .ok () =>
    { w with table := Function.update w.table (key req) (some (hardware req)) }
  | .close fd, _ => { w with fds := w.fds.erase fd }
  | _, _ => w

/-- The surroundings of `add_arp_entry`. -/
def arpWorld : World arp Kernel := ⟨Allows, Kernel.next⟩

/-- The surroundings of the program. -/
def world : World manager Kernel where
  Allows w
    | .adding c, r => Allows w c r
    | _, _ => True
  next w
    | .adding c, r => w.next c r
    | .siocdarp _ req, .ok () => { w with table := Function.update w.table (key req) none }
    | _, _ => w

/-- A socket is used only while it is open. -/
def Open (w : Kernel) : Arp.Call → Prop
  | .siocsarp fd _ => fd ∈ w.fds
  | .close fd => fd ∈ w.fds
  | _ => True

/-- What is asked of `add_arp_entry`. -/
def arpOpen : Guard arp Kernel := ⟨Open, fun _ => False⟩

/-- What is asked of the program. -/
def onlyOpen : Guard manager Kernel where
  Call w
    | .adding c => Open w c
    | .siocdarp fd _ => fd ∈ w.fds
    | .eprintf _ => True
  Fault _ := False

/-! ## What is asked for -/

/-- The name of a device, as far as there is room for it. -/
def device (ifname : List Byte) : List Byte := CString.str (ifname.take 15)

/-- A call of one of the functions. -/
inductive Request where
  | add (ifname ip mac : List Byte)
  | delete (ifname ip : List Byte)

namespace Request

/-- The call. -/
def perform : Request → Prog manager ℤ
  | add ifname ip mac => addArpEntry ifname ip mac
  | delete ifname ip => deleteArpEntry ifname ip

/-- The text of the address. -/
def ip : Request → List Byte
  | add _ ip _ => ip
  | delete _ ip => ip

/-- What a call that returns 0 does to a table. -/
def apply (table : Entries) : Request → Entries
  | add ifname ip mac =>
    match inetPton ip with
    | none => table
    | some addr => Function.update table (device ifname, addr) (some (sscanf mac).toList)
  | delete ifname ip =>
    match inetPton ip with
    | none => table
    | some addr => Function.update table (device ifname, addr) none

end Request

/-- What some calls do to a table, if they return these numbers. -/
def outcome (table : Entries) (calls : List (Request × ℤ)) : Entries :=
  calls.foldl (fun table x => if x.2 = 0 then x.1.apply table else table) table

/-- Some calls, one after the other. -/
def session : List Request → Prog manager (List ℤ)
  | [] => return []
  | r :: rs => do
    let x ← r.perform
    let xs ← session rs
    return x :: xs

/-! ## One request -/

variable {ifname addr ip mac : List Byte} {w : Kernel}

/-- What a structure holds whose device has been copied from a text. -/
theorem str_dev (ifname : List Byte) :
    CString.str (Buf.put (Buf.zeros ifnamsiz) 0 (CString.strncpy ifname (ifnamsiz - 1))).toList =
      device ifname := by
  have hlen : (CString.strncpy ifname (ifnamsiz - 1)).length = 15 := CString.length_strncpy _ _
  have hzeros : (Buf.zeros ifnamsiz).toList.drop 15 = List.replicate 1 0 := by decide
  rw [Buf.toList_put_zero (hlen.trans_le (by decide)), hlen, hzeros, CString.strncpy,
    List.append_assoc, List.replicate_append_replicate]
  exact CString.str_append_cons _ _

theorem key_add (hlen : addr.length = 4) :
    key (Arp.arpReq ifname addr mac) = (device ifname, addr) := by
  have hdev : (Arp.arpReq ifname addr mac).dev =
      Buf.put (Buf.zeros ifnamsiz) 0 (CString.strncpy ifname (ifnamsiz - 1)) := rfl
  rw [key, slice_arpReq hlen, hdev, str_dev]

theorem key_delete (hlen : addr.length = 4) :
    key (arpReq ifname addr) = (device ifname, addr) := by
  have hdev : (arpReq ifname addr).dev =
      Buf.put (Buf.zeros ifnamsiz) 0 (CString.strncpy ifname (ifnamsiz - 1)) := rfl
  have hpa : (arpReq ifname addr).pa = (Arp.arpReq ifname addr []).pa := rfl
  rw [key, hpa, slice_arpReq hlen, hdev, str_dev]

theorem length_of_inetPton (h : inetPton ip = some addr) : addr.length = 4 :=
  (inetPton_eq_some_iff.mp h).1

theorem isIp_of_inetPton (h : inetPton ip = some addr) : IsIp ip :=
  ⟨addr, inetPton_eq_some_iff.mp h⟩

/-- What is left when a call has returned: it has succeeded, and the address was one, or it has
failed. No socket is left. -/
structure After (r : Request) (w : Kernel) (x : ℤ) (w' : Kernel) : Prop where
  /-- The number it has returned. -/
  value : x = 0 ∨ x = -1
  /-- Only an address is accepted. -/
  isIp : x = 0 → IsIp r.ip
  /-- What it has done to the table. -/
  table : w'.table = if x = 0 then r.apply w.table else w.table
  /-- No socket is left. -/
  fds : w'.fds = w.fds

theorem After.failed (r : Request) (w : Kernel) {w' : Kernel} (htable : w'.table = w.table)
    (hfds : w'.fds = w.fds) : After r w (-1) w' :=
  ⟨.inr rfl, nofun, htable, hfds⟩

theorem erase_cons_self (fd : ℕ) (fds : List ℕ) : (fd :: fds).erase fd = fds :=
  List.erase_cons_head ..

/-- `add_arp_entry` enters what its texts say, or nothing. -/
theorem wp_addArpEntry (ifname ip mac : List Byte) (w : Kernel) :
    wp arpWorld arpOpen (Arp.addArpEntry ifname ip mac) (After (.add ifname ip mac) w) w := by
  refine ⟨trivial, ?_⟩
  rintro (e | fd) hfd
  · exact ⟨trivial, fun _ _ => .failed _ w rfl rfl⟩
  have hclose := erase_cons_self fd w.fds
  show wp _ _ (match inetPton ip with | none => _ | some addr => _) _ _
  cases hip : inetPton ip with
  | none =>
    exact ⟨trivial, fun _ _ => ⟨List.mem_cons_self, fun _ _ => .failed _ w rfl hclose⟩⟩
  | some addr =>
    refine ⟨List.mem_cons_self, ?_⟩
    rintro (e | u) _
    · exact ⟨trivial, fun _ _ => ⟨List.mem_cons_self, fun _ _ => .failed _ w rfl hclose⟩⟩
    · refine ⟨trivial, fun _ _ => ⟨List.mem_cons_self, fun _ _ => ?_⟩⟩
      refine ⟨.inl rfl, fun _ => isIp_of_inetPton hip, ?_, hclose⟩
      show Function.update w.table (key (Arp.arpReq ifname addr mac)) (some _) = _
      rw [key_add (length_of_inetPton hip), hardware, take_arpReq, if_pos rfl, Request.apply, hip]

/-- `delete_arp_entry` removes what its texts say, or nothing. -/
theorem wp_deleteArpEntry (ifname ip : List Byte) (w : Kernel) :
    wp world onlyOpen (deleteArpEntry ifname ip) (After (.delete ifname ip) w) w := by
  refine ⟨trivial, ?_⟩
  rintro (e | fd) hfd
  · exact ⟨trivial, fun _ _ => .failed _ w rfl rfl⟩
  have hclose := erase_cons_self fd w.fds
  show wp _ _ (match inetPton ip with | none => _ | some addr => _) _ _
  cases hip : inetPton ip with
  | none =>
    exact ⟨trivial, fun _ _ => ⟨List.mem_cons_self, fun _ _ => .failed _ w rfl hclose⟩⟩
  | some addr =>
    refine ⟨List.mem_cons_self, ?_⟩
    rintro (e | u) _
    · exact ⟨trivial, fun _ _ => ⟨List.mem_cons_self, fun _ _ => .failed _ w rfl hclose⟩⟩
    · refine ⟨trivial, fun _ _ => ⟨List.mem_cons_self, fun _ _ => ?_⟩⟩
      refine ⟨.inl rfl, fun _ => isIp_of_inetPton hip, ?_, hclose⟩
      show Function.update w.table (key (arpReq ifname addr)) none = _
      rw [key_delete (length_of_inetPton hip), if_pos rfl, Request.apply, hip]

/-- The calls of `add_arp_entry` are the same in the program. -/
theorem implements : Implements arpWorld arpOpen world onlyOpen Eq perform where
  call := by
    rintro w _ c rfl hc
    exact ⟨hc, fun r hr => ⟨hr, rfl⟩⟩
  fault := by
    rintro w _ rfl hf
    exact hf

/-- **One request** does what it is to do, or nothing. -/
theorem wp_perform (r : Request) (w : Kernel) :
    wp world onlyOpen r.perform (After r w) w := by
  cases r with
  | add ifname ip mac =>
    refine wp_mono ?_ (implements.wp rfl (wp_addArpEntry ifname ip mac w))
    rintro x _ ⟨w', rfl, h⟩
    exact h
  | delete ifname ip => exact wp_deleteArpEntry ifname ip w

/-! ## Any number of requests -/

/-- The calls of a session do what they are to do, if they return these numbers. -/
structure Refines (rs : List Request) (w : Kernel) (xs : List ℤ) (w' : Kernel) : Prop where
  /-- Each call returns 0 or -1. -/
  values : List.Forall₂ (fun r x => (x = 0 ∧ IsIp r.ip) ∨ x = -1) rs xs
  /-- The table is what those that return 0 make of it. -/
  table : w'.table = outcome w.table (rs.zip xs)
  /-- No socket is left. -/
  fds : w'.fds = w.fds

/-- **Any number of requests.** Whatever the kernel refuses, the table is at the end what the calls
that have returned 0 make of it, and every socket that has been opened has been closed. No socket is
used when it is not open. -/
theorem refines (rs : List Request) (w : Kernel) :
    wp world onlyOpen (session rs) (Refines rs w) w := by
  induction rs generalizing w with
  | nil => exact ⟨.nil, rfl, rfl⟩
  | cons r rs ih =>
    rw [session, wp_bind]
    refine wp_mono ?_ (wp_perform r w)
    intro x w₁ h
    rw [wp_bind]
    refine wp_mono ?_ (ih w₁)
    intro xs w₂ hs
    refine ⟨.cons ?_ hs.values, ?_, hs.fds.trans h.fds⟩
    · rcases h.value with hx | hx
      · exact .inl ⟨hx, h.isIp hx⟩
      · exact .inr hx
    · rw [hs.table, h.table]
      rfl

/-- What the program leaves in the table: where it returns 0 the entry has been removed, and
otherwise either nothing has been changed or the entry has been left. -/
theorem wp_main (w : Kernel) :
    wp world onlyOpen main (fun x w' => w'.fds = w.fds ∧
      (x = 0 ∧ w'.table = Function.update w.table (text "enp0s8", [192, 168, 1, 100]) none ∨
        x = 1 ∧ (w'.table = w.table ∨ w'.table = Function.update w.table
          (text "enp0s8", [192, 168, 1, 100]) (some [some 0, some 17, some 34, some 51, some 68,
            some 85])))) w := by
  have hip : inetPton (text "192.168.1.100") = some [192, 168, 1, 100] :=
    inetPton_eq_some_iff.mpr ⟨rfl, rfl⟩
  have hdevice : device (text "enp0s8") = text "enp0s8" := by decide
  have hmac : (sscanf (text "00:11:22:33:44:55")).toList =
      [some 0, some 17, some 34, some 51, some 68, some 85] := by decide
  rw [main, wp_bind]
  refine wp_mono ?_ (wp_perform (.add _ _ _) w)
  intro x w₁ hadd
  split
  · next hx =>
    refine ⟨trivial, fun _ _ => ⟨hadd.fds, .inr ⟨rfl, .inl ?_⟩⟩⟩
    show w₁.table = _
    rw [hadd.table, if_neg (by omega)]
  · next hx =>
    have hx : x = 0 := by
      have hvalue := hadd.value
      omega
    have hadded := hadd.table
    rw [if_pos hx, Request.apply, hip] at hadded
    dsimp only at hadded
    rw [hdevice, hmac] at hadded
    rw [wp_bind]
    refine wp_mono ?_ (wp_deleteArpEntry _ _ w₁)
    intro y w₂ hdelete
    split
    · next hy =>
      refine ⟨trivial, fun _ _ => ⟨hdelete.fds.trans hadd.fds, .inr ⟨rfl, .inr ?_⟩⟩⟩
      show w₂.table = _
      rw [hdelete.table, if_neg (by omega), hadded]
    · next hy =>
      have hy : y = 0 := by
        have hvalue := hdelete.value
        omega
      refine ⟨hdelete.fds.trans hadd.fds, .inl ⟨rfl, ?_⟩⟩
      rw [hdelete.table, if_pos hy, Request.apply, hip]
      dsimp only
      rw [hdevice, hadded, Function.update_idem]

end Table

end Arp

end UnixNetwork
