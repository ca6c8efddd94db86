import UnixNetwork.Arp
import UnixNetwork.Interaction.Live

/-!
# The addresses of all interfaces

`get_all_ips` of `17/ipaddr.c`. It asks for the list of interfaces once, with a buffer of 1024
bytes, and prints a line for each entry that has been stored. An entry has 40 bytes, and the kernel
stores as many as fit, so no more than 25 lines are printed.

## Main definitions

* `IpAddr.interfaces`, `IpAddr.getAllIps`: the program
* `IpAddr.line`: the line of an interface
* `IpAddr.Reports`: there is one line for every interface

## Main results

* `IpAddr.wp_interfaces`: what the loop prints
* `IpAddr.wp_getAllIps`: what the function prints
* `IpAddr.reports_iff`: when there is one line for every interface
-/

namespace UnixNetwork

namespace IpAddr

open Interaction Encoding
open Arp (Sockaddr Arpreq sockDgram arphrdEther ifnamsiz)
open MyRoute (dotted)

/-! ## The program -/

/-- `sizeof(struct ifreq)`. -/
def sizeofIfreq : ℕ := 40

/-- `sizeof(buf)`. -/
def sizeofBuf : ℕ := 1024

/-- A `struct ifreq`, as `SIOCGIFCONF` stores it. -/
structure Ifreq where
  /-- `ifr_name`. -/
  name : Buf ifnamsiz
  /-- It is a string. -/
  terminated : CString.Terminated name.toList
  /-- `ifr_addr`. -/
  addr : Sockaddr Byte

/-- `sin_addr` of an address. -/
def sinAddr (a : Sockaddr Byte) : List Byte := Buf.slice a.data 2 4

/-- How the function ends. -/
inductive Outcome where
  /-- It returns. -/
  | returned
  /-- The program exits. -/
  | exit (status : ℕ)
deriving DecidableEq

/-- The calls of the function. -/
inductive Call where
  | socket (domain type protocol : ℕ)
  | siocgifconf (fd ifcLen : ℕ)
  | siocgarp (fd : ℕ) (req : Arpreq Byte)
  | perror (msg : List Byte)
  | printf (text : List Byte)
  | close (fd : ℕ)

/-- The result of each call. `SIOCGIFCONF` returns the new `ifc_len` and the entries it has stored,
`SIOCGARP` the completed request. -/
@[reducible] def Res : Call → Type
  | .socket .. => Except Errno ℕ
  | .siocgifconf .. => Except Errno (ℕ × List Ifreq)
  | .siocgarp .. => Except Errno (Arpreq Byte)
  | _ => Unit

/-- The interface of the function. -/
abbrev ifconf : Interface := ⟨Call, Res⟩

/-- `ifr[i]`. Behind the entries that have been stored the buffer is not initialised. -/
def entry (ifr : List Ifreq) (i : ℕ) : Prog ifconf Ifreq :=
  match ifr[i]? with
  | some item => .ret item
  | none => .fault

/-- What is in `arp_req` when `SIOCGARP` is called. -/
def arpReq (item : Ifreq) : Arpreq Byte :=
  { Arpreq.zeros (0 : Byte) with pa := item.addr, ha := ⟨arphrdEther, Buf.zeros 14⟩ }

/-- The text of a hardware address: its first six bytes. -/
def macText (ha : Sockaddr Byte) : List Byte :=
  [58].intercalate ((Buf.slice ha.data 0 6).map hexByte)

/-- The line of an interface, with what `SIOCGARP` has returned for it. -/
def line (item : Ifreq) (r : Except Errno (Arpreq Byte)) : List Byte :=
  text "Interface: " ++ CString.str item.name.toList ++ text ", IP: " ++
    dotted (sinAddr item.addr) ++ text ", MAC: " ++
    match r with
    | .ok req => macText req.ha ++ text "\n"
    | .error _ => text "(Not available)\n"

/-- The loop, from the index `i` on, with this many turns to go. -/
def interfaces (fd : ℕ) (ifr : List Ifreq) : ℕ → ℕ → Prog ifconf Unit
  | _, 0 => return ()
  | i, left + 1 => do
    let item ← entry ifr i
    let r ← Prog.perform (I := ifconf) (.siocgarp fd (arpReq item))
    let _ ← Prog.perform (I := ifconf) (.printf (line item r))
    interfaces fd ifr (i + 1) left

/-- `get_all_ips()`. -/
def getAllIps : Prog ifconf Outcome := do
  match ← Prog.perform (I := ifconf) (.socket afInet sockDgram 0) with
  | .error _ => do
    let _ ← Prog.perform (I := ifconf) (.perror (text "socket"))
    return .exit 1
  | .ok fd =>
    match ← Prog.perform (I := ifconf) (.siocgifconf fd sizeofBuf) with
    | .error _ => do
      let _ ← Prog.perform (I := ifconf) (.perror (text "ioctl(SIOCGIFCONF)"))
      let _ ← Prog.perform (I := ifconf) (.close fd)
      return .exit 1
    | .ok (ifcLen, ifr) => do
      let numIfaces := ifcLen / sizeofIfreq
      let _ ← interfaces fd ifr 0 numIfaces
      let _ ← Prog.perform (I := ifconf) (.close fd)
      return .returned

/-! ## The kernel -/

/-- What has been asked for and what has been printed. -/
structure Log where
  /-- The `SIOCGARP` calls with their results. -/
  queries : List (Arpreq Byte × Except Errno (Arpreq Byte))
  /-- What has been printed, call by call. -/
  printed : List (List Byte)

/-- What the calls return if these interfaces are configured: `SIOCGIFCONF` stores as many entries
as fit and returns their size; every other call may return anything. -/
def Allows (ifs : List Ifreq) (_ : Log) : (c : Call) → Res c → Prop
  | .siocgifconf _ ifcLen, r =>
    let stored := ifs.take (ifcLen / sizeofIfreq)
    r = .ok (stored.length * sizeofIfreq, stored)
  | _, _ => True

/-- The log after a call. -/
def next (w : Log) : (c : Call) → Res c → Log
  | .siocgarp _ req, r => { w with queries := w.queries ++ [(req, r)] }
  | .printf text, _ => { w with printed := w.printed ++ [text] }
  | _, _ => w

/-- The surroundings of the function. -/
def world (ifs : List Ifreq) : World ifconf Log := ⟨Allows ifs, next⟩

/-- There is one line for every interface, with what has been found out about it, in order. -/
def Log.Lines (w : Log) (ifs : List Ifreq) : Prop :=
  w.queries.map Prod.fst = ifs.map arpReq ∧
    w.printed = ifs.zipWith line (w.queries.map Prod.snd)

/-- Every interface is reported. -/
structure Reports (ifs : List Ifreq) : Prop where
  /-- Only entries that have been stored are read. -/
  safe : ∀ t p, getAllIps.After t p → (world ifs).Legal ⟨[], []⟩ t → p ≠ .fault
  /-- When the function returns there is one line for every interface. -/
  lines : ∀ t, getAllIps.After t (.ret .returned) → (world ifs).Legal ⟨[], []⟩ t →
    ((world ifs).after ⟨[], []⟩ t).Lines ifs

/-! ## The loop -/

section Loop

variable {ifr items : List Ifreq} {w : Log}

/-- One more interface has its line. -/
theorem Log.Lines.append (h : w.Lines items) (item : Ifreq) (r : Except Errno (Arpreq Byte)) :
    Log.Lines ⟨w.queries ++ [(arpReq item, r)], w.printed ++ [line item r]⟩ (items ++ [item]) := by
  obtain ⟨hqueries, hprinted⟩ := h
  have hlen : items.length = (w.queries.map Prod.snd).length := by
    rw [List.length_map, ← List.length_map (f := Prod.fst), hqueries, List.length_map]
  refine ⟨by simp [hqueries], ?_⟩
  rw [List.map_append, List.zipWith_append hlen, ← hprinted]
  rfl

/-- **The loop** prints a line for each entry it goes through. -/
theorem wp_interfaces (ifs : List Ifreq) (fd : ℕ) {i left : ℕ} (hle : i + left ≤ ifr.length)
    (h : w.Lines (ifr.take i)) :
    wp (world ifs) (Guard.within (world ifs) fun _ => True) (interfaces fd ifr i left)
      (fun _ w' => w'.Lines (ifr.take (i + left))) w := by
  induction left generalizing i w with
  | zero => exact h
  | succ left ih =>
    have hlt : i < ifr.length := by omega
    have hentry : entry ifr i = .ret ifr[i] := by rw [entry, List.getElem?_eq_getElem hlt]
    have hsum : i + (left + 1) = i + 1 + left := by omega
    rw [interfaces, hentry, Prog.ret_bind, hsum]
    refine ⟨⟨trivial, .error .eintr, trivial⟩, fun r _ => ⟨⟨trivial, (), trivial⟩, fun _ _ => ?_⟩⟩
    refine ih (i := i + 1) (by omega) ?_
    rw [List.take_add_one, List.getElem?_eq_getElem hlt]
    exact h.append ifr[i] r

end Loop

/-! ## The function -/

variable {ifs : List Ifreq}

/-- How many entries fit into the buffer. -/
theorem sizeofBuf_div : sizeofBuf / sizeofIfreq = 25 := by decide

/-- The calls of the function. -/
theorem exists_getAllIps_eq : ∃ k : Except Errno ℕ → _,
    getAllIps = Prog.call (I := ifconf) (.socket afInet sockDgram 0) k ∧
    (∀ e, k (.error e) =
      Prog.call (I := ifconf) (.perror (text "socket")) fun _ => .ret (.exit 1)) ∧
    ∀ fd, ∃ k' : Except Errno (ℕ × List Ifreq) → _,
      k (.ok fd) = Prog.call (I := ifconf) (.siocgifconf fd sizeofBuf) k' ∧
      ∀ ifcLen ifr, k' (.ok (ifcLen, ifr)) = interfaces fd ifr 0 (ifcLen / sizeofIfreq) >>= fun _ =>
        Prog.call (I := ifconf) (.close fd) fun _ => .ret .returned :=
  ⟨_, rfl, fun _ => rfl, fun _ => ⟨_, rfl, fun _ _ => rfl⟩⟩

/-- The loop over all entries that have been stored. -/
theorem wp_stored (ifs : List Ifreq) (fd : ℕ) :
    wp (world ifs) (Guard.within (world ifs) fun _ => True)
      (interfaces fd (ifs.take 25) 0 ((ifs.take 25).length * sizeofIfreq / sizeofIfreq))
      (fun _ w => w.Lines (ifs.take 25)) ⟨[], []⟩ := by
  have hloop := wp_interfaces ifs (w := ⟨[], []⟩) fd
    (Nat.zero_add (ifs.take 25).length).le ⟨rfl, rfl⟩
  rwa [Nat.zero_add, List.take_length, ← Nat.mul_div_cancel (ifs.take 25).length
    (by decide : 0 < sizeofIfreq)] at hloop

/-- **What the function prints** is a line for each of the first 25 interfaces. -/
theorem wp_getAllIps (ifs : List Ifreq) :
    wp (world ifs) (Guard.within (world ifs) fun _ => True) getAllIps
      (fun o w => o = .returned → w.Lines (ifs.take 25)) ⟨[], []⟩ := by
  obtain ⟨k, hsocket, herror, hok⟩ := exists_getAllIps_eq
  rw [hsocket]
  refine ⟨⟨trivial, .error .eintr, trivial⟩, fun r _ => ?_⟩
  rcases r with e | fd
  · rw [herror]
    exact ⟨⟨trivial, (), trivial⟩, fun _ _ => nofun⟩
  obtain ⟨k', hconf, hstored⟩ := hok fd
  rw [hconf]
  refine ⟨⟨trivial, _, rfl⟩, ?_⟩
  rintro r rfl
  rw [sizeofBuf_div, hstored]
  refine wp_bind.mpr (wp_mono (fun _ w hw => ?_) (wp_stored ifs fd))
  exact ⟨⟨trivial, (), trivial⟩, fun _ _ _ => hw⟩

/-- The function can return, and has then printed as much. -/
theorem exists_after (ifs : List Ifreq) : ∃ t, getAllIps.After t (.ret .returned) ∧
    (world ifs).Legal ⟨[], []⟩ t ∧ ((world ifs).after ⟨[], []⟩ t).Lines (ifs.take 25) := by
  obtain ⟨k, hsocket, -, hok⟩ := exists_getAllIps_eq
  obtain ⟨k', hconf, hstored⟩ := hok 3
  obtain ⟨_, w, hloop, -⟩ :=
    (Guard.live_within (world ifs) fun _ => True).exists_executes (wp_stored ifs 3)
  have hexecutes : Executes (world ifs) getAllIps ⟨[], []⟩ .returned w := by
    rw [hsocket]
    refine ⟨.ok 3, trivial, ?_⟩
    rw [hconf]
    refine ⟨_, rfl, ?_⟩
    rw [sizeofBuf_div, hstored]
    exact executes_bind.mpr ⟨_, w, hloop, (), trivial, rfl, rfl⟩
  obtain ⟨t, hafter, ht, -⟩ := executes_iff.mp hexecutes
  exact ⟨t, hafter, ht, hafter.wp ht (wp_getAllIps ifs) rfl⟩

/-- There is one query for each line. -/
theorem Log.Lines.length {w : Log} {ifs : List Ifreq} (h : w.Lines ifs) :
    w.queries.length = ifs.length := by
  have := congrArg List.length h.1
  rwa [List.length_map, List.length_map] at this

/-- **Every interface is reported** if and only if there are at most 25. -/
theorem reports_iff (ifs : List Ifreq) : Reports ifs ↔ ifs.length ≤ 25 := by
  constructor
  · intro h
    obtain ⟨t, hafter, ht, hlines⟩ := exists_after ifs
    rw [← (h.lines t hafter ht).length, hlines.length]
    exact List.length_take_le _ _
  · intro hle
    refine ⟨fun t p hafter ht => ?_, fun t hafter ht => ?_⟩
    · rintro rfl
      exact hafter.wp ht (wp_getAllIps ifs)
    · have hlines : ((world ifs).after ⟨[], []⟩ t).Lines (ifs.take 25) :=
        hafter.wp ht (wp_getAllIps ifs) rfl
      rwa [List.take_of_length_le hle] at hlines

/-- The loopback interface. -/
def lo : Ifreq where
  name := (Buf.zeros ifnamsiz).put 0 (text "lo")
  terminated := by decide
  addr := ⟨afInet, (Buf.zeros 14).put 2 [127, 0, 0, 1]⟩

/-- A list of 26 interfaces. -/
theorem not_reports_lo : ¬ Reports (List.replicate 26 lo) := by
  intro h
  obtain ⟨t, hafter, ht, hlines⟩ := exists_after (List.replicate 26 lo)
  have hlen := (h.lines t hafter ht).length
  rw [hlines.length] at hlen
  simp at hlen

end IpAddr

end UnixNetwork
