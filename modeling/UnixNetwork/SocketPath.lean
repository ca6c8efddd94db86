import UnixNetwork.Posix
import UnixNetwork.Interaction.World

/-!
# The pathname of a socket

Three programs take the pathname of a socket as their argument: `main` of `15/tcp_unix_server.c` and
of `15/tcp_unix_client.c`, as far as they deal with it, and `main` of `15/bind.c`. The server and
`bind.c` remove the file of that name and then copy the name to `sun_path`, 107 bytes of it at most;
the client copies all of it. Before that the server and the client clear the whole structure, and
`bind.c` as much of it as a `struct sockaddr_in` has, which is 16 bytes.

A byte of a structure that has not been written is `none`. Writing beyond the end of a structure is
undefined. A call that is handed a structure has its contents.

## Main definitions

* `SocketPath.server`, `SocketPath.client`, `SocketPath.bindName`: the three programs
* `SocketPath.View`: the pathnames that have been used
* `SocketPath.Safe`: they are all the argument

## Main results

* `bindName_safe_iff`: how much `bind.c` can take
* `one_socket_path`: when the three programs use one pathname
-/

namespace UnixNetwork

namespace SocketPath

open Interaction

variable {I : Interface}

/-! ## The structure -/

/-- A `struct sockaddr_un`: two bytes of `sun_family`, and 108 of `sun_path`. -/
abbrev SockaddrUn : Type := Vector (Option Byte) 110

/-- A structure that has not been initialised. -/
def uninitialised : SockaddrUn := Vector.replicate 110 none

/-- What `sun_path` holds. -/
def sunPath (a : SockaddrUn) : List (Option Byte) := a.toList.drop 2

/-- The structure with other bytes from an offset on. -/
def overwrite (a : SockaddrUn) (off : ℕ) (bs : List (Option Byte)) (h : off + bs.length ≤ 110) :
    SockaddrUn :=
  ⟨(a.toList.take off ++ bs ++ a.toList.drop (off + bs.length)).toArray, by
    simp only [List.size_toArray, List.length_append, List.length_take, Vector.length_toList,
      List.length_drop]
    omega⟩

/-- Write from an offset on. -/
def write (a : SockaddrUn) (off : ℕ) (bs : List (Option Byte)) : Prog I SockaddrUn :=
  if h : off + bs.length ≤ 110 then .ret (overwrite a off bs h) else .fault

/-- `memset` to zero of the first `n` bytes. -/
def bzero (a : SockaddrUn) (n : ℕ) : Prog I SockaddrUn := write a 0 (List.replicate n (some 0))

/-- `sun_family = AF_UNIX`. -/
def setFamily (a : SockaddrUn) : Prog I SockaddrUn := write a 0 [some 1, some 0]

/-! ## The programs -/

/-- The calls of the programs. -/
inductive Call where
  | signal (signo : ℕ)
  | socket (domain type protocol : ℕ)
  | unlink (path : List Byte)
  | bind (fd : ℤ) (addr : SockaddrUn) (len : ℕ)
  | listen (fd : ℤ) (backlog : ℕ)
  | connect (fd : ℤ) (addr : SockaddrUn) (len : ℕ)
  | getsockname (fd : ℤ) (len : ℕ)
  | perror (msg : List Byte)
  | fprintf (msg : List Byte)
  | printf (msg : List Byte)
  | printfStr (before : List Byte) (arg : List (Option Byte)) (after : List Byte)

/-- The result of each call. `getsockname` returns the bytes it has stored in `sun_path`. -/
@[reducible] def Res : Call → Type
  | .socket .. => Except Errno ℕ
  | .unlink _ | .bind .. | .listen .. | .connect .. => Except Errno Unit
  | .getsockname .. => Except Errno (List (Option Byte))
  | _ => Unit

/-- The interface of the programs. -/
abbrev sockets : Interface := ⟨Call, Res⟩

/-- `argv[i]`; `NULL` behind the last argument is not a string. -/
def arg (argv : List (List Byte)) (i : ℕ) : Prog I (List Byte) :=
  match argv[i]? with
  | some s => .ret s
  | none => .fault

theorem arg_one (name path : List Byte) (rest : List (List Byte)) :
    (arg (name :: path :: rest) 1 : Prog I (List Byte)) = .ret path := rfl

/-- `main` of `15/tcp_unix_server.c` up to its loop. It ends with a status, or has a descriptor to
accept connections from. -/
def server (argv : List (List Byte)) : Prog sockets (ℕ ⊕ ℕ) :=
  if argv.length ≠ 2 then do
    let name ← arg argv 0
    let _ ← Prog.perform (I := sockets)
      (.fprintf (text "Usage: " ++ name ++ text " <socket_path>\n"))
    return .inl 1
  else do
    let _ ← Prog.perform (I := sockets) (.signal 17)
    match ← Prog.perform (I := sockets) (.socket 1 1 0) with
    | .error _ => do
      let _ ← Prog.perform (I := sockets) (.perror (text "socket error"))
      return .inl 1
    | .ok listenfd => do
      let path ← arg argv 1
      let _ ← Prog.perform (I := sockets) (.unlink path)
      let servaddr ← bzero uninitialised 110
      let servaddr ← setFamily servaddr
      let servaddr ← write servaddr 2 ((CString.strncpy path 107).map some)
      match ← Prog.perform (I := sockets) (.bind listenfd servaddr 110) with
      | .error _ => do
        let _ ← Prog.perform (I := sockets) (.perror (text "bind error"))
        return .inl 1
      | .ok _ => do
        match ← Prog.perform (I := sockets) (.listen listenfd 5) with
        | .error _ => do
          let _ ← Prog.perform (I := sockets) (.perror (text "listen error"))
          return .inl 1
        | .ok _ => return .inr listenfd

/-- `main` of `15/tcp_unix_client.c` up to its call of `str_cli`, with the descriptor it hands to
it. -/
def client (argv : List (List Byte)) : Prog sockets ℤ := do
  let r ← Prog.perform (I := sockets) (.socket 1 1 0)
  let sockfd := countValue r
  let servaddr ← bzero uninitialised 110
  let servaddr ← setFamily servaddr
  let path ← arg argv 1
  let servaddr ← write servaddr 2 ((CString.strcpy path).map some)
  let _ ← Prog.perform (I := sockets) (.connect sockfd servaddr 110)
  return sockfd

/-- `main` of `15/bind.c`, with the status it ends with. -/
def bindName (argv : List (List Byte)) : Prog sockets ℕ :=
  if argv.length ≠ 2 then do
    let _ ← Prog.perform (I := sockets) (.printf (text "Usage: unixbind <pathname>"))
    return 1
  else do
    let r ← Prog.perform (I := sockets) (.socket 1 1 0)
    let sockfd := countValue r
    let path ← arg argv 1
    let _ ← Prog.perform (I := sockets) (.unlink path)
    let addr1 ← bzero uninitialised 16
    let addr1 ← setFamily addr1
    let addr1 ← write addr1 2 ((CString.strncpy path 107).map some)
    let _ ← Prog.perform (I := sockets) (.bind sockfd addr1 110)
    let stored ← Prog.perform (I := sockets) (.getsockname sockfd 110)
    let addr2 ← match stored with
      | .ok bs => write uninitialised 2 bs
      | .error _ => .ret uninitialised
    let _ ← Prog.perform (I := sockets)
      (.printfStr (text "bound name = ") (sunPath addr2) (text "\n"))
    return 0

/-! ## What `sun_path` holds -/

theorem toList_overwrite (a : SockaddrUn) {off : ℕ} {bs : List (Option Byte)}
    (h : off + bs.length ≤ 110) :
    (overwrite a off bs h).toList =
      a.toList.take off ++ bs ++ a.toList.drop (off + bs.length) := rfl

/-- A write to `sun_path`. -/
theorem exists_write (a : SockaddrUn) {bs : List (Option Byte)} (h : bs.length ≤ 108) :
    ∃ a', (write a 2 bs : Prog I SockaddrUn) = .ret a' ∧
      sunPath a' = bs ++ (sunPath a).drop bs.length := by
  have hfits : 2 + bs.length ≤ 110 := by omega
  refine ⟨overwrite a 2 bs hfits, dif_pos hfits, ?_⟩
  rw [sunPath, toList_overwrite, List.append_assoc, List.drop_left' (by simp), sunPath,
    List.drop_drop]

/-- `sun_family` is no part of it. -/
theorem exists_setFamily (a : SockaddrUn) :
    ∃ a', (setFamily a : Prog I SockaddrUn) = .ret a' ∧ sunPath a' = sunPath a := by
  have hfits : 0 + ([some 1, some 0] : List (Option Byte)).length ≤ 110 := by decide
  exact ⟨overwrite a 0 _ hfits, by rw [setFamily, write, dif_pos hfits], rfl⟩

/-- A structure of which some has been cleared. -/
theorem exists_bzero {n : ℕ} (h2 : 2 ≤ n) (h : n ≤ 110) :
    ∃ a, (bzero uninitialised n : Prog I SockaddrUn) = .ret a ∧
      sunPath a = List.replicate (n - 2) (some 0) ++ List.replicate (110 - n) none := by
  have hfits : 0 + (List.replicate n (some (0 : Byte))).length ≤ 110 := by
    rw [List.length_replicate, Nat.zero_add]
    exact h
  refine ⟨overwrite uninitialised 0 _ hfits, dif_pos hfits, ?_⟩
  rw [sunPath, toList_overwrite, uninitialised, Vector.toList_replicate]
  simp only [List.take_zero, List.nil_append, List.length_replicate, Nat.zero_add,
    List.drop_replicate]
  rw [List.drop_append_of_le_length (by simpa using h2), List.drop_replicate]

/-- The structure of the server and of `bind.c`: what can be read depends on the last byte of
`sun_path`, which `strncpy` does not write. -/
theorem exists_strncpy {n : ℕ} (h2 : 2 ≤ n) (h : n ≤ 110) {path : List Byte} (h0 : 0 ∉ path) :
    ∃ a b c, (bzero uninitialised n : Prog I SockaddrUn) = .ret a ∧
      (setFamily a : Prog I SockaddrUn) = .ret b ∧
      (write b 2 ((CString.strncpy path 107).map some) : Prog I SockaddrUn) = .ret c ∧
      CString.read (sunPath c) = if path.length < 107 then some path
        else if n = 110 then some (path.take 107) else none := by
  obtain ⟨a, ha, hclear⟩ := exists_bzero (I := I) h2 h
  obtain ⟨b, hb, hfamily⟩ := exists_setFamily (I := I) a
  have hlen : ((CString.strncpy path 107).map some).length = 107 := by simp
  obtain ⟨c, hc, hcopy⟩ := exists_write (I := I) b (hlen.trans_le (by decide))
  refine ⟨a, b, c, ha, hb, hc, ?_⟩
  rw [hcopy, hfamily, hclear, hlen, CString.read_strncpy h0]
  congr 1
  by_cases hn : n = 110
  · subst hn
    simp [List.replicate]
  · have hdrop : (List.replicate (n - 2) (some (0 : Byte)) ++ List.replicate (110 - n) none).drop
        107 = [none] := by
      rw [List.drop_append, List.drop_replicate, List.drop_replicate, List.length_replicate,
        show n - 2 - 107 = 0 by omega, show 110 - n - (107 - (n - 2)) = 1 by omega]
      rfl
    rw [hdrop, if_neg hn]
    rfl

/-! ## The pathnames that are used -/

/-- What a program has done. -/
structure View where
  /-- The pathnames that it has unlinked, bound, connected to or printed. -/
  used : List (Option (List Byte))
  /-- What each of its sockets is bound to. -/
  name : ℤ → Option (List (Option Byte))
  /-- It has been told what one of them is bound to. -/
  fetched : Bool

/-- Nothing has happened. -/
def View.start : View := ⟨[], fun _ => none, false⟩

/-- What has happened once a call has returned. -/
def View.next (v : View) : (c : Call) → Res c → View
  | .unlink path, _ => { v with used := v.used ++ [some path] }
  | .bind fd addr _, .ok _ =>
    { v with
      used := v.used ++ [CString.read (sunPath addr)]
      name := Function.update v.name fd (some (sunPath addr)) }
  | .bind _ addr _, .error _ => { v with used := v.used ++ [CString.read (sunPath addr)] }
  | .connect _ addr _, _ => { v with used := v.used ++ [CString.read (sunPath addr)] }
  | .printfStr _ arg _, _ => { v with used := v.used ++ [CString.read arg] }
  | .getsockname fd _, .ok _ => { v with fetched := (v.name fd).isSome }
  | _, _ => v

/-- The surroundings: `getsockname` returns the name that the socket is bound to, and nothing of
`sun_path` if it is not bound. -/
def kernel : World sockets View where
  Allows v c r := match c, r with
    | .getsockname fd _, .ok bs => bs.length ≤ 108 ∧
      (v.name fd).elim (bs = []) fun name => CString.read bs = CString.read name
    | _, _ => True
  next := View.next

/-- All pathnames that have been used are the argument, and no memory has been used that is none of
the program's. -/
def Safe {α : Type} (path : List Byte) (q : Prog sockets α) (v : View) : Prop :=
  q ≠ .fault ∧ ∀ x ∈ v.used, x = some path

/-- What is asked of the server and of the client. -/
def guard (path : List Byte) : Guard sockets View :=
  ⟨fun v _ => ∀ x ∈ v.used, x = some path, fun _ => False⟩

theorem forall_concat {path : List Byte} {l : List (Option (List Byte))}
    {x : Option (List Byte)} : (∀ y ∈ l ++ [x], y = some path) ↔
      (∀ y ∈ l, y = some path) ∧ x = some path := by
  simp [or_imp, forall_and]

variable {name path : List Byte}

/-- **The server.** -/
theorem wp_server (h0 : 0 ∉ path) (hlen : path.length ≤ 107) :
    wp kernel (guard path) (server [name, path])
      (fun _ v => ∀ x ∈ v.used, x = some path) .start := by
  obtain ⟨a, b, c, ha, hb, hc, hread⟩ :=
    exists_strncpy (I := sockets) (n := 110) (by decide) (by decide) h0
  have hpath : CString.read (sunPath c) = some path := by
    rw [hread, if_pos rfl, List.take_of_length_le hlen, ite_self]
  have hnil : ∀ x ∈ View.start.used, x = some path := fun _ h => absurd h List.not_mem_nil
  have hunlink : ∀ x ∈ View.start.used ++ [some path], x = some path :=
    forall_concat.mpr ⟨hnil, rfl⟩
  have hbind : ∀ x ∈ View.start.used ++ [some path] ++ [CString.read (sunPath c)], x = some path :=
    forall_concat.mpr ⟨hunlink, hpath⟩
  refine ⟨hnil, fun _ _ => ⟨hnil, fun r _ => ?_⟩⟩
  rcases r with e | listenfd
  · exact ⟨hnil, fun _ _ => hnil⟩
  refine ⟨hnil, fun _ _ => ?_⟩
  dsimp only [Prog.bind]
  rw [ha, Prog.ret_bind, hb, Prog.ret_bind, hc, Prog.ret_bind]
  refine ⟨hunlink, fun r _ => ?_⟩
  rcases r with e | _
  · exact ⟨hbind, fun _ _ => hbind⟩
  refine ⟨hbind, fun r _ => ?_⟩
  rcases r with e | _
  · exact ⟨hbind, fun _ _ => hbind⟩
  · exact hbind

/-- **The client.** -/
theorem wp_client (h0 : 0 ∉ path) (hlen : path.length ≤ 107) (rest : List (List Byte)) :
    wp kernel (guard path) (client (name :: path :: rest))
      (fun _ v => ∀ x ∈ v.used, x = some path) .start := by
  obtain ⟨a, ha, -⟩ := exists_bzero (I := sockets) (n := 110) (by decide) (by decide)
  obtain ⟨b, hb, -⟩ := exists_setFamily (I := sockets) a
  have hfits : ((CString.strcpy path).map some).length ≤ 108 := by
    rw [List.length_map, CString.length_strcpy]
    omega
  obtain ⟨c, hc, hcopy⟩ := exists_write (I := sockets) b hfits
  have hnil : ∀ x ∈ View.start.used, x = some path := fun _ h => absurd h List.not_mem_nil
  refine ⟨hnil, fun r _ => ?_⟩
  dsimp only [Prog.bind]
  rw [ha, Prog.ret_bind, hb, Prog.ret_bind, arg_one, Prog.ret_bind, hc, Prog.ret_bind]
  refine ⟨hnil, fun _ _ => forall_concat.mpr ⟨hnil, ?_⟩⟩
  rw [hcopy, CString.read_strcpy h0]

/-- **`bind.c`.** -/
theorem wp_bindName (h0 : 0 ∉ path) :
    wp kernel ⟨fun _ _ => True, fun _ => False⟩ (bindName [name, path])
      (fun _ v => (∀ x ∈ v.used, x = some path) ↔ path.length ≤ 106 ∧ v.fetched) .start := by
  obtain ⟨a, b, c, ha, hb, hc, hread⟩ :=
    exists_strncpy (I := sockets) (n := 16) (by decide) (by decide) h0
  have hbind : CString.read (sunPath c) = some path ↔ path.length ≤ 106 := by
    rw [hread, if_neg (show ¬ (16 : ℕ) = 110 by decide), ← Nat.lt_succ_iff]
    simp
  have hempty : CString.read (sunPath uninitialised) = none := by decide
  -- what is printed is the third pathname that is used
  have hused : ∀ (a : SockaddrUn) (fetched : Bool),
      (CString.read (sunPath a) = some path ↔ fetched) ∨ ¬ path.length ≤ 106 →
      ((∀ x ∈ [some path, CString.read (sunPath c), CString.read (sunPath a)], x = some path) ↔
        path.length ≤ 106 ∧ fetched) := by
    intro a fetched h
    simp only [List.forall_mem_cons, hbind, true_and]
    tauto
  refine ⟨trivial, fun fd _ => ⟨trivial, fun _ _ => ?_⟩⟩
  dsimp only [Prog.bind]
  rw [ha, Prog.ret_bind, hb, Prog.ret_bind, hc, Prog.ret_bind]
  refine ⟨trivial, fun bound _ => ⟨trivial, fun stored hstored => ?_⟩⟩
  dsimp only [Prog.bind]
  rcases stored with e | bs
  · refine ⟨trivial, fun _ _ => ?_⟩
    rcases bound with e | _
    · exact hused uninitialised false (.inl (by simp [hempty]))
    · exact hused uninitialised false (.inl (by simp [hempty]))
  have hfits : bs.length ≤ 108 := hstored.1
  obtain ⟨d, hd, hcopy⟩ := exists_write (I := sockets) uninitialised hfits
  dsimp only
  rw [hd, Prog.ret_bind]
  refine ⟨trivial, fun _ _ => ?_⟩
  rcases bound with e | _
  · obtain rfl : bs = [] := hstored.2
    exact hused d false (.inl (by simp [hcopy, hempty]))
  · have hname : CString.read bs = CString.read (sunPath c) := by
      simpa [kernel, View.next] using hstored.2
    refine hused d _ ?_
    by_cases hle : path.length ≤ 106
    · left
      have hd : CString.read (sunPath d) = some path := by
        rw [hcopy]
        exact CString.read_append_of_eq_some (hname.trans (hbind.mpr hle)) _
      simp [hd, kernel, View.next]
    · exact .inr hle

/-! ## The three programs together -/

/-- A program that keeps to its guard is safe. -/
theorem safe_of_wp {α : Type} {q : Prog sockets α} {v : View}
    (h : wp kernel (guard path) q (fun _ v => ∀ x ∈ v.used, x = some path) v) : Safe path q v := by
  refine ⟨?_, wp_now (J := fun v : View => ∀ x ∈ v.used, x = some path) h (fun _ _ h => h)
    (fun _ _ h => h) fun _ h => h.elim⟩
  rintro rfl
  exact h

theorem bindName_safe_iff (h0 : 0 ∉ path) {t : List (Event sockets)} {status : ℕ}
    (h : (bindName [name, path]).After t (.ret status)) (ht : kernel.Legal .start t) :
    Safe path (.ret status : Prog sockets ℕ) (kernel.after .start t) ↔
      path.length ≤ 106 ∧ (kernel.after .start t).fetched := by
  have hwp := h.wp ht (wp_bindName h0)
  rw [← show _ ↔ _ from hwp, Safe]
  exact and_iff_right (by simp)

/-- `bind.c` writes to its own memory only, at every moment. -/
theorem bindName_ne_fault (h0 : 0 ∉ path) {t : List (Event sockets)} {q : Prog sockets ℕ}
    (h : (bindName [name, path]).After t q) (ht : kernel.Legal .start t) : q ≠ .fault := by
  rintro rfl
  exact h.wp ht (wp_bindName h0)

/-- **One pathname.** The server and the client at any moment, and `bind.c` when it is done, have
used no pathname but their argument, and no memory but their own, if and only if the argument has at
most 106 bytes and `bind.c` has been told what its socket is bound to. `bind.c` uses no memory but
its own at any moment, however long the argument is. -/
theorem one_socket_path {path name₁ name₂ name₃ : List Byte} (h0 : 0 ∉ path)
    (rest : List (List Byte)) {t₁ t₂ t₃ : List (Event sockets)} {q₁ : Prog sockets (ℕ ⊕ ℕ)}
    {q₂ : Prog sockets ℤ} {status : ℕ}
    (h₁ : (server [name₁, path]).After t₁ q₁) (ht₁ : kernel.Legal .start t₁)
    (h₂ : (client (name₂ :: path :: rest)).After t₂ q₂) (ht₂ : kernel.Legal .start t₂)
    (h₃ : (bindName [name₃, path]).After t₃ (.ret status)) (ht₃ : kernel.Legal .start t₃) :
    (Safe path q₁ (kernel.after .start t₁) ∧ Safe path q₂ (kernel.after .start t₂) ∧
      Safe path (.ret status : Prog sockets ℕ) (kernel.after .start t₃) ↔
        path.length ≤ 106 ∧ (kernel.after .start t₃).fetched) ∧
    ∀ t q, (bindName [name₃, path]).After t q → kernel.Legal .start t → q ≠ .fault := by
  refine ⟨?_, fun t q h ht => bindName_ne_fault h0 h ht⟩
  rw [bindName_safe_iff h0 h₃ ht₃]
  refine ⟨fun h => h.2.2, fun h => ⟨?_, ?_, h⟩⟩
  · exact safe_of_wp (h₁.wp ht₁ (wp_server h0 (h.1.trans (by decide))))
  · exact safe_of_wp (h₂.wp ht₂ (wp_client h0 (h.1.trans (by decide)) rest))

/-! ### Runs in which every call succeeds -/

theorem exists_server (name : List Byte) (h0 : 0 ∉ path) :
    ∃ t q, (server [name, path]).After t q ∧ kernel.Legal .start t := by
  obtain ⟨a, b, c, ha, hb, hc, -⟩ :=
    exists_strncpy (I := sockets) (n := 110) (by decide) (by decide) h0
  refine ⟨[⟨.signal 17, ()⟩, ⟨.socket 1 1 0, .ok 3⟩, ⟨.unlink path, .ok ()⟩,
    ⟨.bind 3 c 110, .ok ()⟩, ⟨.listen 3 5, .ok ()⟩], .ret (.inr 3), .cons (.cons (.cons ?_)),
    trivial, trivial, trivial, trivial, trivial, trivial⟩
  dsimp only [Prog.bind]
  rw [ha, Prog.ret_bind, hb, Prog.ret_bind, hc]
  exact .cons (.cons (.nil _))

theorem exists_client (name : List Byte) (hlen : path.length ≤ 107) :
    ∃ t q, (client [name, path]).After t q ∧ kernel.Legal .start t := by
  obtain ⟨a, ha, -⟩ := exists_bzero (I := sockets) (n := 110) (by decide) (by decide)
  obtain ⟨b, hb, -⟩ := exists_setFamily (I := sockets) a
  have hfits : ((CString.strcpy path).map some).length ≤ 108 := by
    rw [List.length_map, CString.length_strcpy]
    omega
  obtain ⟨c, hc, -⟩ := exists_write (I := sockets) b hfits
  refine ⟨[⟨.socket 1 1 0, .ok 3⟩, ⟨.connect 3 c 110, .ok ()⟩], .ret 3, .cons ?_, trivial,
    trivial, trivial⟩
  dsimp only [Prog.bind]
  rw [ha, Prog.ret_bind, hb, Prog.ret_bind, arg_one, Prog.ret_bind, hc]
  exact .cons (.nil _)

theorem exists_bindName (name : List Byte) (h0 : 0 ∉ path) :
    ∃ t, (bindName [name, path]).After t (.ret 0) ∧ kernel.Legal .start t ∧
      (kernel.after .start t).fetched := by
  obtain ⟨a, b, c, ha, hb, hc, -⟩ :=
    exists_strncpy (I := sockets) (n := 16) (by decide) (by decide) h0
  have hfits : (sunPath c).length ≤ 108 := by simp [sunPath]
  obtain ⟨d, hd, -⟩ := exists_write (I := sockets) uninitialised hfits
  refine ⟨[⟨.socket 1 1 0, .ok 3⟩, ⟨.unlink path, .ok ()⟩, ⟨.bind 3 c 110, .ok ()⟩,
    ⟨.getsockname 3 110, .ok (sunPath c)⟩, ⟨.printfStr (text "bound name = ") (sunPath d)
    (text "\n"), ()⟩], .cons (.cons ?_), ⟨trivial, trivial, trivial, ⟨hfits, rfl⟩, trivial,
    trivial⟩, rfl⟩
  dsimp only [Prog.bind]
  rw [ha, Prog.ret_bind, hb, Prog.ret_bind, hc]
  refine .cons (.cons ?_)
  dsimp only [Prog.bind]
  rw [hd]
  exact .cons (.nil _)

/-- The three programs with a pathname of six bytes. -/
theorem one_socket_path_short : ∃ t₁ t₂ t₃ q₁ q₂ status,
    (server [text "server", text "/tmp/s"]).After t₁ q₁ ∧
    (client [text "client", text "/tmp/s"]).After t₂ q₂ ∧
    (bindName [text "bind", text "/tmp/s"]).After t₃ (.ret status) ∧
    Safe (text "/tmp/s") q₁ (kernel.after .start t₁) ∧
    Safe (text "/tmp/s") q₂ (kernel.after .start t₂) ∧
    Safe (text "/tmp/s") (.ret status : Prog sockets ℕ) (kernel.after .start t₃) := by
  have h0 : 0 ∉ text "/tmp/s" := by decide
  obtain ⟨t₁, q₁, h₁, ht₁⟩ := exists_server (text "server") h0
  obtain ⟨t₂, q₂, h₂, ht₂⟩ := @exists_client (text "/tmp/s") (text "client") (by decide)
  obtain ⟨t₃, h₃, ht₃, hfetched⟩ := exists_bindName (text "bind") h0
  have h := (one_socket_path h0 [] h₁ ht₁ h₂ ht₂ h₃ ht₃).1.mpr ⟨by decide, hfetched⟩
  exact ⟨t₁, t₂, t₃, q₁, q₂, 0, h₁, h₂, h₃, h⟩

/-- With 108 bytes the client writes the NUL behind `sun_path`. -/
theorem not_safe_long_path : ¬ ∀ path : List Byte, 0 ∉ path →
    (∀ t q, (server [text "server", path]).After t q → kernel.Legal .start t →
      Safe path q (kernel.after .start t)) ∧
    (∀ t q, (client [text "client", path]).After t q → kernel.Legal .start t →
      Safe path q (kernel.after .start t)) ∧
    (∀ t q, (bindName [text "bind", path]).After t q → kernel.Legal .start t →
      Safe path q (kernel.after .start t)) := by
  intro hall
  have h := (hall (List.replicate 108 97) (by decide)).2.1 [⟨.socket 1 1 0, .ok 3⟩] .fault
    (.cons ?_) ⟨trivial, trivial⟩
  · exact h.1 rfl
  obtain ⟨a, ha, -⟩ := exists_bzero (I := sockets) (n := 110) (by decide) (by decide)
  obtain ⟨b, hb, -⟩ := exists_setFamily (I := sockets) a
  have hlong : ¬ 2 + ((CString.strcpy (List.replicate 108 (97 : Byte))).map some).length ≤ 110 := by
    simp
  dsimp only [Prog.bind]
  rw [ha, Prog.ret_bind, hb, Prog.ret_bind, arg_one, Prog.ret_bind, write, dif_neg hlong]
  exact .nil _

end SocketPath

end UnixNetwork
