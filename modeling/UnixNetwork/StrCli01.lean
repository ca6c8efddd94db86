import UnixNetwork.Stdio
import UnixNetwork.StrEchoSum
import UnixNetwork.Encoding.Decimal
import UnixNetwork.Encoding.Lines
import UnixNetwork.Interaction.Live

/-!
# The sum client

`str_cli_01` of `07/client.c`. It reads its file with `fgets`, takes the newline off what it has
read, reads two numbers from it with `sscanf`, sends them to the server as the bytes of a
`struct args` and prints the sum that comes back.

`fgets` returns at most 1023 bytes, so a longer line is handled as several. It returns the bytes as
they are, but `strlen` stops at a NUL: where one comes first, `len - 1` is the largest `size_t`.

## Main definitions

* `StrCli01.sscanf`, `StrCli01.chomp`, `StrCli01.handle`, `StrCli01.body`: the program
* `StrCli01.numbers`: the two numbers in a line
* `StrCli01.treat`: what is to be done for a line
* `StrCli01.Handles`: the file is handled line by line

## Main results

* `StrCli01.wp_body`: what one turn does
* `StrCli01.handles_iff`: when the file is handled line by line
-/

namespace UnixNetwork

namespace StrCli01

open Interaction Encoding
open StrEchoSum (Long Args longBytes longOf)

/-! ## The program -/

/-- `'\n'`. -/
def newline : Byte := 10

/-- The variables of `str_cli_01`. -/
structure Locals where
  /-- The buffer for lines of the file. -/
  sendBuf : Buf 1024
  /-- The numbers of the last line. -/
  arg : Args
  /-- The `struct result`. -/
  rst : Buf 8

/-- The `long` that a number is stored as; one that does not fit is replaced by the nearest that
does. -/
def clamp (x : ℤ) : Long := BitVec.ofInt 64 (max (-2 ^ 63) (min x (2 ^ 63 - 1)))

/-- The conversion `%ld`. -/
def scanLong (s : List Byte) : Option (Long × List Byte) := (scan s).map fun x => (clamp x.1, x.2)

/-- `sscanf(s, "%ld%ld", &arg.arg1, &arg.arg2)`: its value, and what is then in `arg`. -/
def sscanf (s : List Byte) (arg : Args) : ℤ × Args :=
  match scanLong s with
  | none => (if s.all isSpace then -1 else 0, arg)
  | some (x, s) =>
    match scanLong s with
    | none => (1, { arg with arg1 := x })
    | some (y, _) => (2, ⟨x, y⟩)

/-- The text of a sum. -/
def sumText (arg : Args) (sum : Long) : List Byte :=
  text ("  " ++ toString arg.arg1.toInt ++ " + " ++ toString arg.arg2.toInt ++ " = " ++
    toString sum.toInt ++ "\n")

/-- From `strlen` to the `if` that takes the newline off. `len - 1` is a `size_t`. -/
def chomp (sendBuf : Buf 1024) : Prog stdio (Buf 1024) := do
  let len ← strlen sendBuf
  let last := (len + (2 ^ 64 - 1)) % 2 ^ 64
  let c ← load sendBuf last
  if c = newline then store sendBuf last 0 else return sendBuf

/-- From `sscanf` to the end of a turn. -/
def handle (o : ByteOrder) (sockfd : ℤ) (sendBuf : Buf 1024) (s : Locals) :
    Prog stdio (Locals ⊕ Unit) :=
  -- there is a NUL in the buffer, or `strlen` would not have returned
  let (n, arg) := sscanf (CString.str sendBuf.toList) s.arg
  if n ≠ 2 then do
    let _ ← Prog.perform (I := stdio) (.printf (text "input error\n"))
    return .inl { s with sendBuf := sendBuf, arg := arg }
  else do
    let _ ← Prog.perform (I := stdio) (.write sockfd (Span.whole 16) (arg.bytes o))
    let r ← Prog.perform (I := stdio) (.read sockfd (Span.whole 8))
    let rst := s.rst.put 0 (readBytes r)
    if readValue r = 0 then do
      let _ ← Prog.perform (I := stdio) (.printf (text "the server close socket.\n"))
      return .inr ()
    else do
      let _ ← Prog.perform (I := stdio) (.printf (sumText arg (longOf o rst.toList)))
      return .inl ⟨sendBuf, arg, rst⟩

/-- One turn of the loop. -/
def body (o : ByteOrder) (sockfd : ℤ) (s : Locals) : Prog stdio (Locals ⊕ Unit) := do
  match ← Prog.perform (I := stdio) (.fgets 1024) with
  | none => return .inr ()
  | some line => do
    let sendBuf ← chomp (s.sendBuf.put 0 (line ++ [0]))
    handle o sockfd sendBuf s

/-! ## The file and the server -/

/-- What the client puts out. -/
inductive Output where
  /-- The bytes of a request. -/
  | request (bytes : List Byte)
  /-- A text on the standard output. -/
  | printed (text : List Byte)
deriving DecidableEq

/-- What the client reads from, and what it has put out. -/
structure Session where
  /-- What has not been read of the file. -/
  file : List Byte
  /-- What has been put out, in order. -/
  outs : List Output

/-- What `fgets` returns for an array of `size` bytes. -/
def nextLine (size : ℕ) (file : List Byte) : Option (List Byte) :=
  if file = [] then none else some (piece newline (size - 1) file)

section World

variable (o : ByteOrder) (sockfd : ℤ) (server : List Output → Long)

/-- What the calls return. The server answers with a whole `struct result`, and its answer may
depend on everything that has been put out. Writes are complete. -/
def Allows (w : Session) : (c : Stdio.Call) → Stdio.Res c → Prop
  | .fgets size, r => r = nextLine size w.file
  | .read fd _, r => fd = sockfd ∧ r = .ok (longBytes o (server w.outs))
  | .write fd src _, r => fd = sockfd ∧ r = .ok src.len.toNat
  | _, _ => True

/-- The session after a call. -/
def next (w : Session) : (c : Stdio.Call) → Stdio.Res c → Session
  | .fgets _, some line => { w with file := w.file.drop line.length }
  | .write _ src mem, _ => { w with outs := w.outs ++ [.request (src.bytes mem)] }
  | .printf text, _ => { w with outs := w.outs ++ [.printed text] }
  | _, _ => w

/-- The surroundings of the client. -/
def world : World stdio Session := ⟨Allows o sockfd server, next⟩

/-- A run of the function on a file with this content; `s` is not initialised. -/
abbrev Run (s : Locals) (content : List Byte) : Prog stdio (Locals ⊕ Unit) × Session → Prop :=
  Reach (world o sockfd server) (body o sockfd) (.ret (.inl s), ⟨content, []⟩)

/-! ## Lines -/

/-- The two numbers that `%ld%ld` reads from a line. -/
def numbers (line : List Byte) : Option Args :=
  (scanLong line).bind fun x => (scanLong x.2).map fun y => ⟨x.1, y.1⟩

/-- What is to be put out for a line: one request with its numbers and one sum, or one
`input error` if it has no two numbers. -/
def treat (outs : List Output) (line : List Byte) : List Output :=
  match numbers line with
  | none => outs ++ [.printed (text "input error\n")]
  | some arg =>
    let sent := outs ++ [.request (arg.bytes o)]
    sent ++ [.printed (sumText arg (server sent))]

/-- The file is handled line by line. -/
structure Handles (s : Locals) (content : List Byte) : Prop where
  /-- Nothing outside an array is accessed. -/
  safe : ∀ p w, Run o sockfd server s content (p, w) → Stdio.Safe p
  /-- The function can return at any time. -/
  returns : ∀ p w, Run o sockfd server s content (p, w) →
    ∃ w', Reach (world o sockfd server) (body o sockfd) (p, w) (.ret (.inr ()), w')
  /-- When it returns it has done what is to be done for each line, in order, and nothing else. -/
  treated : ∀ w, Run o sockfd server s content (.ret (.inr ()), w) →
    w.outs = (lines newline content).foldl (treat o server) []

end World

/-! ## Numbers in a line -/

/-- No number begins where these bytes stand, and none goes on there. -/
def Stops (t : List Byte) : Prop := t.takeWhile isDigit = [] ∧ scan t = none

theorem stops_zero (m : List Byte) : Stops (0 :: m) := ⟨rfl, rfl⟩

theorem stops_newline : Stops [newline] := ⟨rfl, rfl⟩

theorem numbers_append {t : List Byte} (ht : Stops t) (l : List Byte) :
    numbers (l ++ t) = numbers l := by
  have hscan : ∀ l, scanLong (l ++ t) = (scanLong l).map fun x => (x.1, x.2 ++ t) := by
    intro l
    rw [scanLong, scanLong, scan_append ht.1 ht.2, Option.map_map, Option.map_map]
    rfl
  rw [numbers, numbers, hscan]
  cases scanLong l with
  | none => rfl
  | some x =>
    show (scanLong (x.2 ++ t)).map _ = (scanLong x.2).map _
    rw [hscan, Option.map_map]
    rfl

/-- `sscanf` does not look behind the first NUL, and there is nothing for it there. -/
theorem numbers_str (line : List Byte) : numbers (CString.str line) = numbers line := by
  rcases CString.eq_str_or line with h | ⟨m, h⟩
  · rw [← h]
  · nth_rewrite 2 [h]
    rw [numbers_append (stops_zero m)]

/-- `sscanf` has read two numbers, or its value is not 2. -/
theorem sscanf_of_numbers {l : List Byte} {a : Args} (h : numbers l = some a) (arg : Args) :
    sscanf l arg = (2, a) := by
  rw [numbers] at h
  obtain ⟨x, hx, h⟩ := Option.bind_eq_some_iff.mp h
  obtain ⟨y, hy, rfl⟩ := Option.map_eq_some_iff.mp h
  rw [sscanf, hx]
  dsimp only
  rw [hy]

theorem sscanf_of_numbers_eq_none {l : List Byte} (h : numbers l = none) (arg : Args) :
    (sscanf l arg).1 ≠ 2 := by
  rw [sscanf]
  rw [numbers] at h
  cases hx : scanLong l with
  | none =>
    dsimp only
    split <;> decide
  | some x =>
    rw [hx, Option.bind_some, Option.map_eq_none_iff] at h
    dsimp only
    rw [h]
    show (1 : ℤ) ≠ 2
    decide

/-! ## The buffer -/

section Chomp

variable {line : List Byte} (b : Buf 1024)

theorem str_put (hlen : line.length ≤ 1023) :
    CString.str (b.put 0 (line ++ [0])).toList = CString.str line ∧
      CString.Terminated (b.put 0 (line ++ [0])).toList := by
  rw [Buf.toList_put_line (Nat.lt_succ_of_le hlen)]
  exact ⟨CString.str_append_cons _ _, CString.terminated_append_zero _ _⟩

/-- A line that begins with a NUL: the index `len - 1` is out of bounds. -/
theorem chomp_of_zero (hlen : line.length ≤ 1023) (h0 : line.head? = some 0) :
    chomp (b.put 0 (line ++ [0])) = .fault := by
  obtain ⟨hstr, hterm⟩ := str_put b hlen
  have hnil : CString.str line = [] := by
    cases line with
    | nil => cases h0
    | cons a line =>
      obtain rfl : a = 0 := Option.some.inj h0
      rfl
  have hlast : ¬ (([] : List Byte).length + (2 ^ 64 - 1)) % 2 ^ 64 < 1024 := by decide
  rw [chomp, strlen, if_pos hterm, hstr, hnil, Prog.ret_bind]
  dsimp only
  rw [load_of_not_lt hlast, Prog.fault_bind]

/-- Any other line is left in the buffer as a string with the same numbers. -/
theorem exists_chomp_eq (hlen : line.length ≤ 1023) (hne : line ≠ [])
    (h0 : line.head? ≠ some 0) : ∃ sendBuf, chomp (b.put 0 (line ++ [0])) = .ret sendBuf ∧
      numbers (CString.str sendBuf.toList) = numbers line := by
  obtain ⟨hstr, hterm⟩ := str_put b hlen
  generalize b.put 0 (line ++ [0]) = sendBuf at hstr hterm
  obtain ⟨m, hm⟩ := CString.exists_eq_str_append hterm
  have hle : (CString.str line).length ≤ 1023 := (CString.length_str_le line).trans hlen
  have hmem := CString.zero_notMem_str line
  -- the string is not empty, so it has a last byte
  obtain ⟨front, c, hfront⟩ : ∃ front c, CString.str line = front ++ [c] := by
    rcases List.eq_nil_or_concat (CString.str line) with hnil | h
    · exact absurd hnil (CString.str_ne_nil hne h0)
    · simpa using h
  rw [hfront, List.length_append, List.length_singleton] at hle
  rw [hstr, hfront, List.append_assoc] at hm
  have hlast : (front.length + 1 + (2 ^ 64 - 1)) % 2 ^ 64 = front.length := by omega
  have hlt : front.length < 1024 := by omega
  have hload : sendBuf[front.length] = c := by
    rw [← Vector.getElem_toList (by simpa using hlt)]
    simp [hm]
  rw [chomp, strlen, if_pos hterm, hstr, hfront, List.length_append, List.length_singleton,
    Prog.ret_bind, hlast]
  dsimp only
  rw [load_of_lt hlt, Prog.ret_bind, hload]
  rw [hfront] at hmem
  split
  next hc =>
    refine ⟨_, store_of_lt hlt 0, ?_⟩
    have hset : (sendBuf.set front.length 0 hlt).toList = front ++ 0 :: 0 :: m := by
      rw [Vector.toList_set, hm, List.set_append_right _ _ (Nat.le_refl _), Nat.sub_self]
      rfl
    have hfront0 : 0 ∉ front := fun h => hmem (List.mem_append_left _ h)
    rw [hset, CString.str_append_zero hfront0, ← numbers_str line, hfront, hc,
      numbers_append stops_newline]
  next hc =>
    refine ⟨sendBuf, rfl, ?_⟩
    rw [hstr, numbers_str]

end Chomp

/-! ## A turn -/

section Turn

variable (o : ByteOrder) (sockfd : ℤ) (server : List Output → Long)

/-- What is asked of the program: it stays inside its arrays, and makes calls that return. -/
def live : Guard stdio Session where
  Call w c := Stdio.InBounds c ∧ ∃ r, (world o sockfd server).Allows w c r
  Fault _ := False

theorem live_live : (live o sockfd server).Live (world o sockfd server) :=
  Guard.live_within (world o sockfd server) Stdio.InBounds

/-- A request is written as it is. -/
theorem bytes_request (arg : Args) : (Span.whole 16).bytes (arg.bytes o) = arg.bytes o := by
  have hlen : (arg.bytes o).length ≤ 16 := (StrEchoSum.length_bytes o arg).le
  rw [Span.bytes, Span.whole]
  exact List.take_of_length_le hlen

theorem next_request (w : Session) (arg : Args) (r : Except Errno ℕ) :
    next w (.write sockfd (Span.whole 16) (arg.bytes o)) r =
      { w with outs := w.outs ++ [.request (arg.bytes o)] } := by
  rw [next, bytes_request]

/-- An answer is not the end of the stream. -/
theorem readValue_answer (sum : Long) : readValue (.ok (longBytes o sum)) ≠ 0 := by
  rw [readValue_ok, longBytes, ByteOrder.length_encode]
  decide

/-- An answer is read as it is. -/
theorem longOf_answer (rst : Buf 8) (sum : Long) :
    longOf o (rst.put 0 (longBytes o sum)).toList = sum := by
  have hlen : (longBytes o sum).length = 8 := StrEchoSum.length_longBytes o sum
  have hdrop : rst.toList.drop 8 = [] := List.drop_eq_nil_of_le Vector.length_toList.le
  rw [Buf.toList_put_zero hlen.le, hlen, hdrop, List.append_nil, StrEchoSum.longOf_longBytes]

/-- A line without two numbers. -/
theorem handle_of_numbers_eq_none {sendBuf : Buf 1024}
    (h : numbers (CString.str sendBuf.toList) = none) (s : Locals) :
    ∃ s', handle o sockfd sendBuf s =
      Prog.call (I := stdio) (.printf (text "input error\n")) fun _ => .ret (.inl s') := by
  have hne := sscanf_of_numbers_eq_none h s.arg
  rw [handle]
  generalize sscanf (CString.str sendBuf.toList) s.arg = x at hne
  obtain ⟨n, arg⟩ := x
  dsimp only
  rw [if_pos hne]
  exact ⟨_, rfl⟩

/-- A line with two numbers. -/
theorem handle_of_numbers {sendBuf : Buf 1024} {arg : Args}
    (h : numbers (CString.str sendBuf.toList) = some arg) (s : Locals) :
    handle o sockfd sendBuf s =
      Prog.call (I := stdio) (.write sockfd (Span.whole 16) (arg.bytes o)) fun _ =>
        Prog.call (I := stdio) (.read sockfd (Span.whole 8)) fun r =>
          if readValue r = 0 then
            Prog.call (I := stdio) (.printf (text "the server close socket.\n")) fun _ =>
              .ret (.inr ())
          else Prog.call (I := stdio)
            (.printf (sumText arg (longOf o (s.rst.put 0 (readBytes r)).toList))) fun _ =>
              .ret (.inl ⟨sendBuf, arg, s.rst.put 0 (readBytes r)⟩) := by
  rw [handle, sscanf_of_numbers h]
  dsimp only
  rw [if_neg (not_not_intro rfl)]
  rfl

/-- **What is done for a line.** -/
theorem wp_handle {sendBuf : Buf 1024} {line : List Byte}
    (h : numbers (CString.str sendBuf.toList) = numbers line) (s : Locals) (w : Session) :
    wp (world o sockfd server) (live o sockfd server) (handle o sockfd sendBuf s)
      (fun x w' => ∃ s', x = .inl s' ∧ w' = ⟨w.file, treat o server w.outs line⟩) w := by
  rw [treat, ← h]
  cases hn : numbers (CString.str sendBuf.toList) with
  | none =>
    obtain ⟨s', hs'⟩ := handle_of_numbers_eq_none o sockfd hn s
    rw [hs']
    exact ⟨⟨trivial, (), trivial⟩, fun _ _ => ⟨s', rfl, rfl⟩⟩
  | some arg =>
    rw [handle_of_numbers o sockfd hn]
    have hwrite : (Span.whole 16).InBounds := by decide
    have hread : (Span.whole 8).InBounds := by decide
    refine ⟨⟨hwrite, _, rfl, rfl⟩, fun n _ => ⟨⟨hread, _, rfl, rfl⟩, ?_⟩⟩
    rintro r ⟨-, rfl⟩
    have hsent : (world o sockfd server).next w (.write sockfd (Span.whole 16) (arg.bytes o)) n =
        ⟨w.file, w.outs ++ [.request (arg.bytes o)]⟩ := next_request o sockfd w arg n
    rw [hsent]
    dsimp only
    rw [if_neg (readValue_answer o _), readBytes_ok, longOf_answer]
    exact ⟨⟨trivial, (), trivial⟩, fun _ _ => ⟨_, rfl, rfl⟩⟩

theorem exists_body_eq (s : Locals) : ∃ k : Option (List Byte) → _,
    body o sockfd s = Prog.call (I := stdio) (.fgets 1024) k ∧ k none = .ret (.inr ()) ∧
      ∀ line, k (some line) =
        chomp (s.sendBuf.put 0 (line ++ [0])) >>= fun sendBuf => handle o sockfd sendBuf s := by
  rw [body, Prog.perform_bind]
  exact ⟨_, rfl, rfl, fun _ => rfl⟩

theorem nextLine_of_ne_nil {file : List Byte} (h : file ≠ []) :
    nextLine 1024 file = some (piece newline 1023 file) := if_neg h

/-- A turn at the end of the file. -/
theorem wp_end (s : Locals) {w : Session} (hw : w.file = []) :
    wp (world o sockfd server) (live o sockfd server) (body o sockfd s)
      (fun x w' => x = .inr () ∧ w' = w) w := by
  obtain ⟨k, hbody, hnone, -⟩ := exists_body_eq o sockfd s
  have hnext : nextLine 1024 w.file = none := if_pos hw
  rw [hbody]
  refine ⟨⟨trivial, _, rfl⟩, ?_⟩
  rintro r rfl
  rw [hnext, hnone]
  exact ⟨rfl, rfl⟩

/-- **A turn** handles a piece that does not begin with a NUL. -/
theorem wp_body (s : Locals) {w : Session} (hw : w.file ≠ [])
    (h0 : (piece newline 1023 w.file).head? ≠ some 0) :
    wp (world o sockfd server) (live o sockfd server) (body o sockfd s)
      (fun x w' => ∃ s', x = .inl s' ∧ w' =
        ⟨w.file.drop (piece newline 1023 w.file).length,
          treat o server w.outs (piece newline 1023 w.file)⟩) w := by
  obtain ⟨k, hbody, -, hsome⟩ := exists_body_eq o sockfd s
  obtain ⟨sendBuf, hchomp, hnumbers⟩ := exists_chomp_eq s.sendBuf
    (length_piece_le newline 1023 w.file) (piece_ne_nil (by decide) hw) h0
  rw [hbody]
  refine ⟨⟨trivial, _, rfl⟩, ?_⟩
  rintro r rfl
  rw [nextLine_of_ne_nil hw, hsome, hchomp]
  exact wp_handle o sockfd server hnumbers s ⟨w.file.drop _, w.outs⟩

/-- A piece that begins with a NUL makes the program read outside its buffer. -/
theorem reach_fault (s : Locals) {w : Session} (hw : w.file ≠ [])
    (h0 : (piece newline 1023 w.file).head? = some 0) :
    ∃ w', Reach (world o sockfd server) (body o sockfd) (.ret (.inl s), w) (.fault, w') := by
  obtain ⟨k, hbody, -, hsome⟩ := exists_body_eq o sockfd s
  have hchomp := chomp_of_zero s.sendBuf (length_piece_le newline 1023 w.file) h0
  have hfgets : Step (world o sockfd server) (body o sockfd)
      (Prog.call (I := stdio) (.fgets 1024) k, w)
      (k (nextLine 1024 w.file), next w (.fgets 1024) (nextLine 1024 w.file)) := .call rfl
  rw [← hbody, nextLine_of_ne_nil hw, hsome, hchomp] at hfgets
  exact ⟨_, .head .again (.single hfgets)⟩

end Turn

/-! ## A run -/

section Runs

variable (o : ByteOrder) (sockfd : ℤ) (server : List Output → Long)

/-- At the head of the loop: what remains to be done, and no piece to come begins with a NUL. -/
structure Inv (outs : List Output) (w : Session) : Prop where
  /-- What has been put out, and what will be for the pieces to come. -/
  outs : (pieces newline 1023 w.file).foldl (treat o server) w.outs = outs
  /-- No piece to come begins with a NUL. -/
  head : ∀ p ∈ pieces newline 1023 w.file, p.head? ≠ some 0

/-- A turn keeps the invariant. -/
theorem wp_turn (outs : List Output) (s : Locals) (w : Session) (hw : Inv o server outs w) :
    wp (world o sockfd server) (live o sockfd server) (body o sockfd s)
      (Sum.elim (fun _ w' => Inv o server outs w' ∧ w'.file.length < w.file.length)
        fun _ w' => w'.outs = outs) w := by
  by_cases hfile : w.file = []
  · refine wp_mono ?_ (wp_end o sockfd server s hfile)
    rintro x w' ⟨rfl, rfl⟩
    have houts := hw.outs
    rwa [hfile, pieces_nil] at houts
  · have hroom : 0 < 1023 := by decide
    have hpieces := pieces_of_ne_nil newline hroom hfile
    have hhead := hw.head
    have houts := hw.outs
    rw [hpieces] at hhead houts
    refine wp_mono ?_ (wp_body o sockfd server s hfile (hhead _ List.mem_cons_self))
    rintro x w' ⟨s', rfl, rfl⟩
    refine ⟨⟨houts, fun p hp => hhead p (List.mem_cons_of_mem _ hp)⟩, ?_⟩
    exact length_drop_piece_lt newline hroom hfile

/-- Where nothing undefined happens, no piece begins with a NUL. -/
theorem head_ne_of_safe {file : List Byte} {outs : List Output} {s : Locals}
    (h : ∀ w, ¬ Reach (world o sockfd server) (body o sockfd) (.ret (.inl s), ⟨file, outs⟩)
      (.fault, w)) : ∀ p ∈ pieces newline 1023 file, p.head? ≠ some 0 := by
  have hroom : 0 < 1023 := by decide
  induction file using piece_induction newline hroom generalizing outs s with
  | nil =>
    rw [pieces_nil]
    exact fun p hp => absurd hp List.not_mem_nil
  | piece file hfile ih =>
    have hfirst : (piece newline 1023 file).head? ≠ some 0 := by
      intro h0
      obtain ⟨w, hfault⟩ := reach_fault o sockfd server s (w := ⟨file, outs⟩) hfile h0
      exact h w hfault
    obtain ⟨x, w', hturn, s', rfl, rfl⟩ := (live_live o sockfd server).exists_executes
      (wp_body o sockfd server s (w := ⟨file, outs⟩) hfile hfirst)
    rw [pieces_of_ne_nil newline hroom hfile]
    intro p hp
    rcases List.mem_cons.mp hp with rfl | hp
    · exact hfirst
    · exact ih (fun w hw => h w (.head .again (hturn.reach.trans hw))) p hp

/-- For each line something is printed once. -/
theorem countP_treat (outs : List Output) (line : List Byte) :
    (treat o server outs line).countP (· matches .printed _) =
      outs.countP (· matches .printed _) + 1 := by
  rw [treat]
  cases numbers line with
  | none => simp [List.countP_append]
  | some arg => simp [List.countP_append]

theorem countP_foldl_treat (ls : List (List Byte)) (outs : List Output) :
    (ls.foldl (treat o server) outs).countP (· matches .printed _) =
      outs.countP (· matches .printed _) + ls.length := by
  induction ls generalizing outs with
  | nil => rfl
  | cons line ls ih =>
    rw [List.foldl_cons, ih, countP_treat, List.length_cons]
    omega

end Runs

/-- **The file is handled line by line** if and only if each line fits into the buffer, its newline
included, and none begins with a NUL. -/
theorem handles_iff (o : ByteOrder) (sockfd : ℤ) (server : List Output → Long) (s : Locals)
    (content : List Byte) : Handles o sockfd server s content ↔
      ∀ line ∈ lines newline content, line.length ≤ 1023 ∧ line.head? ≠ some 0 := by
  have hroom : 0 < 1023 := by decide
  have hlive := live_live o sockfd server
  constructor
  · intro h
    have hhead : ∀ p ∈ pieces newline 1023 content, p.head? ≠ some 0 :=
      head_ne_of_safe o sockfd server fun w hw => h.safe .fault w hw
    generalize hdone : (pieces newline 1023 content).foldl (treat o server) [] = outs
    have hinv : Inv o server outs ⟨content, []⟩ := ⟨hdone, hhead⟩
    obtain ⟨_, w, hrun, houts⟩ := hlive.exists_done (wp_turn o sockfd server outs) (s := s) hinv
    have hcount := congrArg (List.countP (· matches .printed _)) (h.treated w hrun)
    rw [houts, ← hdone, countP_foldl_treat, countP_foldl_treat] at hcount
    have hlen := (length_lines_le newline hroom content).2 (Nat.add_left_cancel hcount)
    rw [pieces_eq_lines newline hroom hlen] at hhead
    exact fun line hline => ⟨hlen line hline, hhead line hline⟩
  · intro h
    have hpieces : pieces newline 1023 content = lines newline content :=
      pieces_eq_lines newline hroom fun line hline => (h line hline).1
    generalize houts : (lines newline content).foldl (treat o server) [] = outs
    have hinv : Inv o server outs ⟨content, []⟩ := by
      refine ⟨?_, ?_⟩
      · rw [hpieces, houts]
      · rw [hpieces]
        exact fun p hp => (h p hp).2
    have hwp := fun p w (hrun : Run o sockfd server s content (p, w)) =>
      Reach.wp_of_lt (wp_turn o sockfd server outs) hrun hinv
    refine ⟨fun p w hrun => ?_, fun p w hrun => ?_, fun w hrun => ?_⟩
    · have hcall : ∀ w c, (live o sockfd server).Call w c → Stdio.InBounds c := fun _ _ hc => hc.1
      exact Stdio.safe_of_wp hcall hlive.fault (hwp p w hrun)
    · obtain ⟨_, w', hend⟩ := hlive.returns (wp_turn o sockfd server outs) hinv hrun
      exact ⟨w', hend⟩
    · rw [houts]
      exact hwp _ w hrun

/-- A NUL at the beginning of a line makes the program go in front of its buffer. -/
theorem not_handles_nul : ¬ Handles .little 4 (fun _ => 0)
    ⟨Buf.zeros 1024, ⟨0, 0⟩, Buf.zeros 8⟩ [0, newline] := by
  intro h
  have hpiece : (piece newline 1023 [0, newline]).head? = some 0 := by decide
  obtain ⟨w, hfault⟩ := reach_fault .little 4 (fun _ => 0) ⟨Buf.zeros 1024, ⟨0, 0⟩, Buf.zeros 8⟩
    (w := ⟨[0, newline], []⟩) (List.cons_ne_nil _ _) hpiece
  exact h.safe .fault w hfault

end StrCli01

end UnixNetwork
