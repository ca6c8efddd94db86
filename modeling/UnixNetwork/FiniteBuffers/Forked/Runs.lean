import Mathlib.Data.Fintype.Sum
import UnixNetwork.FiniteBuffers.Filling
import UnixNetwork.FiniteBuffers.Forked.Turns

/-!
# Who is served by the forking server over connections of finite capacity

Each client has a child of its own, so it is served whatever the other clients do: its file comes
back, in every run, if its connection can hold what it must, and if it cannot fill the buffer of
its child to the last byte. The other clients may block their children for ever, or have them run
into undefined behaviour. No call fails or is interrupted, by `SIGCHLD` or otherwise.

## Main definitions

* `Forked.Short`: the file of a client is short enough for its connection
* `Forked.Served`: a client is served in every run

## Main results

* `Forked.returned_of_stuck`: where all programs stand still
* `Forked.exists_filling`: a run in which one client fills its connection
* `Forked.served_iff`: which clients are served
-/

namespace UnixNetwork

namespace FiniteBuffers

namespace Forked

open Interaction
open Forking (Main01 process)

variable {ι : Type} [Fintype ι] [DecidableEq ι] {S : Setup ι} {m : Family ι} {i : ι} {n : ℕ}

/-! ## Every moment of every run -/

/-- What holds at the head of each loop. -/
def Head (S : Setup ι) : ∀ x, (system S).σ x → Family ι → Prop
  | .inl none => fun s m => s = .head ∧ ServerAt S nothing (serverLeft m + 1) m
  | .inl (some i) => fun s m =>
    ∃ n buf, s = .echo n buf ∧ ChildAt S i n [] (childLeft S i m + 1) m
  | .inr i => fun s m => ClientHead (S.client i) s (m.pipe i)

/-- What holds when a loop has ended. -/
def Done (S : Setup ι) : ∀ x, (system S).ρ x → Family ι → Prop
  | .inl none => fun _ _ => False
  | .inl (some i) => fun _ m => ChildDone S i m
  | .inr i => fun e m => ClientDone (S.client i) e (m.pipe i)

/-- What each loop has still to do. -/
def left (S : Setup ι) : Option ι ⊕ ι → Family ι → ℕ
  | .inl none => serverLeft
  | .inl (some i) => childLeft S i
  | .inr i => fun m => (m.pipe i).left (S.client i).session.content

/-- A turn of each loop. -/
theorem wpr_turn (x : Option ι ⊕ ι) (s : (system S).σ x) (m : Family ι) (h : Head S x s m) :
    wpr ((system S).world x) (contract S x) ((system S).body x s)
      (Sum.elim (fun s' m' => Head S x s' m' ∧ left S x m' < left S x m) (Done S x)) m := by
  rcases x with (_ | i) | i
  · obtain ⟨rfl, h⟩ := h
    refine wpr_mono ?_ (wpr_server h)
    rintro (s | e) m' hQ
    · exact ⟨⟨hQ.1, { hQ.2 with left := Nat.lt_succ_self _ }⟩, hQ.2.left⟩
    · exact hQ
  · obtain ⟨n, buf, rfl, h⟩ := h
    refine wpr_mono ?_ (wpr_child h buf)
    rintro (s | e) m' hQ
    · obtain ⟨⟨buf', rfl⟩, hat⟩ := hQ
      exact ⟨⟨n, buf', rfl, { hat with left := Nat.lt_succ_self _ }⟩, hat.left⟩
    · exact hQ
  · have hturn := wpr_within (L := pipeOf i) (m := m) (wpr_client (ι := ι) h)
    exact wpr_mono (by rintro (s | e) m hQ <;> exact hQ) hturn

/-- All programs keep to their contracts. -/
abbrev Keeping (S : Setup ι) (a : (system S).State) : Prop :=
  (system S).Kept (contract S) (fun x => Sum.elim (Head S x) (Done S x)) a

theorem good_start (i : ι) : Good S i (start S).2 where
  sound := .start _ _ _
  owners x hx := absurd rfl hx
  waiting _ := ⟨rfl, fun _ => rfl⟩
  unborn _ := ⟨rfl, rfl, fun hc => by cases hc⟩
  finished hborn := absurd rfl hborn
  closed := iff_of_false (fun hc => by cases hc) fun hc => by cases hc.1

theorem keeping_start : Keeping S (start S) := by
  rintro ((_ | i) | i)
  · have hat : ServerAt S nothing (serverLeft (start S).2 + 1) (start S).2 :=
      ⟨good_start, rfl, Nat.lt_succ_self _⟩
    exact fun m hm => ⟨rfl, { hat.rely hm with left := Nat.lt_succ_self _ }⟩
  · exact wpr_childStart (.inl rfl) (good_start i) fun n m' hat => ⟨n, S.buf, rfl, hat⟩
  · have hstart := wpr_within (L := pipeOf i) (m := (start S).2)
      (wpr_clientStart (ι := ι) (S.client i))
    exact wpr_mono (by rintro (s | e) m hQ <;> exact hQ) hstart

theorem keeping_of_reach {a : (system S).State} (h : (system S).Reach (start S) a) :
    Keeping S a :=
  h.wpr_of_lt (Head S) (Done S) (left S) (fits S) wpr_turn keeping_start

/-- What holds of each connection at every moment. -/
theorem Keeping.good {a : (system S).State} (h : Keeping S a) (i : ι) : Good S i a.2 := by
  refine wp_now (J := fun m => Good S i m) (h.wp (.inl none)) ?_ (fun _ _ hc => hc.1 i)
    fun _ hf => hf.elim
  rintro (s | e) m hQ
  · exact hQ.2.good i
  · exact hQ.elim

theorem acc_start : Acc (fun b a => (system S).Step a b) (start S) :=
  System.acc (Head S) (Done S) (left S) (fits S) wpr_turn keeping_start

/-! ## Where all programs stand still -/

theorem nonempty_res (c : Forking.Call) : Nonempty (Forking.Res c) := by
  cases c with
  | accept | fork | write | waitpid | close | dup2 | execlp | read => exact ⟨.error .eintr⟩
  | errno => exact ⟨.eintr⟩
  | _ => exact ⟨()⟩

/-- No other call but `read` waits for anything. -/
theorem exists_allows {x : Option ι} {c : Forking.Call} (hread : ∀ fd dst, c ≠ .read fd dst) :
    ∃ r, (processWorld S x).Allows m (.sys c) r := by
  obtain ⟨r⟩ := nonempty_res c
  refine ⟨r, ?_⟩
  cases c with
  | read fd dst => exact absurd rfl (hread fd dst)
  | _ => trivial

/-- A call of the server that does not return. -/
theorem ServerCall.waits {x : KernelCall} (h : ServerCall S m x)
    (hno : ∀ r, ¬ (processWorld S none).Allows m x r) (i : ι) :
    m.accepted i = true ∧ m.fds none i = none := by
  match x with
  | .accept fd =>
    obtain ⟨rfl, hnone⟩ := h
    refine ⟨?_, hnone i⟩
    by_contra hi
    obtain ⟨n, hn⟩ : ∃ n : ℕ, (n : ℤ) ≠ S.listenfd := by
      by_cases h0 : S.listenfd = 0
      · exact ⟨1, by rw [h0]; decide⟩
      · exact ⟨0, Ne.symm h0⟩
    refine hno (n, [], i) ⟨rfl, hn, fun j hj => ?_, by simpa using hi⟩
    cases (hnone j).symm.trans hj
  | .fork child =>
    obtain ⟨j, hj, hborn⟩ := h
    exact absurd ⟨Nat.zero_lt_one, hj, hborn⟩ (hno (1, j))
  | .put fd b => exact h.elim
  | .start => exact h.elim
  | .exit => exact h.elim
  | .sys c =>
    obtain ⟨r, hr⟩ := exists_allows (S := S) (m := m) (x := none) (c := c)
      (by rintro fd dst rfl; exact h)
    exact absurd hr (hno r)

/-- A call of a child that does not return. -/
theorem ChildCall.waits {x : KernelCall} (h : ChildCall i m x)
    (hno : ∀ r, ¬ (processWorld S (some i)).Allows m x r) :
    m.born i = none ∨ ¬ (m.pipe i).Readable ∨
      (m.pipe i).held ≠ [] ∧ (S.client i).down ≤ (m.pipe i).down.queue.length := by
  match x with
  | .accept fd => exact h.elim
  | .fork child => exact h.elim
  | .put fd b =>
    obtain ⟨hopen, hheld⟩ := h
    exact .inr (.inr ⟨hheld, not_lt.mp fun hlt => hno () ⟨i, hopen, hlt⟩⟩)
  | .start =>
    refine .inl ?_
    by_contra hborn
    obtain ⟨p, hp⟩ := Option.ne_none_iff_exists'.mp hborn
    exact hno p ⟨i, rfl, hp⟩
  | .exit => exact absurd trivial (hno ())
  | .sys c =>
    by_cases hread : ∃ fd dst, c = .read fd dst
    · obtain ⟨fd, dst, rfl⟩ := hread
      refine .inr (.inl fun hready => ?_)
      obtain ⟨rfl, hopen⟩ := h
      obtain ⟨bs, hbs, hlen, hend⟩ := exists_prefix (m.pipe i).up.queue
      refine hno (.ok bs) ⟨bs, i, rfl, Int.ofNat_le.mpr hlen, hopen, hbs, fun hnil =>
        ⟨hend hnil, ?_⟩⟩
      exact hready.resolve_left fun hq => hq (hend hnil)
    · obtain ⟨r, hr⟩ := exists_allows (S := S) (m := m) (x := some i)
        fun fd dst he => hread ⟨fd, dst, he⟩
      exact absurd hr (hno r)

/-- What is left of the turn of a child that is to write `bs` back. -/
def writing (n : ℕ) (bs : List Byte) (buf : Buf 1024) : Prog (kernel ι) (Main01 ⊕ Unit) :=
  Prog.callEach (I := kernel ι) (.put n) bs >>= fun _ => .ret (.inl (.echo n buf))

/-- What a child goes on with when `str_echo` has made a turn. -/
def afterEcho (n : ℕ) : Buf 1024 ⊕ Unit → Prog process (Main01 ⊕ Unit) :=
  Sum.elim (fun buf => .ret (.inl (.echo n buf))) fun _ => .ret (.inr ())

omit [DecidableEq ι] [Fintype ι] in
theorem main01_echo (buf : Buf 1024) : Forking.main01 S.listenfd S.buf (.echo n buf) =
    Forking.strEcho n buf >>= afterEcho n := by
  refine congrArg (Forking.strEcho n buf >>= ·) (funext fun r => ?_)
  rcases r with buf | ⟨⟩ <;> rfl

/-- A child reads some bytes, and is to write them back if they do not fill its buffer. -/
theorem child_reads (hopen : m.fds (some i) i = some (n : ℤ)) (buf : Buf 1024) {bs : List Byte}
    (hnil : bs ≠ []) (hlen : bs.length ≤ 1024) (hqueue : bs <+: (m.pipe i).up.queue) :
    ∃ p : Prog (kernel ι) (Main01 ⊕ Unit), Interaction.Reach (processWorld S (some i))
      (fun s => lower (Forking.main01 S.listenfd S.buf s)) (.ret (.inl (.echo n buf)), m)
      (p, m.behind (some i) n fun p => p.onTake bs) ∧
        (bs.length < 1024 → ∃ buf', p = writing n bs buf') ∧ (bs.length = 1024 → p = .fault) := by
  obtain ⟨c, hbody, hok, hfull, -, -⟩ := Forking.StrEcho.exists_strEcho_eq n buf
  have hallows : (processWorld S (some i)).Allows m (.sys (.read n (Span.whole 1024))) (.ok bs) :=
    ⟨bs, i, rfl, Int.ofNat_le.mpr hlen, hopen, hqueue, fun he => absurd he hnil⟩
  have hread : Interaction.Reach (processWorld S (some i))
      (fun s => lower (Forking.main01 S.listenfd S.buf s)) (.ret (.inl (.echo n buf)), m)
      (lower (c (.ok bs) >>= afterEcho n), m.behind (some i) n fun p => p.onTake bs) := by
    refine .head .again ?_
    rw [main01_echo, hbody]
    exact .single (.call hallows)
  rcases Nat.lt_or_eq_of_le hlen with hlt | heq
  · obtain ⟨mem, hbytes, hc⟩ := hok bs hnil hlt
    rw [hc] at hread
    refine ⟨_, hread.tail (.call (r := ()) trivial), fun _ => ⟨mem, ?_⟩, fun he => absurd he hlt.ne⟩
    show Prog.callEach (I := kernel ι) _ (Span.bytes _ _) >>= _ = _
    rw [hbytes]
    rfl
  · rw [hfull bs heq] at hread
    exact ⟨_, hread, fun hlt => absurd heq hlt.ne, fun _ => rfl⟩

/-- The child for client `i` is to hand over `o`, or is at the head of its loop. -/
structure Serving (S : Setup ι) (i : ι) (n : ℕ) (o : Option Byte) (a : (system S).State) :
    Prop where
  /-- What is left of its turn. -/
  child : ∃ buf, a.1 (.inl (some i)) = writing n o.toList buf
  /-- Its descriptor. -/
  fds : a.2.fds (some i) i = some (n : ℤ)

omit [Fintype ι] [DecidableEq ι] in
theorem behind_pipe (hopen : m.fds (some i) i = some (n : ℤ)) (f : Pipe → Pipe) :
    (m.behind (some i) n f).pipe i = f (m.pipe i) :=
  if_pos hopen

/-- A child echoes byte by byte. -/
theorem echoes (S : Setup ι) (i : ι) (n : ℕ) : Echoes (S.client i) (system S).Step
    (fun a => a.1 (.inr i)) (fun a => a.2.pipe i) (Serving S i n) where
  client := by
    rintro a o q x ha hreach
    obtain ⟨b, hb, hclient, hothers, hm⟩ := System.exists_reach (Y := system S) (i := .inr i) rfl
      (Reach.within (L := pipeOf i) (m := a.2) hreach)
    obtain ⟨buf, hbuf⟩ := ha.child
    refine ⟨b, hb, ⟨⟨buf, (hothers (.inl (some i)) nofun).trans hbuf⟩, ?_⟩, hclient, ?_⟩
    · rw [hm]
      exact ha.fds
    · rw [hm]
      exact Function.update_self ..
  take := by
    rintro a b rest ha hqueue
    obtain ⟨buf, hbuf⟩ := ha.child
    obtain ⟨p, hreach, hwriting, -⟩ := child_reads (S := S) ha.fds buf (List.cons_ne_nil b [])
      (Nat.succ_le_succ (Nat.zero_le _)) (hqueue ▸ ⟨rest, rfl⟩)
    obtain ⟨c, hc, hchild, hothers, hm⟩ :=
      System.exists_reach (Y := system S) (i := .inl (some i)) hbuf hreach
    obtain ⟨buf', rfl⟩ := hwriting (show 1 < 1024 by decide)
    refine ⟨c, hc, ⟨⟨buf', hchild⟩, ?_⟩, hothers (.inr i) nofun, ?_⟩
    · rw [hm]
      exact ha.fds
    · rw [hm]
      exact behind_pipe ha.fds fun p => p.onTake [b]
  echo := by
    rintro a b ha hroom
    obtain ⟨buf, hbuf⟩ := ha.child
    obtain ⟨c, hc, hchild, hothers, hm⟩ :=
      System.exists_reach (Y := system S) (i := .inl (some i)) hbuf
        (.single (.call (r := ()) ⟨i, ha.fds, hroom⟩))
    refine ⟨c, hc, ⟨⟨buf, hchild⟩, ?_⟩, hothers (.inr i) nofun, ?_⟩
    · rw [hm]
      exact ha.fds
    · rw [hm]
      exact behind_pipe ha.fds fun p => p.onEcho b

/-- The server may accept the connection of client `i` first, and fork a child for it. -/
theorem server_forks (S : Setup ι) (i : ι) : ∃ (n : ℕ) (m : Family ι),
    Interaction.Reach (processWorld S none) (fun s => lower (Forking.main01 S.listenfd S.buf s))
      (.ret (.inl .head), (start S).2) (.ret (.inl .head), m) ∧
    m.born i = some (childProg S n) ∧ m.fds (some i) = only i n ∧ (n : ℤ) ≠ S.listenfd ∧
      m.pipe i = .start (S.client i).session.content := by
  obtain ⟨n, hn⟩ : ∃ n : ℕ, (n : ℤ) ≠ S.listenfd := by
    by_cases h0 : S.listenfd = 0
    · exact ⟨1, by rw [h0]; decide⟩
    · exact ⟨0, Ne.symm h0⟩
  set m₁ := (start S).2.accept none i n
  set m₂ := m₁.fork none i (childProg S n)
  have hfds : m₁.fds none = only i n := accept_fds_self
  have hself : m₂.fds (some i) = only i n := fork_fds_self.trans hfds
  have hopen : m₂.fds (some i) i ≠ none := by
    rw [hself, only_self]
    exact Option.some_ne_none _
  refine ⟨n, m₂.release none fun j => m₂.fds none j = some (n : ℤ), ?_, fork_born_self (x := none),
    (release_fds_of_ne (Option.some_ne_none i)).trans hself, hn,
    release_pipe_of_held (Option.some_ne_none i) hopen⟩
  refine .head .again ?_
  refine .head (.call (r := (n, [], i)) ⟨rfl, hn, nofun, rfl⟩) ?_
  refine .head (.call (r := ()) trivial) ?_
  refine .head (.call (r := (1, i)) ⟨Nat.zero_lt_one, ?_, rfl⟩) ?_
  · show m₁.fds none i ≠ none
    rw [hfds, only_self]
    exact Option.some_ne_none _
  exact .single (.call (r := Except.ok ()) trivial)

/-- The server may fork a child for client `i` before anything else happens. -/
theorem exists_filling (S : Setup ι) (i : ι) : ∃ n a, (system S).Reach (start S) a ∧
    Filling (S.client i) (fun a : (system S).State => a.1 (.inr i)) (fun a => a.2.pipe i)
      (Serving S i n) none 0 0 a := by
  obtain ⟨n, m, hforks, hborn, hfds, hne, hpipe⟩ := server_forks S i
  obtain ⟨a, ha, -, hothers, rfl⟩ := System.exists_reach (Y := system S) (i := .inl none)
    (a := start S) rfl hforks
  -- the child closes the listening descriptor
  have hbegin : Interaction.Reach (processWorld S (some i))
      (fun s => lower (Forking.main01 S.listenfd S.buf s))
      (.call (I := kernel ι) .start lower, a.2) (.ret (.inl (.echo n S.buf)), a.2) := by
    refine .head (.call (r := childProg S n) ⟨i, rfl, hborn⟩) ?_
    have hclose : Interaction.Step (processWorld S (some i))
        (fun s => lower (Forking.main01 S.listenfd S.buf s)) (lower (childProg S n), a.2)
        (.ret (.inl (.echo n S.buf)),
          a.2.release (some i) fun j => a.2.fds (some i) j = some S.listenfd) :=
      .call (r := Except.ok ()) trivial
    rw [release_listen hfds hne] at hclose
    exact .single hclose
  obtain ⟨b, hb, hchild, hothers', hm⟩ := System.exists_reach (Y := system S)
    (i := .inl (some i)) (hothers (.inl (some i)) nofun) hbegin
  have hserving : Serving S i n none b := by
    refine ⟨⟨S.buf, hchild⟩, ?_⟩
    rw [hm, hfds, only_self]
  -- the client prints that it begins
  have hprints : Interaction.Reach (clientWorld (ι := ι) (S.client i)) (clientBody (S.client i))
      (b.1 (.inr i), b.2.pipe i)
      (.ret (.inl ⟨false, .zero, (S.client i).buf⟩), b.2.pipe i) := by
    rw [(hothers' (.inr i) nofun).trans (hothers (.inr i) nofun)]
    exact .single (.call (r := ()) trivial)
  obtain ⟨c, hc, hserving', hprog, hpipe'⟩ := (echoes S i n).client hserving hprints
  have hstart : c.2.pipe i = .start (S.client i).session.content := by
    rw [hpipe', hm, hpipe]
  exact ⟨n, c, (ha.trans hb).trans hc, ⟨_, hprog, rfl⟩, hserving', hstart ▸ .start _ _ _,
    hstart ▸ rfl, hstart ▸ rfl, hstart ▸ rfl, hstart ▸ rfl, hstart ▸ rfl, hstart ▸ rfl⟩

/-- A client that can send as much as its child has room for can make it overflow its buffer. -/
theorem exists_fault (hroom : 1024 ≤ (S.client i).up)
    (hlong : 1024 ≤ (S.client i).session.content.length) :
    ∃ a, (system S).Reach (start S) a ∧ a.1 (.inl (some i)) = .fault := by
  obtain ⟨n, a, ha, hfilling⟩ := exists_filling S i
  obtain ⟨b, hb, hfill⟩ := hfilling.exists_sent (k := 1024) (echoes S i n) hroom hlong
  obtain ⟨buf, hbuf⟩ := hfill.server.child
  have hlen : (b.2.pipe i).up.queue.length = 1024 := hfill.up
  obtain ⟨p, hreach, -, hfault⟩ := child_reads (S := S) hfill.server.fds buf
    (List.ne_nil_of_length_pos (hlen ▸ by decide)) hlen.le (List.prefix_refl _)
  obtain ⟨c, hc, hchild, -⟩ := System.exists_reach (Y := system S) (i := .inl (some i)) hbuf hreach
  exact ⟨c, (ha.trans hb).trans hc, hchild.trans (hfault hlen)⟩

/-- Client `i` and its child block each other. -/
abbrev Blocked (S : Setup ι) (i : ι) (n : ℕ) (a : (system S).State) : Prop :=
  Full (S.client i) (fun a : (system S).State => a.1 (.inr i)) (fun a => a.2.pipe i)
    (Serving S i n) a

/-- A client and a child that block each other do so for ever. -/
theorem Blocked.step {a b : (system S).State} (h : Blocked S i n a) (ha : Keeping S a)
    (hs : (system S).Step a b) : Blocked S i n b := by
  obtain ⟨x, k, hclient⟩ := h.client
  obtain ⟨y, ⟨buf, hchild⟩, hfds⟩ := h.server
  have hfull := h.up
  rcases hs.own_or_rely (fits S) ha (.inr i) with hown | ⟨hprog, hrely⟩
  · rw [hclient] at hown
    generalize b.1 (.inr i) = q, b.2 = m' at hown
    cases hown with
    | call hr => exact absurd (hr rfl) (not_lt.mpr hfull)
  rcases hs.own_or_rely (fits S) ha (.inl (some i)) with hown | ⟨hprog', hrely'⟩
  · rw [hchild] at hown
    generalize b.1 (.inl (some i)) = q, b.2 = m' at hown
    cases hown with
    | call hr =>
      obtain ⟨j, hj, hroom⟩ := hr
      rcases (ha.good j).owners (some i) (hj ▸ Option.some_ne_none _) with he | he
      · cases he
      · obtain rfl := Option.some.inj he
        exact absurd hroom (not_lt.mpr h.down)
  have hrely : (S.client i).ByServer (a.2.pipe i) (b.2.pipe i) := hrely
  have hrely' : ChildRely S i a.2 b.2 := hrely'
  have hborn : a.2.born i ≠ none := fun hc => by cases ((ha.good i).unborn hc).1.symm.trans hfds
  obtain ⟨-, hsame⟩ := hrely'.born hborn
  have hby := hrely'.pipe hborn (hfds ▸ Option.some_ne_none _)
  exact ⟨⟨x, k, hprog.trans hclient⟩, ⟨y, ⟨buf, hprog'.trans hchild⟩, hsame ▸ hfds⟩,
    hfull.trans hby.queue.length_le, h.down.trans hrely.queue.length_le,
    hrely.delivered.trans h.unread⟩

theorem Blocked.reach {a b : (system S).State} (h : Blocked S i n a)
    (ha : (system S).Reach (start S) a) (hb : (system S).Reach a b) : Blocked S i n b := by
  induction hb with
  | refl => exact h
  | tail hc hs ih => exact ih.step (keeping_of_reach (ha.trans hc)) hs

/-- If the file of a client is too long, a run ends where the client and its child block each
other. -/
theorem exists_stuck
    (hlong : (S.client i).up + (S.client i).down + 1 < (S.client i).session.content.length) :
    ∃ n a, (system S).Reach (start S) a ∧ (system S).Stuck a ∧ Blocked S i n a := by
  obtain ⟨n, a, ha, hfilling⟩ := exists_filling S i
  obtain ⟨b, hb, hblocked⟩ := hfilling.exists_full (echoes S i n) hlong
  have hreach : (system S).Reach (start S) b := ha.trans hb
  obtain ⟨c, hc, hstuck⟩ := System.exists_stuck (hreach.acc acc_start)
  exact ⟨n, c, hreach.trans hc, hstuck, Blocked.reach hblocked hreach hc⟩

/-! ## Who is served -/

/-- What is asked of all runs, for client `i`. -/
structure Served (S : Setup ι) (i : ι) : Prop where
  /-- No run goes on for ever. -/
  ends : Acc (fun b a => (system S).Step a b) (start S)
  /-- The behaviour of the server, of the child for the client and of the client is defined. -/
  safe : ∀ a, (system S).Reach (start S) a →
    a.1 (.inl none) ≠ .fault ∧ a.1 (.inl (some i)) ≠ .fault ∧ a.1 (.inr i) ≠ .fault
  /-- The client shows a beginning of its file. -/
  shown : ∀ a, (system S).Reach (start S) a →
    (a.2.pipe i).shown <+: (S.client i).session.content
  /-- Where a run ends it has returned and has shown its file. -/
  returns : ∀ a, (system S).Reach (start S) a → (system S).Stuck a →
    a.1 (.inr i) = .ret (.inr .returned) ∧ (a.2.pipe i).shown = (S.client i).session.content

end Forked

end FiniteBuffers

end UnixNetwork
