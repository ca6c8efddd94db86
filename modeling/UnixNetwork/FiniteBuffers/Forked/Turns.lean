import UnixNetwork.FiniteBuffers.Forked
import UnixNetwork.Forking.StrEcho

/-!
# A turn of the forking server and of its children over connections of finite capacity

The server accepts a connection, forks a child for it and closes its own descriptor. The child
closes the listening descriptor and echoes until the client has shut down its side. While it waits
for room nobody waits for it but its client.

## Main definitions

* `Forked.ServerAt`, `Forked.ChildAt`: where the server has come to, and a child
* `Forked.ChildDone`: a child is over

## Main results

* `Forked.wpr_server`: a turn of the server
* `Forked.wpr_childStart`, `Forked.wpr_child`: how a child begins, and a turn of it
-/

namespace UnixNetwork

namespace FiniteBuffers

namespace Forked

open Interaction
open Forking (Main01 process)

variable {ι : Type}

/-! ## A turn of the server -/

section Server

variable [Fintype ι] [DecidableEq ι] {S : Setup ι} {i : ι} {m m' : Family ι} {n k : ℕ}

/-- What the server has still to do: it has still to accept these clients. -/
def serverLeft (m : Family ι) : ℕ := ∑ i, (!m.accepted i).toNat

/-- Where the server has come to; `t` are its descriptors. -/
structure ServerAt (S : Setup ι) (t : ι → Option ℤ) (k : ℕ) (m : Family ι) : Prop where
  /-- What holds of each connection at every moment. -/
  good : ∀ i, Good S i m
  /-- Its descriptors. -/
  fds : m.fds none = t
  /-- There is not too much left. -/
  left : serverLeft m < k

theorem ServerAt.rely {t : ι → Option ℤ} (h : ServerAt S t k m)
    (h' : (serverContract S).Rely m m') : ServerAt S t k m' := by
  obtain ⟨hfds, haccepted, -, hgood⟩ := h'
  refine ⟨fun i => hgood i (h.good i), hfds.trans h.fds, ?_⟩
  rw [serverLeft, haccepted]
  exact h.left

/-- Nothing is open. -/
abbrev nothing : ι → Option ℤ := fun _ => none

/-- The server accepts a connection. -/
theorem ServerAt.accept (h : ServerAt S nothing (k + 1) m) (hi : m.accepted i = false) (n : ℕ) :
    ServerGuarantee S m (m.accept none i n) ∧ ServerAt S (only i n) k (m.accept none i n) ∧
      (m.accept none i n).born i = none := by
  obtain ⟨hborn, hunheld⟩ := (h.good i).waiting hi
  have hfds : (m.accept none i n).fds none = only i n := by
    rw [accept_fds_self, h.fds]
    rfl
  have hopen : (m.accept none i n).fds none i ≠ none := by
    rw [hfds, only_self]
    exact Option.some_ne_none _
  have hgood : ∀ j, Good S j (m.accept none i n) := by
    intro j
    by_cases hj : j = i
    · subst hj
      have hchild : (m.accept none j n).fds (some j) j = none := by
        rw [accept_fds_of_ne (Option.some_ne_none j)]
        exact hunheld (some j)
      refine ⟨(h.good j).sound, fun x hx => ?_, fun hc => ?_,
        fun _ => ⟨hchild, ((h.good j).unborn hborn).2.1, fun _ => hopen⟩,
        fun hb => absurd hborn hb, ?_⟩
      · by_contra hno
        rw [accept_fds_of_ne (not_or.mp hno).1] at hx
        exact hx (hunheld x)
      · cases accept_accepted_self.symm.trans hc
      · refine iff_of_false (fun hc => ?_) fun hall => hopen (hall.2 none)
        cases hi.symm.trans ((h.good j).closed.mp hc).1
    · refine (h.good j).congr rfl (fun x => ?_) (accept_accepted_of_ne hj) rfl
      rcases x with _ | x
      · rw [hfds, only_of_ne hj, h.fds]
      · rw [accept_fds_of_ne (Option.some_ne_none x)]
  have hlt : serverLeft (m.accept none i n) < serverLeft m := by
    refine Finset.sum_lt_sum (fun j _ => ?_) ⟨i, Finset.mem_univ i, ?_⟩
    · by_cases hj : j = i
      · subst hj
        rw [accept_accepted_self]
        exact Nat.zero_le _
      · rw [accept_accepted_of_ne hj]
    · rw [accept_accepted_self, hi]
      exact Nat.zero_lt_one
  exact ⟨⟨fun j _ => hgood j, fun _ => .refl _, fun _ _ _ => rfl, fun _ => .inl, fun j _ =>
    ⟨rfl, accept_fds_of_ne (Option.some_ne_none j)⟩⟩,
    ⟨hgood, hfds, lt_of_lt_of_le hlt (Nat.le_of_lt_succ h.left)⟩, hborn⟩

/-- The server forks a child. -/
theorem ServerAt.fork (h : ServerAt S (only i n) k m) (hborn : m.born i = none)
    (hne : (n : ℤ) ≠ S.listenfd) :
    ServerGuarantee S m (m.fork none i (childProg S n)) ∧
      ServerAt S (only i n) k (m.fork none i (childProg S n)) ∧
        (m.fork none i (childProg S n)).born i ≠ none := by
  have hfds : (m.fork none i (childProg S n)).fds (some i) = only i n := fork_fds_self.trans h.fds
  have hopen : m.fds none i ≠ none := by
    rw [h.fds, only_self]
    exact Option.some_ne_none _
  have hopen' : (m.fork none i (childProg S n)).fds (some i) i ≠ none := by
    rw [hfds, only_self]
    exact Option.some_ne_none _
  have hgood : ∀ j, Good S j (m.fork none i (childProg S n)) := by
    intro j
    by_cases hj : j = i
    · subst hj
      have haccepted : m.accepted j = true := by
        by_contra hc
        exact hopen (((h.good j).waiting (by simpa using hc)).2 none)
      refine ⟨(h.good j).sound, fun x hx => ?_, fun hc => ?_, fun hb => ?_,
        fun _ hc => absurd hc hopen', ?_⟩
      · by_cases hxj : x = some j
        · exact .inr hxj
        · rw [fork_fds_of_ne hxj] at hx
          exact (h.good j).owners x hx
      · cases haccepted.symm.trans hc
      · cases fork_born_self.symm.trans hb
      · refine iff_of_false (fun hc => ?_) fun hall => hopen' (hall.2 (some j))
        exact hopen (((h.good j).closed.mp hc).2 none)
    · refine (h.good j).congr rfl (fun x => ?_) rfl (fork_born_of_ne hj)
      by_cases hx : x = some i
      · subst hx
        rw [hfds, only_of_ne hj]
        by_contra hc
        rcases (h.good j).owners (some i) (Ne.symm hc) with he | he
        · cases he
        · exact hj (Option.some.inj he).symm
      · rw [fork_fds_of_ne hx]
  refine ⟨⟨fun j _ => hgood j, fun _ => .refl _, fun _ _ _ => rfl, fun j hj => ?_, fun j hj => ?_⟩,
    ⟨hgood, (fork_fds_of_ne (Option.some_ne_none i).symm).trans h.fds, h.left⟩, ?_⟩
  · by_cases hji : j = i
    · subst hji
      exact .inr ⟨n, fork_born_self, hfds, hne, ((h.good j).unborn hborn).2.1⟩
    · exact .inl ((fork_born_of_ne hji).trans hj)
  · have hji : j ≠ i := by
      rintro rfl
      exact hj hborn
    exact ⟨fork_born_of_ne hji, fork_fds_of_ne fun he => hji (Option.some.inj he)⟩
  · rw [fork_born_self]
    exact Option.some_ne_none _

/-- The server closes its descriptor. -/
theorem ServerAt.close (h : ServerAt S (only i n) k m) (hborn : m.born i ≠ none) :
    ServerGuarantee S m (m.release none fun j => m.fds none j = some (n : ℤ)) ∧
      ServerAt S nothing k (m.release none fun j => m.fds none j = some (n : ℤ)) := by
  have hchild : ∀ j, m.fds none j ≠ none → m.born j ≠ none := by
    intro j hj
    rw [h.fds] at hj
    exact eq_of_only hj ▸ hborn
  have hgood : ∀ j, Good S j (m.release none fun j => m.fds none j = some (n : ℤ)) :=
    fun j => (h.good j).release (.inl rfl) (hchild j) fun _ he => by cases he
  refine ⟨⟨fun j _ => hgood j, fun j => ?_, fun j _ hj => ?_, fun _ => .inl, fun j _ => ⟨rfl, ?_⟩⟩,
    hgood, funext fun j => ?_, h.left⟩
  · exact (h.good j).byServer_release (.inl rfl) (hchild j) fun _ he => by cases he
  · exact release_pipe_of_held (Option.some_ne_none j) hj
  · exact release_fds_of_ne (Option.some_ne_none j)
  · rw [release_fds_self, h.fds]
    by_cases hj : j = i
    · subst hj
      rw [if_pos (only_self j n)]
    · rw [only_of_ne hj, ite_self]

/-- **A turn of the server** accepts a connection and forks a child for it. -/
theorem wpr_server (h : ServerAt S nothing (k + 1) m) :
    wpr (processWorld S none) (serverContract S) (lower (Forking.main01 S.listenfd S.buf .head))
      (Sum.elim (fun x m' => x = .head ∧ ServerAt S nothing k m') fun _ _ => False) m := by
  refine fun m₁ h₁ => ⟨⟨(h.rely h₁).good, rfl, congrFun (h.rely h₁).fds⟩, ?_⟩
  rintro ⟨n, addr, i⟩ ⟨-, hne, -, hi⟩
  obtain ⟨hguar, hat, hborn⟩ := (h.rely h₁).accept hi n
  refine ⟨hguar, fun m₂ h₂ => ⟨⟨(hat.rely h₂).good, trivial⟩, fun _ _ => ⟨.refl S m₂, ?_⟩⟩⟩
  intro m₃ h₃
  have hat₃ := (hat.rely h₂).rely h₃
  have hborn₃ : m₃.born i = none := (congrFun (h₃.2.2.1.trans h₂.2.2.1) i).trans hborn
  have hopen : m₃.fds none i ≠ none := by
    rw [hat₃.fds, only_self]
    exact Option.some_ne_none _
  refine ⟨⟨hat₃.good, i, hopen, hborn₃⟩, ?_⟩
  rintro ⟨pid, j⟩ ⟨hpid, hj, -⟩
  -- the only connection that is open is the one that has been accepted
  obtain rfl : j = i := eq_of_only (hat₃.fds ▸ hj)
  obtain ⟨hguar', hat', hborn'⟩ := hat₃.fork hborn₃ hne
  refine ⟨hguar', ?_⟩
  have hparent : ¬ countValue (.ok pid) = 0 := by
    rw [countValue_ok]
    exact Int.natCast_ne_zero.mpr hpid.ne'
  show wpr _ _ (lower (ite _ _ _)) _ _
  rw [if_neg hparent]
  refine fun m₄ h₄ => ⟨⟨(hat'.rely h₄).good, trivial⟩, fun _ _ => ?_⟩
  have hborn₄ : m₄.born j ≠ none := fun hc => hborn' ((congrFun h₄.2.2.1 j).symm.trans hc)
  obtain ⟨hguar'', hat''⟩ := (hat'.rely h₄).close hborn₄
  exact ⟨hguar'', fun m₅ h₅ => ⟨rfl, hat''.rely h₅⟩⟩

end Server

/-! ## A turn of a child -/

section Child

variable [DecidableEq ι] {S : Setup ι} {i : ι} {m m' : Family ι} {n k : ℕ} {held : List Byte}

/-- What the child for client `i` has still to read. -/
def childLeft (S : Setup ι) (i : ι) (m : Family ι) : ℕ :=
  (S.client i).session.content.length - (m.pipe i).up.delivered.length

/-- Where the child for client `i` has come to; it holds `held`. -/
structure ChildAt (S : Setup ι) (i : ι) (n : ℕ) (held : List Byte) (k : ℕ) (m : Family ι) :
    Prop where
  /-- What holds at every moment. -/
  good : Good S i m
  /-- It has been forked. -/
  born : m.born i ≠ none
  /-- Its descriptor. -/
  fds : m.fds (some i) = only i n
  /-- What it is to hand over. -/
  held : (m.pipe i).held = held
  /-- There is not too much left. -/
  left : childLeft S i m < k

/-- The child for client `i` is over. -/
structure ChildDone (S : Setup ι) (i : ι) (m : Family ι) : Prop where
  /-- What holds at every moment. -/
  good : Good S i m
  /-- It has been forked. -/
  born : m.born i ≠ none
  /-- It has closed its connection. -/
  fds : m.fds (some i) i = none

theorem ChildAt.isOpen (h : ChildAt S i n held k m) : m.fds (some i) i = some (n : ℤ) := by
  rw [h.fds, only_self]

theorem ChildAt.rely (h : ChildAt S i n held k m) (h' : ChildRely S i m m') :
    ChildAt S i n held k m' := by
  obtain ⟨hborn, hfds⟩ := h'.born h.born
  have hpipe := h'.pipe h.born (h.isOpen ▸ Option.some_ne_none _)
  refine ⟨h'.good h.good, hborn ▸ h.born, hfds.trans h.fds, hpipe.held.trans h.held, ?_⟩
  rw [childLeft, hpipe.delivered]
  exact h.left

theorem ChildDone.rely (h : ChildDone S i m) (h' : ChildRely S i m m') : ChildDone S i m' := by
  obtain ⟨hborn, hfds⟩ := h'.born h.born
  exact ⟨h'.good h.good, hborn ▸ h.born, hfds ▸ h.fds⟩

/-- Behind its descriptor is its connection. -/
theorem ChildAt.behind (h : ChildAt S i n held k m) (f : Pipe → Pipe) :
    m.behind (some i) n f = (pipeOf i).set m (f (m.pipe i)) := by
  have hpipe : (m.behind (some i) n f).pipe = Function.update m.pipe i (f (m.pipe i)) := by
    funext j
    show (if m.fds (some i) j = some (n : ℤ) then f (m.pipe j) else m.pipe j) = _
    by_cases hj : j = i
    · subst hj
      rw [Function.update_self, if_pos h.isOpen]
    · rw [Function.update_of_ne hj, h.fds, only_of_ne hj, if_neg nofun]
  exact congrArg (fun p => { m with pipe := p }) hpipe

/-- What a child does to its connection brings it to where the connection says. -/
theorem ChildAt.on (h : ChildAt S i n held k m) {f : Pipe → Pipe}
    (hf : (S.client i).ByServer (m.pipe i) (f (m.pipe i)))
    (hclosed : (f (m.pipe i)).closed = (m.pipe i).closed) {l : ℕ}
    (hleft : (S.client i).session.content.length - (f (m.pipe i)).up.delivered.length < l) :
    ChildGuarantee S i m (m.behind (some i) n f) ∧
      ChildAt S i n (f (m.pipe i)).held l (m.behind (some i) n f) ∧
        (m.behind (some i) n f).pipe i = f (m.pipe i) := by
  rw [h.behind]
  have hself : ((pipeOf i).set m (f (m.pipe i))).pipe i = f (m.pipe i) := Function.update_self ..
  have hgood : Good S i ((pipeOf i).set m (f (m.pipe i))) := by
    refine ⟨?_, h.good.owners, h.good.waiting, fun hnone => absurd hnone h.born,
      fun _ hnone => ?_, ?_⟩
    · rw [hself]
      exact hf.sound h.good.sound
    · cases h.isOpen.symm.trans hnone
    · rw [hself, hclosed]
      exact h.good.closed
  refine ⟨⟨fun _ => hgood, ?_, fun j hj => Function.update_of_ne hj _ _, fun _ _ _ => rfl, rfl,
    rfl⟩, ⟨hgood, h.born, h.fds, congrArg Pipe.held hself, ?_⟩, hself⟩
  · rw [hself]
    exact hf
  · rw [childLeft, hself]
    exact hleft

/-- A child reads. -/
theorem ChildAt.take (h : ChildAt S i n [] (k + 1) m) {bs : List Byte} (hne : bs ≠ [])
    (hbs : bs <+: (m.pipe i).up.queue) :
    ChildGuarantee S i m (m.behind (some i) n fun p => p.onTake bs) ∧
      ChildAt S i n bs k (m.behind (some i) n fun p => p.onTake bs) := by
  obtain ⟨hguar, hat, -⟩ := h.on (f := fun p => p.onTake bs) (l := k)
    ⟨rfl, rfl, rfl, rfl, rfl, rfl, List.prefix_refl _, id, fun hs => hs.onTake h.held hbs⟩ rfl <| by
      have hleft := h.left
      have hpos := List.length_pos_iff.mpr hne
      have hle := hbs.length_le
      have hlen := congrArg List.length h.good.sound.sent
      simp only [List.length_append, Channel.length_sent] at hlen
      rw [childLeft] at hleft
      simp only [Pipe.onTake, Channel.Offers.delivered_pop ⟨hne, hbs⟩, List.length_append]
      omega
  exact ⟨hguar, hat⟩

/-- A child finds the end of what the client sends. -/
theorem ChildAt.takeEnd (h : ChildAt S i n [] k m) (hqueue : (m.pipe i).up.queue = []) :
    ChildGuarantee S i m (m.behind (some i) n fun p => p.onTake []) ∧
      ChildAt S i n [] k (m.behind (some i) n fun p => p.onTake []) ∧
        ((m.behind (some i) n fun p => p.onTake []).pipe i).up.queue = [] ∧
          ((m.behind (some i) n fun p => p.onTake []).pipe i).shut = (m.pipe i).shut := by
  obtain ⟨hguar, hat, hself⟩ := h.on (f := fun p => p.onTake []) (l := k)
    ⟨rfl, rfl, rfl, rfl, rfl, rfl, List.prefix_refl _, id,
      fun hs => hs.onTake h.held List.nil_prefix⟩ rfl <| by
      have hleft := h.left
      rw [childLeft] at hleft
      simpa [Pipe.onTake, Channel.pop] using hleft
  refine ⟨hguar, hat, ?_, ?_⟩
  · rw [hself]
    simp [Pipe.onTake, Channel.pop, hqueue]
  · rw [hself]
    rfl

/-- A child hands a byte over to the client. -/
theorem ChildAt.echo {b : Byte} {bs : List Byte} (h : ChildAt S i n (b :: bs) k m)
    (hroom : (m.pipe i).down.queue.length < (S.client i).down) :
    ChildGuarantee S i m (m.behind (some i) n fun p => p.onEcho b) ∧
      ChildAt S i n bs k (m.behind (some i) n fun p => p.onEcho b) := by
  obtain ⟨hguar, hat, -⟩ := h.on (f := fun p => p.onEcho b) (l := k)
    ⟨rfl, rfl, rfl, rfl, rfl, rfl, List.prefix_append _ _, id, fun hs => hs.onEcho h.held hroom⟩
    rfl h.left
  have hrest : ((m.pipe i).onEcho b).held = bs := congrArg List.tail h.held
  exact ⟨hguar, hrest ▸ hat⟩

variable [Fintype ι]

/-- A child ends. -/
theorem ChildAt.exit (h : ChildAt S i n [] k m) (hshut : (m.pipe i).shut = true)
    (hqueue : (m.pipe i).up.queue = []) :
    ChildGuarantee S i m (m.release (some i) fun _ => True) ∧
      ChildDone S i (m.release (some i) fun _ => True) := by
  have hgood : Good S i (m.release (some i) fun _ => True) :=
    h.good.release (.inr rfl) (fun _ => h.born) fun _ _ => ⟨hshut, hqueue, h.held⟩
  have hby := h.good.byServer_release (q := fun _ => True) (.inr rfl) (fun _ => h.born)
    fun _ _ => ⟨hshut, hqueue, h.held⟩
  have hnone : ∀ j, j ≠ i → m.fds (some i) j = none := fun j hj => by rw [h.fds, only_of_ne hj]
  refine ⟨⟨fun _ => hgood, hby, fun j hj => release_pipe_of_none (hnone j hj), ?_, rfl, rfl⟩, hgood,
    h.born, release_fds_self.trans (if_pos trivial)⟩
  rintro x j (hx | hj)
  · exact congrFun (release_fds_of_ne hx) j
  · by_cases hx : x = some i
    · subst hx
      rw [release_fds_self, if_pos trivial, hnone j hj]
    · exact congrFun (release_fds_of_ne hx) j

/-- A `write` to the client. -/
theorem wpr_echo (h : ChildAt S i n held k m) :
    wpr (processWorld S (some i)) (childContract S i)
      (Prog.callEach (I := kernel ι) (.put n) held) (fun _ => ChildAt S i n [] k) m := by
  refine wpr_callEach (W := processWorld S (some i)) (C := childContract S i)
    (f := KernelCall.put n) (A := fun held => ChildAt S i n held k) (fun _ _ _ => ChildAt.rely)
    (fun b bs m h => ⟨h.good, h.isOpen, h.held ▸ List.cons_ne_nil b bs⟩) ?_ h
  rintro b bs m ⟨⟩ h ⟨j, hj, hroom⟩
  obtain rfl : j = i := eq_of_only (n := n) (by rw [← h.fds, hj]; exact Option.some_ne_none _)
  exact h.echo hroom

/-- **A turn of a child.** -/
theorem wpr_child (h : ChildAt S i n [] (k + 1) m) (buf : Buf 1024) :
    wpr (processWorld S (some i)) (childContract S i)
      (lower (Forking.main01 S.listenfd S.buf (.echo n buf)))
      (Sum.elim (fun x m' => (∃ buf', x = .echo n buf') ∧ ChildAt S i n [] k m')
        fun _ => ChildDone S i) m := by
  obtain ⟨c, hbody, hok, hfull, hend, -⟩ := Forking.StrEcho.exists_strEcho_eq n buf
  show wpr _ _ (lower (Forking.strEcho n buf >>= _)) _ _
  rw [hbody]
  refine fun m₁ h₁ => ⟨⟨(h.rely h₁).good, rfl, (h.rely h₁).isOpen⟩, ?_⟩
  rintro r ⟨bs, j, rfl, hlen, hj, hbs, heof⟩
  have hat := h.rely h₁
  obtain rfl : j = i := eq_of_only (n := n) (by rw [← hat.fds, hj]; exact Option.some_ne_none _)
  have hlen' : bs.length ≤ 1024 := Int.ofNat_le.mp hlen
  show _ ∧ wpr _ _ (lower (c (.ok bs) >>= _)) _ _
  by_cases hnil : bs = []
  · obtain ⟨hqueue, hshut⟩ := heof hnil
    subst hnil
    obtain ⟨hguar, hat', hqueue', hshut'⟩ := hat.takeEnd hqueue
    refine ⟨hguar, ?_⟩
    rw [hend]
    refine fun m₂ h₂ => ⟨⟨(hat'.rely h₂).good, trivial⟩, fun _ _ => ⟨.refl S j m₂, ?_⟩⟩
    refine fun m₃ h₃ => ⟨⟨((hat'.rely h₂).rely h₃).good, trivial⟩, fun _ _ => ?_⟩
    -- what has been found still holds, as only the client is at the other end
    have hby := (ChildRely.trans h₂ h₃).pipe hat'.born (hat'.isOpen ▸ Option.some_ne_none _)
    obtain ⟨hguar', hdone⟩ := ((hat'.rely h₂).rely h₃).exit (hby.shut (hshut'.trans hshut))
      (hat'.good.sound.queue_eq_nil (hshut'.trans hshut) hqueue' hby)
    exact ⟨hguar', fun m₄ h₄ => hdone.rely h₄⟩
  · obtain ⟨hguar, hat'⟩ := hat.take hnil hbs
    refine ⟨hguar, ?_⟩
    rcases Nat.lt_or_eq_of_le hlen' with hlt | heq
    · obtain ⟨mem, hbytes, hc⟩ := hok bs hnil hlt
      rw [hc]
      refine fun m₂ h₂ => ⟨⟨(hat'.rely h₂).good, trivial⟩, fun _ _ => ⟨.refl S j m₂, ?_⟩⟩
      show wpr _ _ (Prog.callEach _ _ >>= _) _ _
      rw [hbytes]
      refine wpr_bind (wpr_mono ?_ (wpr_echo (hat'.rely h₂)))
      exact fun _ m₃ hat₃ m₄ h₄ => ⟨⟨mem, rfl⟩, hat₃.rely h₄⟩
    · rw [hfull bs heq]
      intro m₂ h₂
      have hsent := congrArg List.length hat.good.sound.sent
      have hroom : (m₁.pipe j).up.queue.length ≤ (S.client j).up := hat.good.sound.roomUp
      have hle := hbs.length_le
      simp only [List.length_append, Channel.length_sent] at hsent
      exact ⟨by omega, by omega⟩

/-- The listening descriptor is none of those that stand for a connection. -/
theorem release_listen (hfds : m.fds (some i) = only i n) (hne : (n : ℤ) ≠ S.listenfd) :
    (m.release (some i) fun j => m.fds (some i) j = some S.listenfd) = m := by
  refine release_eq_self fun j hj => ?_
  rw [hfds] at hj ⊢
  by_contra hopen
  rw [eq_of_only hopen, only_self] at hj
  exact hne (Option.some.inj hj)

/-- A child begins with what `fork` has left it: it closes the listening descriptor. -/
theorem wpr_childStart (h : m.born i = none ∨ ∃ n, Newborn S i n m) (hgood : Good S i m)
    {Q : Main01 ⊕ Unit → Family ι → Prop}
    (hQ : ∀ n m', ChildAt S i n [] (childLeft S i m' + 1) m' → Q (.inl (.echo n S.buf)) m') :
    wpr (processWorld S (some i)) (childContract S i) (.call (I := kernel ι) .start lower) Q m := by
  refine fun m₁ h₁ => ⟨⟨h₁.good hgood, trivial⟩, ?_⟩
  rintro p ⟨j, hj, hp⟩
  obtain rfl : i = j := Option.some.inj hj
  have hnew : ∃ n, Newborn S i n m₁ := by
    rcases h with hnone | ⟨n, hnew⟩
    · exact (h₁.unborn hnone).resolve_left fun hc => by cases hp.symm.trans hc
    · exact ⟨n, hnew.rely h₁⟩
  obtain ⟨n, hnew⟩ := hnew
  obtain rfl : p = childProg S n := Option.some.inj (hp.symm.trans hnew.born)
  refine ⟨.refl S i m₁, fun m₂ h₂ => ⟨⟨h₂.good (h₁.good hgood), trivial⟩, fun r _ => ?_⟩⟩
  have hnew₂ : Newborn S i n m₂ := hnew.rely h₂
  have hclose : (processWorld S (some i)).next m₂ (.sys (.close S.listenfd)) r = m₂ :=
    release_listen hnew₂.fds hnew₂.ne
  rw [hclose]
  refine ⟨.refl S i m₂, fun m₃ h₃ => hQ n m₃ ?_⟩
  have hnew₃ := hnew₂.rely h₃
  exact ⟨h₃.good (h₂.good (h₁.good hgood)), hnew₃.ne_none, hnew₃.fds, hnew₃.held,
    Nat.lt_succ_self _⟩

end Child

end Forked

end FiniteBuffers

end UnixNetwork
