import UnixNetwork.FiniteBuffers

/-!
# A round of the select server over connections of finite capacity

The server serves the connections that `select` has reported one after the other. While it waits for
room on one of them it serves nobody, and the clients go on as far as they can; what has been
reported readable stays readable, as only the server reads it.

## Main definitions

* `FiniteBuffers.ServerAt`: where the server has come to
* `FiniteBuffers.serverLeft`: what it has still to do

## Main results

* `FiniteBuffers.wpr_scanAll`: the scan of the table
* `FiniteBuffers.wpr_server`: a round of the server
-/

namespace UnixNetwork

namespace FiniteBuffers

open Interaction SelectServer

variable {ι : Type} [Fintype ι]

/-! ## What is left to do -/

/-- What the server has still to read, and whether it has still to close the connection. -/
def Pipe.owed (content : List Byte) (p : Pipe) : ℕ :=
  content.length - p.up.delivered.length + (!p.closed).toNat

/-- What the server has still to do for client `i`. -/
def owedTo (H : Host ι) (m : Medium ι) (i : ι) : ℕ :=
  (m.pipe i).owed (H.line i).content + (!m.accepted i).toNat

/-- What the server has still to do. -/
def serverLeft (H : Host ι) (m : Medium ι) : ℕ := ∑ i, owedTo H m i

/-- Less is left if there is less to do for one client and as much for the others. -/
theorem serverLeft_lt {H : Host ι} [DecidableEq ι] {m m' : Medium ι} (j : ι) {n : ℕ}
    (hj : owedTo H m' j < owedTo H m j) (hothers : ∀ i, i ≠ j → owedTo H m' i = owedTo H m i)
    (h : serverLeft H m < n + 1) : serverLeft H m' < n := by
  have hlt : serverLeft H m' < serverLeft H m := by
    refine Finset.sum_lt_sum (fun i _ => ?_) ⟨j, Finset.mem_univ j, hj⟩
    by_cases hi : i = j
    · exact hi ▸ hj.le
    · exact (hothers i hi).le
  omega

/-! ## Where the server has come to -/

/-- Where the server has come to: it holds `held`, and it is to serve the descriptors `todo`. -/
structure ServerAt (H : Host ι) (s : Locals) (held : ι → List Byte) (todo : List ℤ) (n : ℕ)
    (m : Medium ι) : Prop where
  /-- The table is in order. -/
  consistent : Consistent H.listenfd s
  /-- What holds of each connection at every moment. -/
  sound : ∀ i, SoundAt H i m
  /-- The table holds the descriptors of the connections. -/
  tracks : ∀ fd, s.Holds fd ↔ ∃ i, m.fds fd = some i
  /-- There is one descriptor for each connection at most. -/
  inj : ∀ fd fd' i, m.fds fd = some i → m.fds fd' = some i → fd = fd'
  /-- There is a descriptor for the connections that have been accepted and not closed. -/
  live : ∀ i, (∃ fd, m.fds fd = some i) ↔ m.accepted i = true ∧ (m.pipe i).closed = false
  /-- No other one has been closed. -/
  closed : ∀ i, (m.pipe i).closed = true → m.accepted i = true
  /-- What is held of each connection. -/
  held : ∀ i, (m.pipe i).held = held i
  /-- The descriptors that are due can be read. -/
  due : ∀ fd ∈ todo, ∃ i, m.fds fd = some i ∧ (m.pipe i).Readable
  /-- There is not too much left. -/
  left : serverLeft H m < n

/-- Nothing is held. -/
abbrev nothing : ι → List Byte := fun _ => []

variable {H : Host ι} {s : Locals} {m m' : Medium ι} {held : ι → List Byte} {todo : List ℤ} {n : ℕ}

theorem ServerAt.exists_succ (h : ServerAt H s held todo n m) : ∃ k, n = k + 1 :=
  ⟨n - 1, (Nat.succ_pred_eq_of_pos (Nat.zero_lt_of_lt h.left)).symm⟩

theorem ServerAt.rely (h : ServerAt H s held todo n m) (h' : (serverContract H).Rely m m') :
    ServerAt H s held todo n m' := by
  obtain ⟨hfds, haccepted, hclients⟩ := h'
  have howed : ∀ i, owedTo H m' i = owedTo H m i := fun i => by
    rw [owedTo, owedTo, Pipe.owed, Pipe.owed, (hclients i).delivered, (hclients i).closed,
      haccepted]
  refine ⟨h.consistent, fun i => (hclients i).sound (h.sound i), hfds ▸ h.tracks, hfds ▸ h.inj,
    fun i => ?_, fun i hi => ?_, fun i => (hclients i).held.trans (h.held i), fun fd hfd => ?_, ?_⟩
  · rw [hfds, haccepted, (hclients i).closed]
    exact h.live i
  · rw [haccepted]
    exact h.closed i ((hclients i).closed.symm.trans hi)
  · obtain ⟨i, hi, hready⟩ := h.due fd hfd
    exact ⟨i, hfds ▸ hi, (hclients i).readable hready⟩
  · rw [serverLeft, Finset.sum_congr rfl fun i _ => howed i]
    exact h.left

/-- Less may be due. -/
theorem ServerAt.weaken (h : ServerAt H s held todo n m) {todo' : List ℤ}
    (hsub : ∀ fd ∈ todo', fd ∈ todo) : ServerAt H s held todo' n m :=
  { h with due := fun fd hfd => h.due fd (hsub fd hfd) }

/-- The buffer plays no part. -/
theorem ServerAt.with_buf (h : ServerAt H s held todo n m) (buf : Buf 1024) :
    ServerAt H { s with buf := buf } held todo n m :=
  ⟨h.consistent.with_buf buf, h.sound, h.tracks, h.inj, h.live, h.closed, h.held, h.due, h.left⟩

/-- There is a free descriptor for a client that waits. -/
theorem ServerAt.exists_free (h : ServerAt H s held todo n m) :
    ∃ fd : ℕ, InRange fd ∧ (fd : ℤ) ≠ H.listenfd ∧ m.fds fd = none := by
  by_contra hno
  simp only [not_exists, not_and] at hno
  have hsome : ∀ x ∈ (Finset.Ico 0 (fdSetsize : ℤ)).erase H.listenfd, ∃ i, m.fds x = some i := by
    intro x hx
    obtain ⟨hne, hr⟩ := Finset.mem_erase.mp hx
    have hr : InRange x := Finset.mem_Ico.mp hr
    obtain ⟨fd, rfl⟩ := Int.eq_ofNat_of_zero_le hr.1
    exact Option.ne_none_iff_exists'.mp (hno fd hr hne)
  have hcard : (Finset.univ : Finset (Option ι)).card <
      ((Finset.Ico 0 (fdSetsize : ℤ)).erase H.listenfd).card := by
    have hfew := H.few
    rw [Finset.card_univ, Fintype.card_option,
      Finset.card_erase_of_mem (Finset.mem_Ico.mpr H.listen), Int.card_Ico]
    omega
  obtain ⟨x, hx, y, -, hxy, he⟩ := Finset.exists_ne_map_eq_of_card_lt_of_maps_to hcard
    (f := m.fds) fun _ _ => Finset.mem_univ _
  obtain ⟨i, hi⟩ := hsome x hx
  exact hxy (h.inj x y i hi (he.symm.trans hi))

/-- What `select` has reported, apart from the listening descriptor. -/
noncomputable def reported (H : Host ι) (rset : FdSet) : List ℤ :=
  (rset.bits.erase H.listenfd).toList

theorem mem_reported {rset : FdSet} {fd : ℤ} :
    fd ∈ reported H rset ↔ fd ≠ H.listenfd ∧ fd ∈ rset := by
  rw [reported, Finset.mem_toList, Finset.mem_erase, FdSet.mem_bits]

/-- What a scan is to serve has been reported. -/
theorem due_sub_reported (h : Consistent H.listenfd s) {rset : FdSet} {fd : ℤ}
    (hfd : fd ∈ due rset s.client (turns s) 0) : fd ∈ reported H rset := by
  obtain ⟨hmem, -, i, hi⟩ := (mem_due_turns h).mp hfd
  exact mem_reported.mpr ⟨fun he => h.ne_listen i (hi.trans he), hmem⟩

/-- What holds at the head of the loop of the server. -/
abbrev ServerHead (H : Host ι) (s : Locals) (m : Medium ι) : Prop :=
  ServerAt H s nothing [] (serverLeft H m + 1) m

theorem ServerHead.rely {s : Locals} (h : ServerHead H s m)
    (h' : (serverContract H).Rely m m') : ServerHead H s m' :=
  { ServerAt.rely h h' with left := Nat.lt_succ_self _ }

theorem serverHead_start : ServerHead H (SelectServer.start H.listenfd H.listen H.serverBuf)
    H.start where
  consistent := SelectServer.consistent_start H.listen H.serverBuf
  sound i := .start _ _ _
  tracks fd := by
    refine iff_of_false ?_ (by rintro ⟨i, hi⟩; cases hi)
    rintro ⟨h0, j, hj⟩
    rw [SelectServer.start, SelectServer.fdAt_replicate] at hj
    omega
  inj fd fd' i h := by cases h
  live i := iff_of_false (by rintro ⟨fd, hfd⟩; cases hfd) fun h => by cases h.1
  closed i h := by cases h
  held i := rfl
  due fd h := by cases h
  left := Nat.lt_succ_self _

variable [DecidableEq ι]

/-- What the server does to one connection it does to no other one. -/
theorem server_guarantee_on {j : ι} {f : Pipe → Pipe}
    (h : (H.line j).ByServer (m.pipe j) (f (m.pipe j))) :
    (serverContract H).Guarantee m (m.on j f) := by
  intro i
  by_cases hi : i = j
  · subst hi
    rw [ByServerAt, pipe_on]
    exact h
  · rw [ByServerAt, pipe_on_of_ne hi]
    exact .refl _

/-- What the server does to one connection brings it to where that connection says. -/
theorem ServerAt.on (h : ServerAt H s held todo n m) {j : ι} {f : Pipe → Pipe}
    (hf : (H.line j).ByServer (m.pipe j) (f (m.pipe j)))
    (hclosed : (f (m.pipe j)).closed = (m.pipe j).closed)
    (hdue : ∀ fd ∈ todo, m.fds fd ≠ some j) {k : ℕ} (hleft : serverLeft H (m.on j f) < k) :
    (serverContract H).Guarantee m (m.on j f) ∧
      ServerAt H s (Function.update held j (f (m.pipe j)).held) todo k (m.on j f) := by
  have hsame : ∀ i, ((m.on j f).pipe i).closed = (m.pipe i).closed := fun i => by
    by_cases hi : i = j
    · rw [hi, pipe_on, hclosed]
    · rw [pipe_on_of_ne hi]
  refine ⟨server_guarantee_on hf, h.consistent, fun i => ?_, h.tracks, h.inj, fun i => ?_,
    fun i hi => h.closed i ((hsame i).symm.trans hi), fun i => ?_, fun fd hfd => ?_, hleft⟩
  · exact (server_guarantee_on hf i).sound (h.sound i)
  · rw [fds_on, accepted_on, hsame]
    exact h.live i
  · by_cases hi : i = j
    · rw [hi, pipe_on, Function.update_self]
    · rw [pipe_on_of_ne hi, Function.update_of_ne hi]
      exact h.held i
  · obtain ⟨i, hi, hready⟩ := h.due fd hfd
    refine ⟨i, hi, ?_⟩
    rw [pipe_on_of_ne (by rintro rfl; exact hdue fd hfd hi)]
    exact hready

/-- The server reads. -/
theorem ServerAt.take (h : ServerAt H s nothing todo (n + 1) m) {j : ι}
    (hdue : ∀ fd ∈ todo, m.fds fd ≠ some j) {bs : List Byte} (hne : bs ≠ [])
    (hbs : bs <+: (m.pipe j).up.queue) :
    (serverContract H).Guarantee m (m.on j fun p => p.onTake bs) ∧
      ServerAt H s (Function.update nothing j bs) todo n (m.on j fun p => p.onTake bs) := by
  refine h.on (f := fun p => p.onTake bs)
    ⟨rfl, rfl, rfl, rfl, rfl, rfl, List.prefix_refl _, id, fun hs => hs.onTake (h.held j) hbs⟩
    rfl hdue ?_
  refine serverLeft_lt j ?_ (fun i hi => ?_) h.left
  · have hpos := List.length_pos_iff.mpr hne
    have hle := hbs.length_le
    have hlen := congrArg List.length (h.sound j).sent
    simp only [List.length_append, Channel.length_sent] at hlen
    simp only [owedTo, Pipe.owed, pipe_on, accepted_on, Pipe.onTake,
      Channel.Offers.delivered_pop ⟨hne, hbs⟩, List.length_append, ]
    omega
  · rw [owedTo, pipe_on_of_ne hi]
    rfl

/-- The server finds the end of what a client sends. -/
theorem ServerAt.takeEnd (h : ServerAt H s nothing todo n m) {j : ι}
    (hdue : ∀ fd ∈ todo, m.fds fd ≠ some j) :
    (serverContract H).Guarantee m (m.on j fun p => p.onTake []) ∧
      ServerAt H s nothing todo n (m.on j fun p => p.onTake []) := by
  have howed : ∀ i, owedTo H (m.on j fun p => p.onTake []) i = owedTo H m i := fun i => by
    by_cases hi : i = j
    · subst hi
      simp [owedTo, Pipe.owed, Pipe.onTake, Channel.pop]
    · rw [owedTo, pipe_on_of_ne hi]
      rfl
  obtain ⟨hguar, hat⟩ := h.on (f := fun p => p.onTake []) (k := n)
    ⟨rfl, rfl, rfl, rfl, rfl, rfl, List.prefix_refl _, id,
      fun hs => hs.onTake (h.held j) List.nil_prefix⟩ rfl hdue <| by
      rw [serverLeft, Finset.sum_congr rfl fun i _ => howed i]
      exact h.left
  have hnothing : Function.update nothing j ((m.pipe j).onTake []).held = nothing :=
    Function.update_eq_self_iff.mpr rfl
  exact ⟨hguar, hnothing ▸ hat⟩

/-- The server hands a byte over to a client. -/
theorem ServerAt.echo {j : ι} {b : Byte} {bs : List Byte}
    (h : ServerAt H s (Function.update nothing j (b :: bs)) todo n m)
    (hdue : ∀ fd ∈ todo, m.fds fd ≠ some j)
    (hroom : (m.pipe j).down.queue.length < (H.line j).down) :
    (serverContract H).Guarantee m (m.on j fun p => p.onEcho b) ∧
      ServerAt H s (Function.update nothing j bs) todo n (m.on j fun p => p.onEcho b) := by
  have hheld : (m.pipe j).held = b :: bs := (h.held j).trans (Function.update_self ..)
  obtain ⟨hguar, hat⟩ := h.on (f := fun p => p.onEcho b) (k := n)
    ⟨rfl, rfl, rfl, rfl, rfl, rfl, List.prefix_append _ _, id, fun hs => hs.onEcho hheld hroom⟩
    rfl hdue <| by
      have howed : ∀ i, owedTo H (m.on j fun p => p.onEcho b) i = owedTo H m i := fun i => by
        by_cases hi : i = j
        · rw [hi, owedTo, pipe_on]
          rfl
        · rw [owedTo, pipe_on_of_ne hi]
          rfl
      rw [serverLeft, Finset.sum_congr rfl fun i _ => howed i]
      exact h.left
  have hrest : ((m.pipe j).onEcho b).held = bs := congrArg List.tail hheld
  rw [Function.update_idem, hrest] at hat
  exact ⟨hguar, hat⟩

/-- The server closes a connection. -/
theorem ServerAt.close (h : ServerAt H s nothing todo (n + 1) m) {j : ι} {fd : ℤ}
    (hfd : m.fds fd = some j) (hshut : (m.pipe j).shut = true) (hqueue : (m.pipe j).up.queue = [])
    (hdue : fd ∉ todo) {i : ℕ} (hi : i < fdSetsize) (hslot : fdAt s.client i = fd)
    (buf : Buf 1024) :
    (serverContract H).Guarantee m
        { m.on j Pipe.onClose with fds := Function.update m.fds fd none } ∧
      ServerAt H (s.release i hi fd buf) nothing todo n
        { m.on j Pipe.onClose with fds := Function.update m.fds fd none } := by
  have hfds : ∀ x k, Function.update m.fds fd none x = some k ↔ x ≠ fd ∧ m.fds x = some k := by
    intro x k
    by_cases hx : x = fd
    · simp [hx]
    · simp [hx]
  have hopen := (h.live j).mp ⟨fd, hfd⟩
  have hby : (H.line j).ByServer (m.pipe j) (m.pipe j).onClose :=
    ⟨rfl, rfl, rfl, rfl, rfl, rfl, List.prefix_refl _, fun _ => rfl,
      fun hs => hs.onClose hshut hqueue (h.held j)⟩
  have hguar : (serverContract H).Guarantee m (m.on j Pipe.onClose) := server_guarantee_on hby
  refine ⟨hguar, h.consistent.release hi buf hslot, fun k => (hguar k).sound (h.sound k),
    fun x => ?_, fun x y k hx hy => ?_, fun k => ?_, fun k hk => ?_, fun k => ?_, fun x hx => ?_,
    ?_⟩
  · rw [h.consistent.holds_release hslot, h.tracks]
    simp only [hfds, exists_and_left]
  · exact h.inj x y k ((hfds x k).mp hx).2 ((hfds y k).mp hy).2
  · show (∃ x, Function.update m.fds fd none x = some k) ↔
      m.accepted k = true ∧ ((m.on j Pipe.onClose).pipe k).closed = false
    by_cases hk : k = j
    · subst hk
      rw [pipe_on]
      refine iff_of_false ?_ fun hc => Bool.noConfusion hc.2
      rintro ⟨x, hx⟩
      obtain ⟨hne, hx⟩ := (hfds x k).mp hx
      exact hne (h.inj x fd k hx hfd)
    · rw [pipe_on_of_ne hk, ← h.live k]
      refine exists_congr fun x => ?_
      rw [hfds]
      refine and_iff_right_of_imp ?_
      rintro hx rfl
      exact hk (Option.some.inj (hx.symm.trans hfd))
  · by_cases hkj : k = j
    · exact hkj ▸ hopen.1
    · refine h.closed k ?_
      rw [← pipe_on_of_ne hkj]
      exact hk
  · by_cases hkj : k = j
    · subst hkj
      exact (congrArg Pipe.held (pipe_on ..)).trans (h.held k)
    · exact (congrArg Pipe.held (pipe_on_of_ne hkj)).trans (h.held k)
  · obtain ⟨k, hk, hready⟩ := h.due x hx
    have hne : x ≠ fd := ne_of_mem_of_not_mem hx hdue
    have hkj : k ≠ j := by
      rintro rfl
      exact hne (h.inj x fd k hk hfd)
    refine ⟨k, (hfds x k).mpr ⟨hne, hk⟩, ?_⟩
    show ((m.on j Pipe.onClose).pipe k).Readable
    rw [pipe_on_of_ne hkj]
    exact hready
  · refine serverLeft_lt (m := m) j ?_ (fun k hk => ?_) h.left
    · show (m.on j Pipe.onClose |>.pipe j).owed _ + _ < _
      rw [pipe_on, owedTo, Pipe.owed, Pipe.owed, hopen.2]
      exact Nat.add_lt_add_right (Nat.lt_succ_self _) _
    · show (m.on j Pipe.onClose |>.pipe k).owed _ + _ = _
      rw [pipe_on_of_ne hk]
      rfl

/-- The server accepts a connection. -/
theorem ServerAt.accept (h : ServerAt H s nothing todo (n + 1) m) {i : ι} {fd : ℕ}
    (hfree : m.fds fd = none) (hi : m.accepted i = false) (hr : InRange fd)
    (hne : (fd : ℤ) ≠ H.listenfd) {j : ℕ} (hj : j < fdSetsize) (hslot : fdAt s.client j = -1) :
    ServerAt H (s.occupy j hj fd hr) nothing todo n
      { m with
        fds := Function.update m.fds fd (some i)
        accepted := Function.update m.accepted i true } := by
  have hfds : ∀ x k, Function.update m.fds fd (some i) x = some k ↔
      x = fd ∧ k = i ∨ x ≠ fd ∧ m.fds x = some k := by
    intro x k
    by_cases hx : x = fd
    · simp [hx, eq_comm]
    · simp [hx]
  have hnew : ∀ x, m.fds x ≠ some i := fun x hx => by
    cases ((h.live i).mp ⟨x, hx⟩).1.symm.trans hi
  have hunheld : ¬ s.Holds fd := by
    rw [h.tracks, hfree]
    rintro ⟨k, hk⟩
    cases hk
  refine ⟨h.consistent.occupy hj hr hslot hne hunheld, h.sound, fun x => ?_, fun x y k hx hy => ?_,
    fun k => ?_, fun k hk => ?_, h.held, fun x hx => ?_, ?_⟩
  · rw [holds_occupy hslot, h.tracks]
    simp only [hfds]
    constructor
    · rintro (rfl | ⟨k, hk⟩)
      · exact ⟨i, .inl ⟨rfl, rfl⟩⟩
      · refine ⟨k, .inr ⟨?_, hk⟩⟩
        rintro rfl
        cases hfree.symm.trans hk
    · rintro ⟨k, ⟨rfl, -⟩ | ⟨-, hk⟩⟩
      · exact .inl rfl
      · exact .inr ⟨k, hk⟩
  · rcases (hfds x k).mp hx with ⟨rfl, rfl⟩ | ⟨-, hx'⟩
    · rcases (hfds y k).mp hy with ⟨rfl, -⟩ | ⟨-, hy'⟩
      · rfl
      · exact absurd hy' (hnew y)
    · rcases (hfds y k).mp hy with ⟨rfl, rfl⟩ | ⟨-, hy'⟩
      · exact absurd hx' (hnew x)
      · exact h.inj x y k hx' hy'
  · show (∃ x, Function.update m.fds fd (some i) x = some k) ↔
      Function.update m.accepted i true k = true ∧ (m.pipe k).closed = false
    by_cases hk : k = i
    · subst hk
      rw [Function.update_self]
      refine iff_of_true ⟨fd, (hfds fd k).mpr (.inl ⟨rfl, rfl⟩)⟩ ⟨rfl, ?_⟩
      cases hc : (m.pipe k).closed with
      | false => rfl
      | true => cases (h.closed k hc).symm.trans hi
    · rw [Function.update_of_ne hk, ← h.live k]
      refine exists_congr fun x => ?_
      rw [hfds]
      constructor
      · rintro (⟨-, rfl⟩ | ⟨-, hx⟩)
        · exact absurd rfl hk
        · exact hx
      · intro hx
        refine .inr ⟨?_, hx⟩
        rintro rfl
        cases hfree.symm.trans hx
  · show Function.update m.accepted i true k = true
    by_cases hki : k = i
    · rw [hki, Function.update_self]
    · rw [Function.update_of_ne hki]
      exact h.closed k hk
  · obtain ⟨k, hk, hready⟩ := h.due x hx
    refine ⟨k, (hfds x k).mpr (.inr ⟨?_, hk⟩), hready⟩
    rintro rfl
    cases hfree.symm.trans hk
  · refine serverLeft_lt (m := m) i ?_ (fun k hk => ?_) h.left
    · show _ + (!Function.update m.accepted i true i).toNat < _
      rw [Function.update_self, owedTo, hi]
      exact Nat.lt_succ_self _
    · show _ + (!Function.update m.accepted i true k).toNat = _
      rw [Function.update_of_ne hk]
      rfl

/-! ## One slot, and all of them -/

/-- A `write` to a client. -/
theorem wpr_echo {j : ι} {fd : ℤ} {bs : List Byte}
    (h : ServerAt H s (Function.update nothing j bs) todo n m) (hfd : m.fds fd = some j)
    (hdue : ∀ x ∈ todo, m.fds x ≠ some j) :
    wpr (serverWorld H) (serverContract H) (puts fd bs) (fun _ => ServerAt H s nothing todo n)
      m := by
  refine wpr_mono ?_ (wpr_callEach (W := serverWorld H) (C := serverContract H) (f := Wire.put fd)
    (A := fun bs m => m.fds fd = some j ∧
      ServerAt H s (Function.update nothing j bs) todo n m ∧ ∀ x ∈ todo, m.fds x ≠ some j)
    ?_ ?_ ?_ ⟨hfd, h, hdue⟩)
  · rintro _ m' ⟨-, hat, -⟩
    rwa [Function.update_eq_self_iff.mpr rfl] at hat
  · rintro bs m m' ⟨hfd, hat, hdue⟩ hrely
    exact ⟨hrely.1 ▸ hfd, hat.rely hrely, hrely.1 ▸ hdue⟩
  · rintro b bs m ⟨hfd, hat, -⟩
    refine ⟨hat.sound, j, hfd, ?_⟩
    rw [hat.held j, Function.update_self]
    exact List.cons_ne_nil b bs
  · rintro b bs m ⟨⟩ ⟨hfd, hat, hdue⟩ ⟨i, hi, hroom⟩
    obtain rfl : j = i := Option.some.inj (hfd.symm.trans hi)
    obtain ⟨hguar, hat'⟩ := hat.echo hdue hroom
    have hnext : (serverWorld H).next m (.put fd b) () = m.on j fun p => p.onEcho b :=
      behind_of_fds hfd
    rw [hnext]
    exact ⟨hguar, hfd, hat', hdue⟩

/-- **Serving a client.** -/
theorem wpr_serve {fd : ℤ} (h : ServerAt H s nothing (fd :: todo) n m) (hnd : fd ∉ todo) {i : ℕ}
    (hi : i < fdSetsize) (hslot : fdAt s.client i = fd) :
    wpr (serverWorld H) (serverContract H) ((serve i fd s).interp lower)
      (fun s' m' => ServerAt H s' nothing todo (n - 1) m' ∧
        ∀ k, k ≠ i → fdAt s'.client k = fdAt s.client k) m := by
  obtain ⟨n, rfl⟩ := h.exists_succ
  obtain ⟨j, hj, -⟩ := h.due fd List.mem_cons_self
  have hr : InRange fd := h.consistent.inRange_of_holds ((h.tracks fd).mpr ⟨j, hj⟩)
  rw [serve_eq hi hr]
  refine fun m₁ h₁ => ⟨⟨(h.rely h₁).sound, rfl, (h.rely h₁).due fd List.mem_cons_self⟩, ?_⟩
  rintro r ⟨bs, j', rfl, hlen, hj', hbs, hend⟩
  obtain rfl : j = j' := Option.some.inj ((h₁.1 ▸ hj).symm.trans hj')
  have hlen' : bs.length ≤ 1024 := Int.ofNat_le.mp hlen
  have hat : ServerAt H s nothing todo (n + 1) m₁ :=
    (h.rely h₁).weaken fun _ => List.mem_cons_of_mem fd
  have hdue : ∀ x ∈ todo, m₁.fds x ≠ some j := by
    intro x hx hxj
    exact ne_of_mem_of_not_mem hx hnd (hat.inj x fd j hxj hj')
  have hnext : (serverWorld H).next m₁ (.sys (.read fd (Span.whole 1024))) (.ok bs) =
      m₁.on j fun p => p.onTake bs := behind_of_fds hj'
  rw [hnext]
  by_cases hnil : bs = []
  · obtain ⟨hqueue, hshut⟩ := hend hnil
    obtain ⟨hguar, hat'⟩ := hat.takeEnd hdue
    subst hnil
    refine ⟨hguar, ?_⟩
    show wpr _ _ (Prog.interp _ (ite _ _ _)) _ _
    rw [if_pos (readValue_ok_nonpos.mpr rfl)]
    refine fun m₂ h₂ => ⟨⟨(hat'.rely h₂).sound, trivial⟩, fun _ _ => ?_⟩
    set m' := m₁.on j fun p => p.onTake [] with hm'
    have hempty : (m'.pipe j).up.queue = [] := by
      rw [hm', pipe_on]
      simp [Pipe.onTake, Channel.pop, hqueue]
    have hshut' : (m'.pipe j).shut = true := by
      rw [hm', pipe_on]
      exact hshut
    have hfd₂ : m₂.fds fd = some j := h₂.1 ▸ hj'
    obtain ⟨hguar', hat₃⟩ := (hat'.rely h₂).close hfd₂ ((h₂.2.2 j).shut hshut')
      ((hat'.sound j).queue_eq_nil hshut' hempty (h₂.2.2 j)) hnd hi hslot (s.buf.put 0 [])
    have hclose : (serverWorld H).next m₂ (.sys (.close fd)) () =
        { m₂.on j Pipe.onClose with fds := Function.update m₂.fds fd none } := by
      show ({ m₂.behind fd Pipe.onClose with fds := Function.update m₂.fds fd none } : Medium ι) = _
      rw [behind_of_fds hfd₂]
    rw [hclose]
    refine ⟨hguar', fun m₄ h₄ => ⟨hat₃.rely h₄, fun k hk => ?_⟩⟩
    show fdAt (s.release i hi fd _).client k = _
    rw [Locals.release, fdAt_set, if_neg hk]
  · obtain ⟨hguar, hat'⟩ := hat.take hdue hnil hbs
    refine ⟨hguar, ?_⟩
    show wpr _ _ (Prog.interp _ (ite _ _ _)) _ _
    rw [if_neg (mt readValue_ok_nonpos.mp hnil)]
    show wpr _ _ ((puts _ _ >>= _) >>= _) _ _
    rw [readValue_ok, readBytes_ok, Span.bytes_first_put hlen']
    refine wpr_bind (wpr_bind (wpr_mono ?_ (wpr_echo hat' hj' hdue)))
    intro _ m₂ hat₂ m₃ h₃ m₄ h₄
    exact ⟨((hat₂.rely h₃).rely h₄).with_buf _, fun _ _ => rfl⟩

/-- **The scan of the table** serves all that is due. -/
theorem wpr_scanAll {rset : FdSet} {left i : ℕ} (hleft : i + left ≤ fdSetsize)
    (h : ServerAt H s nothing (due rset s.client left i) n m) :
    wpr (serverWorld H) (serverContract H) ((scanAll rset left i s).interp lower)
      (fun s' => ServerAt H s' nothing [] (n - (due rset s.client left i).length)) m := by
  induction left generalizing i n s m with
  | zero => exact fun m' hm => h.rely hm
  | succ left ih =>
    have hi : i < fdSetsize := by omega
    rw [scanAll, load_of_lt hi, Prog.ret_bind, ← fdAt_of_lt hi]
    rw [due] at h ⊢
    split
    · rename_i hneg
      have hnot : fdAt s.client i ∉ rset := fun hmem =>
        absurd (FdSet.inRange_of_mem hmem).1 (not_le.mpr hneg)
      rw [if_neg hnot] at h ⊢
      exact ih (by omega) h
    · rename_i hneg
      have hr := h.consistent.inRange_of_holds ⟨not_lt.mp hneg, i, rfl⟩
      rw [fdIsSet_of_inRange hr, Prog.ret_bind]
      by_cases hmem : fdAt s.client i ∈ rset
      · have hnd := due_nodup h.consistent rset (left + 1) i
        rw [due, if_pos hmem] at hnd
        rw [if_pos hmem] at h ⊢
        rw [if_pos (by simpa using hmem), Prog.interp_bind]
        refine wpr_bind (wpr_mono ?_ (wpr_serve h (List.nodup_cons.mp hnd).1 hi rfl))
        rintro s' m' ⟨hat, hslots⟩
        have hsame : due rset s'.client left (i + 1) = due rset s.client left (i + 1) :=
          due_congr rset fun j hj => hslots j (by omega)
        rw [List.length_cons, ← hsame, Nat.sub_add_eq, Nat.sub_right_comm]
        exact ih (by omega) (hsame ▸ hat)
      · rw [if_neg hmem] at h ⊢
        rw [if_neg (by simpa using hmem)]
        exact ih (by omega) h

/-! ## A round -/

/-- **What a round does once `select` has returned.** -/
theorem wpr_handle {sel : Selected} (hsel : sel.Ready s.allset .zero)
    (h : ServerAt H s nothing (reported H sel.rset) (n + 1) m)
    (hwaits : H.listenfd ∈ sel.rset → ∃ i, m.accepted i = false) :
    wpr (serverWorld H) (serverContract H) ((handle H.listenfd s sel).interp lower)
      (fun s' => ServerAt H s' nothing [] n) m := by
  by_cases hmem : H.listenfd ∈ sel.rset
  · rw [handle_of_mem h.consistent.listen hmem, acceptClient, Prog.bind_assoc, accept_bind]
    refine fun m₁ h₁ =>
      ⟨⟨(h.rely h₁).sound, rfl, h₁.2.1 ▸ hwaits hmem, (h.rely h₁).exists_free⟩, ?_⟩
    rintro ⟨fd, i⟩ ⟨-, hr, hne, hfree, hi⟩
    refine ⟨fun i => .refl _, ?_⟩
    obtain ⟨j, hj, hslot, hinstall⟩ := h.consistent.install_eq hr
    have hat := (h.rely h₁).accept hfree hi hr hne hj hslot
    have hscan : ∀ m', ServerAt H (s.occupy j hj fd hr) nothing (reported H sel.rset) n m' →
        wpr (serverWorld H) (serverContract H) (Prog.interp lower
          (if sel.value - 1 ≤ 0 then .ret (s.occupy j hj fd hr)
            else scan sel.rset (turns (s.occupy j hj fd hr)) 0 (sel.value - 1)
              (s.occupy j hj fd hr)))
          (fun s' => ServerAt H s' nothing [] n) m' := by
      intro m' hat'
      rw [stop_or_scan_of_mem h.consistent hsel hmem hslot hat'.consistent]
      refine wpr_mono (fun s' m'' hat'' => ?_) (wpr_scanAll (turns_le hat'.consistent)
        (hat'.weaken fun x => due_sub_reported hat'.consistent))
      exact { hat'' with left := lt_of_lt_of_le hat''.left (Nat.sub_le _ _) }
    show wpr _ _ (Prog.interp _ (install fd s >>= _)) _ _
    rw [hinstall]
    split
    · exact fun m₂ h₂ => ⟨⟨(hat.rely h₂).sound, trivial⟩, fun _ _ =>
        ⟨fun i => .refl _, hscan m₂ (hat.rely h₂)⟩⟩
    · exact hscan _ hat
  · rw [handle_of_notMem h.consistent hsel hmem]
    refine wpr_mono (fun s' m' hat => ?_) (wpr_scanAll (turns_le h.consistent)
      (h.weaken fun x => due_sub_reported h.consistent))
    -- something has been reported, so something is served
    obtain ⟨fd, hfd⟩ := exists_mem_of_ready hsel
    have hwatched := (h.consistent.mem_allset fd).mp (hsel.rset_sub fd hfd)
    have hholds : s.Holds fd := hwatched.resolve_left fun he => hmem (he ▸ hfd)
    have hpos := List.length_pos_of_mem ((mem_due_turns h.consistent).mpr ⟨hfd, hholds⟩)
    have hleft := hat.left
    exact { hat with left := by omega }

/-- **A round of the server** takes it closer to its end. -/
theorem wpr_server (h : ServerHead H s m) :
    wpr (serverWorld H) (serverContract H) (serverBody H s)
      (Sum.elim (fun s' m' => ServerHead H s' m' ∧ serverLeft H m' < serverLeft H m)
        fun _ _ => False) m := by
  rw [serverBody, body, SelectServer.round, select_bind]
  refine fun m₁ h₁ => ⟨⟨(h.rely h₁).sound, h.consistent.listen_mem, fun i hacc hclosed => ?_⟩, ?_⟩
  · obtain ⟨fd, hfd⟩ := ((h.rely h₁).live i).mpr ⟨hacc, hclosed⟩
    have hholds := ((h.rely h₁).tracks fd).mpr ⟨i, hfd⟩
    exact ⟨fd, (h.consistent.mem_allset fd).mpr (.inr hholds), hfd⟩
  rintro sel ⟨hsel, hready⟩
  refine ⟨fun i => .refl _, ?_⟩
  have hat : ServerAt H s nothing (reported H sel.rset) (serverLeft H m + 1) m₁ :=
    { ServerAt.rely h h₁ with
      due := fun fd hfd => by
        obtain ⟨hne, hmem⟩ := mem_reported.mp hfd
        exact (hready fd hmem).resolve_left fun he => hne he.1 }
  have hwaits : H.listenfd ∈ sel.rset → ∃ i, m₁.accepted i = false := by
    intro hmem
    rcases hready _ hmem with ⟨-, hi⟩ | ⟨i, hi, -⟩
    · exact hi
    · obtain ⟨-, k, hk⟩ := ((h.rely h₁).tracks H.listenfd).mpr ⟨i, hi⟩
      exact absurd hk (h.consistent.ne_listen k)
  show wpr _ _ (Prog.interp _ (handle H.listenfd s sel >>= _)) _ _
  rw [Prog.interp_bind]
  refine wpr_bind (wpr_mono ?_ (wpr_handle hsel hat hwaits))
  intro s' m₂ hat₂ m₃ h₃
  have hat₃ := hat₂.rely h₃
  exact ⟨{ hat₃ with left := Nat.lt_succ_self _ }, hat₃.left⟩

/-- The server begins. -/
theorem wpr_serverStart : wpr (serverWorld H) (serverContract H) (serverStart H)
    (Sum.elim (ServerHead H) fun _ _ => False) H.start := by
  rw [serverStart, SelectServer.main_eq_start H.listen]
  exact fun m hm => serverHead_start.rely hm

/-! ## What the server waits for, and what it can do -/

/-- A call of the server that does not return. -/
theorem ServerCall.waits {c : Wire} (h : ServerCall H m c)
    (hno : ∀ r, ¬ (serverWorld H).Allows m c r) :
    (∀ i, m.accepted i = true ∧ ((m.pipe i).closed = false → ¬ (m.pipe i).Readable)) ∨
      ∃ i, (m.pipe i).held ≠ [] ∧ (H.line i).down ≤ (m.pipe i).down.queue.length := by
  match c with
  | .put fd b =>
    obtain ⟨i, hi, hheld⟩ := h
    exact .inr ⟨i, hheld, not_lt.mp fun hlt => hno () ⟨i, hi, hlt⟩⟩
  | .accept fd =>
    obtain ⟨rfl, ⟨i, hi⟩, n, hr, hne, hfree⟩ := h
    exact absurd ⟨rfl, hr, hne, hfree, hi⟩ (hno (n, i))
  | .sys (.select n rset wset) =>
    refine .inl fun i => ?_
    have haccepted : m.accepted i = true := by
      by_contra hi
      refine hno (.only _ H.listen) ⟨Selected.ready_only _ h.1, fun fd hfd => .inl ?_⟩
      exact ⟨(FdSet.mem_single H.listen).mp hfd, i, by simpa using hi⟩
    refine ⟨haccepted, fun hclosed hready => ?_⟩
    obtain ⟨fd, hfd, hi⟩ := h.2 i haccepted hclosed
    have hr : InRange fd := FdSet.inRange_of_mem hfd
    refine hno (.only fd hr) ⟨Selected.ready_only hr hfd, fun x hx => ?_⟩
    obtain rfl := (FdSet.mem_single hr).mp hx
    exact .inr ⟨i, hi, hready⟩
  | .sys (.read fd dst) =>
    exfalso
    obtain ⟨rfl, i, hi, hready⟩ := h
    obtain ⟨bs, hbs, hlen, hend⟩ := exists_prefix (m.pipe i).up.queue
    refine hno (.ok bs) ⟨bs, i, rfl, Int.ofNat_le.mpr hlen, hi, hbs, fun hnil => ⟨hend hnil, ?_⟩⟩
    exact hready.resolve_left fun hq => hq (hend hnil)
  | .sys (.write ..) => exact absurd trivial (hno (.ok 0))
  | .sys (.accept fd) => exact absurd trivial (hno (.ok 0))
  | .sys (.send ..) => exact absurd trivial (hno (.ok 0))
  | .sys (.close fd) => exact absurd trivial (hno ())
  | .sys (.shutdownWr fd) => exact absurd trivial (hno ())
  | .sys (.printf t) => exact absurd trivial (hno ())
  | .sys (.eprintf t) => exact absurd trivial (hno ())
  | .sys .time => exact absurd trivial (hno [])

variable {i : ι}

/-- The server reads some bytes of a client and is to write them back. -/
theorem server_reads {s : SelectServer.Locals} (h : ServerHead H s m) {fd : ℤ}
    (hfd : m.fds fd = some i) {bs : List Byte} (hnil : bs ≠ []) (hlen : bs.length ≤ 1024)
    (hqueue : bs <+: (m.pipe i).up.queue) :
    ∃ s', Interaction.Reach (serverWorld H) (serverBody H)
      (.ret (.inl s), m)
      (puts fd bs >>= fun _ => .ret (.inl s'), m.on i fun p => p.onTake bs) := by
  have hholds := (h.tracks fd).mpr ⟨i, hfd⟩
  have hr := h.consistent.inRange_of_holds hholds
  obtain ⟨k, hk, hslot⟩ := hholds.exists_lt
  have hmem : fd ∈ s.allset := (h.consistent.mem_allset fd).mpr (.inr hholds)
  have hready : (m.pipe i).Readable := .inl fun he => hnil (List.prefix_nil.mp (he ▸ hqueue))
  refine ⟨{ s with buf := s.buf.put 0 bs }, .head .again ?_⟩
  rw [serverBody, SelectServer.body, SelectServer.round, select_bind]
  refine .head (.call (r := Selected.only fd hr) ⟨Selected.ready_only hr hmem, fun x hx => ?_⟩) ?_
  · obtain rfl := (FdSet.mem_single hr).mp hx
    exact .inr ⟨i, hfd, hready⟩
  show Interaction.Reach _ _ (Prog.interp lower (SelectServer.handle _ s _ >>= _), m) _
  rw [SelectServer.handle_single h.consistent hr hslot, SelectServer.serve_eq hk hr]
  refine .head (.call (r := Except.ok bs) ⟨bs, i, rfl, Int.ofNat_le.mpr hlen, hfd, hqueue,
    fun he => absurd he hnil⟩) ?_
  have hnext : (serverWorld H).next m (.sys (.read fd (Span.whole 1024))) (.ok bs) =
      m.on i fun p => p.onTake bs := behind_of_fds hfd
  rw [hnext]
  show Interaction.Reach _ _ (Prog.interp _ (ite _ _ _ >>= _), _) _
  rw [if_neg (mt readValue_ok_nonpos.mp hnil)]
  show Interaction.Reach _ _ ((puts _ (Span.bytes _ _) >>= _) >>= _, _) _
  rw [readValue_ok, readBytes_ok, Span.bytes_first_put hlen, Prog.bind_assoc]
  exact .refl

/-- The server accepts the connection of a client. -/
theorem server_accepts {s : SelectServer.Locals} (h : ServerHead H s m)
    (hi : m.accepted i = false) : ∃ (fd : ℕ) (s' : SelectServer.Locals),
      Interaction.Reach (serverWorld H) (serverBody H)
        (.ret (.inl s), m)
        (.ret (.inl s'), { m with
          fds := Function.update m.fds fd (some i)
          accepted := Function.update m.accepted i true }) := by
  obtain ⟨fd, hr, hne, hfree⟩ := ServerAt.exists_free h
  obtain ⟨j, hj, -, hinstall⟩ := h.consistent.install_eq hr
  refine ⟨fd, s.occupy j hj fd hr, .head .again ?_⟩
  rw [serverBody, SelectServer.body, SelectServer.round, select_bind]
  refine .head (.call (r := Selected.only H.listenfd H.listen)
    ⟨Selected.ready_only _ h.consistent.listen_mem, fun x hx => ?_⟩) ?_
  · exact .inl ⟨(FdSet.mem_single H.listen).mp hx, i, hi⟩
  show Interaction.Reach _ _ (Prog.interp lower (SelectServer.handle _ s _ >>= _), m) _
  rw [SelectServer.handle_only]
  refine .head (.call (r := (fd, i)) ⟨rfl, hr, hne, hfree, hi⟩) ?_
  show Interaction.Reach _ _ (Prog.interp lower (SelectServer.install fd s >>= _), _) _
  rw [hinstall]
  split
  · exact .single (.call (r := ()) trivial)
  · exact .refl

end FiniteBuffers

end UnixNetwork
