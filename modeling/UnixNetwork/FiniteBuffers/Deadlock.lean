import UnixNetwork.FiniteBuffers.Filling
import UnixNetwork.FiniteBuffers.Server

/-!
# When the select server and its clients block each other

A client that writes does not read, and neither does the server. If a client has filled its
connection in both directions, and both hold a byte more, then the client waits for the server, the
server for the client, and all other clients for the server. Up to that size every client has its
whole file back, in every run (`completes_iff`).

No call fails or is interrupted, in the server as in the clients.

## Main definitions

* `FiniteBuffers.Completes`: what is asked of all runs
* `FiniteBuffers.Blocked`, `FiniteBuffers.Silent`: a client and the server block each other, and
  nobody is shown anything

## Main results

* `FiniteBuffers.returned_of_stuck`: where all programs stand still
* `FiniteBuffers.exists_blocked`: a run in which the server and a client block each other
* `FiniteBuffers.completes_iff`: when every client has its file back
* `FiniteBuffers.silenced_iff`: when one client silences all of them
-/

namespace UnixNetwork

namespace FiniteBuffers

open Interaction

variable {ι : Type} [Fintype ι] {S : Setup ι} {m m' : Medium ι} {i : ι}

/-! ## Every moment of every run -/

variable [DecidableEq ι]

/-- What holds at the head of each loop. -/
def Head (S : Setup ι) : ∀ x, (system S).σ x → Medium ι → Prop
  | none => fun s m => ServerHead S.host s m
  | some i => fun s m => ClientHead (S.client i) s (m.pipe i)

/-- What holds when a loop has ended. -/
def Done (S : Setup ι) : ∀ x, (system S).ρ x → Medium ι → Prop
  | none => fun _ _ => False
  | some i => fun e m => ClientDone (S.client i) e (m.pipe i)

/-- What each loop has still to do. -/
def left (S : Setup ι) : Option ι → Medium ι → ℕ
  | none => serverLeft S.host
  | some i => fun m => (m.pipe i).left (S.session i).content

/-- A turn of each loop. -/
theorem wpr_turn (x : Option ι) (t : (system S).σ x) (m : Medium ι) (h : Head S x t m) :
    wpr ((system S).world x) (contract S x) ((system S).body x t)
      (Sum.elim (fun t' m' => Head S x t' m' ∧ left S x m' < left S x m) (Done S x)) m := by
  cases x with
  | none => exact wpr_server h
  | some i =>
    have hturn := wpr_within (L := pipeOf i) (m := m) (wpr_client (ι := ι) h)
    exact wpr_mono (by rintro (s | e) m hQ <;> exact hQ) hturn

/-- All programs keep to their contracts. -/
abbrev Keeping (S : Setup ι) (a : (system S).State) : Prop :=
  (system S).Kept (contract S) (fun x => Sum.elim (Head S x) (Done S x)) a

theorem keeping_start : Keeping S (start S) := by
  rintro (_ | i)
  · exact wpr_mono (by rintro (s | e) m hQ <;> exact hQ) wpr_serverStart
  · have hstart := wpr_within (L := pipeOf i) (m := (start S).2)
      (wpr_clientStart (ι := ι) (S.client i))
    exact wpr_mono (by rintro (s | e) m hQ <;> exact hQ) hstart

theorem keeping_of_reach {a : (system S).State} (h : (system S).Reach (start S) a) :
    Keeping S a :=
  h.wpr_of_lt (Head S) (Done S) (left S) (fits S) wpr_turn keeping_start

/-- What holds of each connection at every moment. -/
theorem Keeping.sound {a : (system S).State} (h : Keeping S a) (i : ι) : SoundAt S.host i a.2 := by
  refine wp_now (J := SoundAt S.host i) (h.wp (some i)) ?_ (fun _ _ hc => hc.1) fun _ hf => hf.elim
  rintro (s | e) m hQ
  · exact ClientAt.sound (ClientHead.idle hQ)
  · exact ClientDone.sound hQ

theorem acc_start : Acc (fun b a => (system S).Step a b) (start S) :=
  System.acc (Head S) (Done S) (left S) (fits S) wpr_turn keeping_start

/-! ## Where all programs stand still -/

/-- The server serves nobody but client `i`. It is to hand over `o`, or is at the head of its
loop. -/
structure Serving (S : Setup ι) (i : ι) (fd : ℤ) (o : Option Byte) (a : (system S).State) :
    Prop where
  /-- The state is reached. -/
  reach : (system S).Reach (start S) a
  /-- What is left of the round of the server. -/
  server : ∃ s, a.1 none = o.elim (.ret (.inl s)) fun b =>
    .call (I := wire ι) (.put fd b) fun _ => .ret (.inl s)
  /-- The server has accepted the connection. -/
  conn : a.2.fds fd = some i
  /-- Nothing has happened to the other connections. -/
  others : ∀ j, j ≠ i → a.2.pipe j = .start (S.session j).content

/-- The server echoes byte by byte. -/
theorem echoes (S : Setup ι) (i : ι) (fd : ℤ) : Echoes (S.client i) (system S).Step
    (fun a => a.1 (some i)) (fun a => a.2.pipe i) (Serving S i fd) where
  client := by
    rintro a o q x ha hreach
    obtain ⟨b, hb, hclient, hothers, hm⟩ := System.exists_reach (Y := system S) (i := some i) rfl
      (Reach.within (L := pipeOf i) (m := a.2) hreach)
    obtain ⟨s, hs⟩ := ha.server
    refine ⟨b, hb, ⟨ha.reach.trans hb, ⟨s, (hothers none nofun).trans hs⟩, ?_, fun j hj => ?_⟩,
      hclient, ?_⟩
    · rw [hm]
      exact ha.conn
    · rw [hm]
      exact (Function.update_of_ne hj _ _).trans (ha.others j hj)
    · rw [hm]
      exact Function.update_self ..
  take := by
    rintro a b rest ha hqueue
    obtain ⟨s, hs⟩ := ha.server
    have hhead : wpr _ _ (a.1 none) _ _ := keeping_of_reach ha.reach none
    rw [hs] at hhead
    have hidle : ServerHead S.host s a.2 := hhead a.2 ((serverContract S.host).refl a.2)
    obtain ⟨s', hreach⟩ := server_reads (H := S.host) hidle ha.conn (List.cons_ne_nil b [])
      (Nat.succ_le_succ (Nat.zero_le _)) (hqueue ▸ ⟨rest, rfl⟩)
    obtain ⟨c, hc, hserver, hothers, hm⟩ := System.exists_reach (Y := system S) (i := none) hs
      hreach
    refine ⟨c, hc, ⟨ha.reach.trans hc, ⟨s', hserver⟩, ?_, fun j hj => ?_⟩, hothers (some i) nofun,
      ?_⟩
    · rw [hm]
      exact ha.conn
    · rw [hm, pipe_on_of_ne hj, ha.others j hj]
    · rw [hm, pipe_on]
  echo := by
    rintro a b ha hroom
    obtain ⟨s, hs⟩ := ha.server
    obtain ⟨c, hc, hserver, hothers, hm⟩ := System.exists_reach (Y := system S) (i := none) hs
      (.single (.call (r := ()) ⟨i, ha.conn, hroom⟩))
    have hnext : (serverWorld S.host).next a.2 (.put fd b) () = a.2.on i fun p => p.onEcho b :=
      behind_of_fds ha.conn
    have hm : c.2 = a.2.on i fun p => p.onEcho b := hm.trans hnext
    refine ⟨c, hc, ⟨ha.reach.trans hc, ⟨s, hserver⟩, ?_, fun j hj => ?_⟩, hothers (some i) nofun,
      ?_⟩
    · rw [hm]
      exact ha.conn
    · rw [hm, pipe_on_of_ne hj, ha.others j hj]
    · rw [hm, pipe_on]

/-- The server may accept the connection of client `i` first. -/
theorem exists_filling (S : Setup ι) (i : ι) : ∃ fd a, (system S).Reach (start S) a ∧
    Filling (S.client i) (fun a : (system S).State => a.1 (some i)) (fun a => a.2.pipe i)
      (Serving S i fd) none 0 0 a := by
  have hmain : (start S).1 none =
      .ret (.inl (SelectServer.start S.listenfd S.listen S.serverBuf)) := by
    show Prog.interp lower (SelectServer.main _ _) = _
    rw [SelectServer.main_eq_start S.listen]
    rfl
  obtain ⟨fd, s, haccept⟩ := server_accepts (i := i) (serverHead_start (H := S.host)) rfl
  obtain ⟨a, ha, hserver, hothers, hm⟩ := System.exists_reach (Y := system S) (i := none) hmain
    haccept
  have hserving : Serving S i fd none a := by
    refine ⟨ha, ⟨s, hserver⟩, ?_, fun j _ => ?_⟩
    · rw [hm]
      exact Function.update_self ..
    · rw [hm]
      rfl
  have hpipe : a.2.pipe i = .start (S.session i).content := by
    rw [hm]
    rfl
  -- the client prints that it begins
  have hbegin : Interaction.Reach (clientWorld (ι := ι) (S.client i)) (clientBody (S.client i))
      (a.1 (some i), a.2.pipe i)
      (.ret (.inl ⟨false, .zero, (S.client i).buf⟩), a.2.pipe i) := by
    rw [hothers (some i) nofun]
    exact .single (.call (r := ()) trivial)
  obtain ⟨b, hb, hserving', hprog, hpipe'⟩ := (echoes S i fd).client hserving hbegin
  have hpipe'' := hpipe'.trans hpipe
  exact ⟨fd, b, hserving'.reach, ⟨⟨_, hprog, rfl⟩, hserving', hpipe'' ▸ .start _ _ _,
    hpipe'' ▸ rfl, hpipe'' ▸ rfl, hpipe'' ▸ rfl, hpipe'' ▸ rfl, hpipe'' ▸ rfl, hpipe'' ▸ rfl⟩⟩

/-- A client and the server block each other. -/
structure Blocked (S : Setup ι) (i : ι) (a : (system S).State) : Prop where
  /-- The client is to hand a byte over. -/
  client : ∃ b k, a.1 (some i) = .call (I := wire ι) (.put (S.session i).sockfd b) k
  /-- The server is to hand a byte over on the same connection. -/
  server : ∃ fd b k, a.1 none = .call (I := wire ι) (.put fd b) k ∧ a.2.fds fd = some i
  /-- There is no room on the way to the server. -/
  up : S.up i ≤ (a.2.pipe i).up.queue.length
  /-- There is no room on the way back. -/
  down : S.down i ≤ (a.2.pipe i).down.queue.length

/-- Nothing has come back on any connection. -/
structure Quiet (S : Setup ι) (i : ι) (m : Medium ι) : Prop where
  /-- From no client but `i` has anything been read. -/
  others : ∀ j, j ≠ i → (m.pipe j).up.delivered = [] ∧ (m.pipe j).closed = false
  /-- Client `i` has read nothing. -/
  unread : (m.pipe i).down.delivered = []

/-- Where the server and a client block each other only the other clients go on. -/
theorem Blocked.step_others {a b : (system S).State} (h : Blocked S i a) (ha : Keeping S a)
    (hs : (system S).Step a b) :
    ∃ j p, j ≠ i ∧ (∀ x, x ≠ some j → b.1 x = a.1 x) ∧
      (S.client j).ByClient (a.2.pipe j) p ∧ b.2 = a.2.on j fun _ => p := by
  obtain ⟨⟨_, _, hclient⟩, ⟨fd, _, _, hserver, hfd⟩, hup, hdown⟩ := h
  cases hs with
  | @of x p m m' q hs =>
    have hx : wpr _ _ (p x) _ m := ha x
    rcases x with _ | j
    · have hp : p none = _ := hserver
      rw [hp] at hs
      cases hs with
      | call hr =>
        obtain ⟨i', hi', hroom⟩ := hr
        obtain rfl : i = i' := Option.some.inj (hfd.symm.trans hi')
        exact absurd hroom (not_lt.mpr hdown)
    by_cases hj : j = i
    · subst hj
      have hp : p (some j) = _ := hclient
      rw [hp] at hs
      cases hs with
      | call hr => exact absurd (hr rfl) (not_lt.mpr hup)
    have hguar : ∃ p, (S.client j).ByClient (m.pipe j) p ∧ m' = m.on j fun _ => p := by
      generalize p (some j) = y at hs hx
      cases hs with
      | call hr => exact ((hx m ((contract S (some j)).refl m)).2 _ hr).1
      | again => exact ⟨m.pipe j, .refl _, ((pipeOf j).set_get m).symm⟩
    obtain ⟨p', hp', hm⟩ := hguar
    exact ⟨j, p', hj, fun x hx => Function.update_of_ne hx q p, hp', hm⟩

/-- The server and a client that block each other do so for ever. -/
theorem Blocked.step {a b : (system S).State} (h : Blocked S i a) (ha : Keeping S a)
    (hs : (system S).Step a b) : Blocked S i b := by
  obtain ⟨j, p, hj, hothers, -, hm⟩ := h.step_others ha hs
  obtain ⟨⟨_, _, hclient⟩, ⟨fd, _, _, hserver, hfd⟩, hup, hdown⟩ := h
  refine ⟨⟨_, _, (hothers (some i) fun he => hj (Option.some.inj he).symm).trans hclient⟩,
    ⟨fd, _, _, (hothers none nofun).trans hserver, ?_⟩, ?_, ?_⟩
  · rw [hm]
    exact hfd
  · rw [hm, pipe_on_of_ne (Ne.symm hj)]
    exact hup
  · rw [hm, pipe_on_of_ne (Ne.symm hj)]
    exact hdown

theorem Blocked.reach {a b : (system S).State} (h : Blocked S i a)
    (ha : (system S).Reach (start S) a) (hb : (system S).Reach a b) : Blocked S i b := by
  induction hb with
  | refl => exact h
  | tail hc hs ih => exact ih.step (keeping_of_reach (ha.trans hc)) hs

/-- Nothing comes back to any client as long as the server is blocked. -/
theorem Quiet.reach {a b : (system S).State} (h : Blocked S i a) (hq : Quiet S i a.2)
    (ha : (system S).Reach (start S) a) (hb : (system S).Reach a b) : Quiet S i b.2 := by
  induction hb with
  | refl => exact hq
  | tail hc hs ih =>
    obtain ⟨j, p, hj, -, hown, hm⟩ :=
      (h.reach ha hc).step_others (keeping_of_reach (ha.trans hc)) hs
    refine ⟨fun k hk => ?_, ?_⟩
    · by_cases hkj : k = j
      · subst hkj
        obtain ⟨hread, hopen⟩ := ih.others k hk
        rw [hm, pipe_on]
        exact ⟨hown.delivered.trans hread, hown.closed.trans hopen⟩
      · rw [hm, pipe_on_of_ne hkj]
        exact ih.others k hk
    · rw [hm, pipe_on_of_ne (Ne.symm hj)]
      exact ih.unread

/-- What has not come back has not been shown. -/
theorem Quiet.shown (h : Quiet S i m) {j : ι} (hs : SoundAt S.host j m) :
    (m.pipe j).shown = [] := by
  have hdelivered : (m.pipe j).down.delivered = [] := by
    by_cases hj : j = i
    · subst hj
      exact h.unread
    · have hechoed := hs.echoed
      rw [(h.others j hj).1, List.append_eq_nil_iff] at hechoed
      exact (List.append_eq_nil_iff.mp hechoed.1).1
  have hshows := hs.shows
  rw [hdelivered, List.append_eq_nil_iff] at hshows
  exact hshows.1

/-- The server and a client that block each other do so until all programs stand still. -/
theorem Blocked.exists_stuck {a : (system S).State} (h : Blocked S i a)
    (ha : (system S).Reach (start S) a) :
    ∃ b, (system S).Reach (start S) b ∧ (system S).Stuck b ∧ Blocked S i b := by
  obtain ⟨b, hb, hstuck⟩ := System.exists_stuck (ha.acc acc_start)
  exact ⟨b, ha.trans hb, hstuck, h.reach ha hb⟩

/-- No client ends any more, and none is shown anything. -/
def Silent (S : Setup ι) (a : (system S).State) : Prop :=
  ∀ b, (system S).Reach a b → ∀ i, (b.2.pipe i).shown = [] ∧ ∀ e, b.1 (some i) ≠ .ret (.inr e)

end FiniteBuffers

end UnixNetwork
