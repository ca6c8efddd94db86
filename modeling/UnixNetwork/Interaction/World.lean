import UnixNetwork.Interaction.Prog

/-!
# Programs in a world, and loops that never end

A *world* says which result a call may return and remembers what has happened. It is a monitor:
the next state is a function of the call and its result, and all nondeterminism lies in the choice
of the result. Facts such as "this descriptor is open" or "these bytes have been read" are facts
about the state of a world, so they are defined for any program and at any point of a run.

A server is a loop `σ → Prog I (σ ⊕ ρ)` whose body either goes round again with a new state or is
done. `Reach` is the run of a loop call by call, and not round by round: a configuration is a
program that may be anywhere inside the body, so a property of every reachable configuration is a
property of every moment of the run.

## Main definitions

* `World`, `Step`, `Reach`: one call, and any number of them
* `Guard`, `wp`: the calls a program makes are acceptable, whatever the world returns, and it ends
  well
* `Executes`: the program can complete, with this value, in that state of the world
* `Agree`: two programs that behave alike as long as the world returns what it may
* `World.when`, `World.Extends`: a world that returns less than another one, or remembers more

## Main results

* `wp_bind`, `wp_mono`: the rules of sequencing and of consequence
* `Reach.wp`: an invariant of the body is an invariant of every moment of the run
* `Reach.world`, `Reach.monitor`: a fact about the world that no allowed call, and no call the
  program gets to, destroys
* `Reach.map`, `Reach.forget`, `Reach.remember`: a run is a run where more may be returned, and
  whether or not more of it is remembered
* `Agree.after_ret`, `Agree.after_call`: programs that agree make the same calls and end alike
* `executes_iff`: a program completes by events that the world can return
* `Executes.simulate`: a program that completes can do so in any system where its calls are steps
* `reach_done_iff`: a run that ends, taken apart at its first round
-/

namespace Interaction

variable {I : Interface} {S α β σ ρ : Type}

/-- Surroundings that remember an `S`: what a call may return in a given state, and the state
after it. -/
structure World (I : Interface) (S : Type) where
  /-- The results a call may return. -/
  Allows : S → (c : I.Call) → I.Res c → Prop
  /-- The state once a call has returned. -/
  next : S → (c : I.Call) → I.Res c → S

namespace World

variable (W : World I S)

/-- The world can return these results to these calls, one after the other. -/
def Legal : S → List (Event I) → Prop
  | _, [] => True
  | w, e :: t => W.Allows w e.1 e.2 ∧ Legal (W.next w e.1 e.2) t

/-- The state of the world after some events. -/
def after : S → List (Event I) → S
  | w, [] => w
  | w, e :: t => after (W.next w e.1 e.2) t

@[simp] theorem legal_nil (w : S) : W.Legal w [] := trivial

@[simp] theorem legal_cons (w : S) (e : Event I) (t : List (Event I)) :
    W.Legal w (e :: t) ↔ W.Allows w e.1 e.2 ∧ W.Legal (W.next w e.1 e.2) t := Iff.rfl

@[simp] theorem after_nil (w : S) : W.after w [] = w := rfl

@[simp] theorem after_cons (w : S) (e : Event I) (t : List (Event I)) :
    W.after w (e :: t) = W.after (W.next w e.1 e.2) t := rfl

theorem legal_append {W : World I S} {w : S} {t t' : List (Event I)} :
    W.Legal w (t ++ t') ↔ W.Legal w t ∧ W.Legal (W.after w t) t' := by
  induction t generalizing w with
  | nil => simp
  | cons e t ih =>
    rw [List.cons_append, legal_cons, legal_cons, after_cons, ih, and_assoc]

end World

/-! ## Runs of a loop -/

section Runs

variable (W : World I S) (body : σ → Prog I (σ ⊕ ρ))

/-- One step of a loop: a call returns, or the body ends a round and the next one begins. -/
inductive Step : Prog I (σ ⊕ ρ) × S → Prog I (σ ⊕ ρ) × S → Prop where
  /-- A pending call returns. -/
  | call {c : I.Call} {k : I.Res c → Prog I (σ ⊕ ρ)} {w : S} {r : I.Res c} :
      W.Allows w c r → Step (.call c k, w) (k r, W.next w c r)
  /-- The head of the loop. -/
  | again {s : σ} {w : S} : Step (.ret (.inl s), w) (body s, w)

/-- `b` is reached from `a`. -/
abbrev Reach : Prog I (σ ⊕ ρ) × S → Prog I (σ ⊕ ρ) × S → Prop :=
  Relation.ReflTransGen (Step W body)

end Runs

variable {W : World I S} {body : σ → Prog I (σ ⊕ ρ)}

/-- A fact about the world that no allowed call destroys holds at every moment of the run. -/
theorem Reach.world {J : S → Prop}
    (hJ : ∀ w c r, J w → W.Allows w c r → J (W.next w c r))
    {a b : Prog I (σ ⊕ ρ) × S} (h : Reach W body a b) (ha : J a.2) : J b.2 := by
  induction h with
  | refl => exact ha
  | tail _ hs ih =>
    cases hs with
    | call hr => exact hJ _ _ _ ih hr
    | again => exact ih

/-- A fact about the world that no call of the program destroys holds at every moment of the run.
Which calls those are is known from the run so far. -/
theorem Reach.monitor {J : S → Prop} {a b : Prog I (σ ⊕ ρ) × S} (h : Reach W body a b)
    (hJ : ∀ c k w r, Reach W body a (.call c k, w) → J w → W.Allows w c r → J (W.next w c r))
    (ha : J a.2) : J b.2 := by
  induction h with
  | refl => exact ha
  | tail hab hs ih =>
    cases hs with
    | call hr => exact hJ _ _ _ _ hab ih hr
    | again => exact ih

/-! ## Worlds that return less -/

/-- The runs of `W` in which every call is made in a state that `C` allows it in. -/
def World.when (W : World I S) (C : S → I.Call → Prop) : World I S where
  Allows w c r := W.Allows w c r ∧ C w c
  next := W.next

@[simp] theorem World.when_next (W : World I S) (C : S → I.Call → Prop) :
    (W.when C).next = W.next := rfl

/-! ## Worlds that remember more -/

/-- `W'` returns what `W` returns and remembers more; `f` forgets it. -/
structure World.Extends {T : Type} (W' : World I T) (W : World I S) (f : T → S) : Prop where
  /-- What is remembered in addition plays no part in what is returned. -/
  allows : ∀ w c r, W'.Allows w c r ↔ W.Allows (f w) c r
  /-- What is remembered in addition plays no part in what the other world remembers. -/
  next : ∀ w c r, f (W'.next w c r) = W.next (f w) c r

section Extends

variable {T : Type} {W' : World I T} {f : T → S}

/-- A run is one in any surroundings that may return as much, and when less of it is remembered. -/
theorem Reach.map (hallows : ∀ w c r, W'.Allows w c r → W.Allows (f w) c r)
    (hnext : ∀ w c r, f (W'.next w c r) = W.next (f w) c r) {a b : Prog I (σ ⊕ ρ) × T}
    (h : Reach W' body a b) : Reach W body (a.1, f a.2) (b.1, f b.2) := by
  induction h with
  | refl => exact .refl
  | tail _ hs ih =>
    refine ih.tail ?_
    cases hs with
    | call hr =>
      rw [hnext]
      exact .call (hallows _ _ _ hr)
    | again => exact .again

/-- A run is still one when less of it is remembered. -/
theorem Reach.forget (hf : W'.Extends W f) {a b : Prog I (σ ⊕ ρ) × T}
    (h : Reach W' body a b) : Reach W body (a.1, f a.2) (b.1, f b.2) :=
  h.map (fun w c r => (hf.allows w c r).mp) hf.next

/-- More can be remembered of every run. -/
theorem Reach.remember (hf : W'.Extends W f) {a b : Prog I (σ ⊕ ρ) × S} (h : Reach W body a b)
    {w : T} (hw : f w = a.2) : ∃ w', f w' = b.2 ∧ Reach W' body (a.1, w) (b.1, w') := by
  induction h with
  | refl => exact ⟨w, hw, .refl⟩
  | tail _ hs ih =>
    obtain ⟨w', hw', h'⟩ := ih
    cases hs with
    | call hr =>
      refine ⟨_, ?_, h'.tail (.call ((hf.allows _ _ _).mpr (hw' ▸ hr)))⟩
      rw [hf.next, hw']
    | again => exact ⟨w', hw', h'.tail .again⟩

end Extends

/-- A run in which every call is made where `C` allows it is a run. -/
theorem Reach.of_when {C : S → I.Call → Prop} {a b : Prog I (σ ⊕ ρ) × S}
    (h : Reach (W.when C) body a b) : Reach W body a b := by
  have hallows : ∀ w c r, (W.when C).Allows w c r → W.Allows (id w) c r := fun _ _ _ hr => hr.1
  exact h.map hallows fun _ _ _ => rfl

/-! ## What a program may end with -/

namespace Prog

/-- Whatever its calls return, the program can end only with a value that satisfies `Q`. -/
def Leaves (Q : α → Prop) : Prog I α → Prop
  | ret a => Q a
  | call _ k => ∀ r, (k r).Leaves Q
  | fault => True

variable {Q Q' : α → Prop}

@[simp] theorem leaves_ret {a : α} : (ret a : Prog I α).Leaves Q ↔ Q a := Iff.rfl

@[simp] theorem leaves_call {c : I.Call} {k : I.Res c → Prog I α} :
    (call c k).Leaves Q ↔ ∀ r, (k r).Leaves Q := Iff.rfl

@[simp] theorem leaves_fault : (fault : Prog I α).Leaves Q ↔ True := Iff.rfl

theorem leaves_mono (hQ : ∀ a, Q a → Q' a) {p : Prog I α} (h : p.Leaves Q) : p.Leaves Q' := by
  induction p with
  | ret a => exact hQ a h
  | call c k ih => exact fun r => ih r (h r)
  | fault => trivial

@[simp] theorem leaves_bind {p : Prog I α} {f : α → Prog I β} {Q : β → Prop} :
    (p >>= f).Leaves Q ↔ p.Leaves fun a => (f a).Leaves Q := by
  induction p with
  | ret a => rfl
  | call c k ih => exact forall_congr' ih
  | fault => rfl

theorem Silent.leaves_bind {p : Prog I α} (hp : p.Silent) {f : α → Prog I β} {Q : β → Prop}
    (hf : ∀ a, (f a).Leaves Q) : (p >>= f).Leaves Q := by
  cases p with
  | ret a => exact hf a
  | call c k => exact hp.elim
  | fault => trivial

end Prog

/-- What every round of a loop may end it with, the loop may end with. -/
theorem Reach.leaves {Q : ρ → Prop}
    (hbody : ∀ s, (body s).Leaves (Sum.elim (fun _ => True) Q)) {a b : Prog I (σ ⊕ ρ) × S}
    (h : Reach W body a b) (ha : a.1.Leaves (Sum.elim (fun _ => True) Q)) :
    b.1.Leaves (Sum.elim (fun _ => True) Q) := by
  induction h with
  | refl => exact ha
  | tail _ hs ih =>
    cases hs with
    | call _ => exact ih _
    | again => exact hbody _

/-! ## Weakest preconditions -/

/-- What is asked of a program on its way: which calls it may make in a given state, and in which
states its behaviour may be undefined. -/
structure Guard (I : Interface) (S : Type) where
  /-- The call may be made. -/
  Call : S → I.Call → Prop
  /-- The behaviour may be undefined. -/
  Fault : S → Prop

section Wp

variable (W : World I S) (G : Guard I S)

/-- Whatever the world returns, `p` makes only calls that it may make at that moment, has undefined
behaviour only where it may, and if it ends then with a value and in a state that satisfy `Q`. -/
def wp : Prog I α → (α → S → Prop) → S → Prop
  | .ret a, Q, w => Q a w
  | .call c k, Q, w => G.Call w c ∧ ∀ r, W.Allows w c r → wp (k r) Q (W.next w c r)
  | .fault, _, w => G.Fault w

end Wp

/-- Nothing is asked of the program on its way. -/
def Guard.none : Guard I S := ⟨fun _ _ => True, fun _ => True⟩

/-- Nothing is asked of the program on its way, but its behaviour is defined. -/
def Guard.defined : Guard I S := ⟨fun _ _ => True, fun _ => False⟩

variable {G : Guard I S}

@[simp] theorem wp_ret {a : α} {Q : α → S → Prop} {w : S} :
    wp W G (.ret a) Q w ↔ Q a w := Iff.rfl

@[simp] theorem wp_call {c : I.Call} {k : I.Res c → Prog I α} {Q : α → S → Prop}
    {w : S} : wp W G (.call c k) Q w ↔
      G.Call w c ∧ ∀ r, W.Allows w c r → wp W G (k r) Q (W.next w c r) := Iff.rfl

@[simp] theorem wp_fault {Q : α → S → Prop} {w : S} :
    wp W G (.fault : Prog I α) Q w ↔ G.Fault w := Iff.rfl

/-- A call that can return one result only. -/
theorem wp_call_of_unique {c : I.Call} {k : I.Res c → Prog I α} {r₀ : I.Res c}
    {Q : α → S → Prop} {w : S} (h : ∀ r, W.Allows w c r ↔ r = r₀) :
    wp W G (.call c k) Q w ↔ G.Call w c ∧ wp W G (k r₀) Q (W.next w c r₀) := by
  refine and_congr_right fun _ => ?_
  constructor
  · exact fun hk => hk r₀ ((h r₀).mpr rfl)
  · intro hk r hr
    obtain rfl := (h r).mp hr
    exact hk

theorem wp_mono {p : Prog I α} {Q Q' : α → S → Prop} (hQ : ∀ a w, Q a w → Q' a w)
    {w : S} (h : wp W G p Q w) : wp W G p Q' w := by
  induction p generalizing w with
  | ret a => exact hQ a w h
  | call c k ih => exact ⟨h.1, fun r hr => ih r (h.2 r hr)⟩
  | fault => exact h

@[simp] theorem wp_bind {p : Prog I α} {f : α → Prog I β} {Q : β → S → Prop} {w : S} :
    wp W G (p >>= f) Q w ↔ wp W G p (fun a => wp W G (f a) Q) w := by
  induction p generalizing w with
  | ret a => rfl
  | call c k ih => exact and_congr_right fun _ => forall₂_congr fun r _ => ih r
  | fault => rfl

/-- What follows from the guard and from the postcondition holds now. -/
theorem wp_now {p : Prog I α} {Q : α → S → Prop} {J : S → Prop} {w : S} (h : wp W G p Q w)
    (hret : ∀ a w, Q a w → J w) (hcall : ∀ w c, G.Call w c → J w)
    (hfault : ∀ w, G.Fault w → J w) : J w := by
  rcases p with a | ⟨c, k⟩ | _
  · exact hret a w h
  · exact hcall w c h.1
  · exact hfault w h

/-- A part that makes no call, in a program whose behaviour may be undefined. -/
theorem Prog.Silent.wp_bind {p : Prog I α} (hp : p.Silent) {f : α → Prog I β} {Q : β → S → Prop}
    {w : S} (hG : G.Fault w) (hf : ∀ a, wp W G (f a) Q w) : wp W G (p >>= f) Q w := by
  cases p with
  | ret a => exact hf a
  | call c k => exact hp.elim
  | fault => exact hG

/-- What holds of a program holds of what is left of it after some events. -/
theorem Prog.After.wp {p q : Prog I α} {Q : α → S → Prop} {t : List (Event I)} {w : S}
    (h : p.After t q) (ht : W.Legal w t) (hp : Interaction.wp W G p Q w) :
    Interaction.wp W G q Q (W.after w t) := by
  induction h generalizing w with
  | nil p => exact hp
  | cons _ ih => exact ih ht.2 (hp.2 _ ht.1)

/-- What every round may end with, if it was so at its head, the rest of the current round may end
with, at every moment. -/
theorem Reach.wp_post {Q : σ ⊕ ρ → S → Prop}
    (hbody : ∀ s w, Q (.inl s) w → Interaction.wp W G (body s) Q w)
    {a b : Prog I (σ ⊕ ρ) × S} (h : Reach W body a b) (ha : Interaction.wp W G a.1 Q a.2) :
    Interaction.wp W G b.1 Q b.2 := by
  induction h with
  | refl => exact ha
  | tail _ hs ih =>
    cases hs with
    | call hr => exact ih.2 _ hr
    | again => exact hbody _ _ ih

/-- **The loop rule.** If every round that starts in the invariant keeps to the guard and ends
in the invariant again, then so does what is left of the current round, at every moment. -/
theorem Reach.wp {Inv : σ → S → Prop} {Done : ρ → S → Prop}
    (hbody : ∀ s w, Inv s w → wp W G (body s) (Sum.elim Inv Done) w)
    {a b : Prog I (σ ⊕ ρ) × S} (h : Reach W body a b)
    (ha : Interaction.wp W G a.1 (Sum.elim Inv Done) a.2) :
    Interaction.wp W G b.1 (Sum.elim Inv Done) b.2 :=
  h.wp_post hbody ha

/-- The invariant holds at every head of the loop. -/
theorem Reach.inv {Inv : σ → S → Prop} {Done : ρ → S → Prop}
    (hbody : ∀ s w, Inv s w → Interaction.wp W G (body s) (Sum.elim Inv Done) w)
    {a : Prog I (σ ⊕ ρ) × S} {s : σ} {w : S} (h : Reach W body a (.ret (.inl s), w))
    (ha : Interaction.wp W G a.1 (Sum.elim Inv Done) a.2) : Inv s w :=
  h.wp hbody ha

/-! ## Programs that agree -/

/-- In the state `w`, and as long as the world returns what it may, `p` and `q` are the same
program. They may differ on results that never come back. -/
inductive Agree (W : World I S) : S → Prog I α → Prog I α → Prop where
  /-- A program agrees with itself. -/
  | refl (w : S) (p : Prog I α) : Agree W w p p
  /-- Both make the same call and agree on every result it may return. -/
  | call {w : S} {c : I.Call} {k k' : I.Res c → Prog I α} :
      (∀ r, W.Allows w c r → Agree W (W.next w c r) (k r) (k' r)) →
      Agree W w (.call c k) (.call c k')

theorem Agree.symm {w : S} {p q : Prog I α} (h : Agree W w p q) : Agree W w q p := by
  induction h with
  | refl w p => exact .refl w p
  | call _ ih => exact .call ih

/-- Programs that agree stay so while the world is legal. -/
theorem Agree.after {w : S} {p q x : Prog I α} {t : List (Event I)} (h : Agree W w p q)
    (ht : W.Legal w t) (hp : p.After t x) : ∃ y, q.After t y ∧ Agree W (W.after w t) x y := by
  induction hp generalizing w q with
  | nil p => exact ⟨q, .nil q, h⟩
  | cons hp ih =>
    cases h with
    | refl => exact ⟨_, .cons hp, .refl _ _⟩
    | call hk =>
      obtain ⟨y, hy, hxy⟩ := ih (hk _ ht.1) ht.2
      exact ⟨y, .cons hy, hxy⟩

/-- Programs that agree end alike. -/
theorem Agree.after_ret {w : S} {p q : Prog I α} {t : List (Event I)} {a : α} (h : Agree W w p q)
    (ht : W.Legal w t) : p.After t (.ret a) ↔ q.After t (.ret a) := by
  have one : ∀ {p q : Prog I α}, Agree W w p q → p.After t (.ret a) → q.After t (.ret a) := by
    intro p q h hp
    obtain ⟨y, hy, hxy⟩ := h.after ht hp
    cases hxy
    exact hy
  exact ⟨one h, one h.symm⟩

/-- Programs that agree make the same calls. -/
theorem Agree.after_call {w : S} {p q : Prog I α} {t : List (Event I)} {c : I.Call}
    (h : Agree W w p q) (ht : W.Legal w t) :
    (∃ k, p.After t (.call c k)) ↔ ∃ k, q.After t (.call c k) := by
  have one : ∀ {p q : Prog I α}, Agree W w p q →
      (∃ k, p.After t (.call c k)) → ∃ k, q.After t (.call c k) := by
    rintro p q h ⟨k, hp⟩
    obtain ⟨y, hy, hxy⟩ := h.after ht hp
    cases hxy with
    | refl => exact ⟨k, hy⟩
    | call _ => exact ⟨_, hy⟩
  exact ⟨one h, one h.symm⟩

/-! ## Completed programs -/

section Executes

variable (W : World I S)

/-- `p`, started in `w`, can complete with the value `b` in the state `w'`. -/
def Executes : Prog I α → S → α → S → Prop
  | .ret a, w, b, w' => b = a ∧ w' = w
  | .call c k, w, b, w' => ∃ r, W.Allows w c r ∧ Executes (k r) (W.next w c r) b w'
  | .fault, _, _, _ => False

end Executes

@[simp] theorem executes_ret {a b : α} {w w' : S} :
    Executes W (.ret a) w b w' ↔ b = a ∧ w' = w := Iff.rfl

@[simp] theorem executes_call {c : I.Call} {k : I.Res c → Prog I α} {b : α} {w w' : S} :
    Executes W (.call c k) w b w' ↔
      ∃ r, W.Allows w c r ∧ Executes W (k r) (W.next w c r) b w' := Iff.rfl

/-- A call that can return one result only. -/
theorem executes_call_of_unique {c : I.Call} {k : I.Res c → Prog I α} {r₀ : I.Res c} {b : α}
    {w w' : S} (h : ∀ r, W.Allows w c r ↔ r = r₀) :
    Executes W (.call c k) w b w' ↔ Executes W (k r₀) (W.next w c r₀) b w' := by
  rw [executes_call]
  constructor
  · rintro ⟨r, hr, hx⟩
    obtain rfl := (h r).mp hr
    exact hx
  · intro hx
    exact ⟨r₀, (h r₀).mpr rfl, hx⟩

@[simp] theorem executes_fault {b : α} {w w' : S} :
    ¬ Executes W (.fault : Prog I α) w b w' := id

/-- A program completes by events that the world can return. -/
theorem executes_iff {p : Prog I α} {b : α} {w w' : S} :
    Executes W p w b w' ↔ ∃ t, p.After t (.ret b) ∧ W.Legal w t ∧ W.after w t = w' := by
  induction p generalizing w with
  | ret a =>
    constructor
    · rintro ⟨rfl, rfl⟩
      exact ⟨[], .nil _, trivial, rfl⟩
    · rintro ⟨t, h, -, hw⟩
      obtain ⟨rfl, hb⟩ := Prog.after_ret.mp h
      exact ⟨Prog.ret.inj hb, hw.symm⟩
  | call c k ih =>
    simp only [executes_call, ih]
    constructor
    · rintro ⟨r, hr, t, h, ht, hw⟩
      exact ⟨⟨c, r⟩ :: t, .cons h, ⟨hr, ht⟩, hw⟩
    · rintro ⟨t, h, ht, hw⟩
      obtain ⟨r, t', rfl, hk⟩ := Prog.after_call_ret.mp h
      exact ⟨r, ht.1, t', hk, ht.2, hw⟩
  | fault =>
    constructor
    · exact False.elim
    · rintro ⟨t, h, -⟩
      cases (Prog.after_fault.mp h).2

/-- A program whose behaviour is defined completes where every call can return. -/
theorem Prog.Total.exists_executes {p : Prog I α} (hp : p.Total)
    (hW : ∀ w c, ∃ r, W.Allows w c r) (w : S) : ∃ a w', Executes W p w a w' := by
  induction p generalizing w with
  | ret a => exact ⟨a, w, rfl, rfl⟩
  | call c k ih =>
    obtain ⟨r, hr⟩ := hW w c
    obtain ⟨a, w', h⟩ := ih r (hp r) (W.next w c r)
    exact ⟨a, w', r, hr, h⟩
  | fault => exact hp.elim

theorem executes_bind {p : Prog I α} {f : α → Prog I β} {b : β} {w w' : S} :
    Executes W (p >>= f) w b w' ↔ ∃ a w₁, Executes W p w a w₁ ∧ Executes W (f a) w₁ b w' := by
  induction p generalizing w with
  | ret a => simp [and_assoc]
  | call c k ih =>
    simp only [Prog.call_bind, executes_call, ih]
    constructor
    · rintro ⟨r, hr, a, w₁, h₁, h₂⟩
      exact ⟨a, w₁, ⟨r, hr, h₁⟩, h₂⟩
    · rintro ⟨a, w₁, ⟨r, hr, h₁⟩, h₂⟩
      exact ⟨r, hr, a, w₁, h₁, h₂⟩
  | fault => simp

/-- A program that keeps to its guard and need not end as it is to can end otherwise. -/
theorem exists_executes_of_not_wp {p : Prog I α} {Q : α → S → Prop} {w : S}
    (h : wp W G p (fun _ _ => True) w) (hQ : ¬ wp W G p Q w) :
    ∃ a w', Executes W p w a w' ∧ ¬ Q a w' := by
  induction p generalizing w with
  | ret a => exact ⟨a, w, ⟨rfl, rfl⟩, hQ⟩
  | call c k ih =>
    obtain ⟨hcall, hk⟩ := h
    rw [wp_call, not_and] at hQ
    obtain ⟨r, hr⟩ := Classical.not_forall.mp (hQ hcall)
    obtain ⟨hr, hr'⟩ := Classical.not_imp.mp hr
    obtain ⟨a, w', hx, ha⟩ := ih r (hk r hr) hr'
    exact ⟨a, w', ⟨r, hr, hx⟩, ha⟩
  | fault => exact absurd h hQ

/-- A program that completes can do so in any system where its calls are steps. -/
theorem Executes.simulate {T : Type*} {R : T → T → Prop} (f : Prog I α × S → T)
    (hf : ∀ (c : I.Call) (k : I.Res c → Prog I α) (w : S) (r : I.Res c), W.Allows w c r →
      R (f (.call c k, w)) (f (k r, W.next w c r)))
    {p : Prog I α} {x : α} {w w' : S} (h : Executes W p w x w') :
    Relation.ReflTransGen R (f (p, w)) (f (.ret x, w')) := by
  induction p generalizing w with
  | ret a =>
    obtain ⟨rfl, rfl⟩ := h
    exact .refl
  | call c k ih =>
    obtain ⟨r, hr, h⟩ := h
    exact .head (hf c k w r hr) (ih r h)
  | fault => exact h.elim

theorem Executes.reach {p : Prog I (σ ⊕ ρ)} {x : σ ⊕ ρ} {w w' : S}
    (h : Executes W p w x w') : Reach W body (p, w) (.ret x, w') :=
  h.simulate id fun _ _ _ _ hr => .call hr

/-- A run that ends has completed the round it is in, and either that was the last one or the
rest of the run starts at the head of the loop. -/
theorem reach_done_of_reach {p : Prog I (σ ⊕ ρ)} {r : ρ} {w w' : S}
    (h : Reach W body (p, w) (.ret (.inr r), w')) :
    Executes W p w (.inr r) w' ∨ ∃ s w₁, Executes W p w (.inl s) w₁ ∧
      Reach W body (body s, w₁) (.ret (.inr r), w') := by
  generalize ha : (p, w) = a at h
  induction h using Relation.ReflTransGen.head_induction_on generalizing p w with
  | refl =>
    cases ha
    exact .inl ⟨rfl, rfl⟩
  | head hs hrest ih =>
    cases hs with
    | call hr =>
      cases ha
      rcases ih rfl with h | ⟨s, w₁, h, h'⟩
      · exact .inl ⟨_, hr, h⟩
      · exact .inr ⟨s, w₁, ⟨_, hr, h⟩, h'⟩
    | again =>
      cases ha
      exact .inr ⟨_, _, ⟨rfl, rfl⟩, hrest⟩

/-- **A run that ends**, taken apart at its first round. -/
theorem reach_done_iff {s : σ} {r : ρ} {w w' : S} :
    Reach W body (.ret (.inl s), w) (.ret (.inr r), w') ↔
      Executes W (body s) w (.inr r) w' ∨ ∃ s₁ w₁, Executes W (body s) w (.inl s₁) w₁ ∧
        Reach W body (.ret (.inl s₁), w₁) (.ret (.inr r), w') := by
  constructor
  · intro h
    rcases h.cases_head with h | ⟨b, hs, h⟩
    · cases h
    · cases hs
      rcases reach_done_of_reach h with h | ⟨s₁, w₁, h, h'⟩
      · exact .inl h
      · exact .inr ⟨s₁, w₁, h, .head .again h'⟩
  · rintro (h | ⟨s₁, w₁, h, h'⟩)
    · exact .head .again h.reach
    · exact .head .again (h.reach.trans h')

end Interaction
