import UnixNetwork.Interaction.World
import Mathlib.Data.Sum.Basic

/-!
# Programs that differ in calls nobody hears

A call is *unheard* by some surroundings if it can always return and they are afterwards as they
were before. Two programs *resemble* each other if they are the same up to unheard calls, which
either may make where the other does not. Loops whose rounds resemble each other have the same runs,
as far as the surroundings can tell, and end alike.

## Main definitions

* `World.Unheard`: the call leaves the surroundings as they are
* `Prog.Resembles`: the programs are the same up to such calls

## Main results

* `Reach.resembles`: what one loop can do, a loop that resembles it can
* `Reach.resembles_done`: and they end alike
-/

namespace Interaction

variable {I : Interface} {S α β α' β' σ τ ρ ρ' : Type}

/-- The call can always return, and leaves the surroundings as they are. -/
structure World.Unheard (W : World I S) (c : I.Call) : Prop where
  /-- It can return. -/
  allows : ∀ w, ∃ r, W.Allows w c r
  /-- It leaves no trace. -/
  next : ∀ w r, W.next w c r = w

/-- An unheard call is a step after which nothing has happened. -/
theorem World.Unheard.step {W : World I S} {body : σ → Prog I (σ ⊕ ρ)} {c : I.Call}
    (h : W.Unheard c) (k : I.Res c → Prog I (σ ⊕ ρ)) (w : S) :
    ∃ r, Step W body (.call c k, w) (k r, w) := by
  obtain ⟨r, hr⟩ := h.allows w
  have hstep : Step W body (.call c k, w) (k r, W.next w c r) := .call hr
  rw [h.next] at hstep
  exact ⟨r, hstep⟩

/-- The programs are the same up to calls that satisfy `U`, and have values that are related. -/
inductive Prog.Resembles (U : I.Call → Prop) (R : α → β → Prop) : Prog I α → Prog I β → Prop where
  /-- Both are over. -/
  | ret {a : α} {b : β} : R a b → Resembles U R (.ret a) (.ret b)
  /-- Both make the same call. -/
  | call {c : I.Call} {k : I.Res c → Prog I α} {k' : I.Res c → Prog I β} :
      (∀ r, Resembles U R (k r) (k' r)) → Resembles U R (.call c k) (.call c k')
  /-- The first makes a call that the second does not make. -/
  | left {c : I.Call} {k : I.Res c → Prog I α} {q : Prog I β} :
      U c → (∀ r, Resembles U R (k r) q) → Resembles U R (.call c k) q
  /-- The second makes a call that the first does not make. -/
  | right {c : I.Call} {p : Prog I α} {k : I.Res c → Prog I β} :
      U c → (∀ r, Resembles U R p (k r)) → Resembles U R p (.call c k)
  /-- The behaviour of both is undefined. -/
  | fault : Resembles U R .fault .fault

namespace Prog.Resembles

variable {U : I.Call → Prop} {R : α → β → Prop} {R' : α' → β' → Prop} {p : Prog I α} {q : Prog I β}

theorem swap {Q : β → α → Prop} (h : p.Resembles U R q) (hQ : ∀ a b, R a b → Q b a) :
    q.Resembles U Q p := by
  induction h with
  | ret h => exact .ret (hQ _ _ h)
  | call _ ih => exact .call ih
  | left hc _ ih => exact .right hc ih
  | right hc _ ih => exact .left hc ih
  | fault => exact .fault

theorem refl (p : Prog I α) : p.Resembles U Eq p := by
  induction p with
  | ret a => exact .ret rfl
  | call c k ih => exact .call ih
  | fault => exact .fault

/-- Sequences of programs that resemble each other do so too. -/
theorem bind {f : α → Prog I α'} {g : β → Prog I β'} (h : p.Resembles U R q)
    (hf : ∀ a b, R a b → (f a).Resembles U R' (g b)) : (p >>= f).Resembles U R' (q >>= g) := by
  induction h with
  | ret h => exact hf _ _ h
  | call _ ih => exact .call ih
  | left hc _ ih => exact .left hc ih
  | right hc _ ih => exact .right hc ih
  | fault => exact .fault

/-- A program that resembles one that is over can end alike. -/
theorem exists_ret {W : World I S} {body : τ → Prog I (τ ⊕ ρ')} (hU : ∀ c, U c → W.Unheard c)
    {R : α → τ ⊕ ρ' → Prop} {a : α} {q : Prog I (τ ⊕ ρ')} (h : (Prog.ret a).Resembles U R q)
    (w : S) : ∃ b, R a b ∧ Reach W body (q, w) (.ret b, w) := by
  generalize hp : Prog.ret a = p at h
  induction h with
  | ret h =>
    cases hp
    exact ⟨_, h, .refl⟩
  | right hc _ ih =>
    obtain ⟨r, hstep⟩ := (hU _ hc).step _ w
    obtain ⟨b, hb, hreach⟩ := ih r hp
    exact ⟨b, hb, .head hstep hreach⟩
  | call | left | fault => cases hp

end Prog.Resembles

/-- What a round may end with, the other way round. -/
theorem liftRel_swap {R : σ → τ → Prop} {R' : ρ → ρ' → Prop} (x : σ ⊕ ρ) (y : τ ⊕ ρ')
    (h : Sum.LiftRel R R' x y) : Sum.LiftRel (fun t s => R s t) (fun b a => R' a b) y x := by
  cases h with
  | inl h => exact .inl h
  | inr h => exact .inr h

section Runs

variable {W : World I S} {U : I.Call → Prop} {R : σ → τ → Prop} {R' : ρ → ρ' → Prop}
  {body : σ → Prog I (σ ⊕ ρ)} {body' : τ → Prog I (τ ⊕ ρ')}

/-- A step of one loop is some steps of the other. -/
theorem Step.resembles (hU : ∀ c, U c → W.Unheard c)
    (hbody : ∀ s t, R s t → (body s).Resembles U (Sum.LiftRel R R') (body' t))
    {p p' : Prog I (σ ⊕ ρ)} {q : Prog I (τ ⊕ ρ')} {w w' : S} (hs : Step W body (p, w) (p', w'))
    (h : p.Resembles U (Sum.LiftRel R R') q) :
    ∃ q', Reach W body' (q, w) (q', w') ∧ p'.Resembles U (Sum.LiftRel R R') q' := by
  induction h with
  | @ret x y hxy =>
    cases hs
    cases hxy with
    | inl hst => exact ⟨_, .single .again, hbody _ _ hst⟩
  | @call c k k' hk ih =>
    cases hs with
    | call hr => exact ⟨_, .single (.call hr), hk _⟩
  | left hc hk ih =>
    cases hs with
    | call hr =>
      rw [(hU _ hc).next]
      exact ⟨_, .refl, hk _⟩
  | right hc hk ih =>
    obtain ⟨r, hstep⟩ := (hU _ hc).step _ w
    obtain ⟨q', hreach, hq'⟩ := ih r hs
    exact ⟨q', .head hstep hreach, hq'⟩
  | fault => cases hs

/-- **What one loop can do, a loop that resembles it can.** -/
theorem Reach.resembles (hU : ∀ c, U c → W.Unheard c)
    (hbody : ∀ s t, R s t → (body s).Resembles U (Sum.LiftRel R R') (body' t))
    {p p' : Prog I (σ ⊕ ρ)} {q : Prog I (τ ⊕ ρ')} {w w' : S} (h : Reach W body (p, w) (p', w'))
    (hp : p.Resembles U (Sum.LiftRel R R') q) :
    ∃ q', Reach W body' (q, w) (q', w') ∧ p'.Resembles U (Sum.LiftRel R R') q' := by
  generalize ha : (p, w) = a at h
  generalize hb : (p', w') = b at h
  induction h generalizing p' w' with
  | refl =>
    cases ha
    cases hb
    exact ⟨q, .refl, hp⟩
  | @tail c b _ hs ih =>
    cases hb
    obtain ⟨q₁, hreach, h₁⟩ := ih rfl
    obtain ⟨q₂, hsteps, h₂⟩ := hs.resembles hU hbody h₁
    exact ⟨q₂, hreach.trans hsteps, h₂⟩

/-- Loops that resemble each other end alike. -/
theorem Reach.resembles_done (hU : ∀ c, U c → W.Unheard c)
    (hbody : ∀ s t, R s t → (body s).Resembles U (Sum.LiftRel R R') (body' t))
    {p : Prog I (σ ⊕ ρ)} {q : Prog I (τ ⊕ ρ')} {w w' : S} {r : ρ}
    (h : Reach W body (p, w) (.ret (.inr r), w')) (hp : p.Resembles U (Sum.LiftRel R R') q) :
    ∃ r', R' r r' ∧ Reach W body' (q, w) (.ret (.inr r'), w') := by
  obtain ⟨q', hreach, hq'⟩ := h.resembles hU hbody hp
  obtain ⟨b, hb, hrest⟩ := hq'.exists_ret hU w'
  cases hb with
  | inr hr => exact ⟨_, hr, hreach.trans hrest⟩

end Runs

end Interaction
