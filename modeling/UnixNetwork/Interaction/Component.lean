import UnixNetwork.Interaction.Parallel

/-!
# Loops that use a part of the state

A loop that looks at one part of a larger state and changes no other part can be understood from
that part alone: its world, its contract and its runs carry over to the larger state.

## Main definitions

* `Component`: a part of a state, which can be exchanged
* `World.within`, `Contract.within`: a world and a contract over the part, in the larger state

## Main results

* `wpr_within`: what a loop keeps to over its part it keeps to in the larger state
* `Reach.within`: what it can do there it can do here
-/

namespace Interaction

/-- A part of a state, which can be exchanged. -/
structure Component (M P : Type) where
  /-- The part. -/
  get : M → P
  /-- The state with another one in its place. -/
  set : M → P → M
  /-- What has been put in place is there. -/
  get_set : ∀ m p, get (set m p) = p
  /-- Putting the part itself in place changes nothing. -/
  set_get : ∀ m, set m (get m) = m
  /-- Of two parts that are put in place the last one counts. -/
  set_set : ∀ m p q, set (set m p) q = set m q

variable {I : Interface} {M P α σ ρ : Type}

/-- A world in which the calls use a part of the state. -/
def World.within (W : World I P) (L : Component M P) : World I M where
  Allows m := W.Allows (L.get m)
  next m c r := L.set m (W.next (L.get m) c r)

/-- A contract over a part of the state. The rest is left alone. -/
def Contract.within (C : Contract I P) (L : Component M P) : Contract I M where
  Call m := C.Call (L.get m)
  Fault m := C.Fault (L.get m)
  Rely m m' := C.Rely (L.get m) (L.get m')
  Guarantee m m' := ∃ p, C.Guarantee (L.get m) p ∧ m' = L.set m p
  refl m := C.refl (L.get m)
  trans h h' := C.trans h h'

variable {W : World I P} {C : Contract I P} {L : Component M P}

/-- **What a loop keeps to over its part** it keeps to in the larger state. -/
theorem wpr_within {p : Prog I α} {Q : α → P → Prop} {m : M} (h : wpr W C p Q (L.get m)) :
    wpr (W.within L) (C.within L) p (fun a m => Q a (L.get m)) m := by
  induction p generalizing m with
  | ret a => exact fun m' hm => h _ hm
  | call c k ih =>
    refine fun m' hm => ⟨(h _ hm).1, fun r hr => ?_⟩
    obtain ⟨hguar, hk⟩ := (h _ hm).2 r hr
    refine ⟨⟨_, hguar, rfl⟩, ih r ?_⟩
    show wpr W C (k r) Q (L.get (L.set m' (W.next (L.get m') c r)))
    rw [L.get_set]
    exact hk
  | fault => exact fun m' hm => h _ hm

/-- **What a loop can do over its part** it can do in the larger state. -/
theorem Reach.within {body : σ → Prog I (σ ⊕ ρ)} {p q : Prog I (σ ⊕ ρ)} {m : M} {x : P}
    (h : Reach W body (p, L.get m) (q, x)) : Reach (W.within L) body (p, m) (q, L.set m x) := by
  generalize hb : (q, x) = b at h
  induction h generalizing q x with
  | refl =>
    cases hb
    rw [L.set_get]
  | @tail c b _ hs ih =>
    subst hb
    refine (ih (q := c.1) (x := c.2) rfl).tail ?_
    obtain ⟨c₁, c₂⟩ := c
    cases hs with
    | @call c k _ r hr =>
      have hstep : Step (W.within L) body (.call c k, L.set m c₂) _ :=
        .call (r := r) (show W.Allows (L.get (L.set m c₂)) c r from (L.get_set m c₂).symm ▸ hr)
      have hnext : (W.within L).next (L.set m c₂) c r = L.set m (W.next c₂ c r) := by
        show L.set (L.set m c₂) (W.next (L.get (L.set m c₂)) c r) = _
        rw [L.get_set, L.set_set]
      exact hnext ▸ hstep
    | again => exact .again

end Interaction
