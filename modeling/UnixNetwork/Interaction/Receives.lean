import UnixNetwork.Interaction.World

/-!
# Receives that fail

Some calls of a program receive data, some put data out. A receive that fails has brought nothing,
and a program *discards* it if it does nothing undefined and puts nothing out before it receives
again or its turn is over.

The surroundings return anything here, and remember everything. So a fact about every moment of a
run is a fact about every sequence of outcomes.

## Main definitions

* `World.history`: surroundings that return anything and remember everything
* `Roles`: which calls receive, which put something out, and which receives have failed
* `Prog.Discards`, `Roles.Unused`: a failed receive is not used as data
* `Roles.uses`: after a failed receive the program does nothing but put something out

## Main results

* `Reach.unused_iff`: a loop that uses failed receives does so whenever one fails
-/

namespace Interaction

variable {I : Interface} {α β σ ρ : Type}

/-- Surroundings that may return anything and remember all calls with their results, the last one
first. -/
def World.history (I : Interface) : World I (List (Event I)) :=
  ⟨fun _ _ _ => True, fun t c r => ⟨c, r⟩ :: t⟩

/-- What a call is for. -/
inductive Role where
  | receive
  | output
  | other
deriving DecidableEq

/-- What the calls of an interface are for, and which receives have failed. -/
structure Roles (I : Interface) where
  /-- What the call is for. -/
  role : I.Call → Role
  /-- The call is a receive that has failed. -/
  Failed : Event I → Prop
  /-- No other call is. -/
  receive : ∀ e, Failed e → role e.1 = .receive

/-- The program does nothing undefined and puts nothing out before it receives again or is over. -/
def Prog.Discards (R : Roles I) : Prog I α → Prop
  | ret _ => True
  | call c k => R.role c = .receive ∨ R.role c ≠ .output ∧ ∀ r, (k r).Discards R
  | fault => False

namespace Roles

variable (R : Roles I)

/-- The last call is a receive that has failed. -/
def HasFailed : List (Event I) → Prop
  | e :: _ => R.Failed e
  | [] => False

/-- No failed receive is used at this moment: if the last call is one, the program discards it. -/
def Unused (p : Prog I α) (t : List (Event I)) : Prop := R.HasFailed t → p.Discards R

/-- What is asked of a program that uses failed receives: it puts something out after them. Its
behaviour may be undefined. -/
def uses : Guard I (List (Event I)) where
  Call t c := R.HasFailed t → R.role c = .output
  Fault _ := True

variable {R} {p : Prog I α} {t : List (Event I)} {Q : α → List (Event I) → Prop} {c : I.Call}
  {k : I.Res c → Prog I α}

theorem not_hasFailed_cons (hc : R.role c ≠ .receive) (r : I.Res c) :
    ¬ R.HasFailed (⟨c, r⟩ :: t) := fun h => hc (R.receive _ h)

/-- A call when no receive has failed. -/
theorem wp_call (ht : ¬ R.HasFailed t)
    (hk : ∀ r, wp (.history I) R.uses (k r) Q (⟨c, r⟩ :: t)) :
    wp (.history I) R.uses (.call c k) Q t :=
  ⟨fun h => absurd h ht, fun r _ => hk r⟩

/-- Something is put out. -/
theorem wp_output (hc : R.role c = .output)
    (hk : ∀ r, ¬ R.HasFailed (⟨c, r⟩ :: t) → wp (.history I) R.uses (k r) Q (⟨c, r⟩ :: t)) :
    wp (.history I) R.uses (.call c k) Q t :=
  ⟨fun _ => hc, fun r _ => hk r (not_hasFailed_cons (by rw [hc]; decide) r)⟩

/-- A call that neither receives nor puts something out, when no receive has failed. -/
theorem wp_other (ht : ¬ R.HasFailed t) (hc : R.role c = .other)
    (hk : ∀ r, ¬ R.HasFailed (⟨c, r⟩ :: t) → wp (.history I) R.uses (k r) Q (⟨c, r⟩ :: t)) :
    wp (.history I) R.uses (.call c k) Q t :=
  wp_call ht fun r => hk r (not_hasFailed_cons (by rw [hc]; decide) r)

/-- A part without calls. -/
theorem wp_silent {q : Prog I β} (hq : q.Silent) {f : β → Prog I α}
    (hf : ∀ a, wp (.history I) R.uses (f a) Q t) :
    wp (.history I) R.uses (q >>= f) Q t := hq.wp_bind trivial hf

/-- A program that uses failed receives does not discard them. -/
theorem unused_iff (hQ : ∀ a t, Q a t → ¬ R.HasFailed t) (h : wp (.history I) R.uses p Q t) :
    R.Unused p t ↔ ¬ R.HasFailed t := by
  constructor
  · intro hun ht
    cases p with
    | ret a => exact hQ a t h ht
    | call c k =>
      have hout := h.1 ht
      rcases hun ht with hreceive | ⟨hne, -⟩
      · cases hout.symm.trans hreceive
      · exact hne hout
    | fault => exact hun ht
  · intro ht hf
    exact absurd hf ht

end Roles

/-- **A loop that uses failed receives** does so whenever one fails, at every moment of every
run. -/
theorem Reach.unused_iff {R : Roles I} {body : σ → Prog I (σ ⊕ ρ)}
    (hbody : ∀ s t, ¬ R.HasFailed t →
      Interaction.wp (.history I) R.uses (body s) (fun _ t => ¬ R.HasFailed t) t)
    {a b : Prog I (σ ⊕ ρ) × List (Event I)} (h : Reach (.history I) body a b)
    (ha : Interaction.wp (.history I) R.uses a.1 (fun _ t => ¬ R.HasFailed t) a.2) :
    R.Unused b.1 b.2 ↔ ¬ R.HasFailed b.2 :=
  Roles.unused_iff (fun _ _ ht => ht) (h.wp_post hbody ha)

end Interaction
