import Mathlib.Logic.Function.Basic
import UnixNetwork.Interaction.World

/-!
# Programs whose calls can make a second process

A *pool* is a number of processes that run the same program, each with a state of its own. Most
calls are the business of the process that makes them, and for these each process has a world. A
call that forks leaves two processes behind: both continue the same program from the same state, and
only the result of the call tells them apart.

The steps of the processes interleave freely. A process that has ended for good leaves its number to
whoever is made next, so a number can stand for several processes, one after the other.

## Main definitions

* `ForkWorld`, `ForkWorld.Step`, `ForkWorld.Reach`: one call of one process, and any number of them
* `ForkWorld.Vacant`: the number is free
* `ForkWorld.wp`: whichever process comes out of the program, it ends well
* `ForkWorld.HandsOver`: a process that has forked is over

## Main results

* `ForkWorld.Reach.wp`: what holds of the first process holds of every process, at every moment
* `ForkWorld.Reach.lone`: processes that are over once they have forked leave at most one behind
* `ForkWorld.wp_of_only`, `Executes.pool`: a program that does not fork is a program in a world
-/

namespace Interaction

variable {I : Interface} {S N α : Type}

/-- Surroundings of processes with numbers `N`. -/
structure ForkWorld (I : Interface) (S N : Type) where
  /-- What the calls of a process do as long as it stays one process. -/
  world : N → World I S
  /-- The calls that can fork: what they return in the new process, and what they return in the old
  one if the new one has this number. -/
  fork : (c : I.Call) → Option (I.Res c × (N → I.Res c))

/-- The processes: what is left of the program of each, and its state. -/
abbrev Pool (I : Interface) (S N α : Type) : Type := N → Option (Prog I α × S)

namespace ForkWorld

/-! ## Runs of a pool -/

/-- Nobody has this number, or somebody who is gone. -/
def Vacant (Gone : α → Prop) : Option (Prog I α × S) → Prop
  | none => True
  | some (.ret a, _) => Gone a
  | some _ => False

section Runs

variable [DecidableEq N] (F : ForkWorld I S N) (Gone : α → Prop)

/-- One step of a pool. -/
inductive Step : Pool I S N α → Pool I S N α → Prop where
  /-- The pending call of a process returns. -/
  | call {π : Pool I S N α} {p : N} {c : I.Call} {k : I.Res c → Prog I α} {w : S} {r : I.Res c} :
      π p = some (.call c k, w) → (F.world p).Allows w c r →
      Step π (Function.update π p (some (k r, (F.world p).next w c r)))
  /-- The pending call of a process returns twice. -/
  | fork {π : Pool I S N α} {p q : N} {c : I.Call} {k : I.Res c → Prog I α} {w : S}
      {child : I.Res c} {parent : N → I.Res c} :
      π p = some (.call c k, w) → F.fork c = some (child, parent) → Vacant Gone (π q) →
      Step π (Function.update
        (Function.update π p (some (k (parent q), (F.world p).next w c (parent q))))
        q (some (k child, (F.world q).next w c child)))

/-- `ρ` is reached from `π`. -/
abbrev Reach : Pool I S N α → Pool I S N α → Prop := Relation.ReflTransGen (F.Step Gone)

end Runs

/-- One process. -/
def single [DecidableEq N] (p : N) (x : Prog I α × S) : Pool I S N α :=
  Function.update (fun _ => none) p (some x)

section Single

variable [DecidableEq N] {p : N} {x : Prog I α × S}

@[simp] theorem single_self : single p x p = some x := Function.update_self ..

theorem single_of_ne {q : N} (hq : q ≠ p) : single p x q = none := Function.update_of_ne hq ..

end Single

variable {F : ForkWorld I S N} {Gone : α → Prop}

/-- A process that forks keeps its number. -/
theorem ne_of_vacant {π : Pool I S N α} {p q : N} {c : I.Call} {k : I.Res c → Prog I α} {w : S}
    (hp : π p = some (.call c k, w)) (hq : Vacant Gone (π q)) : q ≠ p := by
  rintro rfl
  rw [hp] at hq
  exact hq

/-! ## Weakest preconditions -/

section Wp

variable (F : ForkWorld I S N) (Q : N → α → S → Prop)

/-- Whatever its calls return, and into whichever process a fork takes it, `x` has no undefined
behaviour, and if it ends then with a value and in a state that satisfy `Q` for its number. -/
def wp : Prog I α → N → S → Prop
  | .ret a, p, w => Q p a w
  | .call c k, p, w =>
      (∀ r, (F.world p).Allows w c r → wp (k r) p ((F.world p).next w c r)) ∧
        ∀ child parent, F.fork c = some (child, parent) → ∀ q, q ≠ p →
          wp (k (parent q)) p ((F.world p).next w c (parent q)) ∧
            wp (k child) q ((F.world q).next w c child)
  | .fault, _, _ => False

end Wp

variable {Q : N → α → S → Prop}

@[simp] theorem wp_ret {a : α} {p : N} {w : S} : F.wp Q (.ret a) p w ↔ Q p a w := Iff.rfl

/-- A call that can fork. -/
theorem wp_fork {c : I.Call} {child : I.Res c} {parent : N → I.Res c}
    (hc : F.fork c = some (child, parent)) {k : I.Res c → Prog I α} {p : N} {w : S} :
    F.wp Q (.call c k) p w ↔
      (∀ r, (F.world p).Allows w c r → F.wp Q (k r) p ((F.world p).next w c r)) ∧
        ∀ q, q ≠ p → F.wp Q (k (parent q)) p ((F.world p).next w c (parent q)) ∧
          F.wp Q (k child) q ((F.world q).next w c child) := by
  refine and_congr_right fun _ => ?_
  constructor
  · exact fun h q hq => h child parent hc q hq
  · intro h child' parent' hc' q hq
    cases hc.symm.trans hc'
    exact h q hq

/-- A call that cannot fork. -/
theorem wp_call {c : I.Call} (hc : F.fork c = none) {k : I.Res c → Prog I α} {p : N} {w : S} :
    F.wp Q (.call c k) p w ↔
      ∀ r, (F.world p).Allows w c r → F.wp Q (k r) p ((F.world p).next w c r) := by
  refine and_iff_left fun child parent hc' => ?_
  cases hc.symm.trans hc'

/-- A program that does not fork is a program in the world of its process. -/
theorem wp_of_only {x : Prog I α} (hx : x.Only fun c => F.fork c = none) {p : N} {w : S}
    (h : Interaction.wp (F.world p) .defined x (Q p) w) : F.wp Q x p w := by
  induction x generalizing w with
  | ret a => exact h
  | call c k ih => exact (wp_call hx.1).mpr fun r hr => ih r (hx.2 r) (h.2 r hr)
  | fault => exact h

/-- Every process of the pool ends well, if it ends. -/
def Kept (F : ForkWorld I S N) (Q : N → α → S → Prop) (π : Pool I S N α) : Prop :=
  ∀ p x w, π p = some (x, w) → F.wp Q x p w

section Runs

variable [DecidableEq N]

theorem kept_update {π : Pool I S N α} (h : F.Kept Q π) {p : N} {x : Prog I α} {w : S}
    (hx : F.wp Q x p w) : F.Kept Q (Function.update π p (some (x, w))) := by
  intro q y v hq
  by_cases hqp : q = p
  · subst hqp
    rw [Function.update_self] at hq
    cases hq
    exact hx
  · rw [Function.update_of_ne hqp] at hq
    exact h q y v hq

theorem Step.kept {π ρ : Pool I S N α} (hs : F.Step Gone π ρ) (h : F.Kept Q π) : F.Kept Q ρ := by
  cases hs with
  | call hp hr => exact kept_update h ((h _ _ _ hp).1 _ hr)
  | fork hp hc hq =>
    obtain ⟨hparent, hchild⟩ := (h _ _ _ hp).2 _ _ hc _ (ne_of_vacant hp hq)
    exact kept_update (kept_update h hparent) hchild

theorem Reach.kept {π ρ : Pool I S N α} (h : F.Reach Gone π ρ) (hπ : F.Kept Q π) :
    F.Kept Q ρ := by
  induction h with
  | refl => exact hπ
  | tail _ hs ih => exact hs.kept ih

/-- **The rule of pools.** What the program of the first process keeps to, every process keeps to,
at every moment. -/
theorem Reach.wp {p q : N} {x y : Prog I α} {w v : S} {π : Pool I S N α}
    (h : F.Reach Gone (single p (x, w)) π) (hx : F.wp Q x p w) (hq : π q = some (y, v)) :
    F.wp Q y q v := by
  have hstart : F.Kept Q (single p (x, w)) := kept_update (fun _ _ _ h => by cases h) hx
  exact h.kept hstart q y v hq

end Runs

/-! ## One process at a time -/

/-- A process that has forked is over, and is gone. -/
def HandsOver (F : ForkWorld I S N) (Gone : α → Prop) : Prog I α → Prop
  | .call c k => (∀ child parent, F.fork c = some (child, parent) →
      ∀ q, ∃ a, k (parent q) = .ret a ∧ Gone a) ∧ ∀ r, HandsOver F Gone (k r)
  | _ => True

theorem handsOver_of_only {x : Prog I α} (hx : x.Only fun c => F.fork c = none) :
    F.HandsOver Gone x := by
  induction x with
  | ret a => trivial
  | call c k ih =>
    refine ⟨fun child parent hc => ?_, fun r => ih r (hx.2 r)⟩
    cases hc.symm.trans hx.1
  | fault => trivial

/-- All processes but one are gone, and that one will be gone once it has forked. -/
structure Lone (F : ForkWorld I S N) (Gone : α → Prop) (π : Pool I S N α) : Prop where
  /-- Nobody else is there. -/
  unique : ∀ p q, ¬ Vacant Gone (π p) → ¬ Vacant Gone (π q) → p = q
  /-- Whoever is there hands over when it forks. -/
  hands : ∀ p x w, π p = some (x, w) → F.HandsOver Gone x

/-- A process that makes a call is the only one. -/
theorem Lone.vacant {π : Pool I S N α} (h : F.Lone Gone π) {p q : N} {c : I.Call}
    {k : I.Res c → Prog I α} {w : S} (hp : π p = some (.call c k, w)) (hq : q ≠ p) :
    Vacant Gone (π q) := by
  by_contra hvacant
  refine hq (h.unique q p hvacant ?_)
  rw [hp]
  exact id

section Runs

variable [DecidableEq N]

/-- The only process can become any process that hands over. -/
theorem lone_update {π : Pool I S N α} {p : N} {x : Prog I α} {w : S}
    (hothers : ∀ q, q ≠ p → Vacant Gone (π q))
    (hhands : ∀ q y v, π q = some (y, v) → F.HandsOver Gone y) (hx : F.HandsOver Gone x) :
    F.Lone Gone (Function.update π p (some (x, w))) where
  unique := by
    have hp : ∀ q, ¬ Vacant Gone (Function.update π p (some (x, w)) q) → q = p := by
      intro q hq
      by_contra hqp
      rw [Function.update_of_ne hqp] at hq
      exact hq (hothers q hqp)
    intro q q' hq hq'
    rw [hp q hq, hp q' hq']
  hands q y v hq := by
    by_cases hqp : q = p
    · subst hqp
      rw [Function.update_self] at hq
      cases hq
      exact hx
    · rw [Function.update_of_ne hqp] at hq
      exact hhands q y v hq

theorem Step.lone {π ρ : Pool I S N α} (hs : F.Step Gone π ρ) (h : F.Lone Gone π) :
    F.Lone Gone ρ := by
  cases hs with
  | call hp _ => exact lone_update (fun _ => h.vacant hp) h.hands ((h.hands _ _ _ hp).2 _)
  | @fork p q c k w child parent hp hc _ =>
    have hhands := h.hands p _ w hp
    obtain ⟨a, ha, hgone⟩ := hhands.1 child parent hc q
    refine lone_update ?_ ?_ (hhands.2 child)
    · intro q' _
      by_cases hqp : q' = p
      · rw [hqp, Function.update_self, ha]
        exact hgone
      · rw [Function.update_of_ne hqp]
        exact h.vacant hp hqp
    · exact (lone_update (fun _ => h.vacant hp) h.hands (hhands.2 (parent q))).hands

/-- **At most one is left.** If every process is gone once it has forked, then at every moment all
processes but one are gone. -/
theorem Reach.lone {p : N} {x : Prog I α} {w : S} {π : Pool I S N α}
    (h : F.Reach Gone (single p (x, w)) π) (hx : F.HandsOver Gone x) : F.Lone Gone π := by
  have hstart : F.Lone Gone (single p (x, w)) :=
    lone_update (fun _ _ => trivial) (fun _ _ _ h => by cases h) hx
  induction h with
  | refl => exact hstart
  | tail _ hs ih => exact hs.lone ih

end Runs

end ForkWorld

/-- A process can complete what its program can complete in its world. -/
theorem Executes.pool [DecidableEq N] {F : ForkWorld I S N} {Gone : α → Prop} {π : Pool I S N α}
    {p : N} {x : Prog I α} {a : α} {w w' : S} (h : Executes (F.world p) x w a w')
    (hp : π p = some (x, w)) : F.Reach Gone π (Function.update π p (some (.ret a, w'))) := by
  have hstep : ∀ (c : I.Call) (k : I.Res c → Prog I α) (v : S) (r : I.Res c),
      (F.world p).Allows v c r → F.Step Gone (Function.update π p (some (.call c k, v)))
        (Function.update π p (some (k r, (F.world p).next v c r))) := by
    intro c k v r hr
    have hs : F.Step Gone (Function.update π p (some (.call c k, v))) _ :=
      .call (Function.update_self ..) hr
    rwa [Function.update_idem] at hs
  have hrun := h.simulate (fun y => Function.update π p (some y)) hstep
  rwa [← hp, Function.update_eq_self] at hrun

end Interaction
