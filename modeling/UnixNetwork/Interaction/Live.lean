import UnixNetwork.Interaction.World
import Mathlib.Data.Nat.Notation

/-!
# Loops that come to an end

A guard is *live* in a world if what keeps to it can always go on: every call it lets the program
make can return, and nothing undefined may happen. A round that keeps to a live guard completes, and
a loop whose rounds keep to one while some number gets smaller is left, from wherever it has come.

## Main definitions

* `Guard.Live`: what keeps to the guard can go on
* `Prog.Within`: what the program does next is defined, and a call that it may make
* `Guard.within`: the live guard that lets a program make these calls

## Main results

* `Guard.Live.exists_done`: the loop is left
* `Guard.Live.returns_of_wp`, `Guard.Live.returns`: it is left from every moment of every run
-/

namespace Interaction

variable {I : Interface} {S α σ ρ : Type}

/-- The loop rule, where every round also makes a number smaller. -/
theorem Reach.wp_of_lt {W : World I S} {G : Guard I S} {body : σ → Prog I (σ ⊕ ρ)}
    {Inv : σ → S → Prop} {Done : ρ → S → Prop} {μ : σ → S → ℕ}
    (hbody : ∀ s w, Inv s w →
      Interaction.wp W G (body s) (Sum.elim (fun s' w' => Inv s' w' ∧ μ s' w' < μ s w) Done) w)
    {a b : Prog I (σ ⊕ ρ) × S} (h : Reach W body a b)
    (ha : Interaction.wp W G a.1 (Sum.elim Inv Done) a.2) :
    Interaction.wp W G b.1 (Sum.elim Inv Done) b.2 := by
  refine h.wp (fun s w hs => wp_mono ?_ (hbody s w hs)) ha
  rintro (s' | r) w' hQ
  · exact hQ.1
  · exact hQ

/-- What keeps to the guard can go on. -/
structure Guard.Live (G : Guard I S) (W : World I S) : Prop where
  /-- A call that may be made can return. -/
  call : ∀ w c, G.Call w c → ∃ r, W.Allows w c r
  /-- Nothing undefined may happen. -/
  fault : ∀ w, ¬ G.Fault w

namespace Guard.Live

variable {W : World I S} {G : Guard I S} {body : σ → Prog I (σ ⊕ ρ)}

/-- What keeps to the guard completes. -/
theorem exists_executes (hG : G.Live W) {p : Prog I α} {Q : α → S → Prop} {w : S}
    (h : wp W G p Q w) : ∃ a w', Executes W p w a w' ∧ Q a w' := by
  induction p generalizing w with
  | ret a => exact ⟨a, w, ⟨rfl, rfl⟩, h⟩
  | call c k ih =>
    obtain ⟨r, hr⟩ := hG.call w c h.1
    obtain ⟨a, w', hx, hQ⟩ := ih r (h.2 r hr)
    exact ⟨a, w', ⟨r, hr, hx⟩, hQ⟩
  | fault => exact absurd h (hG.fault w)

variable {Inv : σ → S → Prop} {Done : ρ → S → Prop} {μ : σ → S → ℕ}

/-- **A loop comes to an end** if every round keeps to the guard and makes the number smaller or is
the last one. -/
theorem exists_done (hG : G.Live W)
    (hbody : ∀ s w, Inv s w →
      wp W G (body s) (Sum.elim (fun s' w' => Inv s' w' ∧ μ s' w' < μ s w) Done) w)
    {s : σ} {w : S} (h : Inv s w) :
    ∃ r w', Reach W body (.ret (.inl s), w) (.ret (.inr r), w') ∧ Done r w' := by
  generalize hk : μ s w = k
  induction k using Nat.strongRecOn generalizing s w with
  | _ k ih =>
    obtain ⟨x, w₁, hx, hQ⟩ := hG.exists_executes (hbody s w h)
    have hround : Reach W body (.ret (.inl s), w) (.ret x, w₁) := .head .again hx.reach
    rcases x with s₁ | r
    · obtain ⟨r, w', hrest, hdone⟩ := ih (μ s₁ w₁) (hk ▸ hQ.2) hQ.1 rfl
      exact ⟨r, w', hround.trans hrest, hdone⟩
    · exact ⟨r, w₁, hround, hQ⟩

/-- A loop whose turns bring its end nearer ends from every moment of every run, also of one that
begins in front of it. -/
theorem returns_of_wp (hG : G.Live W)
    (hbody : ∀ s w, Inv s w →
      wp W G (body s) (Sum.elim (fun s' w' => Inv s' w' ∧ μ s' w' < μ s w) Done) w)
    {p₀ p : Prog I (σ ⊕ ρ)} {w₀ w₁ : S} (h₀ : wp W G p₀ (Sum.elim Inv Done) w₀)
    (h : Reach W body (p₀, w₀) (p, w₁)) :
    ∃ r w', Reach W body (p, w₁) (.ret (.inr r), w') ∧ Done r w' := by
  obtain ⟨x, w₂, hx, hQ⟩ := hG.exists_executes (h.wp_of_lt hbody h₀)
  rcases x with s₂ | r
  · obtain ⟨r, w', hrest, hdone⟩ := hG.exists_done hbody hQ
    exact ⟨r, w', hx.reach.trans hrest, hdone⟩
  · exact ⟨r, w₂, hx.reach, hQ⟩

theorem returns (hG : G.Live W)
    (hbody : ∀ s w, Inv s w →
      wp W G (body s) (Sum.elim (fun s' w' => Inv s' w' ∧ μ s' w' < μ s w) Done) w)
    {s : σ} {w : S} (hs : Inv s w) {p : Prog I (σ ⊕ ρ)} {w₁ : S}
    (h : Reach W body (.ret (.inl s), w) (p, w₁)) :
    ∃ r w', Reach W body (p, w₁) (.ret (.inr r), w') := by
  have h₀ : wp W G (.ret (.inl s)) (Sum.elim Inv Done) w := hs
  obtain ⟨r, w', hrest, -⟩ := hG.returns_of_wp hbody h₀ h
  exact ⟨r, w', hrest⟩

end Guard.Live

/-! ## Calls that a program may make -/

variable {P : I.Call → Prop}

/-- What the program does next is defined, and a call that `P` allows. -/
def Prog.Within (P : I.Call → Prop) : Prog I α → Prop
  | ret _ => True
  | call c _ => P c
  | fault => False

/-- What is asked of a program that comes to an end: nothing undefined happens, and it makes only
calls that `P` allows and that return. -/
def Guard.within (W : World I S) (P : I.Call → Prop) : Guard I S :=
  ⟨fun w c => P c ∧ ∃ r, W.Allows w c r, fun _ => False⟩

theorem Guard.live_within (W : World I S) (P : I.Call → Prop) : (Guard.within W P).Live W :=
  ⟨fun _ _ h => h.2, fun _ => id⟩

theorem Prog.within_of_wp {W : World I S} {p : Prog I α} {Q : α → S → Prop} {w : S}
    (h : wp W (Guard.within W P) p Q w) : p.Within P := by
  cases p with
  | ret a => trivial
  | call c k => exact h.1.1
  | fault => exact h

end Interaction
