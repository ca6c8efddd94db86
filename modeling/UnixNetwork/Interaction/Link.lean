import UnixNetwork.Interaction.World

/-!
# Linking

A program is linked with the functions it calls: each call is replaced by the program of the
function (`Prog.interp`). What is known of the program from what its calls are said to do then holds
of the linked program, if each function does what the calls of it are said to do.

The two levels may remember different things of their surroundings. A relation says which states of
the one belong to which states of the other.

## Main definitions

* `Implements`: the functions do what the calls are said to do

## Main results

* `Implements.wp`: a linked program
* `Implements.reach`: a linked loop, at every moment
-/

namespace Interaction

variable {I J : Interface} {S T : Type}

/-- The functions `h` do what the calls of `I` are said to do in the world `W`, where they may be
made. -/
structure Implements (W : World I S) (G : Guard I S) (W' : World J T) (G' : Guard J T)
    (R : S → T → Prop) (h : (c : I.Call) → Prog J (I.Res c)) : Prop where
  /-- A function returns what its call may return, and the states belong together again. -/
  call : ∀ s t c, R s t → G.Call s c →
    Interaction.wp W' G' (h c) (fun r t' => W.Allows s c r ∧ R (W.next s c r) t') t
  /-- Where the behaviour may be undefined at the one level it may be so at the other. -/
  fault : ∀ s t, R s t → G.Fault s → G'.Fault t

namespace Implements

variable {W : World I S} {G : Guard I S} {W' : World J T} {G' : Guard J T} {R : S → T → Prop}
  {h : (c : I.Call) → Prog J (I.Res c)} {α σ ρ : Type}

/-- **A linked program** ends with what the program ends with. -/
theorem wp (hh : Implements W G W' G' R h) {p : Prog I α} {Q : α → S → Prop} {s : S} {t : T}
    (hR : R s t) (hp : Interaction.wp W G p Q s) :
    Interaction.wp W' G' (p.interp h) (fun a t' => ∃ s', R s' t' ∧ Q a s') t := by
  induction p generalizing s t with
  | ret a => exact ⟨s, hR, hp⟩
  | call c k ih =>
    obtain ⟨hcall, hk⟩ := hp
    rw [Prog.interp_call, wp_bind]
    refine wp_mono ?_ (hh.call s t c hR hcall)
    rintro r t' ⟨hr, hR'⟩
    exact ih r hR' (hk r hr)
  | fault => exact hh.fault s t hR hp

/-- **A linked loop** keeps to what the loop keeps to, at every moment. -/
theorem reach (hh : Implements W G W' G' R h) {body : σ → Prog I (σ ⊕ ρ)}
    {Q : σ ⊕ ρ → S → Prop} (hbody : ∀ x s, Q (.inl x) s → Interaction.wp W G (body x) Q s)
    {p : Prog I (σ ⊕ ρ)} {s : S} {t : T} (hR : R s t) (hp : Interaction.wp W G p Q s)
    {b : Prog J (σ ⊕ ρ) × T}
    (hb : Reach W' (fun x => (body x).interp h) (p.interp h, t) b) :
    Interaction.wp W' G' b.1 (fun a t' => ∃ s', R s' t' ∧ Q a s') b.2 := by
  refine hb.wp_post ?_ (hh.wp hR hp)
  rintro x t' ⟨s', hR', hQ⟩
  exact hh.wp hR' (hbody x s' hQ)

end Implements

end Interaction
