import Mathlib.Data.DFinsupp.WellFounded
import UnixNetwork.Interaction.World

/-!
# Loops that share their surroundings

A *system* is a family of loops, each with an interface and a world of its own, where all worlds
remember the same thing: a state that the loops share. The steps of the loops interleave freely, so
between two calls of one loop the others can do anything to that state.

What one loop is told of the others is a relation, its *rely*: they change the state along it and
not otherwise. What it tells them is its *guarantee*: each of its calls changes the state along
that. If the guarantee of each loop is among the relies of all others, then what is proved of each
loop from its rely holds of the system.

## Main definitions

* `System`, `System.Step`, `System.Reach`: the loops, a step of one of them, and any number of steps
* `Contract`, `wpr`: what a loop asks of the others and tells them, and weakest preconditions that
  stay true while the others take steps
* `System.Fits`: the contracts of the loops fit together
* `System.Stuck`: no loop can take a step

## Main results

* `System.Reach.wpr`: what each loop keeps to it keeps to, at every moment
* `System.acc`: loops each round of which makes a number smaller come to an end, all of them
* `System.exists_stuck`: then the system gets stuck, wherever it has come to
-/

namespace Interaction

/-! ## Contracts -/

/-- What is asked of a loop on its way, and what it is told of the others and tells them. -/
structure Contract (I : Interface) (S : Type) extends Guard I S where
  /-- What the others may do to the state. -/
  Rely : S → S → Prop
  /-- What a call of the loop does to the state. -/
  Guarantee : S → S → Prop
  /-- The others may do nothing. -/
  refl : ∀ w, Rely w w
  /-- The others may do any number of things. -/
  trans : ∀ {w w' w''}, Rely w w' → Rely w' w'' → Rely w w''

section Wpr

variable {I : Interface} {S α β : Type} (W : World I S) (C : Contract I S)

/-- Whatever the world returns and whatever the others do in between, `p` makes only calls that it
may make at that moment, changes the state as it has guaranteed, has undefined behaviour only where
it may, and if it ends then with a value and in a state that satisfy `Q`. -/
def wpr : Prog I α → (α → S → Prop) → S → Prop
  | .ret a, Q, w => ∀ w', C.Rely w w' → Q a w'
  | .call c k, Q, w => ∀ w', C.Rely w w' → C.Call w' c ∧
      ∀ r, W.Allows w' c r → C.Guarantee w' (W.next w' c r) ∧ wpr (k r) Q (W.next w' c r)
  | .fault, _, w => ∀ w', C.Rely w w' → C.Fault w'

variable {W C} {Q Q' : α → S → Prop} {p : Prog I α} {w w' : S}

/-- What holds is not destroyed by the others. -/
theorem wpr_rely (h : wpr W C p Q w) (hw : C.Rely w w') : wpr W C p Q w' := by
  cases p with
  | ret a => exact fun w'' h' => h w'' (C.trans hw h')
  | call c k => exact fun w'' h' => h w'' (C.trans hw h')
  | fault => exact fun w'' h' => h w'' (C.trans hw h')

theorem wpr_mono (hQ : ∀ a w, Q a w → Q' a w) (h : wpr W C p Q w) : wpr W C p Q' w := by
  induction p generalizing w with
  | ret a => exact fun w' hw => hQ a w' (h w' hw)
  | call c k ih =>
    refine fun w' hw => ⟨(h w' hw).1, fun r hr => ?_⟩
    exact ⟨((h w' hw).2 r hr).1, ih r ((h w' hw).2 r hr).2⟩
  | fault => exact h

theorem wpr_bind {f : α → Prog I β} {Q : β → S → Prop}
    (h : wpr W C p (fun a => wpr W C (f a) Q) w) : wpr W C (p >>= f) Q w := by
  induction p generalizing w with
  | ret a => exact h w (C.refl w)
  | call c k ih =>
    refine fun w' hw => ⟨(h w' hw).1, fun r hr => ?_⟩
    exact ⟨((h w' hw).2 r hr).1, ih r ((h w' hw).2 r hr).2⟩
  | fault => exact h

/-- A loop alone does what it does among the others when these do nothing. -/
theorem wp_of_wpr (h : wpr W C p Q w) : wp W C.toGuard p Q w := by
  induction p generalizing w with
  | ret a => exact h w (C.refl w)
  | call c k ih =>
    obtain ⟨hcall, hk⟩ := h w (C.refl w)
    exact ⟨hcall, fun r hr => ih r (hk r hr).2⟩
  | fault => exact h w (C.refl w)

/-- A call, when the others have been taken into account: what holds now, `A`, is not destroyed by
them. -/
theorem wpr_call {A : S → Prop} (hstable : ∀ w w', A w → C.Rely w w' → A w') {c : I.Call}
    {k : I.Res c → Prog I α} (hA : A w) (hcall : ∀ w, A w → C.Call w c)
    (hk : ∀ w r, A w → W.Allows w c r →
      C.Guarantee w (W.next w c r) ∧ wpr W C (k r) Q (W.next w c r)) :
    wpr W C (.call c k) Q w :=
  fun w' hw => ⟨hcall w' (hstable w w' hA hw), fun r hr => hk w' r (hstable w w' hA hw) hr⟩

/-! ### A call for each element of a list -/

/-- These calls are made, one after the other. -/
def Prog.callEach (f : α → I.Call) : List α → Prog I Unit
  | [] => .ret ()
  | a :: l => .call (f a) fun _ => callEach f l

/-- What holds when the calls for `l` are to come holds, when they have been made, for `[]`. -/
theorem wpr_callEach {f : α → I.Call} {A : List α → S → Prop}
    (hstable : ∀ l w w', A l w → C.Rely w w' → A l w')
    (hcall : ∀ a l w, A (a :: l) w → C.Call w (f a))
    (hnext : ∀ a l w r, A (a :: l) w → W.Allows w (f a) r →
      C.Guarantee w (W.next w (f a) r) ∧ A l (W.next w (f a) r))
    {l : List α} (h : A l w) : wpr W C (Prog.callEach f l) (fun _ => A []) w := by
  induction l generalizing w with
  | nil => exact fun w' hw => hstable [] w w' h hw
  | cons a l ih =>
    refine wpr_call (A := A (a :: l)) (hstable _) h (fun w hw => hcall a l w hw) ?_
    intro w r hw hr
    obtain ⟨hguar, hA⟩ := hnext a l w r hw hr
    exact ⟨hguar, ih hA⟩

end Wpr

/-! ## Systems -/

/-- A family of loops that share a state. -/
structure System (ι M : Type) where
  /-- The calls of each loop. -/
  I : ι → Interface
  /-- What lives from one turn of each loop to the next. -/
  σ : ι → Type
  /-- What each loop ends with. -/
  ρ : ι → Type
  /-- What the calls of each loop may return, and what they do to the shared state. -/
  world : ∀ i, World (I i) M
  /-- The body of each loop. -/
  body : ∀ i, σ i → Prog (I i) (σ i ⊕ ρ i)

namespace System

variable {ι M : Type}

/-- What is left of the current round of each loop, and the state they share. -/
abbrev State (Y : System ι M) : Type := (∀ i, Prog (Y.I i) (Y.σ i ⊕ Y.ρ i)) × M

section Steps

variable [DecidableEq ι] (Y : System ι M)

/-- One step of one loop. -/
inductive Step : Y.State → Y.State → Prop where
  /-- Loop `i` takes a step. -/
  | of {i : ι} {p : ∀ i, Prog (Y.I i) (Y.σ i ⊕ Y.ρ i)} {m m' : M}
      {q : Prog (Y.I i) (Y.σ i ⊕ Y.ρ i)} :
      Interaction.Step (Y.world i) (Y.body i) (p i, m) (q, m') →
      Step (p, m) (Function.update p i q, m')

/-- `b` is reached from `a`. -/
abbrev Reach : Y.State → Y.State → Prop := Relation.ReflTransGen Y.Step

/-- No loop can take a step. -/
def Stuck (a : Y.State) : Prop := ∀ b, ¬ Y.Step a b

end Steps

variable {Y : System ι M}

/-! ## The rule of systems -/

/-- The contracts of the loops fit together: what a loop does, all others have been told. -/
def Fits (C : ∀ i, Contract (Y.I i) M) : Prop :=
  ∀ i j, j ≠ i → ∀ m m', (C i).Guarantee m m' → (C j).Rely m m'

variable {C : ∀ i, Contract (Y.I i) M} {Q : ∀ i, Y.σ i ⊕ Y.ρ i → M → Prop}

variable (Y C Q) in
/-- Each loop keeps to its contract. -/
def Kept (a : Y.State) : Prop := ∀ i, Interaction.wpr (Y.world i) (C i) (a.1 i) (Q i) a.2

variable [DecidableEq ι]

/-- A step of one loop, when all keep to their contracts. What that loop is to end with may
change. -/
theorem Kept.update (hC : Fits C) {p : ∀ i, Prog (Y.I i) (Y.σ i ⊕ Y.ρ i)} {m m' : M}
    (h : Y.Kept C Q (p, m)) {Q' : ∀ i, Y.σ i ⊕ Y.ρ i → M → Prop} {i : ι}
    (hQ : ∀ j, j ≠ i → Q' j = Q j) {q : Prog (Y.I i) (Y.σ i ⊕ Y.ρ i)}
    (hm : m' = m ∨ (C i).Guarantee m m')
    (hq : Interaction.wpr (Y.world i) (C i) q (Q' i) m') :
    Y.Kept C Q' (Function.update p i q, m') := by
  intro j
  by_cases hj : j = i
  · subst hj
    simpa using hq
  · have hp : Function.update p i q j = p j := Function.update_of_ne hj q p
    show Interaction.wpr _ _ (Function.update p i q j) _ _
    rw [hp, hQ j hj]
    rcases hm with rfl | hm
    · exact h j
    · exact wpr_rely (h j) (hC i j hj m m' hm)

theorem Step.kept (hC : Fits C)
    (hbody : ∀ i s m, Q i (.inl s) m → Interaction.wpr (Y.world i) (C i) (Y.body i s) (Q i) m)
    {a b : Y.State} (hs : Y.Step a b) (h : Y.Kept C Q a) : Y.Kept C Q b := by
  cases hs with
  | @of i p m m' q hs =>
    have hi : Interaction.wpr _ _ (p i) _ m := h i
    generalize p i = x at hs hi
    cases hs with
    | call hr =>
      obtain ⟨hguar, hk⟩ := (hi m ((C i).refl m)).2 _ hr
      exact h.update hC (fun _ _ => rfl) (.inr hguar) hk
    | again => exact h.update hC (fun _ _ => rfl) (.inl rfl) (hbody i _ m (hi m ((C i).refl m)))

/-- **The rule of systems.** If the contracts fit together and every round that begins as rounds end
keeps to its contract, then each loop keeps to its contract, at every moment. -/
theorem Reach.wpr (hC : Fits C)
    (hbody : ∀ i s m, Q i (.inl s) m → Interaction.wpr (Y.world i) (C i) (Y.body i s) (Q i) m)
    {a b : Y.State} (h : Y.Reach a b) (ha : Y.Kept C Q a) : Y.Kept C Q b := by
  induction h with
  | refl => exact ha
  | tail _ hs ih => exact hs.kept hC hbody ih

/-- A step of a system is a step of this loop, or this loop waits and has been told of it. -/
theorem Step.own_or_rely (hC : Fits C) {a b : Y.State} (hs : Y.Step a b) (h : Y.Kept C Q a)
    (i : ι) : Interaction.Step (Y.world i) (Y.body i) (a.1 i, a.2) (b.1 i, b.2) ∨
      b.1 i = a.1 i ∧ (C i).Rely a.2 b.2 := by
  cases hs with
  | @of j p m m' q hs =>
    by_cases hj : j = i
    · subst hj
      refine .inl ?_
      dsimp only
      rw [Function.update_self]
      exact hs
    · refine .inr ⟨Function.update_of_ne (Ne.symm hj) q p, ?_⟩
      have hp : Interaction.wpr _ _ (p j) _ m := h j
      generalize p j = x at hs hp
      cases hs with
      | call hr => exact hC j i (Ne.symm hj) _ _ ((hp m ((C j).refl m)).2 _ hr).1
      | again => exact (C i).refl m

omit [DecidableEq ι] in
/-- Each loop alone keeps to its contract. -/
theorem Kept.wp {a : Y.State} (h : Y.Kept C Q a) (i : ι) :
    Interaction.wp (Y.world i) (C i).toGuard (a.1 i) (Q i) a.2 := wp_of_wpr (h i)

/-- Where a system is stuck each loop is over, or waits for the result of a call. -/
theorem Stuck.waits {a : Y.State} (hstuck : Y.Stuck a) (h : Y.Kept C Q a) {i : ι}
    (hfault : ∀ m, ¬ (C i).Fault m) :
    (∃ r, a.1 i = .ret (.inr r) ∧ Q i (.inr r) a.2) ∨
      ∃ c k, a.1 i = .call c k ∧ (C i).Call a.2 c ∧ ∀ r, ¬ (Y.world i).Allows a.2 c r := by
  have hi := h.wp i
  have hstep : ∀ b, ¬ Interaction.Step (Y.world i) (Y.body i) (a.1 i, a.2) b :=
    fun b hs => hstuck _ (.of hs)
  generalize a.1 i = p at hi hstep
  match p with
  | .ret (.inl s) => exact absurd .again (hstep _)
  | .ret (.inr r) => exact .inl ⟨r, rfl, hi⟩
  | .call c k => exact .inr ⟨c, k, rfl, hi.1, fun r hr => hstep _ (.call hr)⟩
  | .fault => exact absurd hi (hfault a.2)

/-! ## Systems that come to an end -/

/-- What is left of a round after one of its calls has returned. -/
def Rest {I : Interface} {α : Type} (q p : Prog I α) : Prop := ∃ c k r, p = .call c k ∧ q = k r

theorem wellFounded_rest {I : Interface} {α : Type} :
    WellFounded (Rest : Prog I α → Prog I α → Prop) := by
  refine ⟨fun p => ?_⟩
  induction p with
  | ret a =>
    refine ⟨_, ?_⟩
    rintro q ⟨c, k, r, h, -⟩
    cases h
  | call c k ih =>
    refine ⟨_, ?_⟩
    rintro q ⟨c, k, r, h, rfl⟩
    cases h
    exact ih r
  | fault =>
    refine ⟨_, ?_⟩
    rintro q ⟨c, k, r, h, -⟩
    cases h

section Ends

variable {Inv : ∀ i, Y.σ i → M → Prop} {Done : ∀ i, Y.ρ i → M → Prop} {μ : ι → M → ℕ}

/-- What a loop is asked to end its rounds with: the number is below `n`. -/
def Below (Inv : ∀ i, Y.σ i → M → Prop) (Done : ∀ i, Y.ρ i → M → Prop) (μ : ι → M → ℕ)
    (n : ι → WithTop ℕ) (i : ι) : Y.σ i ⊕ Y.ρ i → M → Prop :=
  Sum.elim (fun s m => Inv i s m ∧ WithTop.some (μ i m) < n i) (Done i)

/-- Less is left to do: of one loop there are fewer rounds to come, or there is less of its current
round, and of the others as much as before. -/
def Less (a b : ∀ i, WithTop ℕ × Prog (Y.I i) (Y.σ i ⊕ Y.ρ i)) : Prop :=
  ∃ i x, Prod.Lex (· < ·) Rest x (b i) ∧ a = Function.update b i x

theorem wellFounded_less [Finite ι] : WellFounded (Less (Y := Y)) := by
  have hlex : ∀ i, WellFounded
      (Prod.Lex (· < ·) Rest : _ → WithTop ℕ × Prog (Y.I i) (Y.σ i ⊕ Y.ρ i) → Prop) :=
    fun i => WellFounded.prod_lex wellFounded_lt wellFounded_rest
  refine Subrelation.wf ?_ (Pi.Lex.wellFounded (WellOrderingRel (α := ι)) hlex)
  rintro a b ⟨i, x, hx, rfl⟩
  have hne : ∀ j, WellOrderingRel j i → j ≠ i := by
    rintro j hj rfl
    exact irrefl_of WellOrderingRel j hj
  exact ⟨i, fun j hj => Function.update_of_ne (hne j hj) x b,
    (Function.update_self i x b).symm ▸ hx⟩

/-- Where a loop has less left to do, the others have as much as before. -/
theorem less_update {n : ι → WithTop ℕ} {p : ∀ i, Prog (Y.I i) (Y.σ i ⊕ Y.ρ i)} {i : ι}
    {k : WithTop ℕ} {q : Prog (Y.I i) (Y.σ i ⊕ Y.ρ i)}
    (h : k < n i ∨ k = n i ∧ Rest q (p i)) :
    Less (fun j => (Function.update n i k j, Function.update p i q j)) fun j => (n j, p j) := by
  refine ⟨i, (k, q), ?_, funext fun j => ?_⟩
  · rcases h with h | ⟨rfl, h⟩
    · exact .left _ _ h
    · exact .right _ h
  · by_cases hj : j = i
    · subst hj
      simp
    · simp [hj]

theorem acc_of_below [Finite ι] (hC : Fits C)
    (hbody : ∀ i s m, Inv i s m → Interaction.wpr (Y.world i) (C i) (Y.body i s)
      (Sum.elim (fun s' m' => Inv i s' m' ∧ μ i m' < μ i m) (Done i)) m)
    {n : ι → WithTop ℕ} {a : Y.State} (ha : Y.Kept C (Below Inv Done μ n) a) :
    Acc (fun b a => Y.Step a b) a := by
  -- the numbers of the loops when their current rounds began, and what is left of these
  generalize hx : (fun i => (n i, a.1 i)) = x
  revert n a
  refine wellFounded_less.induction (C := fun x => ∀ {n : ι → WithTop ℕ} {a : Y.State},
    Y.Kept C (Below Inv Done μ n) a → (fun i => (n i, a.1 i)) = x →
      Acc (fun b a => Y.Step a b) a) x ?_
  rintro x ih n ⟨p, m⟩ ha rfl
  refine ⟨_, fun b hs => ?_⟩
  cases hs with
  | @of i _ _ m' q hs =>
    have hi : Interaction.wpr _ _ (p i) (Below Inv Done μ n i) m := ha i
    generalize hy : p i = y at hs hi
    cases hs with
    | @call c k w r hr =>
      obtain ⟨hguar, hk⟩ := (hi m ((C i).refl m)).2 _ hr
      refine ih _ (less_update (k := n i) (.inr ⟨rfl, c, k, r, hy, rfl⟩)) ?_ rfl
      rw [Function.update_eq_self]
      exact ha.update hC (fun _ _ => rfl) (.inr hguar) hk
    | @again s w =>
      obtain ⟨hinv, hlt⟩ := hi m ((C i).refl m)
      refine ih _ (less_update (k := WithTop.some (μ i m)) (.inl hlt)) ?_ rfl
      refine ha.update hC (fun j hj => ?_) (.inl rfl) (wpr_mono ?_ (hbody i s m hinv))
      · rw [Below, Function.update_of_ne hj, Below]
      · rintro (s' | r) w hQ
        · refine ⟨hQ.1, ?_⟩
          rw [Function.update_self]
          exact WithTop.coe_lt_coe.mpr hQ.2
        · exact hQ

variable (Inv Done μ) in
/-- **A system comes to an end** if every round of every loop makes a number of that loop
smaller. -/
theorem acc [Finite ι] (hC : Fits C)
    (hbody : ∀ i s m, Inv i s m → Interaction.wpr (Y.world i) (C i) (Y.body i s)
      (Sum.elim (fun s' m' => Inv i s' m' ∧ μ i m' < μ i m) (Done i)) m)
    {a : Y.State} (ha : Y.Kept C (fun i => Sum.elim (Inv i) (Done i)) a) :
    Acc (fun b a => Y.Step a b) a := by
  refine acc_of_below (n := fun _ => ⊤) hC hbody fun i => wpr_mono ?_ (ha i)
  rintro (s | r) m hQ
  · exact ⟨hQ, WithTop.coe_lt_top _⟩
  · exact hQ

variable (Inv Done μ) in
/-- The rule of systems, where every round also makes a number smaller. -/
theorem Reach.wpr_of_lt (hC : Fits C)
    (hbody : ∀ i s m, Inv i s m → Interaction.wpr (Y.world i) (C i) (Y.body i s)
      (Sum.elim (fun s' m' => Inv i s' m' ∧ μ i m' < μ i m) (Done i)) m)
    {a b : Y.State} (h : Y.Reach a b) (ha : Y.Kept C (fun i => Sum.elim (Inv i) (Done i)) a) :
    Y.Kept C (fun i => Sum.elim (Inv i) (Done i)) b := by
  refine h.wpr hC (fun i s m hs => wpr_mono ?_ (hbody i s m hs)) ha
  rintro (s' | r) m' hQ
  · exact hQ.1
  · exact hQ

end Ends

/-- What comes to an end does so wherever it has come to. -/
theorem Reach.acc {a b : Y.State} (h : Y.Reach a b) (ha : Acc (fun b a => Y.Step a b) a) :
    Acc (fun b a => Y.Step a b) b := by
  induction h with
  | refl => exact ha
  | tail _ hs ih => exact ih.inv hs

/-- A system in which no run goes on for ever gets stuck. -/
theorem exists_stuck {a : Y.State} (ha : Acc (fun b a => Y.Step a b) a) :
    ∃ b, Y.Reach a b ∧ Y.Stuck b := by
  induction ha with
  | intro a _ ih =>
    by_cases h : Y.Stuck a
    · exact ⟨a, .refl, h⟩
    · simp only [Stuck, not_forall, not_not] at h
      obtain ⟨b, hs⟩ := h
      obtain ⟨c, hc, hstuck⟩ := ih b hs
      exact ⟨c, .head hs hc, hstuck⟩

/-! ## One loop of a system -/

/-- One loop runs, and the others wait. -/
theorem exists_reach {i : ι} {a : Y.State} {x y : Prog (Y.I i) (Y.σ i ⊕ Y.ρ i)} {m : M}
    (hx : a.1 i = x) (h : Interaction.Reach (Y.world i) (Y.body i) (x, a.2) (y, m)) :
    ∃ b : Y.State, Y.Reach a b ∧ b.1 i = y ∧ (∀ j, j ≠ i → b.1 j = a.1 j) ∧ b.2 = m := by
  subst hx
  generalize hb : (y, m) = b at h
  induction h generalizing y m with
  | refl =>
    cases hb
    exact ⟨a, .refl, rfl, fun _ _ => rfl, rfl⟩
  | @tail c d _ hs ih =>
    subst hb
    obtain ⟨⟨p, m'⟩, hreach, hi, hothers, rfl⟩ := ih (y := c.1) (m := c.2) rfl
    have hi : p i = c.1 := hi
    have hstep : Y.Step (p, c.2) (Function.update p i y, m) := .of (by rw [hi]; exact hs)
    refine ⟨_, hreach.tail hstep, Function.update_self .., fun j hj => ?_, rfl⟩
    exact (Function.update_of_ne hj y p).trans (hothers j hj)

end System

end Interaction
