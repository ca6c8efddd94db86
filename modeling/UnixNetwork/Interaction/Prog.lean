import Mathlib.Logic.Relation

/-!
# Programs that call their surroundings

A program over an *interface* is a tree: it returns, it makes a call and continues with whatever
result comes back, or it does something undefined. The tree fixes what the program does for every
result of every call, and says nothing about which results occur; that is the business of
`Interaction.World`.

Undefined behaviour is a leaf of its own, `Prog.fault`, and not an error value a program could
handle: nothing can be bound after it, and the rules of `Interaction.World` allow it only where they
are told to.

## Main definitions

* `Interface`, `Prog`: the calls with their results, and the programs over them
* `Prog.After`: `p.After t q` says that `p`, having seen the events `t`, has become `q`
* `Prog.Only`: the program makes only such calls
* `Prog.Silent`: the program makes no call
* `Prog.run`: the program run with one fixed answer for each call
* `Prog.interp`: the program with a program in the place of each call
* `Prog.Total`: the behaviour is defined whatever its calls return

## Main results

* `Prog.after_bind_ret`: a sequence that completes is two parts that complete
-/

namespace Interaction

/-- What a program can ask of its surroundings: the calls it may make, and for each call the
results that can come back. -/
structure Interface where
  /-- The calls. -/
  Call : Type
  /-- The results of a call. -/
  Res : Call → Type

variable {I : Interface} {α β γ : Type}

/-- A program: it returns, calls its surroundings, or has undefined behaviour. -/
inductive Prog (I : Interface) (α : Type) : Type where
  /-- The program is over and has a value. -/
  | ret (a : α) : Prog I α
  /-- The program makes a call and goes on with its result. -/
  | call (c : I.Call) (k : I.Res c → Prog I α) : Prog I α
  /-- The behaviour is undefined from here on. -/
  | fault : Prog I α

/-- One call together with the result it returned. -/
abbrev Event (I : Interface) : Type := Σ c : I.Call, I.Res c

namespace Prog

/-! ## Sequencing -/

/-- Run `p`, then what `f` makes of its value. -/
def bind : Prog I α → (α → Prog I β) → Prog I β
  | ret a, f => f a
  | call c k, f => call c fun r => (k r).bind f
  | fault, _ => fault

instance : Monad (Prog I) where
  pure := ret
  bind := bind

/-- The program that makes one call and returns its result. -/
def perform (c : I.Call) : Prog I (I.Res c) := call c ret

@[simp] theorem pure_eq (a : α) : (pure a : Prog I α) = ret a := rfl

@[simp] theorem ret_bind (a : α) (f : α → Prog I β) : ret a >>= f = f a := rfl

@[simp] theorem call_bind (c : I.Call) (k : I.Res c → Prog I α) (f : α → Prog I β) :
    call c k >>= f = call c fun r => k r >>= f := rfl

@[simp] theorem fault_bind (f : α → Prog I β) : (fault : Prog I α) >>= f = fault := rfl

@[simp] theorem perform_bind (c : I.Call) (f : I.Res c → Prog I β) :
    perform c >>= f = call c f := rfl

theorem bind_ret (p : Prog I α) : p >>= ret = p := by
  induction p with
  | ret a => rfl
  | call c k ih => exact congrArg (call c) (funext ih)
  | fault => rfl

theorem bind_assoc (p : Prog I α) (f : α → Prog I β) (g : β → Prog I γ) :
    p >>= f >>= g = p >>= fun a => f a >>= g := by
  induction p with
  | ret a => rfl
  | call c k ih => exact congrArg (call c) (funext ih)
  | fault => rfl

instance : LawfulMonad (Prog I) :=
  LawfulMonad.mk' (Prog I) bind_ret (fun _ _ => rfl) bind_assoc

/-! ## What a program has become after some events -/

/-- `p.After t q`: having seen exactly the events `t`, the program `p` has become `q`. -/
inductive After : Prog I α → List (Event I) → Prog I α → Prop where
  /-- Nothing has happened yet. -/
  | nil (p : Prog I α) : After p [] p
  /-- The pending call returned, and the rest of the program saw the rest of the events. -/
  | cons {c : I.Call} {k : I.Res c → Prog I α} {r : I.Res c} {t : List (Event I)} {q : Prog I α} :
      After (k r) t q → After (call c k) (⟨c, r⟩ :: t) q

@[simp] theorem after_ret {a : α} {t : List (Event I)} {q : Prog I α} :
    After (ret a) t q ↔ t = [] ∧ q = ret a := by
  constructor
  · rintro ⟨⟩
    exact ⟨rfl, rfl⟩
  · rintro ⟨rfl, rfl⟩
    exact .nil _

@[simp] theorem after_fault {t : List (Event I)} {q : Prog I α} :
    After fault t q ↔ t = [] ∧ q = fault := by
  constructor
  · rintro ⟨⟩
    exact ⟨rfl, rfl⟩
  · rintro ⟨rfl, rfl⟩
    exact .nil _

theorem after_call {c : I.Call} {k : I.Res c → Prog I α} {t : List (Event I)} {q : Prog I α} :
    After (call c k) t q ↔
      (t = [] ∧ q = call c k) ∨ ∃ r t', t = ⟨c, r⟩ :: t' ∧ After (k r) t' q := by
  constructor
  · intro h
    cases h with
    | nil => exact .inl ⟨rfl, rfl⟩
    | cons h => exact .inr ⟨_, _, rfl, h⟩
  · rintro (⟨rfl, rfl⟩ | ⟨r, t', rfl, h⟩)
    · exact .nil _
    · exact .cons h

@[simp] theorem after_nil {p q : Prog I α} : p.After [] q ↔ q = p := by
  constructor
  · rintro ⟨⟩
    rfl
  · rintro rfl
    exact .nil _

@[simp] theorem after_call_cons {c : I.Call} {k : I.Res c → Prog I α} {r : I.Res c}
    {t : List (Event I)} {q : Prog I α} : After (call c k) (⟨c, r⟩ :: t) q ↔ After (k r) t q := by
  constructor
  · intro h
    cases h with
    | cons h => exact h
  · exact .cons

/-- A call that has completed has returned something. -/
@[simp] theorem after_call_ret {c : I.Call} {k : I.Res c → Prog I α} {t : List (Event I)} {a : α} :
    After (call c k) t (ret a) ↔ ∃ r t', t = ⟨c, r⟩ :: t' ∧ After (k r) t' (ret a) := by
  simp [after_call]

/-- **Sequencing.** A sequence completes exactly when its first part completes and the second
part, started from the value of the first, completes on the events that are left. -/
theorem after_bind_ret {p : Prog I α} {f : α → Prog I β} {t : List (Event I)} {b : β} :
    After (p >>= f) t (ret b) ↔
      ∃ a t₁ t₂, t = t₁ ++ t₂ ∧ p.After t₁ (ret a) ∧ (f a).After t₂ (ret b) := by
  induction p generalizing t with
  | ret a =>
    simp only [ret_bind, after_ret, ret.injEq]
    constructor
    · intro h
      exact ⟨a, [], t, rfl, ⟨rfl, rfl⟩, h⟩
    · rintro ⟨_, _, _, rfl, ⟨rfl, rfl⟩, h⟩
      exact h
  | call c k ih =>
    simp only [call_bind, after_call_ret, ih]
    constructor
    · rintro ⟨r, t', rfl, a, t₁, t₂, rfl, h₁, h₂⟩
      exact ⟨a, ⟨c, r⟩ :: t₁, t₂, rfl, ⟨r, t₁, rfl, h₁⟩, h₂⟩
    · rintro ⟨a, _, t₂, rfl, ⟨r, t₁, rfl, h₁⟩, h₂⟩
      exact ⟨r, t₁ ++ t₂, rfl, a, t₁, t₂, rfl, h₁, h₂⟩
  | fault => simp

/-! ## The calls of a program -/

/-- Whatever its calls return, the program makes only calls that satisfy `P`. -/
def Only (P : I.Call → Prop) : Prog I α → Prop
  | call c k => P c ∧ ∀ r, (k r).Only P
  | _ => True

theorem After.only {P : I.Call → Prop} {p : Prog I α} {t : List (Event I)} {c : I.Call}
    {k : I.Res c → Prog I α} (h : p.After t (call c k)) (hp : p.Only P) : P c := by
  generalize hq : call c k = q at h
  induction h with
  | nil p =>
    subst hq
    exact hp.1
  | cons _ ih => exact ih (hp.2 _) hq

/-! ## Programs without calls -/

/-- The program makes no call: it has its value at once, or its behaviour is undefined. -/
def Silent : Prog I α → Prop
  | call _ _ => False
  | _ => True

@[simp] theorem silent_ret (a : α) : (ret a : Prog I α).Silent := trivial

@[simp] theorem silent_fault : (fault : Prog I α).Silent := trivial

theorem Silent.bind {p : Prog I α} (hp : p.Silent) {f : α → Prog I β} (hf : ∀ a, (f a).Silent) :
    (p >>= f).Silent := by
  cases p with
  | ret a => exact hf a
  | call c k => exact hp.elim
  | fault => trivial

theorem Silent.ite {c : Prop} [Decidable c] {p q : Prog I α} (hp : p.Silent) (hq : q.Silent) :
    (if c then p else q).Silent := by
  split
  · exact hp
  · exact hq

/-! ## Running against fixed answers -/

/-- Run a program with one answer for each call. It fails on undefined behaviour. -/
def run (answer : (c : I.Call) → I.Res c) : Prog I α → Option (List (Event I) × α)
  | ret a => some ([], a)
  | call c k => ((k (answer c)).run answer).map fun x => (⟨c, answer c⟩ :: x.1, x.2)
  | fault => none

variable {answer : (c : I.Call) → I.Res c}

@[simp] theorem run_ret (a : α) : (ret a : Prog I α).run answer = some ([], a) := rfl

@[simp] theorem run_fault : (fault : Prog I α).run answer = none := rfl

theorem run_call {c : I.Call} {k : I.Res c → Prog I α} {t : List (Event I)} {a : α}
    (h : (k (answer c)).run answer = some (t, a)) :
    (call c k).run answer = some (⟨c, answer c⟩ :: t, a) := by
  rw [run, h]
  rfl

theorem run_bind {p : Prog I α} {f : α → Prog I β} {t t' : List (Event I)} {a : α} {b : β}
    (h : p.run answer = some (t, a)) (h' : (f a).run answer = some (t', b)) :
    (p >>= f).run answer = some (t ++ t', b) := by
  induction p generalizing t with
  | ret x =>
    cases h
    exact h'
  | call c k ih =>
    rw [run, Option.map_eq_some_iff] at h
    obtain ⟨⟨t₁, a₁⟩, h, he⟩ := h
    cases he
    exact run_call (ih (answer c) h)
  | fault => cases h

/-! ## Programs in the place of calls -/

section Interp

variable {J : Interface}

/-- The program in which each call is replaced by a program over other calls. -/
def interp (h : (c : I.Call) → Prog J (I.Res c)) : Prog I α → Prog J α
  | ret a => .ret a
  | call c k => h c >>= fun r => (k r).interp h
  | fault => .fault

variable {h : (c : I.Call) → Prog J (I.Res c)}

@[simp] theorem interp_ret (a : α) : (ret a : Prog I α).interp h = .ret a := rfl

@[simp] theorem interp_call (c : I.Call) (k : I.Res c → Prog I α) :
    (call c k).interp h = h c >>= fun r => (k r).interp h := rfl

@[simp] theorem interp_fault : (fault : Prog I α).interp h = .fault := rfl

@[simp] theorem interp_bind (p : Prog I α) (f : α → Prog I β) :
    (p >>= f).interp h = p.interp h >>= fun a => (f a).interp h := by
  induction p with
  | ret a => rfl
  | call c k ih => simp only [call_bind, interp_call, ih, bind_assoc]
  | fault => rfl

end Interp

/-! ## Programs whose behaviour is defined -/

/-- Whatever its calls return, the program does nothing undefined. -/
def Total : Prog I α → Prop
  | ret _ => True
  | call _ k => ∀ r, (k r).Total
  | fault => False

@[simp] theorem total_ret (a : α) : (ret a : Prog I α).Total := trivial

@[simp] theorem total_call {c : I.Call} {k : I.Res c → Prog I α} :
    (call c k).Total ↔ ∀ r, (k r).Total := Iff.rfl

theorem Total.bind {p : Prog I α} (hp : p.Total) {f : α → Prog I β} (hf : ∀ a, (f a).Total) :
    (p >>= f).Total := by
  induction p with
  | ret a => exact hf a
  | call c k ih => exact fun r => ih r (hp r)
  | fault => exact hp.elim

end Prog

end Interaction
