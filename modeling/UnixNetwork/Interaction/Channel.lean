import Mathlib.Data.List.Infix

/-!
# One direction of a connection

A channel delivers what is sent over it, in order, and cuts it as it likes: what one read returns
may be less than what has been sent since the last one, and more than what one write has sent.

## Main definitions

* `Channel`: what has been delivered, and what is still under way
* `Channel.Offers`: what a read may return

## Main results

* `Channel.delivered_prefix_sent`: what has been delivered is a beginning of what has been sent
* `Channel.Offers.prefix_sent`, `Channel.sent_pop`: a read keeps it so
-/

namespace Interaction

/-- One direction of a connection. -/
structure Channel (α : Type) where
  /-- What has been delivered, in order. -/
  delivered : List α
  /-- What is still under way. -/
  queue : List α

namespace Channel

variable {α : Type}

/-- Nothing has been sent. -/
def empty : Channel α := ⟨[], []⟩

/-- All that has been sent. -/
def sent (c : Channel α) : List α := c.delivered ++ c.queue

/-- More is sent. -/
def push (c : Channel α) (l : List α) : Channel α := { c with queue := c.queue ++ l }

/-- The next `n` elements are delivered. -/
def pop (c : Channel α) (n : ℕ) : Channel α := ⟨c.delivered ++ c.queue.take n, c.queue.drop n⟩

/-- A read may return `l`: something, from the front of what is under way. -/
def Offers (c : Channel α) (l : List α) : Prop := l ≠ [] ∧ l <+: c.queue

variable {c : Channel α} {l : List α}

@[simp] theorem sent_empty : (empty : Channel α).sent = [] := rfl

@[simp] theorem delivered_push : (c.push l).delivered = c.delivered := rfl

@[simp] theorem queue_push : (c.push l).queue = c.queue ++ l := rfl

@[simp] theorem sent_push : (c.push l).sent = c.sent ++ l := (List.append_assoc ..).symm

@[simp] theorem sent_pop (n : ℕ) : (c.pop n).sent = c.sent := by
  simp [sent, pop]

theorem delivered_prefix_sent (c : Channel α) : c.delivered <+: c.sent := List.prefix_append _ _

theorem length_sent (c : Channel α) : c.sent.length = c.delivered.length + c.queue.length :=
  List.length_append

/-- What is offered is what is delivered. -/
theorem Offers.delivered_pop (h : c.Offers l) :
    (c.pop l.length).delivered = c.delivered ++ l := by
  rw [pop, ← List.prefix_iff_eq_take.mp h.2]

theorem Offers.length_pos (h : c.Offers l) : 0 < l.length := List.length_pos_iff.mpr h.1

theorem Offers.length_le (h : c.Offers l) : l.length ≤ c.queue.length := h.2.length_le

/-- Something is offered unless nothing is under way. -/
theorem exists_offers {n : ℕ} (hn : 0 < n) (h : c.queue ≠ []) :
    ∃ l, c.Offers l ∧ l.length ≤ n := by
  refine ⟨c.queue.take n, ⟨?_, List.take_prefix n c.queue⟩, List.length_take_le n c.queue⟩
  rw [ne_eq, List.take_eq_nil_iff]
  rintro (h0 | hnil)
  · omega
  · exact h hnil

end Channel

end Interaction
