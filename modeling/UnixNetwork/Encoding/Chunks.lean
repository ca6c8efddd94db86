import Mathlib.Data.List.Chain
import Mathlib.Data.Nat.Notation

/-!
# Streams that arrive in chunks

A reader that treats each chunk on its own gets the same result for every way of cutting the stream
only if its treatment does not see where a chunk begins. Keeping the beginning of each chunk, up to
the first element that fails a test, sees it: what is kept does not depend on the cutting exactly if
nothing in the stream passes the test once something has failed it.

## Main definitions

* `Encoding.Cutting`: the chunks are the stream, and none is empty or too long
* `Encoding.Uncut`: what comes out does not depend on how the stream is cut

## Main results

* `Encoding.uncut_takeWhile_iff`: when the beginnings of the chunks do not depend on the cutting
-/

namespace Encoding

variable {α β : Type*} {n : ℕ} {s s' : List α} {cs cs' : List (List α)} {p : α → Bool}

/-- The stream `s` arrives in the chunks `cs`, each of which has between 1 and `n` elements. -/
structure Cutting (n : ℕ) (s : List α) (cs : List (List α)) : Prop where
  /-- Nothing is lost and nothing is added. -/
  flatten : cs.flatten = s
  /-- No chunk is empty or too long. -/
  length : ∀ c ∈ cs, 1 ≤ c.length ∧ c.length ≤ n

/-- Two streams that arrive one after the other. -/
theorem Cutting.append (h : Cutting n s cs) (h' : Cutting n s' cs') :
    Cutting n (s ++ s') (cs ++ cs') := by
  refine ⟨by rw [List.flatten_append, h.flatten, h'.flatten], fun c hc => ?_⟩
  rcases List.mem_append.mp hc with hc | hc
  · exact h.length c hc
  · exact h'.length c hc

/-- A stream that arrives at once. -/
theorem cutting_singleton (h : 1 ≤ s.length ∧ s.length ≤ n) : Cutting n s [s] :=
  ⟨List.flatten_singleton, fun c hc => by rwa [List.mem_singleton.mp hc]⟩

/-- A stream that arrives element by element. -/
theorem cutting_map_singleton (hn : 0 < n) (s : List α) : Cutting n s (s.map ([·])) := by
  refine ⟨List.flatMap_singleton' s, fun c hc => ?_⟩
  obtain ⟨a, -, rfl⟩ := List.mem_map.mp hc
  exact ⟨le_rfl, hn⟩

/-- What `f` makes of the chunks does not depend on how the stream is cut. -/
def Uncut (n : ℕ) (f : List α → List β) (s : List α) : Prop :=
  ∀ cs cs', Cutting n s cs → Cutting n s cs' → cs.flatMap f = cs'.flatMap f

/-! ## Beginnings of chunks -/

/-- Where nothing passes a test after something has failed it, the beginning is all that passes. -/
theorem takeWhile_eq_filter (h : s.Pairwise fun a b => p b → p a) :
    s.takeWhile p = s.filter p := by
  induction h with
  | nil => rfl
  | @cons a s ha _ ih =>
    by_cases hp : p a
    · rw [List.takeWhile_cons_of_pos hp, List.filter_cons_of_pos hp, ih]
    · have hnil : s.filter p = [] := List.filter_eq_nil_iff.mpr fun b hb hpb => hp (ha b hb hpb)
      rw [List.takeWhile_cons_of_neg hp, List.filter_cons_of_neg hp, hnil]

/-- The beginnings of the chunks are then all that passes as well. -/
theorem flatMap_takeWhile_eq_filter (h : cs.flatten.Pairwise fun a b => p b → p a) :
    cs.flatMap (List.takeWhile p) = cs.flatten.filter p := by
  induction cs with
  | nil => rfl
  | cons c cs ih =>
    rw [List.flatten_cons, List.pairwise_append] at h
    rw [List.flatMap_cons, List.flatten_cons, List.filter_append, takeWhile_eq_filter h.1, ih h.2.1]

/-- **The beginnings of the chunks do not depend on the cutting** if and only if nothing passes the
test after something has failed it. -/
theorem uncut_takeWhile_iff (hn : 2 ≤ n) :
    Uncut n (List.takeWhile p) s ↔ s.Pairwise fun a b => p b → p a := by
  constructor
  · intro h
    have : IsTrans α fun a b => p b → p a := ⟨fun _ _ _ hab hbc hc => hab (hbc hc)⟩
    refine List.isChain_iff_pairwise.mp (List.isChain_iff_forall_rel_of_append_cons_cons.mpr ?_)
    rintro a b l₁ l₂ rfl hb
    by_contra ha
    -- once `a` and `b` arrive together, and once everything arrives on its own
    have hcut : ∀ cs, Cutting n [a, b] cs →
        Cutting n (l₁ ++ a :: b :: l₂) (l₁.map ([·]) ++ (cs ++ l₂.map ([·]))) := fun cs hcs =>
      (cutting_map_singleton (by omega) l₁).append
        (hcs.append (cutting_map_singleton (by omega) l₂))
    have heq := h _ _ (hcut _ (cutting_singleton ⟨Nat.le_add_left 1 1, hn⟩))
      (hcut _ (cutting_map_singleton (by omega) [a, b]))
    simp [List.flatMap_append, ha, hb] at heq
  · intro h cs cs' hcs hcs'
    rw [flatMap_takeWhile_eq_filter (hcs.flatten ▸ h), hcs.flatten,
      flatMap_takeWhile_eq_filter (hcs'.flatten ▸ h), hcs'.flatten]

end Encoding
