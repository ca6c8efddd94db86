import Mathlib.Data.Nat.Digits.Defs
import Mathlib.Data.Nat.Digits.Lemmas

/-!
# Numbers as bytes, and lists cut into blocks

The representation of a number by a fixed number of bytes, in either byte order, and the fact that a
list is cut into blocks of one size in one way only. Together they say when a sequence of numbers
can be recovered from the concatenation of their representations.

## Main definitions

* `leBytes`, `leNat`: the bytes of a number, least significant first, and the number of some bytes
* `ByteOrder`, `ByteOrder.encode`, `ByteOrder.decode`: the same in a given byte order

## Main results

* `ByteOrder.decode_encode`: a number that fits into the bytes is recovered from them
* `eq_of_flatten_eq`: blocks of one size are determined by their concatenation
* `length_eq_of_length_flatten`: so are their sizes, by the number of blocks and the total length
-/

namespace Encoding

/-! ## Numbers -/

/-- The `n` least significant bytes of `x`, least significant first. -/
def leBytes : (n x : ℕ) → List UInt8
  | 0, _ => []
  | n + 1, x => UInt8.ofNat x :: leBytes n (x / 256)

/-- The number that some bytes represent, least significant first. -/
def leNat (bs : List UInt8) : ℕ := Nat.ofDigits 256 (bs.map UInt8.toNat)

@[simp] theorem length_leBytes (n x : ℕ) : (leBytes n x).length = n := by
  induction n generalizing x with
  | zero => rfl
  | succ n ih => rw [leBytes, List.length_cons, ih]

theorem leNat_leBytes {n x : ℕ} (h : x < 256 ^ n) : leNat (leBytes n x) = x := by
  induction n generalizing x with
  | zero =>
    obtain rfl : x = 0 := by simpa using h
    rfl
  | succ n ih =>
    have hdiv : x / 256 < 256 ^ n := by
      rw [Nat.div_lt_iff_lt_mul (by decide), ← pow_succ]
      exact h
    calc leNat (leBytes (n + 1) x) = (UInt8.ofNat x).toNat + 256 * leNat (leBytes n (x / 256)) := by
          rw [leBytes, leNat, List.map_cons, Nat.ofDigits_cons]
          rfl
      _ = x % 256 + 256 * (x / 256) := by rw [ih hdiv, UInt8.toNat_ofNat']
      _ = x := Nat.mod_add_div x 256

/-- The order in which the bytes of a number stand in memory. -/
inductive ByteOrder where
  | little
  | big
deriving DecidableEq

namespace ByteOrder

/-- The representation of `x` in `n` bytes. -/
def encode : ByteOrder → (n x : ℕ) → List UInt8
  | little, n, x => leBytes n x
  | big, n, x => (leBytes n x).reverse

/-- The number that some bytes represent. -/
def decode : ByteOrder → List UInt8 → ℕ
  | little, bs => leNat bs
  | big, bs => leNat bs.reverse

@[simp] theorem length_encode (o : ByteOrder) (n x : ℕ) : (o.encode n x).length = n := by
  cases o with
  | little => exact length_leBytes n x
  | big => rw [encode, List.length_reverse, length_leBytes]

/-- **Round trip.** A number that fits into the bytes is recovered from them. -/
theorem decode_encode (o : ByteOrder) {n x : ℕ} (h : x < 256 ^ n) :
    o.decode (o.encode n x) = x := by
  cases o with
  | little => exact leNat_leBytes h
  | big => rw [decode, encode, List.reverse_reverse, leNat_leBytes h]

end ByteOrder

/-! ## Blocks -/

variable {α : Type} {k : ℕ}

theorem length_flatten_of_length_eq {l : List (List α)} (h : ∀ c ∈ l, c.length = k) :
    l.flatten.length = l.length * k := by
  induction l with
  | nil => simp
  | cons c l ih =>
    rw [List.flatten_cons, List.length_append, h c List.mem_cons_self,
      ih fun d hd => h d (List.mem_cons_of_mem c hd), List.length_cons, Nat.succ_mul, Nat.add_comm]

/-- Blocks of one size are determined by their concatenation. -/
theorem eq_of_flatten_eq (hk : 0 < k) {l l' : List (List α)} (h : ∀ c ∈ l, c.length = k)
    (h' : ∀ c ∈ l', c.length = k) (he : l.flatten = l'.flatten) : l = l' := by
  have hlen : l.length = l'.length := by
    refine Nat.eq_of_mul_eq_mul_right hk ?_
    rw [← length_flatten_of_length_eq h, ← length_flatten_of_length_eq h', he]
  induction l generalizing l' with
  | nil => exact (List.eq_nil_of_length_eq_zero hlen.symm).symm
  | cons c l ih =>
    cases l' with
    | nil => cases hlen
    | cons c' l' =>
      rw [List.flatten_cons, List.flatten_cons] at he
      obtain ⟨rfl, hrest⟩ := List.append_inj he
        ((h c List.mem_cons_self).trans (h' c' List.mem_cons_self).symm)
      rw [ih (fun d hd => h d (List.mem_cons_of_mem c hd))
        (fun d hd => h' d (List.mem_cons_of_mem c hd)) hrest (Nat.succ.inj hlen)]

/-- Pieces of at most `k` elements that are as few as their total length allows have `k` elements
each. -/
theorem length_eq_of_length_flatten {l : List (List α)} (hle : ∀ c ∈ l, c.length ≤ k)
    (hlen : l.flatten.length = l.length * k) : ∀ c ∈ l, c.length = k := by
  have hbound : ∀ m : List (List α), (∀ c ∈ m, c.length ≤ k) → m.flatten.length ≤ m.length * k := by
    intro m hm
    induction m with
    | nil => simp
    | cons c m ih =>
      have hc := hm c List.mem_cons_self
      have hrest := ih fun d hd => hm d (List.mem_cons_of_mem c hd)
      rw [List.flatten_cons, List.length_append, List.length_cons, Nat.succ_mul]
      omega
  induction l with
  | nil => simp
  | cons c l ih =>
    have hc := hle c List.mem_cons_self
    have hl : ∀ d ∈ l, d.length ≤ k := fun d hd => hle d (List.mem_cons_of_mem c hd)
    have hrest := hbound l hl
    rw [List.flatten_cons, List.length_append, List.length_cons, Nat.succ_mul] at hlen
    intro d hd
    rcases List.mem_cons.mp hd with rfl | hd
    · omega
    · exact ih hl (by omega) d hd

end Encoding
