import Mathlib.Tactic

/-! First-in first-out contents of a circular store. One slot always stays free, so the
two indices meet only when the store is empty. Every slot outside the contents is vacant. -/
namespace Astlog.Foundation

variable {α : Type*}

/-- The list `xs` lies in the slots from `head` on, and no other slot holds an object. -/
structure RingHolds (N : ℕ) (slots : List (Option α)) (head tail : ℕ) (xs : List α) : Prop where
  slots_length : slots.length = N
  head_lt : head < N
  fits : xs.length < N
  tail_eq : tail = (head+xs.length) % N
  cell : ∀ i, i < N → slots[(head+i) % N]? = some xs[i]?

/-- Read the contents of a circular store off its two indices. -/
def ringContents (N : ℕ) (slots : List (Option α)) (head tail : ℕ) : List α :=
  (List.range ((tail+N-head) % N)).filterMap fun i => slots[(head+i) % N]?.join

/-- An offset below the size wraps at most once. -/
theorem ring_index {N head i : ℕ} (hh : head < N) (hi : i < N) :
    (head+i) % N = if head+i < N then head+i else head+i-N := by
  split_ifs with h
  · exact Nat.mod_eq_of_lt h
  · rw [Nat.mod_eq_sub_mod (by omega), Nat.mod_eq_of_lt (by omega)]

lemma ring_index_zero {N head : ℕ} (hh : head < N) : (head+0) % N = head := Nat.mod_eq_of_lt hh

lemma ring_index_inj {N head i j : ℕ} (hh : head < N) (hi : i < N) (hj : j < N) :
    (head+i) % N = (head+j) % N ↔ i = j := by
  rw [ring_index hh hi, ring_index hh hj]
  split_ifs <;> omega

/-- Walking from the head, the head comes back after one full turn. -/
theorem ring_index_eq_head_iff {N head i : ℕ} (hh : head < N) (hi : i ≤ N) :
    (head+i) % N = head ↔ i = 0 ∨ i = N := by
  obtain rfl | hlt := hi.eq_or_lt
  · simp [Nat.mod_eq_of_lt hh]
  · have h := ring_index_inj hh hlt (Nat.zero_lt_of_lt hh)
    rw [ring_index_zero hh] at h
    rw [h]
    omega

theorem ring_index_succ (N head i : ℕ) : ((head+i) % N+1) % N = (head+(i+1)) % N := by
  rw [Nat.mod_add_mod, Nat.add_assoc]

theorem ring_index_advance (N head i : ℕ) : ((head+1) % N+i) % N = (head+(i+1)) % N := by
  rw [Nat.mod_add_mod, Nat.add_assoc, Nat.add_comm 1 i]

lemma filterMap_range_getElem? (xs : List α) :
    (List.range xs.length).filterMap (fun i => xs[i]?) = xs := by
  induction xs with
  | nil => rfl
  | cons x xs ih =>
    rw [List.length_cons, List.range_succ_eq_map, List.filterMap_cons, List.filterMap_map]
    exact congrArg (x :: ·) ih

namespace RingHolds
variable {N : ℕ} {slots : List (Option α)} {head tail : ℕ} {xs : List α}

theorem nil {N : ℕ} (hN : 0 < N) : RingHolds N (List.replicate N (none : Option α)) 0 0 [] where
  slots_length := List.length_replicate
  head_lt := hN
  fits := hN
  tail_eq := (Nat.mod_eq_of_lt hN).symm
  cell i hi := by simp [Nat.mod_eq_of_lt hi, hi]

lemma tail_lt (h : RingHolds N slots head tail xs) : tail < N := by
  rw [h.tail_eq]
  exact Nat.mod_lt _ (by have := h.head_lt; omega)

theorem head_eq_tail_iff (h : RingHolds N slots head tail xs) : head = tail ↔ xs = [] := by
  have hf := h.fits
  rw [eq_comm, h.tail_eq, ring_index_eq_head_iff h.head_lt hf.le, ← List.length_eq_zero_iff]
  omega

theorem head_ne_tail {x : α} (h : RingHolds N slots head tail (x::xs)) : head ≠ tail :=
  fun he => List.cons_ne_nil x xs (h.head_eq_tail_iff.mp he)

/-- The test for a full store. -/
theorem next_tail_eq_head_iff (h : RingHolds N slots head tail xs) :
    (tail+1) % N = head ↔ xs.length+1 = N := by
  rw [h.tail_eq, ring_index_succ, ring_index_eq_head_iff h.head_lt h.fits]
  omega

/-- The slot at the tail is vacant. -/
theorem tail_vacant (h : RingHolds N slots head tail xs) : slots[tail]? = some none := by
  rw [h.tail_eq, h.cell _ h.fits]
  simp

/-- The slot at the head holds the oldest element. -/
theorem head_cell {x : α} (h : RingHolds N slots head tail (x::xs)) :
    slots[head]? = some (some x) := by
  have hc := h.cell 0 (by have := h.head_lt; omega)
  rwa [ring_index_zero h.head_lt] at hc

/-- How many elements there are, from the two indices. -/
theorem length_eq (h : RingHolds N slots head tail xs) :
    (if head ≤ tail then tail-head else (N-head)+tail) = xs.length := by
  have hh := h.head_lt
  have hf := h.fits
  rw [h.tail_eq, ring_index hh hf]
  split_ifs <;> omega

/-- Constructing an object in the tail slot and advancing the tail appends it. -/
theorem push (h : RingHolds N slots head tail xs) (hx : xs.length+1 < N) (x : α) :
    RingHolds N (slots.set tail (some x)) head ((tail+1) % N) (xs ++ [x]) where
  slots_length := by rw [List.length_set, h.slots_length]
  head_lt := h.head_lt
  fits := by rw [List.length_append]; exact hx
  tail_eq := by rw [h.tail_eq, ring_index_succ]; simp
  cell i hi := by
    have hinj := ring_index_inj h.head_lt h.fits hi
    rw [← h.tail_eq] at hinj
    rw [List.getElem?_set, h.slots_length]
    by_cases he : xs.length = i
    · rw [if_pos (hinj.mpr he), if_pos h.tail_lt]
      simp [← he]
    · rw [if_neg (he ∘ hinj.mp), h.cell i hi, List.getElem?_append]
      split_ifs with hl
      · rfl
      · rw [List.getElem?_eq_none (by omega), List.getElem?_eq_none (by simp; omega)]

/-- Destroying the object in the head slot and advancing the head removes it. -/
theorem pop {x : α} (h : RingHolds N slots head tail (x::xs)) :
    RingHolds N (slots.set head none) ((head+1) % N) tail xs where
  slots_length := by rw [List.length_set, h.slots_length]
  head_lt := Nat.mod_lt _ (by have := h.head_lt; omega)
  fits := by
    have := h.fits
    rw [List.length_cons] at this
    omega
  tail_eq := by rw [h.tail_eq, List.length_cons, ring_index_advance]
  cell i hi := by
    have hpos : 0 < N := by omega
    rw [ring_index_advance, List.getElem?_set, h.slots_length]
    by_cases hl : i+1 = N
    · -- the slot just vacated is the last one before the new head
      rw [hl, Nat.add_mod_right, Nat.mod_eq_of_lt h.head_lt]
      have := h.fits
      rw [List.length_cons] at this
      simp [h.head_lt, List.getElem?_eq_none (show xs.length ≤ i by omega)]
    · have hinj := ring_index_inj h.head_lt hpos (show i+1 < N by omega)
      rw [ring_index_zero h.head_lt] at hinj
      rw [if_neg (fun he => by have := hinj.mp he; omega), h.cell (i+1) (by omega),
        List.getElem?_cons_succ]

/-- Changing the object in the head slot changes the oldest element. -/
theorem replace {x : α} (h : RingHolds N slots head tail (x::xs)) (y : α) :
    RingHolds N (slots.set head (some y)) head tail (y::xs) where
  slots_length := by rw [List.length_set, h.slots_length]
  head_lt := h.head_lt
  fits := h.fits
  tail_eq := h.tail_eq
  cell i hi := by
    have hinj := ring_index_inj h.head_lt (Nat.zero_lt_of_lt hi) hi
    rw [ring_index_zero h.head_lt] at hinj
    rw [List.getElem?_set, h.slots_length]
    cases i with
    | zero => simp [Nat.mod_eq_of_lt h.head_lt, h.head_lt]
    | succ i => rw [if_neg (fun he => by simpa using hinj.mp he), h.cell _ hi]; rfl

/-- Seen from the head, the store is its contents and then vacant slots. -/
lemma rotate_eq (h : RingHolds N slots head tail xs) :
    slots.rotate head = xs.map some ++ List.replicate (N-xs.length) none := by
  have hf := h.fits
  apply List.ext_getElem?
  intro i
  by_cases hi : i < N
  · rw [List.getElem?_rotate (by rw [h.slots_length]; exact hi), h.slots_length, Nat.add_comm i,
      h.cell i hi, List.getElem?_append]
    split_ifs with hl
    · simp at hl
      simp [hl]
    · simp at hl
      simp [hl, show i-xs.length < N-xs.length by omega]
  · rw [List.getElem?_eq_none (by rw [List.length_rotate, h.slots_length]; omega),
      List.getElem?_eq_none (by simp; omega)]

/-- As many slots hold an object as there are elements. -/
theorem countP_isSome (h : RingHolds N slots head tail xs) :
    slots.countP Option.isSome = xs.length := by
  rw [← (List.rotate_perm slots head).countP_eq, h.rotate_eq, List.countP_append,
    List.countP_map, List.countP_replicate]
  simp

/-- An empty store holds no object at all. -/
theorem slots_eq_of_nil (h : RingHolds N slots head tail []) : slots = List.replicate N none := by
  have hnone : ∀ o ∈ slots, o = none := by
    simpa [List.countP_eq_zero] using h.countP_isSome
  rw [← h.slots_length]
  exact List.eq_replicate_of_mem hnone

theorem contents_eq (h : RingHolds N slots head tail xs) :
    ringContents N slots head tail = xs := by
  have hh := h.head_lt
  have hf := h.fits
  have hlen : (tail+N-head) % N = xs.length := by
    rw [h.tail_eq, ring_index hh hf]
    split_ifs
    · rw [show head+xs.length+N-head = xs.length+N by omega, Nat.add_mod_right, Nat.mod_eq_of_lt hf]
    · rw [show head+xs.length-N+N-head = xs.length by omega, Nat.mod_eq_of_lt hf]
  have hmap : (List.range xs.length).filterMap (fun i => slots[(head+i) % N]?.join) =
      (List.range xs.length).filterMap fun i => xs[i]? := by
    apply List.filterMap_congr
    intro i hi
    rw [h.cell i (by rw [List.mem_range] at hi; omega), Option.join_some]
  rw [ringContents, hlen, hmap]
  exact filterMap_range_getElem? xs

end RingHolds
end Astlog.Foundation
