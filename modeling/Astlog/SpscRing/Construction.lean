import Astlog.SpscRing.Machine
import Mathlib.Data.Nat.Log

/-! The constructor of `SPSCQueue` computes its capacity and the size of its storage in
64-bit arithmetic. -/
namespace Astlog

/-- The loop `while (cap < capacity+1) cap <<= 1`, if it ends within `fuel` rounds. -/
def roundLoop (capacity : ℕ) : ℕ → ℕ → Option ℕ
  | 0, _ => none
  | fuel+1, cap =>
    if cap < (capacity+1) % 2^64 then roundLoop capacity fuel (cap*2 % 2^64) else some cap

/-- The constructor, with the storage that its indices call for. The deleter that `storage_` is
given in the body is taken to be there from the start: it has no initialiser. -/
def SPSCQueue.ofCapacity (α : Type) (fuel capacity : ℕ) : Option (SPSCQueue α) :=
  (roundLoop capacity fuel 1).map fun cap =>
    { storage_ := List.replicate cap none
      capacity_ := cap
      mask_ := (cap+(2^64-1)) % 2^64
      head_ := 0
      tail_ := 0 }

/-- The argument of `operator new`, for elements of `sizeT` bytes. -/
def SPSCQueue.allocation {α : Type} (q : SPSCQueue α) (sizeT : ℕ) : ℕ := sizeT*q.capacity_ % 2^64

/-- The constructor ends with room for the values asked for, and with a slot in the
allocated bytes for each index up to the mask. -/
structure SoundConstruction (α : Type) (sizeT capacity : ℕ) (q : SPSCQueue α) : Prop where
  terminates : ∃ fuel, SPSCQueue.ofCapacity α fuel capacity = some q
  power_of_two : ∃ k, q.capacity_ = 2^k
  capacity_le : capacity ≤ q.capacity
  in_range : ∀ i ≤ q.mask_, (i+1)*sizeT ≤ q.allocation sizeT

section
variable {α : Type} {capacity : ℕ}

/-- More rounds do not change the outcome. -/
lemma roundLoop_mono {fuel fuel' cap c : ℕ} (h : roundLoop capacity fuel cap = some c)
    (hle : fuel ≤ fuel') : roundLoop capacity fuel' cap = some c := by
  induction fuel generalizing fuel' cap with
  | zero => cases h
  | succ fuel ih =>
    obtain ⟨n,rfl⟩ : ∃ n, fuel' = n+1 := ⟨fuel'-1,by omega⟩
    rw [roundLoop] at h ⊢
    split_ifs at h ⊢ with htest
    · exact ih h (by omega)
    · exact h

/-- From `2^j` on, the loop doubles up to the first power that exceeds the capacity. -/
lemma roundLoop_eq (hcap : capacity < 2^63) {j : ℕ} (hj : j ≤ Nat.clog 2 (capacity+1))
    {fuel : ℕ} (hfuel : Nat.clog 2 (capacity+1) < j+fuel) :
    roundLoop capacity fuel (2^j) = some (2^Nat.clog 2 (capacity+1)) := by
  have hclog : Nat.clog 2 (capacity+1) ≤ 63 := Nat.clog_le_of_le_pow (by omega)
  induction fuel generalizing j with
  | zero => omega
  | succ fuel ih =>
    have htest : 2^j < capacity+1 ↔ j < Nat.clog 2 (capacity+1) :=
      (Nat.lt_clog_iff_pow_lt (by norm_num)).symm
    rw [roundLoop, Nat.mod_eq_of_lt (show capacity+1 < 2^64 by omega)]
    by_cases hlt : j < Nat.clog 2 (capacity+1)
    · have hpow : 2^(j+1) < 2^64 := Nat.pow_lt_pow_right (by norm_num) (by omega)
      rw [if_pos (htest.mpr hlt), ← pow_succ, Nat.mod_eq_of_lt hpow]
      exact ih hlt (by omega)
    · rw [if_neg (fun h => hlt (htest.mp h)), show j = Nat.clog 2 (capacity+1) by omega]

/-- From a power of two below `2^64`, or from zero, the loop never gets above `2^63`. -/
lemma roundLoop_eq_none (hlo : 2^63 ≤ capacity) (hhi : capacity+1 < 2^64) (fuel : ℕ) {cap : ℕ}
    (h : cap = 0 ∨ ∃ j ≤ 63, cap = 2^j) : roundLoop capacity fuel cap = none := by
  induction fuel generalizing cap with
  | zero => rfl
  | succ fuel ih =>
    have hlt : cap < capacity+1 := by
      obtain rfl | ⟨j,hj,rfl⟩ := h
      · omega
      · have hpow : 2^j ≤ 2^63 := Nat.pow_le_pow_right (by norm_num) hj
        omega
    rw [roundLoop, Nat.mod_eq_of_lt hhi, if_pos hlt]
    apply ih
    obtain rfl | ⟨j,hj,rfl⟩ := h
    · exact Or.inl rfl
    · obtain rfl | hj := hj.eq_or_lt
      · exact Or.inl rfl
      · have hpow : 2^(j+1) < 2^64 := Nat.pow_lt_pow_right (by norm_num) (by omega)
        rw [← pow_succ, Nat.mod_eq_of_lt hpow]
        exact Or.inr ⟨j+1,hj,rfl⟩

/-- `SIZE_MAX+1` is zero, and the loop ends before its first round. -/
lemma roundLoop_max {fuel cap : ℕ} (h : roundLoop (2^64-1) fuel 1 = some cap) : cap = 1 := by
  cases fuel with
  | zero => cases h
  | succ fuel =>
    rw [roundLoop, if_neg (by norm_num)] at h
    exact (Option.some.inj h).symm

/-- Below `2^63` the constructor makes the least power of two that exceeds the capacity. -/
theorem SPSCQueue.ofCapacity_eq (hcap : capacity < 2^63) {fuel : ℕ} (hfuel : 64 ≤ fuel) :
    SPSCQueue.ofCapacity α fuel capacity =
      some (SPSCQueue.construct α (Nat.clog 2 (capacity+1))) := by
  have hclog : Nat.clog 2 (capacity+1) ≤ 63 := Nat.clog_le_of_le_pow (by omega)
  have hpow : 2^Nat.clog 2 (capacity+1) < 2^64 := Nat.pow_lt_pow_right (by norm_num) (by omega)
  have hpos := Nat.two_pow_pos (Nat.clog 2 (capacity+1))
  have hloop : roundLoop capacity fuel 1 = some (2^Nat.clog 2 (capacity+1)) :=
    roundLoop_eq (j := 0) hcap (Nat.zero_le _) (by omega)
  have hmask : (2^Nat.clog 2 (capacity+1)+(2^64-1)) % 2^64 = 2^Nat.clog 2 (capacity+1)-1 := by
    omega
  rw [SPSCQueue.ofCapacity, hloop, Option.map_some, hmask]
  rfl

lemma SPSCQueue.ofCapacity_eq_some {fuel : ℕ} {q : SPSCQueue α}
    (h : SPSCQueue.ofCapacity α fuel capacity = some q) :
    roundLoop capacity fuel 1 = some q.capacity_ ∧ q.mask_ = (q.capacity_+(2^64-1)) % 2^64 := by
  obtain ⟨cap,hloop,rfl⟩ := Option.map_eq_some_iff.mp h
  exact ⟨hloop,rfl⟩

lemma SPSCQueue.ofCapacity_mono {fuel fuel' : ℕ} {q : SPSCQueue α}
    (h : SPSCQueue.ofCapacity α fuel capacity = some q) (hle : fuel ≤ fuel') :
    SPSCQueue.ofCapacity α fuel' capacity = some q := by
  obtain ⟨cap,hloop,rfl⟩ := Option.map_eq_some_iff.mp h
  exact Option.map_eq_some_iff.mpr ⟨cap,roundLoop_mono hloop hle,rfl⟩

/-- A sound construction was asked for less than `2^63` values. -/
lemma SoundConstruction.lt {sizeT : ℕ} {q : SPSCQueue α}
    (h : SoundConstruction α sizeT capacity q) (hcapacity : capacity < 2^64) : capacity < 2^63 := by
  obtain ⟨fuel,hq⟩ := h.terminates
  obtain ⟨hloop,-⟩ := SPSCQueue.ofCapacity_eq_some hq
  by_contra hge
  by_cases hmax : capacity = 2^64-1
  · have hle := h.capacity_le
    rw [hmax] at hloop
    rw [SPSCQueue.capacity, roundLoop_max hloop] at hle
    omega
  · have hnone : roundLoop capacity fuel 1 = none :=
      roundLoop_eq_none (by omega) (by omega) fuel (Or.inr ⟨0,by norm_num,rfl⟩)
    rw [hnone] at hloop
    cases hloop

/-- Below `2^63`, the allocation is large enough exactly when its size did not wrap. -/
lemma SPSCQueue.construct_in_range_iff (sizeT k : ℕ) :
    (∀ i ≤ (SPSCQueue.construct α k).mask_,
      (i+1)*sizeT ≤ (SPSCQueue.construct α k).allocation sizeT) ↔ sizeT*2^k < 2^64 := by
  have hpos := Nat.two_pow_pos k
  change (∀ i ≤ 2^k-1, (i+1)*sizeT ≤ sizeT*2^k % 2^64) ↔ _
  constructor
  · intro h
    have hlast := h (2^k-1) (le_refl _)
    rw [Nat.sub_add_cancel hpos, Nat.mul_comm] at hlast
    exact hlast.trans_lt (Nat.mod_lt _ (by norm_num))
  · intro h i hi
    rw [Nat.mod_eq_of_lt h, Nat.mul_comm]
    exact Nat.mul_le_mul_left _ (by omega)

/-- The construction is sound for a `size_t` capacity exactly when neither the rounding nor
the size of the allocation wraps. -/
theorem soundConstruction_iff (sizeT : ℕ) (hcapacity : capacity < 2^64) :
    (∃ q, SoundConstruction α sizeT capacity q) ↔
      capacity < 2^63 ∧ sizeT*2^Nat.clog 2 (capacity+1) < 2^64 := by
  constructor
  · rintro ⟨q,hq⟩
    have hlt := hq.lt hcapacity
    obtain ⟨fuel,hfuel⟩ := hq.terminates
    have hmax := SPSCQueue.ofCapacity_mono hfuel (le_max_left fuel 64)
    rw [SPSCQueue.ofCapacity_eq hlt (le_max_right fuel 64)] at hmax
    obtain rfl := Option.some.inj hmax
    exact ⟨hlt,(SPSCQueue.construct_in_range_iff sizeT _).mp hq.in_range⟩
  · rintro ⟨hlt,hsize⟩
    have hle := Nat.le_pow_clog (b := 2) (by norm_num) (capacity+1)
    refine ⟨SPSCQueue.construct α (Nat.clog 2 (capacity+1)),?_,⟨_,rfl⟩,?_,?_⟩
    · exact ⟨64,SPSCQueue.ofCapacity_eq hlt (le_refl 64)⟩
    · change capacity ≤ 2^Nat.clog 2 (capacity+1)-1
      omega
    · exact (SPSCQueue.construct_in_range_iff sizeT _).mpr hsize

end

/-- A queue of a thousand values of eight bytes: two to the tenth slots. -/
theorem soundConstruction_thousand : ∃ q, SoundConstruction ℕ 8 1000 q :=
  (soundConstruction_iff 8 (by norm_num)).mpr (by decide +kernel)

/-- Asked for `SIZE_MAX` values, the queue gets one slot and can hold none. -/
theorem construction_unsound : ¬∀ sizeT capacity : ℕ, 0 < sizeT → 0 < capacity →
    capacity < 2^64 → ∃ q, SoundConstruction ℕ sizeT capacity q := by
  intro h
  obtain ⟨q,hq⟩ := h 8 (2^64-1) (by norm_num) (by norm_num) (by norm_num)
  exact absurd (hq.lt (by norm_num)) (by norm_num)

end Astlog
