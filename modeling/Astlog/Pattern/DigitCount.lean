import Astlog.Pattern.TextFields

/-! `countDigit` on the 64-bit values it is called with: how often its loop goes round, and
what it returns. -/
namespace Astlog

/-- The loop of `countDigit`, in 64-bit arithmetic. It has no result where the given number
of rounds does not bring it to a `return`. -/
def countDigitRounds : ℕ → UInt64 → UInt64 → Option UInt64
  | 0, _, _ => none
  | rounds+1, t, count =>
    if t < 10 then some count
    else if t < 100 then some (count+1)
    else if t < 1000 then some (count+2)
    else if t < 10000 then some (count+3)
    else countDigitRounds rounds (t/10000) (count+4)

lemma toNat_add_of_le {count k : UInt64} (hcount : count.toNat + 4 < 2^64) (hk : k.toNat ≤ 4) :
    (count+k).toNat = count.toNat + k.toNat := by
  rw [UInt64.toNat_add]
  exact Nat.mod_eq_of_lt (by omega)

/-- With at most four digits left the loop returns. -/
lemma countDigitRounds_of_lt (rounds : ℕ) {t count : UInt64} (ht : t.toNat < 10000)
    (hcount : count.toNat + 4 < 2^64) : ∃ c, countDigitRounds (rounds+1) t count = some c ∧
      c.toNat = countDigitLoop (rounds+1) t.toNat count.toNat := by
  rw [countDigitRounds, countDigitLoop]
  simp only [UInt64.lt_iff_toNat_lt, UInt64.reduceToNat, ht, if_true]
  split_ifs
  · exact ⟨count,rfl,rfl⟩
  · exact ⟨count+1,rfl,toNat_add_of_le hcount (by decide)⟩
  · exact ⟨count+2,rfl,toNat_add_of_le hcount (by decide)⟩
  · exact ⟨count+3,rfl,toNat_add_of_le hcount (by decide)⟩

/-- A round for each four digits of `t` is enough, and nothing overflows on the way. -/
lemma countDigitRounds_eq_some (rounds : ℕ) (t count : UInt64) (ht : t.toNat < 10000^(rounds+1))
    (hcount : count.toNat + 4*(rounds+1) < 2^64) : ∃ c, countDigitRounds (rounds+1) t count = some c ∧
      c.toNat = countDigitLoop (rounds+1) t.toNat count.toNat := by
  induction rounds generalizing t count with
  | zero => exact countDigitRounds_of_lt 0 ht hcount
  | succ rounds ih =>
    by_cases hlast : t.toNat < 10000
    · exact countDigitRounds_of_lt (rounds+1) hlast (by omega)
    · have hnext : (t/10000).toNat = t.toNat/10000 := UInt64.toNat_div t 10000
      have hcount' : (count+4).toNat = count.toNat + 4 := toNat_add_of_le (by omega) (by decide)
      have hlt : (t/10000).toNat < 10000^(rounds+1) := by
        rw [hnext, Nat.div_lt_iff_lt_mul (by norm_num), ← pow_succ]
        exact ht
      have h1 : ¬t.toNat < 10 := by omega
      have h2 : ¬t.toNat < 100 := by omega
      have h3 : ¬t.toNat < 1000 := by omega
      rw [countDigitRounds, countDigitLoop]
      simp only [UInt64.lt_iff_toNat_lt, UInt64.reduceToNat, h1, h2, h3, hlast, if_false]
      rw [← hnext, ← hcount']
      exact ih (t/10000) (count+4) hlt (by omega)

/-- An elapsed time is printed as an unsigned 64-bit value, a negative one wrapped around. -/
lemma elapsedCount_lt (unit : List Char) (elapsed : ℤ) : elapsedCount unit elapsed < 2^64 := by
  have hwrap : ∀ x : ℤ, toUInt64 x < 2^64 := by
    intro x
    have hpos : 0 ≤ x % 2^64 := Int.emod_nonneg x (by norm_num)
    have hlt : x % 2^64 < 2^64 := Int.emod_lt_of_pos x (by norm_num)
    rw [toUInt64]
    omega
  unfold elapsedCount
  split_ifs
  · exact hwrap _
  · exact hwrap _
  · exact hwrap _
  · exact hwrap _
  · norm_num

/-- For every value the loop returns in the fifth round at the latest, and what it returns is
the length of the printed value; the values the formatters count are among these. -/
theorem countDigitRounds_printed :
    (∀ t : UInt64, ∃ c, countDigitRounds 5 t 1 = some c ∧ c.toNat = (toDecimal t.toNat).length ∧
      countDigit t.toNat = c.toNat) ∧
    ∀ (unit : List Char) (elapsed : ℤ), ∃ t : UInt64, t.toNat = elapsedCount unit elapsed := by
  constructor
  · intro t
    have ht : t.toNat < 10000^5 := lt_trans t.toNat_lt (by norm_num)
    obtain ⟨c,hc,hloop⟩ := countDigitRounds_eq_some 4 t 1 ht (by decide)
    have hlen := countDigitLoop_eq 5 t.toNat 1 ht
    change c.toNat = countDigitLoop 5 t.toNat 1 at hloop
    have hprinted : c.toNat = (toDecimal t.toNat).length := by omega
    exact ⟨c,hc,hprinted,by rw [countDigit_eq, hprinted]⟩
  · intro unit elapsed
    exact ⟨UInt64.ofNat (elapsedCount unit elapsed),UInt64.toNat_ofNat_of_lt' (elapsedCount_lt unit elapsed)⟩

end Astlog
