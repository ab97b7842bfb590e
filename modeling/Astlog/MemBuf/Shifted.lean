import Astlog.MemBuf.InlineBuffer

/-! Two buffers that are written alike, one of them behind a prefix. Appends keep them
alike wherever the storage switches; an erase does so only under a condition on its position. -/
namespace Astlog
namespace InlineBuffer
variable {N : ℕ}

/-- `c` shows the prefix `p` and then what `f` shows. Until the text behind the prefix has
outgrown the array, the arrays agree as well, also behind the end of the text. -/
structure Shifted (p : List Char) (spilled : Bool) (f c : InlineBuffer N) : Prop where
  wf : f.Wf
  wf' : c.Wf
  view_eq : c.view = p ++ f.view
  inline : spilled = false → f.mOverflow = [] ∧ c.mOverflow = [] ∧
    ∀ k, p.length + k < N → c.mInline[p.length+k]? = f.mInline[k]?
  overflow : spilled = true → c.mOverflow ≠ []

lemma append_overflow_ne {b : InlineBuffer N} (d : List Char)
    (h : b.mOverflow ≠ [] ∨ N < b.mSize + d.length ∧ d ≠ []) : (b.append d).mOverflow ≠ [] := by
  obtain ⟨hd,he⟩ | ⟨ho,hs,-⟩ | ⟨hd,-,h0,h1,-⟩ := b.append_cases d
  · rw [he]
    exact h.resolve_right fun hc => hc.2 hd
  · obtain hne | hlt := h
    · exact absurd ho hne
    · omega
  · by_cases ho : b.mOverflow = []
    · simp [(h0 ho).2, hd]
    · simp [h1 ho, hd]

namespace Shifted
variable {p : List Char} {spilled : Bool} {f c : InlineBuffer N}

theorem size_eq (h : Shifted p spilled f c) : c.mSize = p.length + f.mSize := by
  rw [← view_length h.wf', h.view_eq, List.length_append, view_length h.wf]

/-- A buffer that starts with the prefix, next to an empty one. -/
theorem start (N : ℕ) (p : List Char) :
    Shifted p (decide (N < p.length)) (empty N) ((empty N).append p) where
  wf := empty_wf N
  wf' := append_wf (empty_wf N) p
  view_eq := by rw [view_append (empty_wf N), empty_view, List.nil_append, List.append_nil]
  inline hs := by
    have hle : ¬N < p.length := of_decide_eq_false hs
    obtain ⟨hd,he⟩ | ⟨-,-,ho,hi,-⟩ | ⟨-,-,h0,-,-⟩ := (empty N).append_cases p
    · subst hd
      exact ⟨rfl,rfl,fun k _ => by rw [List.length_nil, Nat.zero_add]; rfl⟩
    · refine ⟨rfl,ho,fun k hk => ?_⟩
      have hlen : (empty N).mSize + p.length ≤ (empty N).mInline.length := by
        simp only [empty, List.length_replicate]
        omega
      have hout : ¬((empty N).mSize ≤ p.length+k ∧ p.length+k < (empty N).mSize + p.length) := by
        simp only [empty]
        omega
      rw [hi, getElem?_copyAt hlen, if_neg hout]
      simp [empty, hk, show k < N by omega]
    · have := (h0 rfl).1
      simp only [empty] at this
      omega
  overflow hs := by
    have hlt : N < p.length := of_decide_eq_true hs
    refine append_overflow_ne p (.inr ⟨by simp only [empty]; omega,?_⟩)
    rintro rfl
    simp at hlt

/-- While the arrays are in use, the prefixed text fits. -/
lemma fits (h : Shifted p false f c) : p.length + f.mSize ≤ N := by
  rw [← h.size_eq]
  exact h.wf'.inline_le (h.inline rfl).2.1

/-- Equal appends. -/
lemma append (h : Shifted p spilled f c) (d : List Char) :
    Shifted p (spilled || decide (N < p.length + (f.mSize + d.length))) (f.append d) (c.append d) where
  wf := append_wf h.wf d
  wf' := append_wf h.wf' d
  view_eq := by rw [view_append h.wf', view_append h.wf, h.view_eq, List.append_assoc]
  inline hs := by
    obtain ⟨hin,hle⟩ := Bool.or_eq_false_iff.mp hs
    have hle : ¬N < p.length + (f.mSize + d.length) := of_decide_eq_false hle
    obtain ⟨hf,hc,heq⟩ := h.inline hin
    have hsize := h.size_eq
    obtain ⟨rfl,-⟩ | ⟨-,-,ho,hi,-⟩ | ⟨-,-,h0,-,-⟩ := f.append_cases d
    · exact h.inline hin
    · obtain ⟨rfl,-⟩ | ⟨-,-,ho',hi',-⟩ | ⟨-,-,h0',-,-⟩ := c.append_cases d
      · exact h.inline hin
      · refine ⟨ho,ho',fun k hk => ?_⟩
        have hfit : f.mSize + d.length ≤ f.mInline.length := by rw [f.inline_length]; omega
        have hfit' : p.length + f.mSize + d.length ≤ c.mInline.length := by
          rw [c.inline_length]
          omega
        rw [hi, hi', hsize, getElem?_copyAt hfit, getElem?_copyAt hfit', heq k hk]
        by_cases hin : f.mSize ≤ k ∧ k < f.mSize + d.length
        · rw [if_pos hin, if_pos (by omega)]
          congr 1
          omega
        · rw [if_neg hin, if_neg (by omega)]
      · have := (h0' hc).1
        omega
    · have := (h0 hf).1
      omega
  overflow hs := by
    have hsize := h.size_eq
    by_cases hs' : spilled = true
    · exact append_overflow_ne d (.inl (h.overflow hs'))
    · have hc := (h.inline (by simpa using hs')).2.1
      have hle := h.wf'.inline_le hc
      have hlt : N < p.length + (f.mSize + d.length) := by simpa [hs'] using hs
      refine append_overflow_ne d (.inr ⟨by omega,?_⟩)
      rintro rfl
      simp only [List.length_nil] at hlt
      omega

/-- Equal appends, one after the other. -/
theorem appends (h : Shifted p spilled f c) (ds : List (List Char)) :
    Shifted p (spilled || decide (N < p.length + (f.mSize + (ds.map List.length).sum)))
      (ds.foldl InlineBuffer.append f) (ds.foldl InlineBuffer.append c) := by
  induction ds generalizing spilled f c with
  | nil =>
    cases spilled with
    | true => exact h
    | false =>
      have hle : ¬N < p.length + f.mSize := not_lt.mpr h.fits
      simpa [hle] using h
  | cons d ds ih =>
    have hd := ih (h.append d)
    have hflag : (spilled || decide (N < p.length + (f.mSize + d.length)) ||
        decide (N < p.length + ((f.append d).mSize + (ds.map List.length).sum))) =
        (spilled || decide (N < p.length + (f.mSize + ((d::ds).map List.length).sum))) := by
      rw [append_mSize h.wf, List.map_cons, List.sum_cons, Bool.or_assoc, ← Bool.decide_or]
      congr 2
      apply propext
      constructor <;> omega
    rwa [hflag] at hd

/-- What an erase past the end brings to light. -/
def uncovered (b : InlineBuffer N) (n : ℕ) : List Char :=
  if b.mOverflow = [] then (b.mInline.take n).drop b.mSize else List.replicate (n-b.mSize) nul

lemma view_erase_eq {b : InlineBuffer N} (hb : b.Wf) {n : ℕ} (hn : n < N) :
    (b.erase n).view = b.view.take n ++ uncovered b n := by
  rw [view_erase hn, uncovered]
  split_ifs with ho
  · rw [view_of_inline ho, List.take_take, Nat.min_comm, ← List.take_take, List.take_append_drop]
  · rw [view_of_overflow hb ho, resize, hb.overflow_eq ho]

lemma uncovered_of_le (b : InlineBuffer N) {n : ℕ} (h : n ≤ b.mSize) : uncovered b n = [] := by
  unfold uncovered
  split
  · exact List.drop_of_length_le (by rw [List.length_take]; omega)
  · rw [Nat.sub_eq_zero_of_le h]
    rfl

/-- The condition under which an erase to `n` in the one buffer and to the place behind
the prefix in the other do the same: both take effect or neither matters, and characters
behind the end that only one array still has are not brought back. -/
def EraseOk (plen : ℕ) (spilled : Bool) (f : InlineBuffer N) (n : ℕ) : Prop :=
  n < N → (n = f.mSize ∨ plen + n < N) ∧
    (f.mSize < n → spilled = true → f.mOverflow = [] →
      (f.mInline.take n).drop f.mSize = List.replicate (n-f.mSize) nul)

instance (plen : ℕ) (spilled : Bool) (f : InlineBuffer N) (n : ℕ) :
    Decidable (EraseOk plen spilled f n) := inferInstanceAs (Decidable (_ → _))

/-- While both arrays are in use they have the same characters behind the end. -/
lemma uncovered_eq (h : Shifted p false f c) {n : ℕ} (hn : p.length + n < N) :
    uncovered c (p.length+n) = uncovered f n := by
  obtain ⟨hf,hc,heq⟩ := h.inline rfl
  rw [uncovered, uncovered, if_pos hf, if_pos hc, h.size_eq]
  apply List.ext_getElem?
  intro k
  rw [List.getElem?_drop, List.getElem?_drop, List.getElem?_take, List.getElem?_take, Nat.add_assoc]
  by_cases hk : f.mSize + k < n
  · rw [if_pos hk, if_pos (by omega), heq _ (by omega)]
  · rw [if_neg hk, if_neg (by omega)]

/-- Once the prefixed text has left its array, an erase past the end shows NUL. -/
lemma uncovered_spilled (h : Shifted p true f c) (n : ℕ) :
    uncovered c (p.length+n) = List.replicate (n-f.mSize) nul := by
  rw [uncovered, if_neg (h.overflow rfl), h.size_eq, Nat.add_sub_add_left]

lemma uncovered_eq_iff (h : Shifted p spilled f c) {n : ℕ} (hn : p.length + n < N) :
    uncovered c (p.length+n) = uncovered f n ↔
      (f.mSize < n → spilled = true → f.mOverflow = [] →
        (f.mInline.take n).drop f.mSize = List.replicate (n-f.mSize) nul) := by
  cases spilled with
  | false => exact iff_of_true (h.uncovered_eq hn) (fun _ hs => nomatch hs)
  | true =>
    rw [h.uncovered_spilled]
    by_cases hlt : f.mSize < n
    · unfold uncovered
      split_ifs with ho
      · exact ⟨fun he _ _ _ => he.symm,fun he => (he hlt rfl ho).symm⟩
      · exact iff_of_true rfl fun _ _ hc => absurd hc ho
    · rw [uncovered_of_le f (by omega), Nat.sub_eq_zero_of_le (by omega)]
      exact iff_of_true rfl fun hc => absurd hc hlt

/-- The texts agree after an erase exactly when the erase is harmless. -/
theorem erase_view_iff (h : Shifted p spilled f c) (n : ℕ) :
    (c.erase (p.length+n)).view = p ++ (f.erase n).view ↔ EraseOk p.length spilled f n := by
  by_cases hn : n < N
  · by_cases hpn : p.length + n < N
    · have htake : c.view.take (p.length+n) = p ++ f.view.take n := by
        rw [h.view_eq, List.take_length_add_append]
      rw [view_erase_eq h.wf' hpn, view_erase_eq h.wf hn, htake, List.append_assoc,
        List.append_right_inj, List.append_right_inj, h.uncovered_eq_iff hpn]
      exact ⟨fun hu _ => ⟨.inr hpn,hu⟩,fun hok => (hok hn).2⟩
    · rw [erase_of_le c (by omega), h.view_eq, List.append_right_inj]
      constructor
      · intro hv
        have hl := congrArg List.length hv
        rw [view_length h.wf, view_length (erase_wf h.wf n), erase_mSize f hn] at hl
        exact fun _ => ⟨.inl hl.symm,fun hlt => absurd hlt (by omega)⟩
      · intro hok
        have hsize : n = f.mSize := (hok hn).1.resolve_right hpn
        rw [view_erase_of_le h.wf hn hsize.le, hsize, ← view_length h.wf, List.take_length]
  · rw [erase_of_le f (by omega), erase_of_le c (by omega)]
    exact iff_of_true h.view_eq fun hc => absurd hc hn

lemma erase_mOverflow_ne {b : InlineBuffer N} (h : b.mOverflow ≠ []) {n : ℕ} (hn : 0 < n) :
    (b.erase n).mOverflow ≠ [] := by
  by_cases hlt : n < N
  · intro he
    have hl := congrArg List.length he
    simp [erase, hlt, h] at hl
    omega
  · rwa [erase_of_le b (by omega)]

/-- A harmless erase keeps the buffers alike. -/
theorem erase (h : Shifted p spilled f c) (hp : p ≠ []) {n : ℕ} (hok : EraseOk p.length spilled f n) :
    Shifted p spilled (f.erase n) (c.erase (p.length+n)) where
  wf := erase_wf h.wf n
  wf' := erase_wf h.wf' _
  view_eq := (h.erase_view_iff n).mpr hok
  inline hs := by
    obtain ⟨hf,hc,heq⟩ := h.inline hs
    have hset : ∀ {b : InlineBuffer N} {n : ℕ}, b.mOverflow = [] → n < N →
        (b.erase n).mOverflow = [] ∧ (b.erase n).mInline = b.mInline.set n nul := by
      intro b n hb hn
      simp [InlineBuffer.erase, hn, hb]
    by_cases hn : n < N
    · obtain ⟨ho,hi⟩ := hset hf hn
      by_cases hpn : p.length + n < N
      · obtain ⟨ho',hi'⟩ := hset hc hpn
        refine ⟨ho,ho',fun k hk => ?_⟩
        rw [hi, hi', List.getElem?_set, List.getElem?_set, heq k hk, f.inline_length, c.inline_length]
        by_cases hkn : n = k
        · rw [if_pos (by omega), if_pos hpn, if_pos hkn, if_pos hn]
        · rw [if_neg (by omega), if_neg hkn]
      · rw [erase_of_le c (by omega)]
        refine ⟨ho,hc,fun k hk => ?_⟩
        rw [hi, List.getElem?_set_ne (by omega), heq k hk]
    · rw [erase_of_le f (by omega), erase_of_le c (by omega)]
      exact h.inline hs
  overflow hs :=
    erase_mOverflow_ne (h.overflow hs) (by have := List.length_pos_iff.mpr hp; omega)

end Shifted
end InlineBuffer
end Astlog
