import Mathlib.Data.List.Basic
import Mathlib.Tactic

/-! The record buffer: a fixed inline array that gives way to a vector once the
text no longer fits. A `char` is modelled by `Char`; nothing depends on its width. -/
namespace Astlog

/-- The NUL character. -/
def nul : Char := '\x00'

/-- `inlineBuffer<INLINE_CAPACITY>`. The array has its length by type; how the
vector and the size relate is proved of the operations, not assumed. -/
structure InlineBuffer (N : ℕ) where
  mInline : List Char
  mOverflow : List Char
  mSize : ℕ
  inline_length : mInline.length = N
  deriving DecidableEq

namespace InlineBuffer
variable {N : ℕ}

/-- A freshly constructed buffer: zeroed array, no vector. -/
def empty (N : ℕ) : InlineBuffer N := ⟨List.replicate N nul, [], 0, List.length_replicate⟩

/-- `memcpy` of `data` to position `i` of a store. -/
def copyAt (store : List Char) (i : ℕ) (data : List Char) : List Char :=
  store.take i ++ data ++ store.drop (i + data.length)

theorem copyAt_length {store data : List Char} {i : ℕ} (h : i + data.length ≤ store.length) :
    (copyAt store i data).length = store.length := by
  simp only [copyAt, List.length_append, List.length_take, List.length_drop]
  omega

/-- `append(data, size)`, of which the `string_view` and `char` overloads are cases. -/
def append (b : InlineBuffer N) (data : List Char) : InlineBuffer N :=
  if data.length = 0 then b
  else if h : b.mOverflow.isEmpty ∧ b.mSize + data.length ≤ N then
    { b with
      mInline := copyAt b.mInline b.mSize data
      mSize := b.mSize + data.length
      inline_length := by rw [copyAt_length (by rw [b.inline_length]; exact h.2), b.inline_length] }
  else
    -- the first spill copies what the array shows; after that the vector only grows
    let overflow := if b.mOverflow.isEmpty then b.mInline.take b.mSize else b.mOverflow
    { b with
      mOverflow := overflow ++ data
      mSize := (overflow ++ data).length }

/-- `std::vector::resize`: cut, or extend by value-initialised characters. -/
def resize (v : List Char) (n : ℕ) : List Char :=
  v.take n ++ List.replicate (n - v.length) nul

/-- `erase(size)`. The comparison is with the inline capacity whatever the storage in
use; at or beyond it the call does nothing. -/
def erase (b : InlineBuffer N) (size : ℕ) : InlineBuffer N :=
  if size < N then
    if b.mOverflow.isEmpty then
      { b with
        mInline := b.mInline.set size nul
        mSize := size
        inline_length := by rw [List.length_set, b.inline_length] }
    else
      -- the store to m_overflow[m_size] that follows the resize is one past the end, so it
      -- changes no element of the vector
      { b with
        mOverflow := resize b.mOverflow size
        mSize := size }
  else b

/-- The storage `data()` points to. -/
def data (b : InlineBuffer N) : List Char :=
  if b.mOverflow.isEmpty then b.mInline else b.mOverflow

/-- `size()`. -/
def size (b : InlineBuffer N) : ℕ := b.mSize

/-- `view()`: the first `size()` characters at `data()`. -/
def view (b : InlineBuffer N) : List Char := b.data.take b.size

/-- A store of one character through the pointer `data()`, at offset `i`. Past the end of the
storage it is undefined, and in the source would change `m_overflow` and `m_size`, which follow
`m_inline`. Here it is dropped, so what is said of calls that return is for texts that fit. -/
def storeAt (b : InlineBuffer N) (i : ℕ) (c : Char) : InlineBuffer N :=
  if b.mOverflow.isEmpty then
    { b with
      mInline := b.mInline.set i c
      inline_length := by rw [List.length_set, b.inline_length] }
  else { b with mOverflow := b.mOverflow.set i c }

/-- The two facts that tie the size to the storage in use. -/
structure Wf (b : InlineBuffer N) : Prop where
  inline_le : b.mOverflow = [] → b.mSize ≤ N
  overflow_eq : b.mOverflow ≠ [] → b.mOverflow.length = b.mSize

@[simp] theorem empty_view (N : ℕ) : (empty N).view = [] := by simp [view, empty, size]

theorem empty_wf (N : ℕ) : (empty N).Wf := ⟨fun _ => Nat.zero_le N, fun h => (h rfl).elim⟩

theorem copyAt_take (store data : List Char) {i : ℕ} (h : i ≤ store.length) :
    (copyAt store i data).take (i + data.length) = store.take i ++ data := by
  rw [copyAt, List.take_append_of_le_length (by simp; omega), List.take_of_length_le (by simp)]

/-- The copy changes the bytes it covers and no others. -/
theorem getElem?_copyAt {store data : List Char} {i : ℕ} (h : i + data.length ≤ store.length)
    (k : ℕ) : (copyAt store i data)[k]? =
      if i ≤ k ∧ k < i + data.length then data[k-i]? else store[k]? := by
  have hi : (store.take i).length = i := List.length_take_of_le (by omega)
  have hd : (store.take i ++ data).length = i + data.length := by rw [List.length_append, hi]
  unfold copyAt
  by_cases hk : k < i + data.length
  · rw [List.getElem?_append_left (by omega)]
    by_cases hki : i ≤ k
    · rw [if_pos ⟨hki,hk⟩, List.getElem?_append_right (by omega), hi]
    · rw [if_neg (fun hc => hki hc.1), List.getElem?_append_left (by omega),
        List.getElem?_take_of_lt (by omega)]
  · rw [if_neg (fun hc => hk hc.2), List.getElem?_append_right (by omega), hd, List.getElem?_drop]
    congr 1
    omega

theorem view_of_inline {b : InlineBuffer N} (h : b.mOverflow = []) :
    b.view = b.mInline.take b.mSize := by simp [view, data, size, h]

theorem view_of_overflow {b : InlineBuffer N} (hb : b.Wf) (h : b.mOverflow ≠ []) :
    b.view = b.mOverflow := by
  have hs := hb.overflow_eq h
  simp [view, data, size, h, ← hs]

theorem view_length {b : InlineBuffer N} (hb : b.Wf) : b.view.length = b.mSize := by
  by_cases h : b.mOverflow = []
  · rw [view_of_inline h, List.length_take, b.inline_length]
    exact Nat.min_eq_left (hb.inline_le h)
  · rw [view_of_overflow hb h, hb.overflow_eq h]

@[simp] theorem append_nil (b : InlineBuffer N) : b.append [] = b := rfl

/-- The three ways an append can go. -/
theorem append_cases (b : InlineBuffer N) (d : List Char) :
    (d = [] ∧ b.append d = b) ∨
    (b.mOverflow = [] ∧ b.mSize + d.length ≤ N ∧ (b.append d).mOverflow = [] ∧
      (b.append d).mInline = copyAt b.mInline b.mSize d ∧ (b.append d).mSize = b.mSize + d.length) ∨
    (d ≠ [] ∧ (b.append d).mInline = b.mInline ∧
      (b.mOverflow = [] → N < b.mSize + d.length ∧
        (b.append d).mOverflow = b.mInline.take b.mSize ++ d) ∧
      (b.mOverflow ≠ [] → (b.append d).mOverflow = b.mOverflow ++ d) ∧
      (b.append d).mSize = (b.append d).mOverflow.length) := by
  unfold append
  by_cases hd : d = []
  · left; simp [hd]
  by_cases ho : b.mOverflow = []
  · by_cases hs : b.mSize + d.length ≤ N
    · right; left; simp [hd, ho, hs]
    · right; right; simp [hd, ho, hs]; omega
  · right; right; simp [hd, ho]

theorem append_wf {b : InlineBuffer N} (hb : b.Wf) (d : List Char) : (b.append d).Wf := by
  obtain ⟨-, he⟩ | ⟨-, hs, ho, -, hz⟩ | ⟨hd, -, h0, h1, hz⟩ := b.append_cases d
  · rwa [he]
  · exact ⟨fun _ => by omega, fun h => (h ho).elim⟩
  · refine ⟨fun h => ?_, fun _ => hz.symm⟩
    -- the vector ends in the non-empty `d`, so this case is impossible
    by_cases ho : b.mOverflow = []
    · simp [(h0 ho).2, hd] at h
    · simp [h1 ho, hd] at h

/-- An append extends the view, in either storage and across the switch. -/
@[simp] theorem view_append {b : InlineBuffer N} (hb : b.Wf) (d : List Char) :
    (b.append d).view = b.view ++ d := by
  have hw := append_wf hb d
  obtain ⟨hd, he⟩ | ⟨ho, hs, ho', hi, hz⟩ | ⟨hd, -, h0, h1, -⟩ := b.append_cases d
  · rw [he, hd, List.append_nil]
  · rw [view_of_inline ho', view_of_inline ho, hi, hz, copyAt_take]
    rw [b.inline_length]
    exact hb.inline_le ho
  · by_cases ho : b.mOverflow = []
    · rw [view_of_overflow hw (by simp [(h0 ho).2, hd]), view_of_inline ho, (h0 ho).2]
    · rw [view_of_overflow hw (by simp [h1 ho, hd]), view_of_overflow hb ho, h1 ho]

theorem append_mSize {b : InlineBuffer N} (hb : b.Wf) (d : List Char) :
    (b.append d).mSize = b.mSize + d.length := by
  rw [← view_length (append_wf hb d), view_append hb, List.length_append, view_length hb]

@[simp] theorem resize_length (v : List Char) (n : ℕ) : (resize v n).length = n := by
  simp only [resize, List.length_append, List.length_take, List.length_replicate]
  omega

theorem erase_of_le (b : InlineBuffer N) {n : ℕ} (h : N ≤ n) : b.erase n = b := by
  simp [erase, Nat.not_lt.mpr h]

theorem erase_mSize (b : InlineBuffer N) {n : ℕ} (h : n < N) : (b.erase n).mSize = n := by
  simp only [erase, h, if_true]
  split <;> rfl

theorem erase_wf {b : InlineBuffer N} (hb : b.Wf) (n : ℕ) : (b.erase n).Wf := by
  by_cases hn : n < N
  · by_cases ho : b.mOverflow = []
    · refine ⟨fun _ => ?_, fun h => ?_⟩
      · rw [erase_mSize b hn]; exact Nat.le_of_lt hn
      · simp [erase, hn, ho] at h
    · refine ⟨fun _ => ?_, fun _ => ?_⟩
      · rw [erase_mSize b hn]; exact Nat.le_of_lt hn
      · simp [erase, hn, ho]
  · rwa [erase_of_le b (by omega)]

/-- What an erase that takes effect leaves visible: the first `n` characters of the
storage in use, and past the end of the vector zeros. -/
theorem view_erase {b : InlineBuffer N} {n : ℕ} (h : n < N) :
    (b.erase n).view = if b.mOverflow = [] then b.mInline.take n else resize b.mOverflow n := by
  by_cases ho : b.mOverflow = []
  · simp [erase, h, ho, view, data, size, List.take_set_of_le]
  · by_cases h0 : n = 0
    · simp [erase, h0, h0 ▸ h, ho, view, size, resize]
    · have hne : resize b.mOverflow n ≠ [] := by
        intro he
        have := congrArg List.length he
        simp only [resize_length, List.length_nil] at this
        exact h0 this
      simp only [erase, h, if_true, List.isEmpty_iff, ho, if_false, view, data, size, hne]
      exact List.take_of_length_le (by simp)

/-- A shrinking erase cuts the view. -/
theorem view_erase_of_le {b : InlineBuffer N} (hb : b.Wf) {n : ℕ} (h : n < N) (hn : n ≤ b.mSize) :
    (b.erase n).view = b.view.take n := by
  rw [view_erase h]
  split_ifs with ho
  · rw [view_of_inline ho, List.take_take, Nat.min_eq_left hn]
  · have hl := hb.overflow_eq ho
    rw [view_of_overflow hb ho, resize, hl, Nat.sub_eq_zero_of_le hn]
    simp

@[simp] theorem storeAt_mSize (b : InlineBuffer N) (i : ℕ) (c : Char) :
    (b.storeAt i c).mSize = b.mSize := by
  unfold storeAt
  split <;> rfl

end InlineBuffer
end Astlog
