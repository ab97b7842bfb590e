import Astlog.MemBuf.InlineBuffer

/-! The record buffer next to an ordinary string: the same calls on both, from empty. -/
namespace Astlog

/-- A call of one of the three overloads of `append`, or of `erase`. -/
inductive BufOp
  | append (data : List Char)
  | appendView (value : List Char)
  | appendChar (value : Char)
  | erase (size : ℕ)
  deriving DecidableEq, Repr

namespace InlineBuffer
variable {N : ℕ}

/-- `append(std::string_view)`. -/
def appendView (b : InlineBuffer N) (value : List Char) : InlineBuffer N := b.append value

/-- `append(char)`. -/
def appendChar (b : InlineBuffer N) (value : Char) : InlineBuffer N := b.append [value]

def apply (b : InlineBuffer N) : BufOp → InlineBuffer N
  | .append data => b.append data
  | .appendView value => b.appendView value
  | .appendChar value => b.appendChar value
  | .erase size => b.erase size

/-- The buffer after a sequence of calls. -/
def applyAll (b : InlineBuffer N) (ops : List BufOp) : InlineBuffer N := ops.foldl apply b

theorem apply_wf {b : InlineBuffer N} (hb : b.Wf) (op : BufOp) : (b.apply op).Wf := by
  cases op with
  | append data => exact append_wf hb data
  | appendView value => exact append_wf hb value
  | appendChar value => exact append_wf hb [value]
  | erase size => exact erase_wf hb size

theorem applyAll_wf {b : InlineBuffer N} (hb : b.Wf) (ops : List BufOp) : (b.applyAll ops).Wf := by
  induction ops generalizing b with
  | nil => exact hb
  | cons op ops ih => exact ih (apply_wf hb op)

/-- `data()` points to at least `size()` characters. -/
lemma size_le_data_length {b : InlineBuffer N} (hb : b.Wf) : b.size ≤ b.data.length := by
  have hview : (b.data.take b.size).length = b.size := view_length hb
  rw [List.length_take] at hview
  omega

/-- After any calls the size is in step with the storage in use, and each overload of
`append` extends what the buffer shows. -/
theorem inStep_applyAll (N : ℕ) (ops : List BufOp) :
    let b := (empty N).applyAll ops
    (b.mOverflow ≠ [] → b.mOverflow.length = b.mSize) ∧ (b.mOverflow = [] → b.mSize ≤ N) ∧
      b.size ≤ b.data.length ∧ b.view.length = b.size ∧
      (∀ data, (b.append data).view = b.view ++ data) ∧
      (∀ value, (b.appendView value).view = b.view ++ value) ∧
      ∀ value, (b.appendChar value).view = b.view ++ [value] := by
  intro b
  have hb : b.Wf := applyAll_wf (empty_wf N) ops
  refine ⟨hb.overflow_eq,hb.inline_le,size_le_data_length hb,view_length hb,?_,?_,?_⟩
  · exact fun data => view_append hb data
  · exact fun value => view_append hb value
  · exact fun value => view_append hb [value]

end InlineBuffer

namespace BufOp

/-- The call on an ordinary string. -/
def onString (s : List Char) : BufOp → List Char
  | append data => s ++ data
  | appendView value => s ++ value
  | appendChar value => s ++ [value]
  | erase size => s.take size

/-- The string after a sequence of calls. -/
def stringOf (s : List Char) (ops : List BufOp) : List Char := ops.foldl onString s

/-- The call does to a buffer that shows `len` characters what it does to a string: an
erase inside the inline capacity must not reach past the end, and one beyond it must have
nothing to cut. -/
def Faithful (N len : ℕ) : BufOp → Prop
  | erase size => if size < N then size ≤ len else len ≤ size
  | _ => True

instance (N len : ℕ) (op : BufOp) : Decidable (op.Faithful N len) := by
  cases op with
  | erase size => exact inferInstanceAs (Decidable (if size < N then size ≤ len else len ≤ size))
  | _ => exact inferInstanceAs (Decidable True)

/-- Every call of the sequence does, from a string on. -/
def AllFaithful (N : ℕ) (s : List Char) : List BufOp → Prop
  | [] => True
  | op::ops => op.Faithful N s.length ∧ AllFaithful N (op.onString s) ops

end BufOp

open InlineBuffer BufOp

section
variable {N : ℕ} {b : InlineBuffer N}

/-- An erase cuts like the string's exactly when it is faithful. -/
lemma view_erase_iff (hb : b.Wf) (n : ℕ) :
    (b.erase n).view = b.view.take n ↔ (BufOp.erase n).Faithful N b.view.length := by
  rw [view_length hb]
  by_cases hn : n < N
  · rw [Faithful, if_pos hn]
    constructor
    · intro hv
      have hl := congrArg List.length hv
      rw [view_length (erase_wf hb n), erase_mSize b hn, List.length_take, view_length hb] at hl
      omega
    · exact view_erase_of_le hb hn
  · rw [Faithful, if_neg hn, erase_of_le b (by omega), ← view_length hb]
    constructor
    · intro hv
      have hl := congrArg List.length hv
      rw [List.length_take] at hl
      omega
    · exact fun hle => (List.take_of_length_le hle).symm

lemma view_apply_iff (hb : b.Wf) (op : BufOp) :
    (b.apply op).view = op.onString b.view ↔ op.Faithful N b.view.length := by
  cases op with
  | append data => exact iff_of_true (view_append hb data) trivial
  | appendView value => exact iff_of_true (view_append hb value) trivial
  | appendChar value => exact iff_of_true (view_append hb [value]) trivial
  | erase size => exact view_erase_iff hb size

/-- From a buffer and the string it shows: after every call of the sequence the buffer
shows the string, exactly when every call is faithful. -/
lemma allFaithful_iff (hb : b.Wf) (ops : List BufOp) :
    AllFaithful N b.view ops ↔
      ∀ n, (b.applyAll (ops.take n)).view = stringOf b.view (ops.take n) := by
  induction ops generalizing b with
  | nil => exact iff_of_true trivial fun n => by rw [List.take_nil]; rfl
  | cons op ops ih =>
    have hop := view_apply_iff hb op
    constructor
    · rintro ⟨hfaith,hall⟩ n
      cases n with
      | zero => rfl
      | succ n =>
        have hv := hop.mpr hfaith
        rw [← hv] at hall
        have hrest := (ih (apply_wf hb op)).mp hall n
        rw [hv] at hrest
        exact hrest
    · intro hview
      have hv : (b.apply op).view = op.onString b.view := hview 1
      refine ⟨hop.mp hv,?_⟩
      rw [← hv]
      refine (ih (apply_wf hb op)).mpr fun n => ?_
      rw [hv]
      exact hview (n+1)

end

/-- The buffer of capacity `N` shows an ordinary string after every call of the sequence. -/
def RefinesString (N : ℕ) (ops : List BufOp) : Prop :=
  ∀ n, ((empty N).applyAll (ops.take n)).view = stringOf [] (ops.take n)

theorem refinesString_iff (N : ℕ) (ops : List BufOp) :
    RefinesString N ops ↔ AllFaithful N [] ops := by
  have h := allFaithful_iff (empty_wf N) ops
  rw [empty_view] at h
  exact h.symm

/-- An erase below the length that the capacity does not exceed leaves everything in place. -/
theorem erase_beyond_capacity : ¬∀ (N : ℕ) (ops : List BufOp), 1 ≤ N →
    ((empty N).applyAll ops).view = stringOf [] ops := by
  intro h
  have hview := h 4 [.append "abcdef".toList,.erase 5] (by norm_num)
  revert hview
  decide

end Astlog
