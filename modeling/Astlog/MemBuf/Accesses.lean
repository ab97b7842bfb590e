import Astlog.MemBuf.PlainString

/-! The elements of its two storages that the record buffer touches, and which calls stay
inside them. -/
namespace Astlog

/-- An access to a storage: a range of `m_inline` copied to or from, an assignment to one
of its elements, and one to an element of `m_overflow` while that has `size` elements. -/
inductive BufAccess
  | copyInline (first count : ℕ)
  | assignInline (i : ℕ)
  | assignOverflow (i size : ℕ)
  deriving DecidableEq, Repr

/-- The access stays in its storage, of which the inline array has `N` elements. -/
def BufAccess.InRange (N : ℕ) : BufAccess → Prop
  | copyInline first count => first+count ≤ N
  | assignInline i => i < N
  | assignOverflow i size => i < size

namespace InlineBuffer
variable {N : ℕ}

/-- What `append(data, size)` touches. The vector grows by `insert`, which indexes nothing. -/
def appendAccesses (b : InlineBuffer N) (data : List Char) : List BufAccess :=
  if data.length = 0 then []
  else if b.mOverflow.isEmpty ∧ b.mSize+data.length ≤ N then [.copyInline b.mSize data.length]
  else if b.mOverflow.isEmpty then [.copyInline 0 b.mSize]
  else []

/-- What `erase(size)` touches: the element at the new size, in the vector after it was
resized to that size. -/
def eraseAccesses (b : InlineBuffer N) (size : ℕ) : List BufAccess :=
  if size < N then
    if b.mOverflow.isEmpty then [.assignInline size]
    else [.assignOverflow size (resize b.mOverflow size).length]
  else []

def accesses (b : InlineBuffer N) : BufOp → List BufAccess
  | .append data => b.appendAccesses data
  | .appendView value => b.appendAccesses value
  | .appendChar value => b.appendAccesses [value]
  | .erase size => b.eraseAccesses size

/-- What a sequence of calls touches, from a buffer on. -/
def allAccesses : InlineBuffer N → List BufOp → List BufAccess
  | _, [] => []
  | b, op::ops => b.accesses op ++ allAccesses (b.apply op) ops

section
variable {b : InlineBuffer N}

lemma appendAccesses_inRange (hb : b.Wf) (data : List Char) :
    ∀ a ∈ b.appendAccesses data, a.InRange N := by
  intro a ha
  unfold appendAccesses at ha
  split_ifs at ha with hnil hfits hinline
  · cases ha
  · rw [List.mem_singleton.mp ha]
    exact hfits.2
  · rw [List.mem_singleton.mp ha]
    have hle := hb.inline_le (List.isEmpty_iff.mp hinline)
    simpa [BufAccess.InRange] using hle
  · cases ha

/-- An erase inside the inline capacity assigns past the end of the vector if that is in use. -/
lemma eraseAccesses_inRange_iff (b : InlineBuffer N) (n : ℕ) :
    (∀ a ∈ b.eraseAccesses n, a.InRange N) ↔ (n < N → b.mOverflow = []) := by
  unfold eraseAccesses
  by_cases hn : n < N
  · by_cases ho : b.mOverflow = []
    · simp [hn, ho, BufAccess.InRange]
    · simp [hn, ho, BufAccess.InRange]
  · simp [hn]

lemma accesses_inRange_iff (hb : b.Wf) (op : BufOp) :
    (∀ a ∈ b.accesses op, a.InRange N) ↔ ∀ n, op = .erase n → n < N → b.mOverflow = [] := by
  cases op with
  | append data => exact iff_of_true (appendAccesses_inRange hb data) fun _ h => by cases h
  | appendView value => exact iff_of_true (appendAccesses_inRange hb value) fun _ h => by cases h
  | appendChar value => exact iff_of_true (appendAccesses_inRange hb [value]) fun _ h => by cases h
  | erase size =>
    refine (eraseAccesses_inRange_iff b size).trans ⟨?_,fun h => h size rfl⟩
    rintro h n heq
    cases heq
    exact h

lemma allAccesses_inRange_iff (hb : b.Wf) (ops : List BufOp) :
    (∀ a ∈ b.allAccesses ops, a.InRange N) ↔
      ∀ before n after, ops = before ++ .erase n::after → n < N →
        (b.applyAll before).mOverflow = [] := by
  induction ops generalizing b with
  | nil => exact iff_of_true (fun a ha => by cases ha) fun before n after h => by simp at h
  | cons op ops ih =>
    have hop := accesses_inRange_iff hb op
    have hrest := ih (apply_wf hb op)
    rw [allAccesses, List.forall_mem_append, hop, hrest]
    constructor
    · rintro ⟨hfirst,hlater⟩ before n after h hn
      cases before with
      | nil => exact hfirst n (List.head_eq_of_cons_eq h) hn
      | cons op' before =>
        obtain ⟨rfl,htail⟩ := List.cons.inj h
        exact hlater before n after htail hn
    · intro h
      refine ⟨fun n hn => h [] n ops (by rw [hn]; rfl),fun before n after hops => ?_⟩
      exact h (op::before) n after (by rw [hops]; rfl)

end
end InlineBuffer

open InlineBuffer

/-- From an empty buffer, all accesses are in range exactly as long as every erase inside
the inline capacity comes while the inline array is in use. -/
theorem inRange_iff (N : ℕ) (ops : List BufOp) :
    (∀ a ∈ (InlineBuffer.empty N).allAccesses ops, a.InRange N) ↔
      ∀ before n after, ops = before ++ .erase n::after → n < N →
        ((InlineBuffer.empty N).applyAll before).mOverflow = [] :=
  allAccesses_inRange_iff (empty_wf N) ops

/-- Three characters spill from an array of two; cut to one, the vector has no element 1. -/
theorem erase_past_end : ¬∀ (N : ℕ), 1 ≤ N → ∀ (ops : List BufOp),
    ∀ a ∈ (InlineBuffer.empty N).allAccesses ops, a.InRange N := by
  intro h
  have hlast := h 2 (by norm_num) [.append "abc".toList,.erase 1] (.assignOverflow 1 1) (by decide)
  exact absurd hlast (lt_irrefl 1)

end Astlog
