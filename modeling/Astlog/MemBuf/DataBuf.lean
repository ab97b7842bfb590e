import Astlog.Foundation.Ring

/-! The pool's message queue: a circular store of uninitialised slots that drops its
oldest element when a push finds it full. -/
namespace Astlog
open Foundation

/-- `DataBuf<DataType, CacheSize>`. A slot is `none` while no object lives in it. -/
structure DataBuf (α : Type) (N : ℕ) where
  mStorage : List (Option α) := List.replicate N none
  mHead : ℕ := 0
  mTail : ℕ := 0
  deriving DecidableEq

namespace DataBuf
variable {α : Type} {N : ℕ}

def empty (b : DataBuf α N) : Bool := b.mHead = b.mTail

/-- `front`: the object at the head, or null. -/
def front (b : DataBuf α N) : Option α :=
  if b.mHead = b.mTail then none else b.mStorage[b.mHead]?.join

/-- `std::destroy_at(ptr_at(head))` and the step of the head past it. -/
def dropHead (b : DataBuf α N) : DataBuf α N :=
  { b with
    mStorage := b.mStorage.set b.mHead none
    mHead := (b.mHead+1) % N }

def pop (b : DataBuf α N) : DataBuf α N := if b.mHead = b.mTail then b else b.dropHead

/-- The test with which `push` finds the ring full. -/
def full (b : DataBuf α N) : Bool := (b.mTail+1) % N = b.mHead

/-- `push`: a full ring first destroys its oldest element. -/
def push (b : DataBuf α N) (x : α) : DataBuf α N :=
  let b := if b.full then b.dropHead else b
  { b with
    mStorage := b.mStorage.set b.mTail (some x)
    mTail := (b.mTail+1) % N }

/-- The queued elements, oldest first. -/
def contents (b : DataBuf α N) : List α := ringContents N b.mStorage b.mHead b.mTail

/-- The ring holds exactly `xs`: one live object for each element, in order, and no other. -/
def Holds (b : DataBuf α N) (xs : List α) : Prop := RingHolds N b.mStorage b.mHead b.mTail xs

/-- The queue of bounded length that `push` acts on: when full it loses its first element. -/
def pushDropOldest (N : ℕ) (xs : List α) (x : α) : List α :=
  (if xs.length+1 = N then xs.tail else xs) ++ [x]

/-- What a push destroys: the oldest element of a full ring. -/
def droppedByPush (N : ℕ) (xs : List α) : List α :=
  if xs.length+1 = N then xs.head?.toList else []

/-- A push appends, and what it destroys was in front. -/
theorem droppedByPush_append (N : ℕ) (xs : List α) (x : α) :
    droppedByPush N xs ++ pushDropOldest N xs x = xs ++ [x] := by
  unfold droppedByPush pushDropOldest
  cases xs <;> split <;> rfl

theorem pushDropOldest_sublist (N : ℕ) (xs : List α) (x : α) :
    (pushDropOldest N xs x).Sublist (xs ++ [x]) := by
  rw [← droppedByPush_append N xs x]
  exact List.sublist_append_right _ _

theorem holds_nil (hN : 0 < N) : Holds ({} : DataBuf α N) [] := RingHolds.nil hN

namespace Holds
variable {b : DataBuf α N} {xs : List α}

theorem contents_eq (h : b.Holds xs) : b.contents = xs := RingHolds.contents_eq h

theorem empty_iff (h : b.Holds xs) : b.empty = true ↔ xs = [] := by
  rw [DataBuf.empty, decide_eq_true_eq]
  exact h.head_eq_tail_iff

theorem full_iff (h : b.Holds xs) : b.full = true ↔ xs.length+1 = N := by
  rw [full, decide_eq_true_eq]
  exact h.next_tail_eq_head_iff

theorem front_eq (h : b.Holds xs) : b.front = xs.head? := by
  have he := h.head_eq_tail_iff
  unfold front
  cases xs with
  | nil => rw [if_pos (he.mpr rfl)]; rfl
  | cons x xs =>
    rw [if_neg (RingHolds.head_ne_tail h), RingHolds.head_cell h]
    rfl

theorem dropped_eq (h : b.Holds xs) :
    (if b.full then b.front.toList else []) = droppedByPush N xs := by
  simp only [droppedByPush, h.full_iff, h.front_eq]

theorem dropHead {x : α} (h : b.Holds (x::xs)) : b.dropHead.Holds xs := RingHolds.pop h

theorem pop (h : b.Holds xs) : b.pop.Holds xs.tail := by
  have he := h.head_eq_tail_iff
  unfold DataBuf.pop
  cases xs with
  | nil => rwa [if_pos (he.mpr rfl)]
  | cons x xs =>
    rw [if_neg (RingHolds.head_ne_tail h)]
    exact h.dropHead

theorem push (h : b.Holds xs) (hN : 2 ≤ N) (x : α) : (b.push x).Holds (pushDropOldest N xs x) := by
  have hf := h.full_iff
  have hlt := h.fits
  unfold DataBuf.push pushDropOldest
  by_cases hl : xs.length+1 = N
  · rw [if_pos (hf.mpr hl), if_pos hl]
    cases xs with
    | nil => simp only [List.length_nil] at hl; omega
    | cons y ys =>
      simp only [List.length_cons] at hl
      exact RingHolds.push h.dropHead (by omega) x
  · rw [if_neg (fun h => hl (hf.mp h)), if_neg hl]
    exact RingHolds.push h (by omega) x

end Holds
end DataBuf
end Astlog
