import Astlog.MemBuf.DataBuf
import Astlog.Foundation.RawStorage
import Mathlib.Data.List.DropRight

/-! The message queue is a queue that keeps the newest elements, and each object in its
slots is destroyed once. -/
namespace Astlog
open Foundation

/-- A call on the queue. -/
inductive QueueCall (α : Type)
  | push (data : α)
  | pop
  | front
  | empty
  deriving DecidableEq

/-- What a call returns. The object `front` points to stands for its address. -/
inductive QueueAnswer (α : Type)
  | done
  | front (data : Option α)
  | empty (e : Bool)
  deriving DecidableEq

variable {α : Type} {N : ℕ}

/-- A queue that keeps the last `n` elements, oldest first. -/
def keepLast (n : ℕ) (xs : List α) : QueueCall α → List α × QueueAnswer α
  | .push data => ((xs ++ [data]).rtake n,.done)
  | .pop => (xs.tail,.done)
  | .front => (xs,.front xs.head?)
  | .empty => (xs,.empty xs.isEmpty)

namespace DataBuf

def call (b : DataBuf α N) : QueueCall α → DataBuf α N × QueueAnswer α
  | .push data => (b.push data,.done)
  | .pop => (b.pop,.done)
  | .front => (b,.front b.front)
  | .empty => (b,.empty b.empty)

/-- The constructions and destructions of a call, in order. -/
def events (b : DataBuf α N) : QueueCall α → List (SlotEvent α)
  | .push data => (if b.full then [.destroy b.mHead] else []) ++ [.construct b.mTail data]
  | .pop => if b.mHead = b.mTail then [] else [.destroy b.mHead]
  | .front => []
  | .empty => []

/-- The destructor, if its loop ends within `fuel` rounds: the queue it leaves and its
destructions. -/
def destruct : ℕ → DataBuf α N → Option (DataBuf α N × List (SlotEvent α))
  | 0, _ => none
  | fuel+1, b =>
    if b.empty then some (b,[])
    else (destruct fuel b.dropHead).map fun (b',es) => (b',.destroy b.mHead::es)

/-- With one slot free, dropping the oldest of a full ring keeps the last `N-1` elements. -/
lemma pushDropOldest_eq_rtake {xs : List α} (hxs : xs.length < N) (hN : 2 ≤ N) (x : α) :
    pushDropOldest N xs x = (xs ++ [x]).rtake (N-1) := by
  unfold pushDropOldest List.rtake
  rw [List.length_append, List.length_singleton]
  split_ifs with hfull
  · rw [show xs.length+1-(N-1) = 1 by omega, List.drop_one]
    cases xs with
    | nil => simp only [List.length_nil] at hfull; omega
    | cons y ys => rfl
  · rw [show xs.length+1-(N-1) = 0 by omega, List.drop_zero]

namespace Holds
variable {b : DataBuf α N} {xs : List α}

/-- Each call answers as the queue that keeps the last `N-1` elements, and acts like it. -/
lemma call (h : b.Holds xs) (hN : 2 ≤ N) (c : QueueCall α) :
    (b.call c).1.Holds (keepLast (N-1) xs c).1 ∧ (b.call c).2 = (keepLast (N-1) xs c).2 := by
  cases c with
  | push data =>
    refine ⟨?_,rfl⟩
    have hpush := h.push hN data
    rwa [pushDropOldest_eq_rtake h.fits hN] at hpush
  | pop => exact ⟨h.pop,rfl⟩
  | front => exact ⟨h,congrArg QueueAnswer.front h.front_eq⟩
  | empty =>
    refine ⟨h,congrArg QueueAnswer.empty ?_⟩
    rw [Bool.eq_iff_iff, h.empty_iff, List.isEmpty_iff]

lemma dropHead_replays {x : α} (h : b.Holds (x::xs)) :
    Replays b.mStorage [.destroy b.mHead] b.dropHead.mStorage :=
  Replays.destroy (RingHolds.head_cell h)

/-- The events of a call are defined on the slots, and account for all that it changes. -/
lemma replays (h : b.Holds xs) (hN : 2 ≤ N) (c : QueueCall α) :
    Replays b.mStorage (b.events c) (b.call c).1.mStorage := by
  cases c with
  | push data =>
    have hfull := h.full_iff
    unfold DataBuf.events DataBuf.call DataBuf.push
    by_cases hl : xs.length+1 = N
    · rw [if_pos (hfull.mpr hl), if_pos (hfull.mpr hl)]
      cases xs with
      | nil => simp only [List.length_nil] at hl; omega
      | cons y ys =>
        exact h.dropHead_replays.append (Replays.construct (RingHolds.tail_vacant h.dropHead) data)
    · rw [if_neg (fun hf => hl (hfull.mp hf)), if_neg (fun hf => hl (hfull.mp hf))]
      exact Replays.construct (RingHolds.tail_vacant h) data
  | pop =>
    have hempty := h.head_eq_tail_iff
    unfold DataBuf.events DataBuf.call DataBuf.pop
    cases xs with
    | nil =>
      rw [if_pos (hempty.mpr rfl), if_pos (hempty.mpr rfl)]
      exact Replays.nil _
    | cons x xs =>
      rw [if_neg (RingHolds.head_ne_tail h), if_neg (RingHolds.head_ne_tail h)]
      exact h.dropHead_replays
  | front => exact Replays.nil _
  | empty => exact Replays.nil _

/-- The destructor ends, after one round for each element, and leaves every slot raw. -/
lemma destruct (h : b.Holds xs) {fuel : ℕ} (hfuel : xs.length < fuel) :
    ∃ b' es, DataBuf.destruct fuel b = some (b',es) ∧ b'.Holds [] ∧
      Replays b.mStorage es b'.mStorage := by
  induction fuel generalizing b xs with
  | zero => omega
  | succ fuel ih =>
    have hempty := h.empty_iff
    unfold DataBuf.destruct
    cases xs with
    | nil =>
      rw [if_pos (hempty.mpr rfl)]
      exact ⟨b,[],rfl,h,Replays.nil _⟩
    | cons x xs =>
      obtain ⟨b',es,hes,hb',hreplays⟩ := ih h.dropHead (by simpa using hfuel)
      rw [if_neg (fun he => by simpa using hempty.mp he), hes]
      exact ⟨b',.destroy b.mHead::es,rfl,hb',h.dropHead_replays.append hreplays⟩

end Holds

/-- All that happens in the slots in the life of a queue: the calls, then the destructor,
whose loop gets `N` rounds. -/
def lifetime (N : ℕ) (cs : List (QueueCall α)) : Option (List (SlotEvent α)) :=
  (destruct N (afterCalls call ({} : DataBuf α N) cs)).map fun (_,es) =>
    emitted call events ({} : DataBuf α N) cs ++ es

lemma holds_afterCalls (hN : 2 ≤ N) (cs : List (QueueCall α)) :
    (afterCalls call ({} : DataBuf α N) cs).Holds (afterCalls (keepLast (N-1)) [] cs) ∧
      answers call ({} : DataBuf α N) cs = answers (keepLast (N-1)) [] cs :=
  answers_eq_of_simulation (R := fun (b : DataBuf α N) xs => b.Holds xs)
    (fun _ _ c h => h.call hN c) (holds_nil (by omega)) cs

lemma calls_replay (hN : 2 ≤ N) (cs : List (QueueCall α)) :
    Replays (List.replicate N none) (emitted call events ({} : DataBuf α N) cs)
      (afterCalls call ({} : DataBuf α N) cs).mStorage :=
  Replays.emitted (I := fun b : DataBuf α N => ∃ xs, b.Holds xs)
    (fun _ c ⟨_,h⟩ => ⟨_,(h.call hN c).1⟩) (fun _ c ⟨_,h⟩ => h.replays hN c)
    ⟨[],holds_nil (by omega)⟩ cs

lemma lifetime_replays (hN : 2 ≤ N) (cs : List (QueueCall α)) :
    ∃ es, lifetime N cs = some es ∧
      Replays (List.replicate N (none : Option α)) es (List.replicate N none) := by
  have hlast := (holds_afterCalls hN cs).1
  obtain ⟨b',es,hes,hb',hdestruct⟩ := hlast.destruct hlast.fits
  rw [RingHolds.slots_eq_of_nil hb'] at hdestruct
  exact ⟨_,by rw [lifetime, hes]; rfl,(calls_replay hN cs).append hdestruct⟩

end DataBuf

/-- The queue keeps the last `N-1` elements, and the objects in its slots are those that
its calls constructed and have not destroyed. From its construction to its destruction no
slot is misused, and each object is destroyed exactly once. -/
structure DropOldestFifo {α : Type} (N : ℕ) (cs : List (QueueCall α)) : Prop where
  answers_eq : answers DataBuf.call ({} : DataBuf α N) cs = answers (keepLast (N-1)) [] cs
  contents_eq : (afterCalls DataBuf.call ({} : DataBuf α N) cs).contents =
    afterCalls (keepLast (N-1)) [] cs
  objects : ∃ s, run RawStorage.step (RawStorage.raw α N)
      (emitted DataBuf.call DataBuf.events ({} : DataBuf α N) cs) = some s ∧
    s.values = (afterCalls DataBuf.call ({} : DataBuf α N) cs).mStorage
  lifetimes : ∃ es s, DataBuf.lifetime N cs = some es ∧
    run RawStorage.step (RawStorage.raw α N) es = some s ∧
    s.live = [] ∧ s.destroyed.Perm (List.range s.constructed)

theorem dropOldestFifo (hN : 2 ≤ N) (cs : List (QueueCall α)) : DropOldestFifo N cs where
  answers_eq := (DataBuf.holds_afterCalls hN cs).2
  contents_eq := (DataBuf.holds_afterCalls hN cs).1.contents_eq
  objects := DataBuf.calls_replay hN cs (RawStorage.raw α N) (RawStorage.values_raw α N)
  lifetimes := by
    obtain ⟨es,hes,hreplays⟩ := DataBuf.lifetime_replays hN cs
    obtain ⟨s,hs⟩ := hreplays.balanced
    exact ⟨es,s,hes,hs⟩

/-- Room for two: the third push destroys the first element, the destructor the last. -/
theorem dropOldestFifo_three :
    DropOldestFifo 3 [.push 5,.push 6,.push 7,.front,.pop,.front,.empty] :=
  dropOldestFifo (by decide) _

end Astlog
