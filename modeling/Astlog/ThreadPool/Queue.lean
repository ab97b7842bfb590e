import Astlog.ThreadPool.Step

/-! The ring inside the pool: what the two sections that touch it do to the list of
queued messages. -/
namespace Astlog
open Foundation

variable {ν : Type}

namespace ThreadPool
variable {s t : ThreadPool ν}

/-- The ring's storage and indices describe its contents. -/
def QueueInv (s : ThreadPool ν) : Prop := s.mBuffer.Holds s.ring

theorem queueInv_of_holds {xs : List (Entry ν)} (h : s.mBuffer.Holds xs) : QueueInv s := by
  rw [QueueInv, ring, h.contents_eq]
  exact h

@[simp] theorem ring_setPoster (j : ℕ) (p : Poster ν) : (s.setPoster j p).ring = s.ring := rfl

namespace QueueInv

theorem empty_iff (h : QueueInv s) : s.mBuffer.empty = true ↔ s.ring = [] :=
  DataBuf.Holds.empty_iff h

/-- A push appends the new entry, with the oldest gone from a full ring. -/
theorem ring_pushMsg (h : QueueInv s) (j : ℕ) (m : AsyncMsg ν) :
    (s.pushMsg j m).ring = DataBuf.pushDropOldest 32 s.ring (s.entry j m) :=
  (DataBuf.Holds.push h (by norm_num) (s.entry j m)).contents_eq

theorem evicted_pushMsg (h : QueueInv s) (j : ℕ) (m : AsyncMsg ν) :
    (s.pushMsg j m).evicted = s.evicted ++ DataBuf.droppedByPush 32 s.ring := by
  rw [pushMsg_evicted, DataBuf.Holds.dropped_eq h]

/-- What is dequeued was the oldest. -/
theorem ring_take (h : QueueInv s) {e : Entry ν} (hf : s.mBuffer.front = some e) :
    s.ring = e::s.mBuffer.pop.contents := by
  rw [DataBuf.Holds.front_eq h] at hf
  have hp := (DataBuf.Holds.pop h).contents_eq
  cases hr : s.ring with
  | nil => simp [hr] at hf
  | cons x xs =>
    rw [hr] at hf hp
    simp only [List.head?_cons, Option.some.injEq] at hf
    rw [hp, hf]
    rfl

end QueueInv

theorem queueInv_init (num m : ℕ) : QueueInv (init ν num m) :=
  queueInv_of_holds (DataBuf.holds_nil (by norm_num))

theorem ring_init (num m : ℕ) : (init ν num m).ring = [] :=
  (DataBuf.holds_nil (by norm_num)).contents_eq

theorem queueInv_step {a : PoolAction ν} (h : QueueInv s) (ha : PoolStep s a t) : QueueInv t := by
  cases ha with
  | push => exact queueInv_of_holds (DataBuf.Holds.push h (by norm_num) _)
  | take => exact queueInv_of_holds (DataBuf.Holds.pop h)
  | _ => exact h

end ThreadPool
end Astlog
