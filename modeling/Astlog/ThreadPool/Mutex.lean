import Astlog.ThreadPool.Step

/-! `m_mtx`: at most one thread is between its lock and its unlock. -/
namespace Astlog
open Foundation

variable {ν : Type}

/-- The points at which a worker holds the mutex. -/
def WorkerPc.holds : WorkerPc ν → Bool
  | .testing => true
  | .waiting => true
  | .proceeding => true
  | .leaving _ => true
  | .returning => true
  | _ => false

def PosterPc.holds : PosterPc → Bool
  | .locked => true
  | .unlocking _ => true
  | _ => false

def DtorPc.holds : DtorPc → Bool
  | .locked => true
  | .unlocking => true
  | _ => false

/-- Whoever stands in a critical section is the owner of the mutex. -/
structure Exclusive (m : Option Thread) (ws : List (WorkerPc ν)) (ps : List (Poster ν))
    (d : DtorPc) : Prop where
  worker : ∀ i pc, ws[i]? = some pc → pc.holds = true → m = some (.worker i)
  poster : ∀ j p, ps[j]? = some p → p.pc.holds = true → m = some (.poster j)
  destructor : d.holds = true → m = some .destructor

namespace Exclusive
variable {m m' : Option Thread} {ws : List (WorkerPc ν)} {ps : List (Poster ν)} {d : DtorPc}

/-- A thread that takes the mutex only when free, and gives back only its own, leaves it with
any other owner. -/
lemma owner_kept {owner mover : Thread} (hm : m' = m ∨ m = none ∨ m = some mover)
    (h : m = some owner) (hne : owner ≠ mover) : m' = some owner := by
  obtain he | hnone | hown := hm
  · rw [he, h]
  · rw [hnone] at h
    cases h
  · exact absurd (Option.some.inj (h.symm.trans hown)) hne

lemma moveWorker (h : Exclusive m ws ps d) {i : ℕ} {pc : WorkerPc ν} (hi : ws[i]? = some pc)
    {pc' : WorkerPc ν} (hm : m' = m ∨ m = none ∨ m = some (.worker i))
    (hown : pc'.holds = true → m' = some (.worker i)) : Exclusive m' (ws.set i pc') ps d where
  worker k q hk hq := by
    rw [getElem?_set_of_some hi] at hk
    split_ifs at hk with hki
    · cases hk
      rw [hown hq, hki]
    · exact owner_kept hm (h.worker k q hk hq) (fun he => hki (Thread.worker.inj he))
  poster j p hp hh := owner_kept hm (h.poster j p hp hh) nofun
  destructor hd := owner_kept hm (h.destructor hd) nofun

lemma movePoster (h : Exclusive m ws ps d) {j : ℕ} {p : Poster ν} (hp : ps[j]? = some p)
    {p' : Poster ν} (hm : m' = m ∨ m = none ∨ m = some (.poster j))
    (hown : p'.pc.holds = true → m' = some (.poster j)) : Exclusive m' ws (ps.set j p') d where
  worker i pc hi hh := owner_kept hm (h.worker i pc hi hh) nofun
  poster k q hk hq := by
    rw [getElem?_set_of_some hp] at hk
    split_ifs at hk with hkj
    · cases hk
      rw [hown hq, hkj]
    · exact owner_kept hm (h.poster k q hk hq) (fun he => hkj (Thread.poster.inj he))
  destructor hd := owner_kept hm (h.destructor hd) nofun

lemma moveDestructor (h : Exclusive m ws ps d) {d' : DtorPc}
    (hm : m' = m ∨ m = none ∨ m = some .destructor)
    (hown : d'.holds = true → m' = some .destructor) : Exclusive m' ws ps d' where
  worker i pc hi hh := owner_kept hm (h.worker i pc hi hh) nofun
  poster j p hp hh := owner_kept hm (h.poster j p hp hh) nofun
  destructor := hown

/-- Waking workers up takes nobody into a critical section. -/
lemma wakeAll (h : Exclusive m ws ps d) : Exclusive m (ws.map ThreadPool.wake) ps d where
  worker i pc hi hh := by
    obtain ⟨q,hq,rfl⟩ := List.getElem?_map .. ▸ hi |> Option.map_eq_some_iff.mp
    apply h.worker i q hq
    revert hh
    cases q <;> simp [ThreadPool.wake, WorkerPc.holds]
  poster := h.poster
  destructor := h.destructor

end Exclusive

namespace ThreadPool
variable {s t : ThreadPool ν}

def MutexInv (s : ThreadPool ν) : Prop := Exclusive s.mMtx s.mWorkList s.posters s.dtor

theorem mutexInv_init (num m : ℕ) : MutexInv (init ν num m) where
  worker i pc hi hh := by
    rw [List.eq_of_mem_replicate (List.mem_of_getElem? hi)] at hh
    cases hh
  poster j p hp hh := by
    rw [List.eq_of_mem_replicate (List.mem_of_getElem? hp)] at hh
    cases hh
  destructor hd := by cases hd

theorem mutexInv_step {a : PoolAction ν} (h : MutexInv s) (ha : PoolStep s a t) : MutexInv t := by
  cases ha with
  | call hp => exact h.movePoster hp (.inl rfl) (by simp [PosterPc.holds])
  | posterLock hp hm => exact h.movePoster hp (.inr (.inl hm)) (fun _ => rfl)
  | refuse hp => exact h.movePoster hp (.inl rfl) fun _ => h.poster _ _ hp rfl
  | push hp => exact h.movePoster hp (.inl rfl) fun _ => h.poster _ _ hp rfl
  | @posterUnlock j b ms hp =>
    apply h.movePoster hp (.inr (.inr (h.poster _ _ hp rfl)))
    cases b <;> simp [PosterPc.holds]
  | notifyWake hp hi =>
    exact (h.moveWorker hi (.inl rfl) (by simp [WorkerPc.holds])).movePoster hp (.inl rfl)
      (by simp [PosterPc.holds])
  | notifyNone hp => exact h.movePoster hp (.inl rfl) (by simp [PosterPc.holds])
  | workerLock hi _ hm => exact h.moveWorker hi (.inr (.inl hm)) (fun _ => rfl)
  | testTrue hi => exact h.moveWorker hi (.inl rfl) fun _ => h.worker _ _ hi rfl
  | testFalse hi => exact h.moveWorker hi (.inl rfl) fun _ => h.worker _ _ hi rfl
  | giveUp hi => exact h.moveWorker hi (.inl rfl) fun _ => h.worker _ _ hi rfl
  | skip hi => exact h.moveWorker hi (.inl rfl) fun _ => h.worker _ _ hi rfl
  | take hi => exact h.moveWorker hi (.inl rfl) fun _ => h.worker _ _ hi rfl
  | park hi => exact h.moveWorker hi (.inr (.inr (h.worker _ _ hi rfl))) (by simp [WorkerPc.holds])
  | leaveEmpty hi =>
    exact h.moveWorker hi (.inr (.inr (h.worker _ _ hi rfl))) (by simp [WorkerPc.holds])
  | leave hi => exact h.moveWorker hi (.inr (.inr (h.worker _ _ hi rfl))) (by simp [WorkerPc.holds])
  | ret hi => exact h.moveWorker hi (.inr (.inr (h.worker _ _ hi rfl))) (by simp [WorkerPc.holds])
  | log hi => exact h.moveWorker hi (.inl rfl) (by simp [WorkerPc.holds])
  | spurious hi => exact h.moveWorker hi (.inl rfl) (by simp [WorkerPc.holds])
  | dtorLock _ hm => exact h.moveDestructor (.inr (.inl hm)) (fun _ => rfl)
  | stop hd => exact h.moveDestructor (.inl rfl) fun _ => h.destructor (by rw [hd]; rfl)
  | dtorUnlock hd =>
    exact h.moveDestructor (.inr (.inr (h.destructor (by rw [hd]; rfl)))) (by simp [DtorPc.holds])
  | notifyAll => exact h.wakeAll.moveDestructor (.inl rfl) (by simp [DtorPc.holds])
  | join => exact h.moveDestructor (.inl rfl) (by simp [DtorPc.holds])

/-- No two threads are ever in their critical sections together. -/
theorem mutexInv_run {num m : ℕ} {as : List (PoolAction ν)} (h : run step (init ν num m) as = some s) :
    MutexInv s :=
  invariant_of_steps (fun _ _ _ hs ha => mutexInv_step hs ha) h (mutexInv_init num m)

end ThreadPool
end Astlog
