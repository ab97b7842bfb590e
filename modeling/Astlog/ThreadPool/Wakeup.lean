import Astlog.ThreadPool.Accounting
import Astlog.ThreadPool.Mutex

/-! No lost wakeup. While messages are queued, a worker is on its way to the queue or a
poster has its notification to issue; once the pool stops, no worker stays parked. -/
namespace Astlog
open Foundation

variable {ν : Type}

/-- Neither in the wait set nor about to enter it, and not on the way out of the loop. -/
def WorkerPc.awake : WorkerPc ν → Bool
  | .waiting => false
  | .parked => false
  | .returning => false
  | .returned => false
  | _ => true

/-- The poster's message is in the ring and its notification is not issued. -/
def PosterPc.pending : PosterPc → Bool
  | .unlocking accepted => accepted
  | .notifying => true
  | _ => false

/-- `m_stop` is set and the notification is not issued. -/
def DtorPc.pending : DtorPc → Bool
  | .unlocking => true
  | .notifying => true
  | _ => false

namespace ThreadPool
variable {s t : ThreadPool ν} {a : PoolAction ν}

/-- Some thread will look at the queue, or make one look. -/
def Served (s : ThreadPool ν) : Prop :=
  (∃ p ∈ s.posters, p.pc.pending = true) ∨ ∃ pc ∈ s.mWorkList, pc.awake = true

structure WakeInv (s : ThreadPool ν) : Prop where
  waiting : .waiting ∈ s.mWorkList → s.mStop = false ∧ s.ring = []
  stopped : s.mStop = true → .parked ∈ s.mWorkList → s.dtor.pending = true
  served : s.mStop = false → s.ring ≠ [] → Served s

/-- While another thread is in its section, no worker is between the test and the wait. -/
lemma waiting_notMem_of_poster (hm : MutexInv s) {j : ℕ} {p : Poster ν}
    (hp : s.posters[j]? = some p) (hh : p.pc.holds = true) : .waiting ∉ s.mWorkList := by
  intro hw
  obtain ⟨i,hi⟩ := List.getElem?_of_mem hw
  have h := (hm.worker i _ hi rfl).symm.trans (hm.poster j p hp hh)
  cases h

lemma waiting_notMem_of_destructor (hm : MutexInv s) (hd : s.dtor.holds = true) :
    .waiting ∉ s.mWorkList := by
  intro hw
  obtain ⟨i,hi⟩ := List.getElem?_of_mem hw
  have h := (hm.worker i _ hi rfl).symm.trans (hm.destructor hd)
  cases h

lemma waiting_step (hm : MutexInv s) (hq : QueueInv s)
    (h : .waiting ∈ s.mWorkList → s.mStop = false ∧ s.ring = []) (ha : PoolStep s a t) :
    .waiting ∈ t.mWorkList → t.mStop = false ∧ t.ring = [] := by
  intro hw
  cases ha with
  | push hp => exact (waiting_notMem_of_poster hm hp rfl hw).elim
  | stop hd => exact (waiting_notMem_of_destructor hm (by rw [hd]; rfl) hw).elim
  | take hi hf =>
    have hr := (h (mem_of_mem_set hw nofun)).2
    rw [hq.ring_take hf] at hr
    cases hr
  | testFalse hi hs he => exact ⟨hs,hq.empty_iff.mp he⟩
  | notifyAll =>
    obtain ⟨pc,hpc,he⟩ := List.mem_map.mp hw
    cases pc <;> cases he
    exact h hpc
  | call => exact h hw
  | posterLock => exact h hw
  | refuse => exact h hw
  | posterUnlock => exact h hw
  | notifyNone => exact h hw
  | dtorLock => exact h hw
  | dtorUnlock => exact h hw
  | join => exact h hw
  | _ => exact h (mem_of_mem_set hw nofun)

lemma stopped_step (hw : .waiting ∈ s.mWorkList → s.mStop = false ∧ s.ring = [])
    (h : s.mStop = true → .parked ∈ s.mWorkList → s.dtor.pending = true) (ha : PoolStep s a t) :
    t.mStop = true → .parked ∈ t.mWorkList → t.dtor.pending = true := by
  intro hs hp
  cases ha with
  | stop => rfl
  | dtorUnlock => rfl
  | park hi =>
    have hf := (hw (List.mem_of_getElem? hi)).1
    rw [show s.mStop = true from hs] at hf
    cases hf
  | notifyAll =>
    obtain ⟨pc,-,he⟩ := List.mem_map.mp hp
    cases pc <;> cases he
  | dtorLock hd =>
    have := h hs hp
    rw [hd] at this
    cases this
  | join hd =>
    have := h hs hp
    rw [hd] at this
    cases this
  | call => exact h hs hp
  | posterLock => exact h hs hp
  | refuse => exact h hs hp
  | push => exact h hs hp
  | posterUnlock => exact h hs hp
  | notifyNone => exact h hs hp
  | _ => exact h hs (mem_of_mem_set hp nofun)

namespace Served

/-- A worker that moves on awake serves the queue. -/
lemma of_worker {i : ℕ} {pc : WorkerPc ν} (hi : s.mWorkList[i]? = some pc) (pc' : WorkerPc ν)
    (h : pc'.awake = true) : Served (s.setWorker i pc') :=
  .inr ⟨pc',mem_set_self_of_some hi pc',h⟩

lemma of_poster {j : ℕ} {p : Poster ν} (hp : s.posters[j]? = some p) (p' : Poster ν)
    (h : p'.pc.pending = true) : Served (s.setPoster j p') :=
  .inl ⟨p',mem_set_self_of_some hp p',h⟩

/-- A poster without a notification to issue does not matter. -/
lemma movePoster (h : Served s) {j : ℕ} {p : Poster ν} (hp : s.posters[j]? = some p)
    (hpend : p.pc.pending = false) (p' : Poster ν) : Served (s.setPoster j p') := by
  obtain ⟨q,hq,hpq⟩ | hw := h
  · refine .inl ⟨q,mem_set_of_ne hp hq ?_ p',hpq⟩
    rintro rfl
    rw [hpend] at hpq
    cases hpq
  · exact .inr hw

lemma congr (h : Served s) (m : Option Thread) (d : DtorPc) (rs : List (AsyncMsg ν)) :
    Served { s with mMtx := m, dtor := d, refused := rs } := h

lemma wakeAll (h : Served s) : Served { s with mWorkList := s.mWorkList.map wake } := by
  obtain hp | ⟨pc,hpc,hw⟩ := h
  · exact .inl hp
  · refine .inr ⟨wake pc,List.mem_map_of_mem hpc,?_⟩
    cases pc <;> first | exact hw | cases hw

/-- With nobody parked, the queue non-empty and the pool open, every worker is awake. -/
lemma of_nobodyParked (hne : s.mWorkList ≠ []) (hparked : .parked ∉ s.mWorkList)
    (hc : Closed s)
    (hw : .waiting ∈ s.mWorkList → s.mStop = false ∧ s.ring = []) (hr : s.ring ≠ []) : Served s := by
  obtain ⟨pc,hpc⟩ := List.exists_mem_of_ne_nil _ hne
  refine .inr ⟨pc,hpc,?_⟩
  cases pc with
  | waiting => exact absurd (hw hpc).2 hr
  | parked => exact absurd hpc hparked
  | returning => exact absurd (hc _ hpc rfl).2 hr
  | returned => exact absurd (hc _ hpc rfl).2 hr
  | _ => rfl

end Served

lemma served_step (hq : QueueInv s) (hc : Closed s) (hne : s.mWorkList ≠ []) (h : WakeInv s)
    (ha : PoolStep s a t) : t.mStop = false → t.ring ≠ [] → Served t := by
  intro hs hr
  cases ha with
  | call hp => exact (h.served hs hr).movePoster hp rfl _
  | posterLock hp => exact ((h.served hs hr).congr _ _ _).movePoster hp rfl _
  | refuse hp => exact ((h.served hs hr).congr _ _ _).movePoster hp rfl _
  | push hp => exact .of_poster hp _ rfl
  | @posterUnlock j b ms hp =>
    cases b with
    | true => exact .of_poster hp _ rfl
    | false => exact ((h.served hs hr).congr none _ _).movePoster hp rfl ⟨.idle,ms⟩
  | notifyWake hp hi => exact .inr ⟨_,mem_set_self_of_some hi _,rfl⟩
  | notifyNone hp hn =>
    exact .of_nobodyParked hne hn hc h.waiting hr
  | testFalse hi hs' he => exact absurd (hq.empty_iff.mp he) hr
  | park hi => exact absurd (h.waiting (List.mem_of_getElem? hi)).2 hr
  | giveUp hi hs' => exact absurd (hs'.symm.trans hs) nofun
  | ret hi => exact absurd (hc _ (List.mem_of_getElem? hi) rfl).2 hr
  | stop => cases hs
  | notifyAll => exact (h.served hs hr).wakeAll
  | dtorLock => exact h.served hs hr
  | dtorUnlock => exact h.served hs hr
  | join => exact h.served hs hr
  | workerLock hi => exact .of_worker hi _ rfl
  | testTrue hi => exact .of_worker hi _ rfl
  | skip hi => exact .of_worker hi _ rfl
  | take hi => exact .of_worker hi _ rfl
  | leaveEmpty hi => exact .of_worker hi _ rfl
  | leave hi => exact .of_worker hi _ rfl
  | log hi => exact .of_worker hi _ rfl
  | spurious hi => exact .of_worker hi _ rfl

lemma wakeInv_init (num m : ℕ) : WakeInv (init ν num m) where
  waiting hw := nomatch List.eq_of_mem_replicate hw
  stopped hs := nomatch hs
  served _ hr := absurd (ring_init num m) hr

theorem wakeInv_run {num m : ℕ} {as : List (PoolAction ν)}
    (h : run step (init ν num m) as = some s) : WakeInv s := by
  have hI : MutexInv s ∧ QueueInv s ∧ Closed s ∧ s.mWorkList ≠ [] ∧ WakeInv s := by
    have hne : (init ν num m).mWorkList ≠ [] := mWorkList_run (run_nil step _)
    refine invariant_of_steps
      (I := fun s => MutexInv s ∧ QueueInv s ∧ Closed s ∧ s.mWorkList ≠ [] ∧ WakeInv s) ?_ h
      ⟨mutexInv_init num m,queueInv_init num m,closed_init num m,hne,wakeInv_init num m⟩
    rintro s a t ⟨hm,hq,hc,hne,hw⟩ ha
    refine ⟨mutexInv_step hm ha,queueInv_step hq ha,closed_step hc hq ha,?_,?_⟩
    · rw [← List.length_pos_iff, mWorkList_step ha]
      exact List.length_pos_iff.mpr hne
    · exact ⟨waiting_step hm hq hw.waiting ha,stopped_step hw.waiting hw.stopped ha,
        served_step hq hc hne hw ha⟩
  exact hI.2.2.2.2

/-- Every worker that has not returned is parked, and no notification is to come. -/
structure Asleep (s : ThreadPool ν) : Prop where
  workers : ∀ pc ∈ s.mWorkList, pc ≠ .returned → pc = .parked
  posters : ∀ p ∈ s.posters, p.pc.pending = false
  destructor : s.dtor.pending = false

/-- There is work or the stop flag is set, and everyone sleeps. When all workers have
returned, as at the end of the destructor, this holds with nobody asleep. -/
def LostWakeup (s : ThreadPool ν) : Prop := (s.ring ≠ [] ∨ s.mStop = true) ∧ Asleep s

/-- There is something to do for a worker, and everyone sleeps. -/
def Stranded (s : ThreadPool ν) : Prop :=
  (s.ring ≠ [] ∨ s.mStop = true ∧ ∃ pc ∈ s.mWorkList, pc ≠ .returned) ∧ Asleep s

theorem not_stranded {num m : ℕ} {as : List (PoolAction ν)}
    (h : run step (init ν num m) as = some s) : ¬Stranded s := by
  have hw := wakeInv_run h
  rintro ⟨hwork,hsleep⟩
  -- a stopped pool has nobody parked, so its sleepers have all returned
  have hret : s.mStop = true → ∀ pc ∈ s.mWorkList, pc = .returned := by
    intro hs pc hpc
    by_contra hne
    obtain rfl := hsleep.workers pc hpc hne
    have hpend := hw.stopped hs hpc
    rw [hsleep.destructor] at hpend
    cases hpend
  cases hs : s.mStop with
  | true =>
    obtain ⟨pc,hpc⟩ := List.exists_mem_of_ne_nil _ (mWorkList_run h)
    have hr := (closed_run h pc hpc (by rw [hret hs pc hpc]; rfl)).2
    obtain hne | ⟨-,q,hq,hne⟩ := hwork
    · exact hne hr
    · exact hne (hret hs q hq)
  | false =>
    have hne : s.ring ≠ [] := hwork.resolve_right (by simp [hs])
    obtain ⟨p,hp,hpend⟩ | ⟨pc,hpc,haw⟩ := hw.served hs hne
    · rw [hsleep.posters p hp] at hpend
      cases hpend
    · by_cases hpr : pc = .returned
      · rw [hpr] at haw
        cases haw
      · rw [hsleep.workers pc hpc hpr] at haw
        cases haw

/-- The worker parks, the destructor stops and wakes it, it returns and is joined. -/
def stopAndJoin : List (PoolAction ℕ) :=
  [.worker 0,.worker 0,.worker 0,.destructor,.destructor,.destructor,.destructor,.worker 0,
    .worker 0,.worker 0,.worker 0,.destructor]

theorem not_stranded_stopAndJoin : ∃ s, run step (init ℕ 1 0) stopAndJoin = some s ∧ ¬Stranded s :=
  ⟨_,rfl,not_stranded (show run step (init ℕ 1 0) stopAndJoin = some _ from rfl)⟩

/-- After the join nobody is left to be woken, and `m_stop` stays set. -/
theorem joined_lostWakeup : ¬∀ (num m : ℕ) (as : List (PoolAction ℕ)) (s : ThreadPool ℕ),
    run step (init ℕ num m) as = some s → ¬LostWakeup s := by
  intro h
  apply h 1 0 stopAndJoin _ rfl
  refine ⟨.inr rfl,?_,?_,rfl⟩
  · intro pc hpc hne
    exact absurd (List.mem_singleton.mp hpc) hne
  · intro p hp
    cases hp

end ThreadPool
end Astlog
