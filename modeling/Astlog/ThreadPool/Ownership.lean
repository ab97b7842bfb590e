import Astlog.ThreadPool.Accounting
import Astlog.ThreadPool.Mutex

/-! A mutex that is taken is held by a thread in its critical section, and what a worker
has seen in its section is still so when it acts on it. -/
namespace Astlog
open Foundation

variable {ν : Type}

/-- The thread stands in a critical section. -/
def Inside (ws : List (WorkerPc ν)) (ps : List (Poster ν)) (d : DtorPc) : Thread → Prop
  | .worker i => ∃ pc, ws[i]? = some pc ∧ pc.holds = true
  | .poster j => ∃ p, ps[j]? = some p ∧ p.pc.holds = true
  | .destructor => d.holds = true

/-- The owner of the mutex stands in a critical section. -/
def Owned (m : Option Thread) (ws : List (WorkerPc ν)) (ps : List (Poster ν)) (d : DtorPc) : Prop :=
  ∀ th, m = some th → Inside ws ps d th

namespace Owned
variable {m : Option Thread} {ws : List (WorkerPc ν)} {ps : List (Poster ν)} {d : DtorPc}

lemma free : Owned none ws ps d := nofun

lemma moveWorker (h : Owned m ws ps d) {i : ℕ} {pc : WorkerPc ν} (hi : ws[i]? = some pc)
    {pc' : WorkerPc ν} (hpc : pc.holds = true → pc'.holds = true) :
    Owned m (ws.set i pc') ps d := by
  intro th hth
  have hin := h th hth
  cases th with
  | worker k =>
    obtain ⟨q,hq,hh⟩ := hin
    rw [Inside, getElem?_set_of_some hi]
    by_cases hk : k = i
    · subst hk
      obtain rfl : pc = q := Option.some.inj (hi.symm.trans hq)
      exact ⟨pc',if_pos rfl,hpc hh⟩
    · exact ⟨q,by rw [if_neg hk, hq],hh⟩
  | poster j => exact hin
  | destructor => exact hin

lemma movePoster (h : Owned m ws ps d) {j : ℕ} {p : Poster ν} (hp : ps[j]? = some p)
    {p' : Poster ν} (hpc : p.pc.holds = true → p'.pc.holds = true) :
    Owned m ws (ps.set j p') d := by
  intro th hth
  have hin := h th hth
  cases th with
  | worker k => exact hin
  | poster k =>
    obtain ⟨q,hq,hh⟩ := hin
    rw [Inside, getElem?_set_of_some hp]
    by_cases hk : k = j
    · subst hk
      obtain rfl : p = q := Option.some.inj (hp.symm.trans hq)
      exact ⟨p',if_pos rfl,hpc hh⟩
    · exact ⟨q,by rw [if_neg hk, hq],hh⟩
  | destructor => exact hin

lemma moveDestructor (h : Owned m ws ps d) {d' : DtorPc} (hd : d.holds = true → d'.holds = true) :
    Owned m ws ps d' := by
  intro th hth
  have hin := h th hth
  cases th with
  | worker k => exact hin
  | poster j => exact hin
  | destructor => exact hd hin

lemma takenByWorker {i : ℕ} {pc : WorkerPc ν} (hi : ws[i]? = some pc) {pc' : WorkerPc ν}
    (hpc : pc'.holds = true) : Owned (some (.worker i)) (ws.set i pc') ps d := by
  rintro th ⟨⟩
  exact ⟨pc',by rw [getElem?_set_of_some hi, if_pos rfl],hpc⟩

lemma takenByPoster {j : ℕ} {p : Poster ν} (hp : ps[j]? = some p) {p' : Poster ν}
    (hpc : p'.pc.holds = true) : Owned (some (.poster j)) ws (ps.set j p') d := by
  rintro th ⟨⟩
  exact ⟨p',by rw [getElem?_set_of_some hp, if_pos rfl],hpc⟩

lemma takenByDestructor (hd : d.holds = true) : Owned (some .destructor) ws ps d := by
  rintro th ⟨⟩
  exact hd

/-- Waking workers up takes nobody out of a critical section. -/
lemma wakeAll (h : Owned m ws ps d) : Owned m (ws.map ThreadPool.wake) ps d := by
  intro th hth
  have hin := h th hth
  cases th with
  | worker k =>
    obtain ⟨q,hq,hh⟩ := hin
    refine ⟨ThreadPool.wake q,by rw [List.getElem?_map, hq, Option.map_some],?_⟩
    revert hh
    cases q <;> simp [ThreadPool.wake, WorkerPc.holds]
  | poster j => exact hin
  | destructor => exact hin

end Owned

/-- Past the step that sets `m_stop`. -/
def DtorPc.stopped : DtorPc → Bool
  | .notStarted => false
  | .locked => false
  | _ => true

namespace ThreadPool
variable {s t : ThreadPool ν} {a : PoolAction ν}

/-- What a thread in its critical section may rely on. -/
structure Sections (s : ThreadPool ν) : Prop where
  exclusive : MutexInv s
  owned : Owned s.mMtx s.mWorkList s.posters s.dtor
  queue : QueueInv s
  stop : s.mStop = s.dtor.stopped
  posting : ∀ p ∈ s.posters, p.pc = .locked → p.todo ≠ []
  proceeding : .proceeding ∈ s.mWorkList → s.mStop = true ∨ s.ring ≠ []

lemma owned_step (h : Owned s.mMtx s.mWorkList s.posters s.dtor) (ha : PoolStep s a t) :
    Owned t.mMtx t.mWorkList t.posters t.dtor := by
  cases ha with
  | call hp => exact h.movePoster hp nofun
  | posterLock hp => exact .takenByPoster hp rfl
  | refuse hp => exact h.movePoster hp fun _ => rfl
  | push hp => exact h.movePoster hp fun _ => rfl
  | posterUnlock => exact .free
  | notifyWake hp hi => exact (h.moveWorker hi nofun).movePoster hp nofun
  | notifyNone hp => exact h.movePoster hp nofun
  | workerLock hi => exact .takenByWorker hi rfl
  | testTrue hi => exact h.moveWorker hi fun _ => rfl
  | testFalse hi => exact h.moveWorker hi fun _ => rfl
  | giveUp hi => exact h.moveWorker hi fun _ => rfl
  | skip hi => exact h.moveWorker hi fun _ => rfl
  | take hi => exact h.moveWorker hi fun _ => rfl
  | park => exact .free
  | leaveEmpty => exact .free
  | leave => exact .free
  | ret => exact .free
  | log hi => exact h.moveWorker hi nofun
  | spurious hi => exact h.moveWorker hi nofun
  | dtorLock => exact .takenByDestructor rfl
  | stop hd => exact h.moveDestructor fun _ => rfl
  | dtorUnlock => exact .free
  | notifyAll hd => exact h.wakeAll.moveDestructor (by rw [hd]; nofun)
  | join hd => exact h.moveDestructor (by rw [hd]; nofun)

lemma stop_step (h : s.mStop = s.dtor.stopped) (ha : PoolStep s a t) : t.mStop = t.dtor.stopped := by
  cases ha with
  | dtorLock hd => exact h.trans (by rw [hd]; rfl)
  | stop => rfl
  | dtorUnlock hd => exact h.trans (by rw [hd]; rfl)
  | notifyAll hd => exact h.trans (by rw [hd]; rfl)
  | join hd => exact h.trans (by rw [hd]; rfl)
  | _ => exact h

lemma posting_step (h : ∀ p ∈ s.posters, p.pc = .locked → p.todo ≠ []) (ha : PoolStep s a t) :
    ∀ p ∈ t.posters, p.pc = .locked → p.todo ≠ [] := by
  cases ha with
  | call => exact forall_mem_set h nofun
  | posterLock => exact forall_mem_set h fun _ => List.cons_ne_nil _ _
  | refuse => exact forall_mem_set h nofun
  | push => exact forall_mem_set h nofun
  | @posterUnlock j b ms hp => exact forall_mem_set h (by cases b <;> nofun)
  | notifyWake => exact forall_mem_set h nofun
  | notifyNone => exact forall_mem_set h nofun
  | _ => exact h

/-- Two threads in critical sections are one. -/
lemma Sections.alone (h : Sections s) {i k : ℕ} {pc q : WorkerPc ν}
    (hi : s.mWorkList[i]? = some pc) (hpc : pc.holds = true) (hk : s.mWorkList[k]? = some q)
    (hq : q.holds = true) : i = k := by
  have heq := (h.exclusive.worker i pc hi hpc).symm.trans (h.exclusive.worker k q hk hq)
  exact Thread.worker.inj (Option.some.inj heq)

/-- A worker whose wait has returned finds the queue as the predicate found it. -/
lemma proceeding_step (h : Sections s) (ha : PoolStep s a t) :
    .proceeding ∈ t.mWorkList → t.mStop = true ∨ t.ring ≠ [] := by
  intro hp
  cases ha with
  | call => exact h.proceeding hp
  | posterLock => exact h.proceeding hp
  | refuse => exact h.proceeding hp
  | push =>
    right
    rw [ring_setPoster, h.queue.ring_pushMsg, DataBuf.pushDropOldest]
    simp
  | posterUnlock => exact h.proceeding hp
  | notifyNone => exact h.proceeding hp
  | testTrue hi hw =>
    obtain hs | he := hw
    · exact .inl hs
    · right
      intro hr
      have hempty := h.queue.empty_iff.mpr hr
      rw [he] at hempty
      cases hempty
  | take hi hf =>
    -- the one that takes was the only one to proceed
    obtain ⟨k,hk⟩ := List.getElem?_of_mem hp
    simp only [setWorker, getElem?_set_of_some hi] at hk
    split_ifs at hk with hki
    · cases hk
    · exact absurd (h.alone hi rfl hk rfl) (Ne.symm hki)
  | dtorLock => exact h.proceeding hp
  | stop => exact .inl rfl
  | dtorUnlock => exact h.proceeding hp
  | notifyAll =>
    obtain ⟨q,hq,he⟩ := List.mem_map.mp hp
    cases q <;> cases he
    exact h.proceeding hq
  | join => exact h.proceeding hp
  | _ => exact h.proceeding (mem_of_mem_set hp (by simp))

theorem sections_step (h : Sections s) (ha : PoolStep s a t) : Sections t :=
  ⟨mutexInv_step h.exclusive ha,owned_step h.owned ha,queueInv_step h.queue ha,stop_step h.stop ha,
    posting_step h.posting ha,proceeding_step h ha⟩

lemma sections_init (num m : ℕ) : Sections (init ν num m) := by
  refine ⟨mutexInv_init num m,.free,queueInv_init num m,rfl,fun p hp hl => ?_,fun hp => ?_⟩
  · rw [List.eq_of_mem_replicate hp] at hl
    cases hl
  · cases List.eq_of_mem_replicate hp

theorem sections_run {num m : ℕ} {as : List (PoolAction ν)}
    (h : run step (init ν num m) as = some s) : Sections s :=
  invariant_of_steps (fun _ _ _ hs ha => sections_step hs ha) h (sections_init num m)

/-- A worker past its wait either gives up or finds a message. -/
lemma Sections.front_ne_none (h : Sections s) (hp : .proceeding ∈ s.mWorkList)
    (hgo : (s.mStop && s.mBuffer.empty) = false) : s.mBuffer.front ≠ none := by
  intro hf
  have hr : s.ring = [] := by
    rw [DataBuf.Holds.front_eq h.queue] at hf
    exact List.head?_eq_none_iff.mp hf
  rw [h.queue.empty_iff.mpr hr, Bool.and_true] at hgo
  obtain hs | hne := h.proceeding hp
  · rw [hgo] at hs
    cases hs
  · exact hne hr

/-- The `continue` after `front()` is not taken. -/
theorem Sections.no_skip (h : Sections s) {i : ℕ} (hi : s.mWorkList[i]? = some .proceeding)
    (hf : s.mBuffer.front = none) : s.step (.worker i) ≠ some (s.setWorker i (.leaving none)) := by
  have hgo : (s.mStop && s.mBuffer.empty) = true := by
    by_contra hgo
    exact h.front_ne_none (List.mem_of_getElem? hi) (by simpa using hgo) hf
  have hstep : s.step (.worker i) = some (s.setWorker i .returning) := by
    rw [step, hi, Option.bind_some, workerStep, if_pos hgo]
  intro hskip
  have hlist := congrArg (fun t : ThreadPool ν => t.mWorkList[i]?)
    (Option.some.inj (hstep.symm.trans hskip))
  simp only [setWorker, getElem?_set_of_some hi, if_true] at hlist
  cases hlist

lemma leaving_none_step (h : Sections s) (hn : .leaving none ∉ s.mWorkList)
    (ha : s.step a = some t) : .leaving none ∉ t.mWorkList := by
  have hstep := step_cases ha
  intro hmem
  cases hstep with
  | skip hi hf => exact h.no_skip hi hf ha
  | notifyAll =>
    obtain ⟨q,hq,he⟩ := List.mem_map.mp hmem
    cases q <;> cases he
    exact hn hq
  | call => exact hn hmem
  | posterLock => exact hn hmem
  | refuse => exact hn hmem
  | push => exact hn hmem
  | posterUnlock => exact hn hmem
  | notifyNone => exact hn hmem
  | dtorLock => exact hn hmem
  | stop => exact hn hmem
  | dtorUnlock => exact hn hmem
  | join => exact hn hmem
  | _ => exact hn (mem_of_mem_set hmem nofun)

/-- In every run, with any number of workers, `front()` has a message for the worker whose
wait has returned: no worker ever leaves its section without one. -/
theorem never_leaves_empty {num m : ℕ} {as : List (PoolAction ν)}
    (h : run step (init ν num m) as = some s) : .leaving none ∉ s.mWorkList := by
  have hI : Sections s ∧ .leaving none ∉ s.mWorkList := by
    refine run_invariant (I := fun s : ThreadPool ν => Sections s ∧ .leaving none ∉ s.mWorkList) ?_ h
      ⟨sections_init num m,fun hmem => ?_⟩
    · rintro s a t ⟨hs,hn⟩ ha
      exact ⟨sections_step hs (step_cases ha),leaving_none_step hs hn ha⟩
    · cases List.eq_of_mem_replicate hmem
  exact hI.2

/-- One thread posts a message and a worker dequeues it. -/
def postAndTake : List (PoolAction ℕ) := .call 0 [hello]::postOne ℕ 0 ++ List.replicate 3 (.worker 0)

theorem never_leaves_empty_postAndTake : ∃ s, run step (init ℕ 1 1) postAndTake = some s ∧
    s.mWorkList = [.leaving (some ⟨0,0,hello⟩)] ∧ .leaving none ∉ s.mWorkList :=
  ⟨_,rfl,rfl,never_leaves_empty (show run step (init ℕ 1 1) postAndTake = some _ from rfl)⟩

end ThreadPool
end Astlog
