import Astlog.Foundation.Progress
import Astlog.ThreadPool.Ownership
import Astlog.ThreadPool.Wakeup

/-! The pool comes to rest. Between two log calls and without spurious wakeups only so many
steps are left, and when none is left every accepted message has been logged or evicted; if
the destructor has begun, it has returned. -/
namespace Astlog
open Foundation

variable {ν : Type}

/-- A bound for the steps a worker makes before it parks or takes a message. -/
def WorkerPc.work : WorkerPc ν → ℕ
  | .running => 4
  | .testing => 3
  | .waiting => 1
  | .parked => 0
  | .woken => 4
  | .proceeding => 2
  | .leaving none => 5
  | .leaving (some _) => 6
  | .logging _ => 5
  | .returning => 1
  | .returned => 0

/-- A bound for the steps that a thread's messages bring about, its own among them: to take
each of them out of the queue, and to wake a worker for it. -/
def Poster.work : Poster ν → ℕ
  | ⟨.idle,ms⟩ => 13*ms.length
  | ⟨.locked,ms⟩ => 13*ms.length-1
  | ⟨.unlocking accepted,ms⟩ => 13*ms.length+if accepted then 6 else 1
  | ⟨.notifying,ms⟩ => 13*ms.length+5

/-- The same for the destructor of a pool with so many workers, all of which it wakes. -/
def DtorPc.work (workers : ℕ) : DtorPc → ℕ
  | .notStarted => 4*workers+5
  | .locked => 4*workers+4
  | .unlocking => 4*workers+3
  | .notifying => 4*workers+2
  | .joining => 1
  | .done => 0

namespace ThreadPool
variable {s t : ThreadPool ν} {a : PoolAction ν}

/-- A bound for the steps that are left. -/
def work (s : ThreadPool ν) : ℕ :=
  (s.mWorkList.map WorkerPc.work).sum+(s.posters.map Poster.work).sum+
    s.dtor.work s.mWorkList.length+5*s.ring.length

/-- No log call, no spurious wakeup, and not the beginning of the destructor. -/
def busy (s : ThreadPool ν) : PoolAction ν → Bool
  | .call _ _ => false
  | .spurious _ => false
  | .destructor => s.dtor ≠ .notStarted
  | _ => true

lemma work_wake (ws : List (WorkerPc ν)) :
    ((ws.map wake).map WorkerPc.work).sum ≤ (ws.map WorkerPc.work).sum+4*ws.length := by
  induction ws with
  | nil => simp
  | cons pc ws ih =>
    have hpc : (wake pc).work ≤ pc.work+4 := by cases pc <;> simp [wake, WorkerPc.work]
    simp only [List.map_cons, List.sum_cons, List.length_cons]
    omega

/-- A step of a worker that leaves the queue alone. -/
lemma work_setWorker {i : ℕ} {pc pc' : WorkerPc ν} (hi : s.mWorkList[i]? = some pc)
    (hlt : pc'.work < pc.work) (m : Option Thread) (log : List (Entry ν)) :
    work { s with mMtx := m, logged := log, mWorkList := s.mWorkList.set i pc' } < work s := by
  have hsum := sum_map_set hi WorkerPc.work pc'
  simp only [work, List.length_set, ring]
  omega

lemma work_setPoster {j : ℕ} {p p' : Poster ν} (hp : s.posters[j]? = some p)
    (hlt : p'.work < p.work) (m : Option Thread) (rs : List (AsyncMsg ν)) :
    work { s with mMtx := m, refused := rs, posters := s.posters.set j p' } < work s := by
  have hsum := sum_map_set hp Poster.work p'
  simp only [work, ring]
  omega

/-- A push queues at most one message more. -/
lemma ring_length_pushMsg (hq : QueueInv s) (j : ℕ) (m : AsyncMsg ν) :
    (s.pushMsg j m).ring.length ≤ s.ring.length+1 := by
  have hdrop : (DataBuf.pushDropOldest 32 s.ring (s.entry j m)).length ≤ s.ring.length+1 := by
    simpa using (DataBuf.pushDropOldest_sublist 32 s.ring (s.entry j m)).length_le
  rwa [hq.ring_pushMsg]

theorem work_step (h : Sections s) (hb : s.busy a = true) (ha : s.step a = some t) :
    t.work < s.work := by
  have hstep := step_cases ha
  cases hstep with
  | call => cases hb
  | spurious => cases hb
  | skip hi hf => exact absurd ha (h.no_skip hi hf)
  | posterLock hp => exact work_setPoster hp (by simp [Poster.work]) _ _
  | refuse hp => exact work_setPoster hp (by simp [Poster.work]; omega) _ _
  | @push j m ms hp =>
    have hring := ring_length_pushMsg h.queue j m
    have hsum := sum_map_set hp Poster.work ⟨.unlocking true,ms⟩
    simp only [work, ring_setPoster, setPoster_mWorkList, setPoster_posters, setPoster_dtor,
      pushMsg_mWorkList, pushMsg_posters, pushMsg_dtor, Poster.work, List.length_cons, if_true] at hsum ⊢
    omega
  | @posterUnlock j b ms hp =>
    refine work_setPoster hp ?_ _ _
    cases b <;> simp [Poster.work]
  | @notifyWake j ms i hp hi =>
    have hworkers := sum_map_set hi WorkerPc.work .woken
    have hposters := sum_map_set hp Poster.work ⟨.idle,ms⟩
    simp only [work, ring, setPoster_mBuffer, setWorker_mBuffer, setPoster_mWorkList,
      setPoster_posters, setPoster_dtor, setWorker_mWorkList, setWorker_posters, setWorker_dtor,
      List.length_set, Poster.work, WorkerPc.work] at hworkers hposters ⊢
    omega
  | notifyNone hp => exact work_setPoster hp (by simp [Poster.work]) _ _
  | workerLock hi hpc =>
    exact work_setWorker hi (by rcases hpc with rfl | rfl <;> simp [WorkerPc.work]) _ _
  | testTrue hi => exact work_setWorker hi (by simp [WorkerPc.work]) _ _
  | testFalse hi => exact work_setWorker hi (by simp [WorkerPc.work]) _ _
  | park hi => exact work_setWorker hi (by simp [WorkerPc.work]) _ _
  | giveUp hi => exact work_setWorker hi (by simp [WorkerPc.work]) _ _
  | @take i e hi hf =>
    have hring := congrArg List.length (h.queue.ring_take hf)
    have hsum := sum_map_set hi WorkerPc.work (.leaving (some e))
    simp only [work, ring, setWorker, List.length_set, List.length_cons, WorkerPc.work] at hring hsum ⊢
    omega
  | leaveEmpty hi => exact work_setWorker hi (by simp [WorkerPc.work]) _ _
  | leave hi => exact work_setWorker hi (by simp [WorkerPc.work]) _ _
  | log hi => exact work_setWorker hi (by simp [WorkerPc.work]) _ _
  | ret hi => exact work_setWorker hi (by simp [WorkerPc.work]) _ _
  | dtorLock hd => simp [busy, hd] at hb
  | stop hd => simp [work, ring, hd, DtorPc.work]
  | dtorUnlock hd => simp [work, ring, unlock, hd, DtorPc.work]
  | notifyAll hd =>
    have hwake := work_wake s.mWorkList
    simp only [work, ring, hd, DtorPc.work]
    omega
  | join hd => simp [work, ring, hd, DtorPc.work]

/-- At rest: nothing is queued or under way, every thread is outside `postmsg`, and either all
workers sleep or the destructor has joined them all. -/
structure Settled (s : ThreadPool ν) : Prop where
  ring : s.ring = []
  held : s.held = []
  posters : ∀ p ∈ s.posters, p = {}
  split : (s.accepted : Multiset (Entry ν)) = s.logged + s.evicted
  finished : s.dtor = .notStarted ∧ (∀ pc ∈ s.mWorkList, pc = .parked) ∨
    s.dtor = .done ∧ ∀ pc ∈ s.mWorkList, pc = .returned

/-- Nothing but a log call, a spurious wakeup or the beginning of the destructor can be next. -/
def AtRest (s : ThreadPool ν) : Prop := Stuck (restrict busy step) s

/-- A thread in its critical section can go on. -/
lemma AtRest.mutex_free (hs : AtRest s) (h : Sections s) : s.mMtx = none := by
  by_contra hne
  obtain ⟨th,hth⟩ := Option.ne_none_iff_exists'.mp hne
  have hin := h.owned th hth
  cases th with
  | worker i =>
    obtain ⟨pc,hi,hh⟩ := hin
    have hnone : s.step (.worker i) = none := hs.eq_none rfl
    rw [step, hi, Option.bind_some] at hnone
    cases pc with
    | leaving msg => cases msg <;> cases hnone
    | proceeding =>
      rw [workerStep] at hnone
      split at hnone
      · cases hnone
      · split at hnone <;> cases hnone
    | testing => cases hnone
    | waiting => cases hnone
    | returning => cases hnone
    | running => cases hh
    | parked => cases hh
    | woken => cases hh
    | logging e => cases hh
    | returned => cases hh
  | poster j =>
    obtain ⟨⟨pc,todo⟩,hp,hh⟩ := hin
    have hnone : s.step (.poster j) = none := hs.eq_none rfl
    rw [step, hp, Option.bind_some] at hnone
    cases pc with
    | locked =>
      cases todo with
      | nil => exact h.posting _ (List.mem_of_getElem? hp) rfl rfl
      | cons m ms =>
        rw [posterStep] at hnone
        split at hnone <;> cases hnone
    | unlocking accepted => cases hnone
    | idle => cases hh
    | notifying => cases hh
  | destructor =>
    have hd : s.dtor = .locked ∨ s.dtor = .unlocking := by
      change s.dtor.holds = true at hin
      cases hd : s.dtor <;> simp_all [DtorPc.holds]
    have hnone : s.step .destructor = none := by
      refine hs.eq_none ?_
      rcases hd with hd | hd <;> simp [busy, hd]
    rcases hd with hd | hd <;> simp [step, dtorStep, hd] at hnone

lemma AtRest.worker (hs : AtRest s) (h : Sections s) {pc : WorkerPc ν} (hpc : pc ∈ s.mWorkList) :
    pc = .parked ∨ pc = .returned := by
  have hfree := hs.mutex_free h
  obtain ⟨i,hi⟩ := List.getElem?_of_mem hpc
  have hnone : s.step (.worker i) = none := hs.eq_none rfl
  rw [step, hi, Option.bind_some] at hnone
  cases hh : pc.holds with
  | true => cases hfree.symm.trans (h.exclusive.worker i pc hi hh)
  | false =>
    cases pc with
    | parked => exact .inl rfl
    | returned => exact .inr rfl
    | running => simp [workerStep, lock, hfree] at hnone
    | woken => simp [workerStep, lock, hfree] at hnone
    | logging e => cases hnone
    | _ => cases hh

lemma AtRest.poster (hs : AtRest s) (h : Sections s) {p : Poster ν} (hp : p ∈ s.posters) :
    p = {} := by
  have hfree := hs.mutex_free h
  obtain ⟨j,hj⟩ := List.getElem?_of_mem hp
  have hnone : s.step (.poster j) = none := hs.eq_none rfl
  rw [step, hj, Option.bind_some] at hnone
  obtain ⟨pc,todo⟩ := p
  cases pc with
  | idle =>
    cases todo with
    | nil => rfl
    | cons m ms => simp [posterStep, lock, hfree] at hnone
  | locked => cases hfree.symm.trans (h.exclusive.poster j _ hj rfl)
  | unlocking accepted => cases hnone
  | notifying =>
    by_cases hparked : .parked ∈ s.mWorkList
    · obtain ⟨i,hi⟩ := List.getElem?_of_mem hparked
      have hwake : s.step (.notifyOne j (some i)) = none := hs.eq_none rfl
      simp [step, hj, notifyOneStep, wakeOne, hi] at hwake
    · have hwake : s.step (.notifyOne j none) = none := hs.eq_none rfl
      rw [step, hj, Option.bind_some, notifyOneStep, if_neg (mt any_isParked.mp hparked)] at hwake
      cases hwake

/-- A stopped pool wakes everyone before it joins, so nobody sleeps when it is at rest. -/
lemma AtRest.returned (hs : AtRest s) (h : Sections s) (hw : WakeInv s) (hstop : s.mStop = true) :
    ∀ pc ∈ s.mWorkList, pc = .returned := by
  intro pc hpc
  refine (hs.worker h hpc).resolve_left fun hparked => ?_
  subst hparked
  have hpend := hw.stopped hstop hpc
  have hnone : s.step .destructor = none := by
    refine hs.eq_none ?_
    revert hpend
    cases hd : s.dtor <;> simp [DtorPc.pending, busy, hd]
  revert hpend
  cases hd : s.dtor <;> simp [DtorPc.pending, step, dtorStep, hd] at hnone ⊢

/-- A destructor that has begun has returned. -/
lemma AtRest.dtor (hs : AtRest s) (h : Sections s) (hw : WakeInv s) :
    s.dtor = .notStarted ∨ s.dtor = .done := by
  by_cases hns : s.dtor = .notStarted
  · exact .inl hns
  · right
    have hnone : s.step .destructor = none := hs.eq_none (by simp [busy, hns])
    cases hd : s.dtor with
    | notStarted => exact absurd hd hns
    | joining =>
      have hstop : s.mStop = true := by rw [h.stop, hd]; rfl
      have hall := all_isReturned.mpr (hs.returned h hw hstop)
      simp [step, dtorStep, hd, hall] at hnone
    | locked => simp [step, dtorStep, hd] at hnone
    | unlocking => simp [step, dtorStep, hd] at hnone
    | notifying => simp [step, dtorStep, hd] at hnone
    | done => rfl

theorem settled_of_atRest {num m : ℕ} {as : List (PoolAction ν)}
    (h : run step (init ν num m) as = some s) (hs : AtRest s) : Settled s := by
  have hsec := sections_run h
  have hw := wakeInv_run h
  have hposters : ∀ p ∈ s.posters, p = {} := fun p hp => hs.poster hsec hp
  have hheld : s.held = [] := by
    refine List.flatMap_eq_nil_iff.mpr fun pc hpc => ?_
    rcases hs.worker hsec hpc with rfl | rfl <;> rfl
  obtain ⟨pc,hpc⟩ := List.exists_mem_of_ne_nil _ (mWorkList_run h)
  have hclosed := closed_run h
  rcases hs.dtor hsec hw with hd | hd
  · have hstop : s.mStop = false := by rw [hsec.stop, hd]; rfl
    have hparked : ∀ pc ∈ s.mWorkList, pc = .parked := by
      intro pc hpc
      refine (hs.worker hsec hpc).resolve_right fun hret => ?_
      rw [(hclosed pc hpc (by rw [hret]; rfl)).1] at hstop
      cases hstop
    have hring : s.ring = [] := by
      by_contra hne
      obtain ⟨p,hp,hpend⟩ | ⟨pc,hpc,haw⟩ := hw.served hstop hne
      · rw [hposters p hp] at hpend
        cases hpend
      · rw [hparked pc hpc] at haw
        cases haw
    refine ⟨hring,hheld,hposters,?_,.inl ⟨hd,hparked⟩⟩
    simpa [hring, hheld] using (account_run h).balance
  · have hret := returned_of_done h hd
    obtain ⟨hring,-,hsplit⟩ := drained_of_returned h hret
    exact ⟨hring,hheld,hposters,hsplit,.inr ⟨hd,hret⟩⟩

/-- What the pool still does after a run, if left alone: it can go on for `work` steps at the
most, it can be at rest only with everything settled, and it gets there. -/
structure Settles (s : ThreadPool ν) : Prop where
  bounded : ∀ bs t, run (restrict busy step) s bs = some t → bs.length+t.work ≤ s.work
  settled : ∀ bs t, run (restrict busy step) s bs = some t → AtRest t → Settled t
  reaches : ∃ bs t, run (restrict busy step) s bs = some t ∧ AtRest t

theorem settles_run {num m : ℕ} {as : List (PoolAction ν)} (h : run step (init ν num m) as = some s) :
    Settles s := by
  have hstep : ∀ (s : ThreadPool ν) a t, Sections s → restrict busy step s a = some t →
      Sections t ∧ t.work < s.work := by
    intro s a t hs ha
    obtain ⟨hb,ha⟩ := restrict_eq_some.mp ha
    exact ⟨sections_step hs (step_cases ha),work_step hs hb ha⟩
  have hsec := sections_run h
  refine ⟨fun bs t hb => run_length_le hstep hb hsec,fun bs t hb hrest => ?_,
    exists_run_stuck hstep hsec⟩
  exact settled_of_atRest (run_append_eq_some.mpr ⟨s,h,run_of_restrict hb⟩) hrest

/-- A thread has pushed its message and still holds the mutex; all ten workers are at the top
of their loop. -/
def pushing : List (PoolAction ℕ) := [.call 0 [hello],.poster 0,.poster 0]

theorem settles_pushing : ∃ s, run step (init ℕ 10 1) pushing = some s ∧ s.work = 96 ∧ Settles s :=
  ⟨_,rfl,rfl,settles_run (show run step (init ℕ 10 1) pushing = some _ from rfl)⟩

end ThreadPool
end Astlog
