import Astlog.ThreadPool.Machine

/-! Everything a step of the pool can do, one constructor for each thing a thread does.
The invariants are proved by cases on these. -/
namespace Astlog
open Foundation

variable {ν : Type}

inductive PoolStep (s : ThreadPool ν) : PoolAction ν → ThreadPool ν → Prop
  | call {j msgs} (hp : s.posters[j]? = some ⟨.idle,[]⟩) :
      PoolStep s (.call j msgs) (s.setPoster j ⟨.idle,msgs⟩)
  | posterLock {j m ms} (hp : s.posters[j]? = some ⟨.idle,m::ms⟩) (hm : s.mMtx = none) :
      PoolStep s (.poster j)
        ({ s with mMtx := some (.poster j) }.setPoster j ⟨.locked,m::ms⟩)
  | refuse {j m ms} (hp : s.posters[j]? = some ⟨.locked,m::ms⟩) (hs : s.mStop = true) :
      PoolStep s (.poster j)
        ({ s with refused := s.refused ++ [m] }.setPoster j ⟨.unlocking false,ms⟩)
  | push {j m ms} (hp : s.posters[j]? = some ⟨.locked,m::ms⟩) (hs : s.mStop = false) :
      PoolStep s (.poster j) ((s.pushMsg j m).setPoster j ⟨.unlocking true,ms⟩)
  | posterUnlock {j b ms} (hp : s.posters[j]? = some ⟨.unlocking b,ms⟩) :
      PoolStep s (.poster j) (s.unlock.setPoster j ⟨if b then .notifying else .idle,ms⟩)
  | notifyWake {j ms i} (hp : s.posters[j]? = some ⟨.notifying,ms⟩)
      (hi : s.mWorkList[i]? = some .parked) :
      PoolStep s (.notifyOne j (some i)) ((s.setWorker i .woken).setPoster j ⟨.idle,ms⟩)
  | notifyNone {j ms} (hp : s.posters[j]? = some ⟨.notifying,ms⟩)
      (hn : .parked ∉ s.mWorkList) :
      PoolStep s (.notifyOne j none) (s.setPoster j ⟨.idle,ms⟩)
  | workerLock {i pc} (hi : s.mWorkList[i]? = some pc) (hpc : pc = .running ∨ pc = .woken)
      (hm : s.mMtx = none) :
      PoolStep s (.worker i) ({ s with mMtx := some (.worker i) }.setWorker i .testing)
  | testTrue {i} (hi : s.mWorkList[i]? = some .testing)
      (hw : s.mStop = true ∨ s.mBuffer.empty = false) :
      PoolStep s (.worker i) (s.setWorker i .proceeding)
  | testFalse {i} (hi : s.mWorkList[i]? = some .testing) (hs : s.mStop = false)
      (he : s.mBuffer.empty = true) :
      PoolStep s (.worker i) (s.setWorker i .waiting)
  | park {i} (hi : s.mWorkList[i]? = some .waiting) :
      PoolStep s (.worker i) (s.unlock.setWorker i .parked)
  | giveUp {i} (hi : s.mWorkList[i]? = some .proceeding) (hs : s.mStop = true)
      (he : s.mBuffer.empty = true) :
      PoolStep s (.worker i) (s.setWorker i .returning)
  | skip {i} (hi : s.mWorkList[i]? = some .proceeding) (hf : s.mBuffer.front = none) :
      PoolStep s (.worker i) (s.setWorker i (.leaving none))
  | take {i e} (hi : s.mWorkList[i]? = some .proceeding) (hf : s.mBuffer.front = some e) :
      PoolStep s (.worker i)
        ({ s with mBuffer := s.mBuffer.pop }.setWorker i (.leaving (some e)))
  | leaveEmpty {i} (hi : s.mWorkList[i]? = some (.leaving none)) :
      PoolStep s (.worker i) (s.unlock.setWorker i .running)
  | leave {i e} (hi : s.mWorkList[i]? = some (.leaving (some e))) :
      PoolStep s (.worker i) (s.unlock.setWorker i (.logging e))
  | log {i e} (hi : s.mWorkList[i]? = some (.logging e)) :
      PoolStep s (.worker i) ({ s with logged := s.logged ++ [e] }.setWorker i .running)
  | ret {i} (hi : s.mWorkList[i]? = some .returning) :
      PoolStep s (.worker i) (s.unlock.setWorker i .returned)
  | spurious {i} (hi : s.mWorkList[i]? = some .parked) :
      PoolStep s (.spurious i) (s.setWorker i .woken)
  | dtorLock (hd : s.dtor = .notStarted) (hm : s.mMtx = none) :
      PoolStep s .destructor { s with mMtx := some .destructor, dtor := .locked }
  | stop (hd : s.dtor = .locked) :
      PoolStep s .destructor { s with mStop := true, dtor := .unlocking }
  | dtorUnlock (hd : s.dtor = .unlocking) :
      PoolStep s .destructor { s.unlock with dtor := .notifying }
  | notifyAll (hd : s.dtor = .notifying) :
      PoolStep s .destructor
        { s with mWorkList := s.mWorkList.map ThreadPool.wake, dtor := .joining }
  | join (hd : s.dtor = .joining) (hr : ∀ pc ∈ s.mWorkList, pc = .returned) :
      PoolStep s .destructor { s with dtor := .done }

namespace ThreadPool
variable {s t : ThreadPool ν}

theorem any_isParked {ws : List (WorkerPc ν)} : ws.any isParked = true ↔ .parked ∈ ws := by
  have h : ∀ pc : WorkerPc ν, isParked pc = true ↔ pc = .parked := by
    intro pc
    cases pc <;> simp [isParked]
  simp [h]

theorem all_isReturned {ws : List (WorkerPc ν)} :
    ws.all isReturned = true ↔ ∀ pc ∈ ws, pc = .returned := by
  have h : ∀ pc : WorkerPc ν, isReturned pc = true ↔ pc = .returned := by
    intro pc
    cases pc <;> simp [isReturned]
  simp [h]

lemma lock_eq_some {th : Thread} : s.lock th = some t ↔
    s.mMtx = none ∧ t = { s with mMtx := some th } := by
  unfold lock
  split <;> simp_all [eq_comm]

lemma wakeOne_eq_some {i : ℕ} : s.wakeOne i = some t ↔
    s.mWorkList[i]? = some .parked ∧ t = s.setWorker i .woken := by
  unfold wakeOne
  split <;> simp_all [eq_comm]

lemma posterStep_cases {j : ℕ} {p : Poster ν} (hp : s.posters[j]? = some p)
    (h : s.posterStep j p = some t) : PoolStep s (.poster j) t := by
  obtain ⟨pc,todo⟩ := p
  cases pc with
  | idle =>
    cases todo with
    | nil => simp [posterStep] at h
    | cons m ms =>
      obtain ⟨u,hu,rfl⟩ := Option.map_eq_some_iff.mp h
      obtain ⟨hm,rfl⟩ := lock_eq_some.mp hu
      exact .posterLock hp hm
  | locked =>
    cases todo with
    | nil => simp [posterStep] at h
    | cons m ms =>
      rw [posterStep] at h
      split at h <;> obtain rfl := Option.some.inj h
      · exact .refuse hp ‹_›
      · exact .push hp (by simpa using ‹¬s.mStop = true›)
  | unlocking b =>
    obtain rfl := Option.some.inj h
    exact .posterUnlock hp
  | notifying => simp [posterStep] at h

lemma notifyOneStep_cases {j : ℕ} {w : Option ℕ} {p : Poster ν} (hp : s.posters[j]? = some p)
    (h : s.notifyOneStep j w p = some t) : PoolStep s (.notifyOne j w) t := by
  obtain ⟨pc,todo⟩ := p
  cases pc with
  | notifying =>
    cases w with
    | some i =>
      obtain ⟨u,hu,rfl⟩ := Option.map_eq_some_iff.mp h
      obtain ⟨hi,rfl⟩ := wakeOne_eq_some.mp hu
      exact .notifyWake hp hi
    | none =>
      rw [notifyOneStep] at h
      split at h <;> cases h
      exact .notifyNone hp (mt any_isParked.mpr ‹_›)
  | _ => simp [notifyOneStep] at h

lemma workerStep_cases {i : ℕ} {pc : WorkerPc ν} (hi : s.mWorkList[i]? = some pc)
    (h : s.workerStep i pc = some t) : PoolStep s (.worker i) t := by
  cases pc with
  | running =>
    obtain ⟨u,hu,rfl⟩ := Option.map_eq_some_iff.mp h
    obtain ⟨hm,rfl⟩ := lock_eq_some.mp hu
    exact .workerLock hi (.inl rfl) hm
  | woken =>
    obtain ⟨u,hu,rfl⟩ := Option.map_eq_some_iff.mp h
    obtain ⟨hm,rfl⟩ := lock_eq_some.mp hu
    exact .workerLock hi (.inr rfl) hm
  | testing =>
    obtain rfl := Option.some.inj h
    by_cases hw : s.mStop = true ∨ s.mBuffer.empty = false
    · rw [if_pos (by simpa using hw)]
      exact .testTrue hi hw
    · rw [if_neg (by simpa using hw)]
      simp only [not_or, Bool.not_eq_true, Bool.not_eq_false] at hw
      exact .testFalse hi hw.1 hw.2
  | proceeding =>
    rw [workerStep] at h
    split at h
    · obtain rfl := Option.some.inj h
      have hw : s.mStop = true ∧ s.mBuffer.empty = true := by simpa using ‹(_ && _) = true›
      exact .giveUp hi hw.1 hw.2
    · split at h <;> obtain rfl := Option.some.inj h
      · exact .skip hi ‹_›
      · exact .take hi ‹_›
  | leaving msg =>
    cases msg <;> obtain rfl := Option.some.inj h
    · exact .leaveEmpty hi
    · exact .leave hi
  | waiting =>
    obtain rfl := Option.some.inj h
    exact .park hi
  | logging e =>
    obtain rfl := Option.some.inj h
    exact .log hi
  | returning =>
    obtain rfl := Option.some.inj h
    exact .ret hi
  | parked => cases h
  | returned => cases h

lemma dtorStep_cases (h : s.dtorStep = some t) : PoolStep s .destructor t := by
  unfold dtorStep at h
  cases hd : s.dtor with
  | notStarted =>
    simp only [hd] at h
    obtain ⟨u,hu,rfl⟩ := Option.map_eq_some_iff.mp h
    obtain ⟨hm,rfl⟩ := lock_eq_some.mp hu
    exact .dtorLock hd hm
  | locked =>
    simp only [hd, Option.some.injEq] at h
    exact h ▸ .stop hd
  | unlocking =>
    simp only [hd, Option.some.injEq] at h
    exact h ▸ .dtorUnlock hd
  | notifying =>
    simp only [hd, Option.some.injEq] at h
    exact h ▸ .notifyAll hd
  | joining =>
    simp only [hd] at h
    split at h <;> cases h
    exact .join hd (all_isReturned.mp ‹_›)
  | done => simp [hd] at h

/-- An enabled action does one of the things listed. -/
theorem step_cases {a : PoolAction ν} (h : s.step a = some t) : PoolStep s a t := by
  cases a with
  | call j msgs =>
    rw [step] at h
    split at h <;> cases h
    exact .call ‹_›
  | poster j =>
    obtain ⟨p,hp,h⟩ := Option.bind_eq_some_iff.mp h
    exact posterStep_cases hp h
  | notifyOne j w =>
    obtain ⟨p,hp,h⟩ := Option.bind_eq_some_iff.mp h
    exact notifyOneStep_cases hp h
  | worker i =>
    obtain ⟨pc,hi,h⟩ := Option.bind_eq_some_iff.mp h
    exact workerStep_cases hi h
  | spurious i =>
    obtain ⟨hi,rfl⟩ := wakeOne_eq_some.mp h
    exact .spurious hi
  | destructor => exact dtorStep_cases h

/-- What every listed step keeps holds in every state a run reaches. -/
theorem invariant_of_steps {I : ThreadPool ν → Prop}
    (hstep : ∀ s a t, I s → PoolStep s a t → I t) {as : List (PoolAction ν)}
    (h : run step s as = some t) (hs : I s) : I t :=
  run_invariant (fun s a t hI ha => hstep s a t hI (step_cases ha)) h hs

end ThreadPool
end Astlog
