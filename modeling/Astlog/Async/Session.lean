import Astlog.Logger.SinkIt
import Astlog.ThreadPool.Step

/-! Programs that log through a pool: they create and destroy asynchronous loggers, log
from several threads, and destroy the pool. A logger is referred to by its place in the
order of creation, and so is its name by the messages that view it. -/
namespace Astlog
open Foundation

/-- A log call made, with the logger as it was then. -/
structure CallMade where
  id : ℕ
  logger : AsyncLogger
  call : LogCall
  deriving DecidableEq

/-- The pool and the loggers of a program whose log calls return: their texts fit. -/
structure Session where
  pool : ThreadPool ℕ
  /-- Every logger created so far, and whether it is still alive. -/
  loggers : List (AsyncLogger × Bool) := []
  /-- The logger each thread called last. -/
  callers : List ℕ
  calls : List CallMade := []
  deriving DecidableEq

inductive SessionAction
  | create (l : AsyncLogger)
  | log (j id : ℕ) (c : LogCall)
  | destroy (id : ℕ)
  | pool (a : PoolAction ℕ)
  deriving DecidableEq

/-- No call of this thread is in progress. -/
def Poster.atRest {ν : Type} : Poster ν → Bool
  | ⟨.idle,[]⟩ => true
  | _ => false

namespace Session
variable (levels : SinkPtr → Level)

/-- A pool with `num` workers, `m` threads, no logger yet. -/
def init (num m : ℕ) : Session where
  pool := ThreadPool.init ℕ num m
  callers := List.replicate m 0

/-- Some thread is inside a call of the logger. -/
def inCall (s : Session) (id : ℕ) : Bool :=
  (s.callers.zip s.pool.posters).any fun cp => cp.1 = id && !cp.2.atRest

/-- The last reference to the pool is gone: its destructor has begun. -/
def poolAlive (s : Session) : Bool := s.pool.dtor = .notStarted

/-- `sinkIt` keeps the pool alive, so the destructor waits for the calls in progress. -/
def mayStep (s : Session) : PoolAction ℕ → Bool
  | .call _ _ => false
  | .destructor => !s.poolAlive || s.pool.posters.all Poster.atRest
  | _ => true

/-- What a log call posts: nothing below the level of the logger. -/
def posts (alive : Bool) (c : CallMade) : List (AsyncMsg ℕ) :=
  (c.logger.log c.id (c.logger.sinkIt levels alive) c.call).getD []

/-- One step of the program or of a thread of the pool. A logger is not destroyed
during a call on it. -/
def step (s : Session) : SessionAction → Option Session
  | .create l => some { s with loggers := s.loggers ++ [(l,true)] }
  | .log j id c =>
    match s.loggers[id]? with
    | some (l,true) =>
      (s.pool.step (.call j (posts levels s.poolAlive ⟨id,l,c⟩))).map fun pool =>
        { s with
          pool := pool
          callers := s.callers.set j id
          calls := s.calls ++ [⟨id,l,c⟩] }
    | _ => none
  | .destroy id =>
    match s.loggers[id]? with
    | some (l,true) =>
      if s.inCall id then none else some { s with loggers := s.loggers.set id (l,false) }
    | _ => none
  | .pool a => if s.mayStep a then (s.pool.step a).map fun pool => { s with pool := pool } else none

end Session

/-- The steps of a session. -/
inductive SessionStep (levels : SinkPtr → Level) (s : Session) : SessionAction → Session → Prop
  | create (l : AsyncLogger) :
      SessionStep levels s (.create l) { s with loggers := s.loggers ++ [(l,true)] }
  | log {j id l} (c : LogCall) (hl : s.loggers[id]? = some (l,true))
      (hp : s.pool.posters[j]? = some ⟨.idle,[]⟩) :
      SessionStep levels s (.log j id c)
        { s with
          pool := s.pool.setPoster j ⟨.idle,Session.posts levels s.poolAlive ⟨id,l,c⟩⟩
          callers := s.callers.set j id
          calls := s.calls ++ [⟨id,l,c⟩] }
  | destroy {id l} (hl : s.loggers[id]? = some (l,true)) (hc : s.inCall id = false) :
      SessionStep levels s (.destroy id) { s with loggers := s.loggers.set id (l,false) }
  | pool {a p} (hm : s.mayStep a = true) (hp : PoolStep s.pool a p) :
      SessionStep levels s (.pool a) { s with pool := p }

namespace Session
variable {levels : SinkPtr → Level} {s t : Session} {a : SessionAction}

theorem step_cases (h : s.step levels a = some t) : SessionStep levels s a t := by
  cases a with
  | create l =>
    obtain rfl := Option.some.inj h
    exact .create l
  | log j id c =>
    rw [step] at h
    rcases hl : s.loggers[id]? with _ | ⟨l,_ | _⟩
    · simp [hl] at h
    · simp [hl] at h
    · rw [hl] at h
      obtain ⟨p,hp,rfl⟩ := Option.map_eq_some_iff.mp h
      cases ThreadPool.step_cases hp with
      | call hq => exact .log c hl hq
  | destroy id =>
    rw [step] at h
    rcases hl : s.loggers[id]? with _ | ⟨l,_ | _⟩
    · simp [hl] at h
    · simp [hl] at h
    · rw [hl] at h
      simp only at h
      split at h <;> cases h
      exact .destroy hl (by simpa using ‹¬s.inCall id = true›)
  | pool a =>
    rw [step] at h
    split at h
    · obtain ⟨p,hp,rfl⟩ := Option.map_eq_some_iff.mp h
      exact .pool ‹_› (ThreadPool.step_cases hp)
    · cases h

/-- The pool of a session makes a run of its own. -/
theorem pool_run {num m : ℕ} {as : List SessionAction} (h : run (step levels) (init num m) as = some s) :
    ∃ bs, run ThreadPool.step (ThreadPool.init ℕ num m) bs = some s.pool := by
  have hsim : ∀ (s : Session) (a : SessionAction) (t : Session) (p : ThreadPool ℕ), s.pool = p →
      s.step levels a = some t → ∃ bs p', run ThreadPool.step p bs = some p' ∧ t.pool = p' := by
    rintro s a t _ rfl ha
    cases a with
    | create l =>
      obtain rfl := Option.some.inj ha
      exact ⟨[],_,rfl,rfl⟩
    | log j id c =>
      rw [step] at ha
      rcases hl : s.loggers[id]? with _ | ⟨l,_ | _⟩
      · simp [hl] at ha
      · simp [hl] at ha
      · rw [hl] at ha
        obtain ⟨p,hp,rfl⟩ := Option.map_eq_some_iff.mp ha
        exact ⟨[_],p,by rw [run, hp]; rfl,rfl⟩
    | destroy id =>
      cases step_cases ha with
      | destroy => exact ⟨[],_,rfl,rfl⟩
    | pool a =>
      rw [step] at ha
      split at ha
      · obtain ⟨p,hp,rfl⟩ := Option.map_eq_some_iff.mp ha
        exact ⟨[a],p,by rw [run, hp]; rfl,rfl⟩
      · cases ha
  obtain ⟨bs,p,hb,rfl⟩ := run_simulation hsim h rfl
  exact ⟨bs,hb⟩

lemma invariant_of_steps {I : Session → Prop} (hstep : ∀ s a t, I s → SessionStep levels s a t → I t)
    {as : List SessionAction} (h : run (step levels) s as = some t) (hs : I s) : I t :=
  run_invariant (fun s a t hI ha => hstep s a t hI (step_cases ha)) h hs

lemma atRest_iff {p : Poster ℕ} : p.atRest = true ↔ p = {} := by
  obtain ⟨pc,todo⟩ := p
  cases pc <;> cases todo <;> simp [Poster.atRest]

/-- Once the destructor has begun, no thread is in a call that posts. -/
structure Quiet (s : ThreadPool ℕ) : Prop where
  stop : s.mStop = true → s.dtor ≠ .notStarted
  rest : s.dtor ≠ .notStarted → ∀ p ∈ s.posters, p = {}
  refused : s.refused = []

/-- A thread found elsewhere than at rest shows that the destructor has not begun. -/
lemma Quiet.notStarted {p : ThreadPool ℕ} (h : Quiet p) {j : ℕ} {q : Poster ℕ}
    (hq : p.posters[j]? = some q) (hne : q ≠ {}) : p.dtor = .notStarted := by
  by_contra hd
  exact hne (h.rest hd q (List.mem_of_getElem? hq))

/-- A thread that moves before the destructor begins. -/
lemma Quiet.setPoster {p : ThreadPool ℕ} (h : Quiet p) {j : ℕ} {q : Poster ℕ}
    (hq : p.posters[j]? = some q) (hne : q ≠ {}) (q' : Poster ℕ) : Quiet (p.setPoster j q') where
  stop := h.stop
  rest hd := absurd (h.notStarted hq hne) hd
  refused := h.refused

lemma quiet_pool {p p' : ThreadPool ℕ} {a : PoolAction ℕ} (h : Quiet p) (ha : PoolStep p a p')
    (hc : ∀ j msgs, a ≠ .call j msgs) (hd : a = .destructor → p.dtor = .notStarted →
      ∀ q ∈ p.posters, q = {}) : Quiet p' := by
  cases ha with
  | call => exact absurd rfl (hc _ _)
  | posterLock hp => exact ⟨h.stop,(h.setPoster hp nofun _).rest,h.refused⟩
  | refuse hp hs => exact absurd (h.notStarted hp nofun) (h.stop hs)
  | push hp => exact ⟨h.stop,(h.setPoster hp nofun _).rest,h.refused⟩
  | posterUnlock hp => exact ⟨h.stop,(h.setPoster hp nofun _).rest,h.refused⟩
  | notifyWake hp => exact ⟨h.stop,(h.setPoster hp nofun _).rest,h.refused⟩
  | notifyNone hp => exact ⟨h.stop,(h.setPoster hp nofun _).rest,h.refused⟩
  | dtorLock hd' => exact ⟨fun _ => nofun,fun _ => hd rfl hd',h.refused⟩
  | stop hd' => exact ⟨fun _ => nofun,fun _ => h.rest (by rw [hd']; nofun),h.refused⟩
  | dtorUnlock hd' => exact ⟨fun _ => nofun,fun _ => h.rest (by rw [hd']; nofun),h.refused⟩
  | notifyAll hd' => exact ⟨fun _ => nofun,fun _ => h.rest (by rw [hd']; nofun),h.refused⟩
  | join hd' => exact ⟨fun _ => nofun,fun _ => h.rest (by rw [hd']; nofun),h.refused⟩
  | _ => exact ⟨h.stop,h.rest,h.refused⟩

theorem posts_of_dead (c : CallMade) : posts levels false c = [] := by
  unfold posts Logger.log
  split <;> rfl

lemma quiet_step (h : Quiet s.pool) (ha : SessionStep levels s a t) : Quiet t.pool := by
  cases ha with
  | create => exact h
  | destroy => exact h
  | @log j id l c hl hp =>
    refine ⟨h.stop,?_,h.refused⟩
    intro hd
    have hdead : s.poolAlive = false := by simpa [poolAlive] using hd
    rw [hdead, posts_of_dead]
    exact forall_mem_set (h.rest hd) rfl
  | @pool a p hm hp =>
    refine quiet_pool h hp ?_ ?_
    · rintro j msgs rfl
      cases hm
    · rintro rfl hd q hq
      have hall : s.pool.posters.all Poster.atRest = true := by simpa [mayStep, poolAlive, hd] using hm
      exact atRest_iff.mp (List.all_eq_true.mp hall q hq)

theorem quiet_run {num m : ℕ} {as : List SessionAction}
    (h : run (step levels) (init num m) as = some s) : Quiet s.pool := by
  refine invariant_of_steps (I := fun s => Quiet s.pool) (fun _ _ _ hs ha => quiet_step hs ha) h ?_
  exact ⟨nofun,fun hd => absurd rfl hd,rfl⟩

end Session
end Astlog
