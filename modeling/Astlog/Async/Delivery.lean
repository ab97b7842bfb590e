import Astlog.Async.Session
import Astlog.ThreadPool.Accounting

/-! What reaches a sink through the pool, next to what a plain logger delivers. -/
namespace Astlog
open Foundation

/-- The messages a call passes to the `log` of sink `k` when made on a plain `Logger`
with the same sinks and levels. -/
def CallMade.delivers (levels : SinkPtr → Level) (k : SinkPtr) (c : CallMade) : List (LogMsg ℕ) :=
  ((c.logger.log c.id (c.logger.toLogger.sinkIt levels) c.call).getD []).filterMap
    (SinkCall.loggedBy k)

/-- The messages among the entries whose sink is `k`. -/
def sentTo (k : SinkPtr) (es : List (Entry ℕ)) : List (LogMsg ℕ) :=
  es.filterMap fun e => e.msg.sentTo k

namespace Session
variable {levels : SinkPtr → Level} {s t : Session} {a : SessionAction}

lemma posts_sentTo (c : CallMade) (k : SinkPtr) :
    (posts levels true c).filterMap (AsyncMsg.sentTo k) = c.delivers levels k := by
  unfold posts CallMade.delivers Logger.log
  split
  · exact (sinkIt_loggedBy levels c.logger _ k).symm
  · rfl

/-- No call is made once the destructor of the pool has begun. -/
def callsMeetPool (s : Session) : SessionAction → Bool
  | .log _ _ _ => s.poolAlive
  | _ => true

/-- The messages of the calls made: accepted, refused, or still to be posted. -/
def Posted (levels : SinkPtr → Level) (s : Session) : Prop :=
  (s.calls.flatMap (posts levels true) : Multiset (AsyncMsg ℕ)) =
    s.pool.accepted.map Entry.msg + s.pool.refused + s.pool.posters.flatMap Poster.todo

/-- A message leaves the list of those still to be posted. -/
lemma todo_tail {ps : List (Poster ℕ)} {j : ℕ} {pc : PosterPc} {m : AsyncMsg ℕ}
    {ms : List (AsyncMsg ℕ)} (hp : ps[j]? = some ⟨pc,m::ms⟩) (pc' : PosterPc) :
    ((ps.set j ⟨pc',ms⟩).flatMap Poster.todo : Multiset (AsyncMsg ℕ)) + {m} =
      ps.flatMap Poster.todo := by
  have h := coe_flatMap_set hp Poster.todo ⟨pc',ms⟩
  rw [← Multiset.cons_coe, ← Multiset.singleton_add, ← add_assoc] at h
  exact add_right_cancel h

/-- The workers, the mutex and the destructor post nothing. -/
lemma Posted.congr (h : Posted levels s) {p : ThreadPool ℕ} (hacc : p.accepted = s.pool.accepted)
    (href : p.refused = s.pool.refused)
    (htodo : p.posters.flatMap Poster.todo = s.pool.posters.flatMap Poster.todo) :
    Posted levels { s with pool := p } := by
  rw [Posted, hacc, href, htodo]
  exact h

lemma posted_pool {p : ThreadPool ℕ} {b : PoolAction ℕ} (h : Posted levels s)
    (ha : PoolStep s.pool b p) (hc : ∀ j msgs, b ≠ .call j msgs) :
    Posted levels { s with pool := p } := by
  cases ha with
  | call => exact absurd rfl (hc _ _)
  | @refuse j m ms hp =>
    have hs := todo_tail hp (.unlocking false)
    unfold Posted at h ⊢
    simp only [ThreadPool.setPoster, ← Multiset.coe_add, Multiset.coe_singleton]
    grind
  | @push j m ms hp =>
    have hs := todo_tail hp (.unlocking true)
    unfold Posted at h ⊢
    simp only [ThreadPool.setPoster, ThreadPool.pushMsg, ThreadPool.entry, List.map_append,
      List.map_cons, List.map_nil, ← Multiset.coe_add, Multiset.coe_singleton]
    grind
  | posterLock hp => exact h.congr rfl rfl (flatMap_set_eq hp rfl)
  | posterUnlock hp => exact h.congr rfl rfl (flatMap_set_eq hp rfl)
  | notifyWake hp => exact h.congr rfl rfl (flatMap_set_eq hp rfl)
  | notifyNone hp => exact h.congr rfl rfl (flatMap_set_eq hp rfl)
  | _ => exact h.congr rfl rfl rfl

lemma posted_step (h : Posted levels s) (hok : s.callsMeetPool a = true)
    (ha : SessionStep levels s a t) : Posted levels t := by
  cases ha with
  | create => exact h
  | destroy => exact h
  | @log j id l c hl hp =>
    have halive : s.poolAlive = true := hok
    have hs := coe_flatMap_set hp Poster.todo ⟨.idle,posts levels true ⟨id,l,c⟩⟩
    unfold Posted at h ⊢
    simp only [halive, ThreadPool.setPoster, List.flatMap_append, List.flatMap_cons,
      List.flatMap_nil, List.append_nil, ← Multiset.coe_add, Multiset.coe_nil, add_zero] at hs ⊢
    grind
  | pool hm hp =>
    refine posted_pool h hp ?_
    rintro j msgs rfl
    cases hm

lemma posted_run {num m : ℕ} {as : List SessionAction}
    (h : run (restrict callsMeetPool (step levels)) (init num m) as = some s) : Posted levels s := by
  refine run_invariant (fun s a t hs ha => ?_) h ?_
  · obtain ⟨hok,hstep⟩ := restrict_eq_some.mp ha
    exact posted_step hs hok (step_cases hstep)
  · simp [Posted, init, ThreadPool.init, List.flatMap_replicate]

/-- After the pool is destroyed, what a sink received and what was evicted on the way to
it are together what a plain logger would have delivered. -/
theorem delivered_of_done {num m : ℕ} {as : List SessionAction}
    (h : run (restrict callsMeetPool (step levels)) (init num m) as = some s)
    (hdone : s.pool.dtor = .done) (k : SinkPtr) :
    (sentTo k s.pool.logged : Multiset (LogMsg ℕ)) + sentTo k s.pool.evicted =
      s.calls.flatMap (CallMade.delivers levels k) := by
  have hrun := run_of_restrict h
  have hquiet := quiet_run hrun
  obtain ⟨bs,hpool⟩ := pool_run hrun
  have hret : ∀ pc ∈ s.pool.mWorkList, pc = .returned := ThreadPool.returned_of_done hpool hdone
  have hsplit := ThreadPool.drained_of_returned hpool hret
  have htodo : s.pool.posters.flatMap Poster.todo = [] := by
    apply List.flatMap_eq_nil_iff.mpr
    intro p hp
    rw [hquiet.rest (by rw [hdone]; nofun) p hp]
  have hposted : (s.calls.flatMap (posts levels true) : Multiset (AsyncMsg ℕ)) =
      s.pool.accepted.map Entry.msg := by
    have := posted_run h
    rwa [Posted, hquiet.refused, htodo, Multiset.coe_nil, add_zero, add_zero] at this
  have hcalls : s.calls.flatMap (CallMade.delivers levels k) =
      (s.calls.flatMap (posts levels true)).filterMap (AsyncMsg.sentTo k) := by
    rw [List.filterMap_flatMap]
    exact List.flatMap_congr fun c _ => (posts_sentTo c k).symm
  have hsent : (sentTo k s.pool.accepted : Multiset (LogMsg ℕ)) =
      sentTo k s.pool.logged + sentTo k s.pool.evicted := by
    have := congrArg (Multiset.filterMap fun e => e.msg.sentTo k) hsplit.2.2
    rwa [Multiset.filterMap_add, Multiset.filterMap_coe, Multiset.filterMap_coe,
      Multiset.filterMap_coe] at this
  calc (sentTo k s.pool.logged + sentTo k s.pool.evicted : Multiset (LogMsg ℕ))
      = sentTo k s.pool.accepted := hsent.symm
    _ = (s.pool.accepted.map Entry.msg).filterMap (AsyncMsg.sentTo k) := by
        rw [List.filterMap_map]
        rfl
    _ = s.calls.flatMap (CallMade.delivers levels k) := by
        rw [hcalls, ← Multiset.filterMap_coe, ← Multiset.filterMap_coe, hposted]

/-- Each sink's own level is `DEBUG`. -/
def debugLevels : SinkPtr → Level := fun _ => .debug

/-- One thread makes `n` calls of a logger with one sink before the ten workers start. -/
def callTimes (n : ℕ) : List SessionAction :=
  .create ⟨⟨"root".toList,[0],.debug,.error⟩,0⟩::(List.replicate n
    (.log 0 0 greeting::(ThreadPool.postOne ℕ 0).map SessionAction.pool)).flatten

/-- A worker takes one message and logs it. -/
def serveOne : List SessionAction := List.replicate 5 (.pool (.worker 0))

/-- The pool with one worker is destroyed: the worker serves `n` messages and returns. -/
def destroyPool (n : ℕ) : List SessionAction :=
  List.replicate 4 (.pool .destructor) ++ (List.replicate n serveOne).flatten ++
    List.replicate 4 (.pool (.worker 0)) ++ [.pool .destructor]

/-- Two calls, the pool destroyed after them. -/
def twoCalls : List SessionAction := callTimes 2 ++ destroyPool 2

theorem delivered_of_twoCalls : ∃ s,
    run (restrict callsMeetPool (step debugLevels)) (init 1 1) twoCalls = some s ∧
    (sentTo 0 s.pool.logged : Multiset (LogMsg ℕ)) + sentTo 0 s.pool.evicted =
      s.calls.flatMap (CallMade.delivers debugLevels 0) := by
  have hrun : ∃ s, run (restrict callsMeetPool (step debugLevels)) (init 1 1) twoCalls = some s ∧
      s.pool.dtor = .done := ⟨_,rfl,rfl⟩
  obtain ⟨s,hs,hd⟩ := hrun
  exact ⟨s,hs,delivered_of_done hs hd 0⟩

set_option maxRecDepth 4000 in
/-- Of 32 messages posted before the worker looks, the sink receives 31. -/
theorem burst_loses_one : ¬∀ (levels : SinkPtr → Level) (num m : ℕ) (as : List SessionAction) (s : Session),
    run (restrict callsMeetPool (step levels)) (init num m) as = some s → s.pool.dtor = .done →
      ∀ k, (sentTo k s.pool.logged : Multiset (LogMsg ℕ)) =
        s.calls.flatMap (CallMade.delivers levels k) := by
  intro h
  have hb := congrArg Multiset.card (h debugLevels 1 1 (callTimes 32 ++ destroyPool 31) _ rfl rfl 0)
  revert hb
  decide

end Session
end Astlog
