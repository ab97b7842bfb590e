import Astlog.Async.Session
import Astlog.ThreadPool.Order

/-! A queued message views the name of its logger without keeping the logger alive. -/
namespace Astlog
open Foundation

namespace Session
variable {levels : SinkPtr → Level} {s t : Session} {a : SessionAction}

/-- Read the name that a message views: the characters are there while the logger is. -/
def nameOf (s : Session) (id : ℕ) : Option (List Char) :=
  match s.loggers[id]? with
  | some (l,true) => some l.mName
  | _ => none

/-- The messages queued or held by a worker, which will still be passed to a sink. -/
def inFlight (s : Session) : List (Entry ℕ) := s.pool.ring ++ s.pool.held

/-- A logger is destroyed only when no message in flight views its name. -/
def nothingInFlight (s : Session) : SessionAction → Bool
  | .destroy id => s.inFlight.all fun e => e.msg.mMsg.mLoggerName ≠ id
  | _ => true

/-- The message was posted by the call, and the logger it was made on is alive. -/
structure MadeBy (levels : SinkPtr → Level) (s : Session) (m : AsyncMsg ℕ) (c : CallMade) : Prop where
  made : c ∈ s.calls
  posted : m ∈ posts levels true c
  alive : s.loggers[c.id]? = some (c.logger,true)

/-- The name that a sink reads from the message is that of the logger that produced it. -/
def PrintsProducer (levels : SinkPtr → Level) (s : Session) (e : Entry ℕ) : Prop :=
  ∃ c ∈ s.calls, e.msg ∈ posts levels true c ∧
    s.nameOf e.msg.mMsg.mLoggerName = some c.logger.mName

lemma posts_name {m : AsyncMsg ℕ} {c : CallMade} (h : m ∈ posts levels true c) :
    m.mMsg.mLoggerName = c.id := by
  unfold posts Logger.log at h
  split at h
  · obtain ⟨k,-,rfl⟩ := List.mem_map.mp (show m ∈ List.map _ _ from h)
    rfl
  · cases h

lemma posts_subset (alive : Bool) (c : CallMade) {m : AsyncMsg ℕ} (h : m ∈ posts levels alive c) :
    m ∈ posts levels true c := by
  cases alive with
  | true => exact h
  | false =>
    rw [posts_of_dead] at h
    cases h

lemma MadeBy.printsProducer {e : Entry ℕ} {c : CallMade} (h : MadeBy levels s e.msg c) :
    PrintsProducer levels s e := by
  refine ⟨c,h.made,h.posted,?_⟩
  rw [posts_name h.posted, nameOf, h.alive]

/-- Whatever is still to be posted or in flight was made by a call on a living logger. -/
structure NamesAlive (levels : SinkPtr → Level) (s : Session) : Prop where
  queue : s.pool.QueueInv
  callers : s.callers.length = s.pool.posters.length
  todo : ∀ (j : ℕ) (p : Poster ℕ), s.pool.posters[j]? = some p → ∀ m ∈ p.todo,
    ∃ c, MadeBy levels s m c ∧ s.callers[j]? = some c.id
  inFlight : ∀ e ∈ s.inFlight, ∃ c, MadeBy levels s e.msg c

/-- A message comes into flight only by being posted. -/
lemma inFlight_step {p p' : ThreadPool ℕ} {b : PoolAction ℕ} (hq : p.QueueInv)
    (ha : PoolStep p b p') {e : Entry ℕ} (he : e ∈ p'.ring ++ p'.held) :
    e ∈ p.ring ++ p.held ∨
      ∃ (j : ℕ) (q : Poster ℕ), p.posters[j]? = some q ∧ e.msg ∈ q.todo := by
  cases ThreadPool.flow_cases ha with
  | still hbuf hheld =>
    have hring : p'.ring = p.ring := congrArg DataBuf.contents hbuf
    rw [hring, hheld] at he
    exact .inl he
  | @push j m ms hp ht =>
    subst ht
    rw [ThreadPool.ring_setPoster, hq.ring_pushMsg] at he
    obtain he | he := List.mem_append.mp he
    · obtain he | he := List.mem_append.mp ((DataBuf.pushDropOldest_sublist 32 _ _).subset he)
      · exact .inl (List.mem_append_left _ he)
      · rw [List.mem_singleton.mp he]
        exact .inr ⟨j,_,hp,List.mem_cons_self⟩
    · exact .inl (List.mem_append_right _ he)
  | @take i x hi hf ht =>
    subst ht
    rw [hq.ring_take hf]
    left
    obtain he | he := List.mem_append.mp he
    · exact List.mem_append_left _ (List.mem_cons_of_mem _ he)
    · obtain he | he := mem_of_mem_flatMap_set he
      · exact List.mem_append_right _ he
      · rw [WorkerPc.held, Option.toList_some, List.mem_singleton] at he
        rw [he]
        exact List.mem_append_left _ List.mem_cons_self
  | log hi ht =>
    subst ht
    left
    obtain he | he := List.mem_append.mp he
    · exact List.mem_append_left _ he
    · obtain he | he := mem_of_mem_flatMap_set he
      · exact List.mem_append_right _ he
      · cases he

/-- Outside the start of a call, what a thread has to post only shrinks. -/
lemma todo_step {p p' : ThreadPool ℕ} {b : PoolAction ℕ} (ha : PoolStep p b p')
    (hc : ∀ j msgs, b ≠ .call j msgs) {j : ℕ} {q' : Poster ℕ} (hq' : p'.posters[j]? = some q')
    {m : AsyncMsg ℕ} (hm : m ∈ q'.todo) :
    ∃ q : Poster ℕ, p.posters[j]? = some q ∧ m ∈ q.todo := by
  have hset : ∀ {k : ℕ} {q q₂ : Poster ℕ}, p.posters[k]? = some q → (p.posters.set k q₂)[j]? = some q' →
      q₂.todo ⊆ q.todo → ∃ q : Poster ℕ, p.posters[j]? = some q ∧ m ∈ q.todo := by
    intro k q q₂ hk hj hsub
    rw [getElem?_set_of_some hk] at hj
    split_ifs at hj with hjk
    · cases hj
      exact ⟨q,hjk ▸ hk,hsub hm⟩
    · exact ⟨q',hj,hm⟩
  cases ha with
  | call => exact absurd rfl (hc _ _)
  | posterLock hp => exact hset hp hq' (List.Subset.refl _)
  | refuse hp => exact hset hp hq' (List.subset_cons_self _ _)
  | push hp => exact hset hp hq' (List.subset_cons_self _ _)
  | posterUnlock hp => exact hset hp hq' (List.Subset.refl _)
  | notifyWake hp => exact hset hp hq' (List.Subset.refl _)
  | notifyNone hp => exact hset hp hq' (List.Subset.refl _)
  | _ => exact ⟨q',hq',hm⟩

/-- A call stays made and its logger alive while the logger's entry stays. -/
lemma MadeBy.mono {m : AsyncMsg ℕ} {c : CallMade} (h : MadeBy levels s m c)
    (hcalls : s.calls ⊆ t.calls) (halive : t.loggers[c.id]? = some (c.logger,true)) :
    MadeBy levels t m c := ⟨hcalls h.made,h.posted,halive⟩

/-- A thread with messages to post is in a call of the logger it called last. -/
lemma inCall_of_todo {j id : ℕ} {p : Poster ℕ} (hp : s.pool.posters[j]? = some p)
    (hne : p.todo ≠ []) (hj : s.callers[j]? = some id) : s.inCall id = true := by
  have hz : (s.callers.zip s.pool.posters)[j]? = some (id,p) :=
    List.getElem?_zip_eq_some.mpr ⟨hj,hp⟩
  have hrest : p.atRest = false := by
    obtain ⟨pc,todo⟩ := p
    cases todo with
    | nil => exact absurd rfl hne
    | cons m ms => cases pc <;> rfl
  rw [inCall, List.any_eq_true]
  exact ⟨(id,p),List.mem_of_getElem? hz,by simp [hrest]⟩

/-- A step that leaves the pool alone keeps the invariant if what each call made stays made
and its logger alive. -/
lemma NamesAlive.keep (h : NamesAlive levels s) (hpool : t.pool = s.pool)
    (hcallers : t.callers = s.callers)
    (htodo : ∀ (j : ℕ) (p : Poster ℕ), s.pool.posters[j]? = some p → ∀ m ∈ p.todo, ∀ c,
      s.callers[j]? = some c.id → MadeBy levels s m c → MadeBy levels t m c)
    (hflight : ∀ e ∈ s.inFlight, ∀ c, MadeBy levels s e.msg c → MadeBy levels t e.msg c) :
    NamesAlive levels t := by
  refine ⟨by rw [hpool]; exact h.queue,by rw [hpool, hcallers]; exact h.callers,?_,?_⟩
  · intro j p hp m hm
    rw [hpool] at hp
    obtain ⟨c,hc,hj⟩ := h.todo j p hp m hm
    rw [hcallers]
    exact ⟨c,htodo j p hp m hm c hj hc,hj⟩
  · intro e he
    rw [Session.inFlight, hpool] at he
    obtain ⟨c,hc⟩ := h.inFlight e he
    exact ⟨c,hflight e he c hc⟩

lemma namesAlive_create (h : NamesAlive levels s) (l : AsyncLogger) :
    NamesAlive levels { s with loggers := s.loggers ++ [(l,true)] } := by
  have hkept : ∀ {m c}, MadeBy levels s m c →
      MadeBy levels { s with loggers := s.loggers ++ [(l,true)] } m c := by
    intro m c hc
    refine hc.mono (List.Subset.refl _) ?_
    change (s.loggers ++ [(l,true)])[c.id]? = _
    rw [List.getElem?_append_left (List.getElem?_eq_some_iff.mp hc.alive).1]
    exact hc.alive
  exact h.keep rfl rfl (fun j p hp m hm c hj => hkept) fun e he c => hkept

/-- A logger that is in no call, and whose name no message in flight views, may go. -/
lemma namesAlive_destroy (h : NamesAlive levels s) {id : ℕ} {l : AsyncLogger}
    (hok : s.nothingInFlight (.destroy id) = true) (hl : s.loggers[id]? = some (l,true))
    (hcall : s.inCall id = false) :
    NamesAlive levels { s with loggers := s.loggers.set id (l,false) } := by
  have hkept : ∀ {m c}, c.id ≠ id → MadeBy levels s m c →
      MadeBy levels { s with loggers := s.loggers.set id (l,false) } m c := by
    intro m c hne hc
    refine hc.mono (List.Subset.refl _) ?_
    change (s.loggers.set id (l,false))[c.id]? = _
    rw [getElem?_set_of_some hl, if_neg hne, hc.alive]
  refine h.keep rfl rfl (fun j p hp m hm c hj => hkept ?_) fun e he c hc => hkept ?_ hc
  · rintro rfl
    have hin : s.inCall c.id = true := inCall_of_todo hp (List.ne_nil_of_mem hm) hj
    rw [hin] at hcall
    cases hcall
  · have hviews := List.all_eq_true.mp hok e he
    rw [posts_name hc.posted] at hviews
    simpa using hviews

/-- A new call has made the messages that its thread is now to post. -/
lemma namesAlive_log (h : NamesAlive levels s) {j id : ℕ} {l : AsyncLogger} (call : LogCall)
    (hl : s.loggers[id]? = some (l,true)) (hp : s.pool.posters[j]? = some ⟨.idle,[]⟩) :
    NamesAlive levels { s with
      pool := s.pool.setPoster j ⟨.idle,posts levels s.poolAlive ⟨id,l,call⟩⟩
      callers := s.callers.set j id
      calls := s.calls ++ [⟨id,l,call⟩] } := by
  have hsub : s.calls ⊆ s.calls ++ [⟨id,l,call⟩] := List.subset_append_left _ _
  have hj : s.callers[j]? = some s.callers[j]! := by
    have hlt := (List.getElem?_eq_some_iff.mp hp).1
    rw [← h.callers] at hlt
    rw [getElem!_pos s.callers j hlt, List.getElem?_eq_getElem hlt]
  refine ⟨h.queue,by simpa using h.callers,fun k q hq m hm => ?_,fun e he => ?_⟩
  · change (s.pool.posters.set j _)[k]? = some q at hq
    change ∃ c : CallMade, _ ∧ (s.callers.set j id)[k]? = some c.id
    rw [getElem?_set_of_some hp] at hq
    rw [getElem?_set_of_some hj]
    split_ifs at hq ⊢ with hk
    · cases hq
      exact ⟨⟨id,l,call⟩,⟨List.mem_append_right _ List.mem_cons_self,posts_subset _ _ hm,hl⟩,rfl⟩
    · obtain ⟨c,hc,hk⟩ := h.todo k q hq m hm
      exact ⟨c,hc.mono hsub hc.alive,hk⟩
  · obtain ⟨c,hc⟩ := h.inFlight e he
    exact ⟨c,hc.mono hsub hc.alive⟩

/-- The pool only moves messages on. -/
lemma namesAlive_pool (h : NamesAlive levels s) {b : PoolAction ℕ} {p : ThreadPool ℕ}
    (hm : s.mayStep b = true) (hp : PoolStep s.pool b p) :
    NamesAlive levels { s with pool := p } := by
  have hcall : ∀ j msgs, b ≠ .call j msgs := by
    rintro j msgs rfl
    cases hm
  have hkept : ∀ {m c}, MadeBy levels s m c → MadeBy levels { s with pool := p } m c :=
    fun hc => hc.mono (List.Subset.refl _) hc.alive
  have hlen : p.posters.length = s.pool.posters.length := by cases hp <;> simp
  refine ⟨ThreadPool.queueInv_step h.queue hp,h.callers.trans hlen.symm,fun j q hq m hmem => ?_,
    fun e he => ?_⟩
  · obtain ⟨q₀,hq₀,hm₀⟩ := todo_step hp hcall hq hmem
    obtain ⟨c,hc,hj⟩ := h.todo j q₀ hq₀ m hm₀
    exact ⟨c,hkept hc,hj⟩
  · obtain he | ⟨j,q,hq,hmem⟩ := inFlight_step h.queue hp he
    · obtain ⟨c,hc⟩ := h.inFlight e he
      exact ⟨c,hkept hc⟩
    · obtain ⟨c,hc,-⟩ := h.todo j q hq _ hmem
      exact ⟨c,hkept hc⟩

lemma namesAlive_step (h : NamesAlive levels s) (hok : s.nothingInFlight a = true)
    (ha : SessionStep levels s a t) : NamesAlive levels t := by
  cases ha with
  | create l => exact namesAlive_create h l
  | log call hl hp => exact namesAlive_log h call hl hp
  | destroy hl hcall => exact namesAlive_destroy h hok hl hcall
  | pool hm hp => exact namesAlive_pool h hm hp

lemma namesAlive_init (num m : ℕ) : NamesAlive levels (init num m) := by
  refine ⟨ThreadPool.queueInv_init num m,by simp [init, ThreadPool.init],fun j p hp m hm => ?_,
    fun e he => ?_⟩
  · rw [List.eq_of_mem_replicate (List.mem_of_getElem? hp)] at hm
    cases hm
  · have hempty : (init num m).inFlight = [] := by
      rw [inFlight, init, ThreadPool.ring_init, ThreadPool.held_init]
      rfl
    rw [hempty] at he
    cases he

/-- If no logger is destroyed with a message of its own in flight, then every sink that a
worker calls reads the name of the logger that produced the record. -/
theorem printsProducer_of_nothingInFlight {num m : ℕ} {as : List SessionAction}
    (h : run (restrict nothingInFlight (step levels)) (init num m) as = some s) (i : ℕ) (e : Entry ℕ)
    (hi : s.pool.mWorkList[i]? = some (.logging e)) : PrintsProducer levels s e := by
  have hI : NamesAlive levels s := by
    refine run_invariant (fun s a t hs ha => ?_) h (namesAlive_init num m)
    obtain ⟨hok,hstep⟩ := restrict_eq_some.mp ha
    exact namesAlive_step hs hok (step_cases hstep)
  have hheld : e ∈ s.pool.held :=
    List.mem_flatMap.mpr ⟨_,List.mem_of_getElem? hi,List.mem_singleton_self e⟩
  obtain ⟨c,hc⟩ := hI.inFlight e (List.mem_append_right _ hheld)
  exact hc.printsProducer

/-- A logger on a pool with one worker logs once. -/
def logOnce : List SessionAction :=
  .create ⟨⟨"root".toList,[0],.debug,.error⟩,0⟩::.log 0 0 greeting::
    (ThreadPool.postOne ℕ 0).map SessionAction.pool

/-- The worker dequeues the message and is about to call the sink. -/
def dequeue : List SessionAction := List.replicate 4 (.pool (.worker 0))

theorem printsProducer_of_logOnce : ∃ s e,
    run (restrict nothingInFlight (step fun _ => .debug)) (init 1 1) (logOnce ++ dequeue) = some s ∧
    s.pool.mWorkList[0]? = some (.logging e) ∧ PrintsProducer (fun _ => .debug) s e := by
  have hrun : ∃ s e,
      run (restrict nothingInFlight (step fun _ => .debug)) (init 1 1) (logOnce ++ dequeue) = some s ∧
      s.pool.mWorkList[0]? = some (.logging e) := ⟨_,_,rfl,rfl⟩
  obtain ⟨s,e,hs,he⟩ := hrun
  exact ⟨s,e,hs,he,printsProducer_of_nothingInFlight hs 0 e he⟩

/-- A logger destroyed before its pool, as in `benchAsyncFile`: the worker reads a name
that is gone. -/
theorem name_dangles : ¬∀ (levels : SinkPtr → Level) (num m : ℕ) (as : List SessionAction) (s : Session),
    run (step levels) (init num m) as = some s → ∀ (i : ℕ) (e : Entry ℕ),
      s.pool.mWorkList[i]? = some (.logging e) → PrintsProducer levels s e := by
  intro h
  have hrun : ∃ s e, run (step fun _ => .debug) (init 1 1) (logOnce ++ [.destroy 0] ++ dequeue) = some s ∧
      s.pool.mWorkList[0]? = some (.logging e) ∧ s.nameOf e.msg.mMsg.mLoggerName = none :=
    ⟨_,_,rfl,rfl,rfl⟩
  obtain ⟨s,e,hs,he,hname⟩ := hrun
  obtain ⟨c,-,-,hc⟩ := h (fun _ => .debug) 1 1 _ s hs 0 e he
  rw [hname] at hc
  cases hc

end Session
end Astlog
