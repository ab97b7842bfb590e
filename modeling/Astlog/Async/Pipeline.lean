import Astlog.Sink.Called
import Astlog.ThreadPool.Settling

/-! From `postmsg` to the file: a pool whose workers log to file sinks, each of which other
threads may use as well. A worker's call of a sink takes the sink's mutex and makes its writes
step by step, while the pool and the other sinks go on. -/
namespace Astlog
open Foundation

section
variable {M : Mutex} {κ : Type}

/-- The pool and the sinks, of which worker `i` is thread `i`. A message refers to its sink by
the place in the list; a place without one is the null pointer, for which the worker calls
nothing. The names of the loggers are there as long as the messages. No step reads what was
served. -/
structure Pipeline (M : Mutex) (κ : Type) where
  pool : ThreadPool (List Char)
  sinks : List (SharedSink M κ)
  served : List (ℕ × Entry (List Char)) := []

inductive PipelineAction
  | worker (i : ℕ)
  | pool (a : PoolAction (List Char))
  | sink (k : ℕ) (a : SharedSinkAction)

/-- The entry whose sink a worker is calling. -/
def WorkerPc.calling {ν : Type} : WorkerPc ν → List (Entry ν)
  | .logging e => [e]
  | _ => []

/-- The messages among the entries that are for sink `k`. -/
def toSink {ν : Type} (k : SinkPtr) (es : List (Entry ν)) : List (LogMsg ν) :=
  es.filterMap fun e => e.msg.sentTo k

namespace Pipeline
variable (ops : CustomOps κ) (env : FormatEnv)

/-- The sinks when worker `i` begins to log an entry: `msg.m_sinker->log(msg.m_msg)`. -/
def callSink (p : Pipeline M κ) (i : ℕ) (e : Entry (List Char)) : List (SharedSink M κ) :=
  match p.sinks[e.msg.mSinker]? with
  | none => p.sinks
  | some s => p.sinks.set e.msg.mSinker (s.makeCall i (.log e.msg.mMsg))

def callReturned (p : Pipeline M κ) (i : ℕ) (e : Entry (List Char)) : Bool :=
  match p.sinks[e.msg.mSinker]? with
  | none => true
  | some s => s.callsReturned i

def notWorker : PoolAction (List Char) → Bool
  | .worker _ => false
  | _ => true

def step (p : Pipeline M κ) : PipelineAction → Option (Pipeline M κ)
  | .worker i =>
    match p.pool.mWorkList[i]? with
    | some (.leaving (some e)) =>
      (p.pool.step (.worker i)).map fun pool => { p with pool := pool, sinks := p.callSink i e }
    | some (.logging e) =>
      if p.callReturned i e then
        (p.pool.step (.worker i)).map fun pool =>
          { p with pool := pool, served := p.served ++ [(i,e)] }
      else none
    | _ => (p.pool.step (.worker i)).map fun pool => { p with pool := pool }
  | .pool a =>
    if notWorker a then (p.pool.step a).map fun pool => { p with pool := pool } else none
  | .sink k a =>
    match p.sinks[k]? with
    | none => none
    | some s => (s.step ops env a).map fun s => { p with sinks := p.sinks.set k s }

/-- A pool with `num` workers, `m` threads that post, and the sinks. -/
def init (M : Mutex) (num m : ℕ) (setups : List (SinkSetup κ)) : Pipeline M κ where
  pool := ThreadPool.init (List Char) num m
  sinks := setups.map fun f => SharedSink.init M f.mFormatter f.old
    (List.replicate (if num = 0 then 1 else num) [] ++ f.calls)

end Pipeline

/-- The steps of the pipeline. -/
inductive PipelineStep (ops : CustomOps κ) (env : FormatEnv) (p : Pipeline M κ) :
    PipelineAction → Pipeline M κ → Prop
  | sink {k a s s'} (hk : p.sinks[k]? = some s) (ha : s.step ops env a = some s') :
      PipelineStep ops env p (.sink k a) { p with sinks := p.sinks.set k s' }
  | call {i e} (hi : p.pool.mWorkList[i]? = some (.leaving (some e))) :
      PipelineStep ops env p (.worker i)
        { p with pool := p.pool.unlock.setWorker i (.logging e), sinks := p.callSink i e }
  | returned {i e} (hi : p.pool.mWorkList[i]? = some (.logging e)) (hret : p.callReturned i e = true) :
      PipelineStep ops env p (.worker i)
        { p with
          pool := { p.pool with logged := p.pool.logged ++ [e] }.setWorker i .running
          served := p.served ++ [(i,e)] }
  | worker {i pc pool} (hi : p.pool.mWorkList[i]? = some pc) (hne : ∀ e, pc ≠ .leaving (some e))
      (hlog : ∀ e, pc ≠ .logging e) (ha : p.pool.step (.worker i) = some pool) :
      PipelineStep ops env p (.worker i) { p with pool := pool }
  | pool {a pool} (hne : ∀ i, a ≠ .worker i) (ha : p.pool.step a = some pool) :
      PipelineStep ops env p (.pool a) { p with pool := pool }

namespace Pipeline
variable {ops : CustomOps κ} {env : FormatEnv} {p q : Pipeline M κ} {a : PipelineAction}

theorem step_cases (h : p.step ops env a = some q) : PipelineStep ops env p a q := by
  cases a with
  | worker i =>
    simp only [step] at h
    cases hi : p.pool.mWorkList[i]? with
    | none =>
      simp only [hi] at h
      obtain ⟨pool,hpool,-⟩ := Option.map_eq_some_iff.mp h
      rw [ThreadPool.step, hi] at hpool
      cases hpool
    | some pc =>
      cases pc with
      | leaving msg =>
        cases msg with
        | none =>
          simp only [hi] at h
          obtain ⟨pool,hpool,rfl⟩ := Option.map_eq_some_iff.mp h
          exact .worker hi (by simp) (by simp) hpool
        | some e =>
          simp only [hi] at h
          obtain ⟨pool,hpool,rfl⟩ := Option.map_eq_some_iff.mp h
          rw [ThreadPool.step, hi, Option.bind_some] at hpool
          cases hpool
          exact .call hi
      | logging e =>
        simp only [hi] at h
        split at h
        · obtain ⟨pool,hpool,rfl⟩ := Option.map_eq_some_iff.mp h
          rw [ThreadPool.step, hi, Option.bind_some] at hpool
          cases hpool
          exact .returned hi ‹_›
        · cases h
      | _ =>
        simp only [hi] at h
        obtain ⟨pool,hpool,rfl⟩ := Option.map_eq_some_iff.mp h
        exact .worker hi (by simp) (by simp) hpool
  | pool a =>
    rw [step] at h
    split at h
    next hok =>
      obtain ⟨pool,hpool,rfl⟩ := Option.map_eq_some_iff.mp h
      refine .pool ?_ hpool
      rintro i rfl
      cases hok
    · cases h
  | sink k a =>
    simp only [step] at h
    split at h
    · cases h
    next s hk =>
      obtain ⟨s',hs,rfl⟩ := Option.map_eq_some_iff.mp h
      exact .sink hk hs

/-- What a step means for the pool: one of its steps, or nothing. -/
theorem pool_step (ha : PipelineStep ops env p a q) :
    q.pool = p.pool ∨ ∃ b, p.pool.step b = some q.pool := by
  cases ha with
  | sink => exact .inl rfl
  | @call i e hi => exact .inr ⟨.worker i,by rw [ThreadPool.step, hi]; rfl⟩
  | @returned i e hi => exact .inr ⟨.worker i,by rw [ThreadPool.step, hi]; rfl⟩
  | worker hi hne hlog ha => exact .inr ⟨_,ha⟩
  | pool hne ha => exact .inr ⟨_,ha⟩

/-- The pool makes a run of its own. -/
theorem pool_run {num m : ℕ} {setups : List (SinkSetup κ)} {as : List PipelineAction}
    (h : run (step ops env) (init M num m setups) as = some p) :
    ∃ bs, run ThreadPool.step (ThreadPool.init (List Char) num m) bs = some p.pool := by
  have hsim : ∀ (p : Pipeline M κ) (a : PipelineAction) (q : Pipeline M κ) (s : ThreadPool (List Char)),
      p.pool = s → p.step ops env a = some q →
        ∃ bs s', run ThreadPool.step s bs = some s' ∧ q.pool = s' := by
    rintro p a q _ rfl ha
    rcases pool_step (step_cases ha) with heq | ⟨b,hb⟩
    · exact ⟨[],_,rfl,heq⟩
    · exact ⟨[b],_,by rw [run, hb]; rfl,rfl⟩
  obtain ⟨bs,s,hb,rfl⟩ := run_simulation hsim h rfl
  exact ⟨bs,hb⟩

/-- The entries that worker `i` has logged. -/
def servedBy (p : Pipeline M κ) (i : ℕ) : List (Entry (List Char)) :=
  (p.served.filter (·.1 = i)).map Prod.snd

end Pipeline

lemma toSink_append {ν : Type} (k : SinkPtr) (es fs : List (Entry ν)) :
    toSink k (es ++ fs) = toSink k es ++ toSink k fs := List.filterMap_append ..

lemma toSink_self {ν : Type} (e : Entry ν) : toSink e.msg.mSinker [e] = [e.msg.mMsg] := by
  simp [toSink, AsyncMsg.sentTo]

lemma toSink_of_ne {ν : Type} {k : SinkPtr} {e : Entry ν} (h : e.msg.mSinker ≠ k) :
    toSink k [e] = [] := by
  simp [toSink, AsyncMsg.sentTo, h]

/-- What thread `t` of sink `k` was called with is what its worker took for that sink, and it has
nothing to do while the worker does not call it. -/
structure Served (k : SinkPtr) (served calling : List (Entry (List Char))) (t : SinkThread κ) : Prop where
  made : (t.returned ++ t.pc.call ++ t.calls).filterMap BasicSinkCall.logged =
    toSink k (served ++ calling)
  quiet : toSink k calling = [] → t.pc = .idle ∧ t.calls = []

namespace Served
variable {k : SinkPtr} {served : List (Entry (List Char))} {t : SinkThread κ}

/-- The worker calls the sink of its entry. -/
lemma call {e : Entry (List Char)} (h : Served e.msg.mSinker served [] t) :
    Served e.msg.mSinker served [e] { t with calls := t.calls ++ [.log e.msg.mMsg] } := by
  refine ⟨?_,fun hnil => ?_⟩
  · have hmade := h.made
    rw [List.append_nil] at hmade
    rw [toSink_append, toSink_self, ← hmade, ← List.append_assoc, List.filterMap_append]
    rfl
  · rw [toSink_self] at hnil
    cases hnil

/-- The other sinks are not called. -/
lemma call_of_ne {e : Entry (List Char)} (h : Served k served [] t) (hne : e.msg.mSinker ≠ k) :
    Served k served [e] t := by
  refine ⟨?_,fun _ => h.quiet rfl⟩
  have hmade := h.made
  rw [List.append_nil] at hmade
  rw [toSink_append, toSink_of_ne hne, List.append_nil, hmade]

/-- The call of the entry has returned. -/
lemma finish {e : Entry (List Char)} (h : Served k served [e] t)
    (hret : e.msg.mSinker = k → t.pc = .idle ∧ t.calls = []) : Served k (served ++ [e]) [] t := by
  refine ⟨?_,fun _ => ?_⟩
  · rw [List.append_nil]
    exact h.made
  · by_cases hk : e.msg.mSinker = k
    · exact hret hk
    · exact h.quiet (toSink_of_ne hk)

end Served

namespace SharedSink
variable {ops : CustomOps κ} {env : FormatEnv} {s s' : SharedSink M κ}

/-- A step of the sink leaves its threads with the calls they were given. -/
lemma served_move (hm : Move ops env s s') {i : ℕ} {t : SinkThread κ} {k : SinkPtr}
    {served calling : List (Entry (List Char))} (ht : s.threads[i]? = some t)
    (h : Served k served calling t) : ∃ t', s'.threads[i]? = some t' ∧ Served k served calling t' := by
  obtain ⟨t',ht',heq,hsame⟩ := thread_move hm ht
  refine ⟨t',ht',by rw [heq]; exact h.made,fun hnil => ?_⟩
  obtain ⟨hpc,hempty⟩ := h.quiet hnil
  rw [hsame hpc hempty]
  exact ⟨hpc,hempty⟩

end SharedSink

namespace Pipeline
variable {ops : CustomOps κ} {env : FormatEnv} {p q : Pipeline M κ} {a : PipelineAction}

/-- What the workers have taken for a sink is what they called it with. -/
structure Linked (p : Pipeline M κ) : Prop where
  logged : p.served.map Prod.snd = p.pool.logged
  index : ∀ x ∈ p.served, x.1 < p.pool.mWorkList.length
  sink : ∀ (k : ℕ) (s : SharedSink M κ), p.sinks[k]? = some s → ∀ (i : ℕ) (pc : WorkerPc (List Char)),
    p.pool.mWorkList[i]? = some pc →
      ∃ t, s.threads[i]? = some t ∧ Served k (p.servedBy i) pc.calling t

/-- But for the calls of sinks, a step of the pool changes neither the entries being logged nor
those logged. -/
lemma calling_step {s t : ThreadPool (List Char)} {b : PoolAction (List Char)} (ha : PoolStep s b t)
    (hne : ∀ i, b = .worker i → ∃ pc, s.mWorkList[i]? = some pc ∧ (∀ e, pc ≠ .leaving (some e)) ∧
      ∀ e, pc ≠ .logging e) :
    t.mWorkList.map WorkerPc.calling = s.mWorkList.map WorkerPc.calling ∧ t.logged = s.logged := by
  cases ha with
  | leave hi =>
    obtain ⟨pc,hpc,hleave,-⟩ := hne _ rfl
    exact absurd (Option.some.inj (hpc.symm.trans hi)) (hleave _)
  | log hi =>
    obtain ⟨pc,hpc,-,hlog⟩ := hne _ rfl
    exact absurd (Option.some.inj (hpc.symm.trans hi)) (hlog _)
  | notifyAll =>
    refine ⟨?_,rfl⟩
    rw [List.map_map]
    refine List.map_congr_left fun pc _ => ?_
    cases pc <;> rfl
  | workerLock hi hpc => exact ⟨map_set_eq hi (by rcases hpc with rfl | rfl <;> rfl),rfl⟩
  | notifyWake hp hi => exact ⟨map_set_eq hi rfl,rfl⟩
  | testTrue hi => exact ⟨map_set_eq hi rfl,rfl⟩
  | testFalse hi => exact ⟨map_set_eq hi rfl,rfl⟩
  | park hi => exact ⟨map_set_eq hi rfl,rfl⟩
  | giveUp hi => exact ⟨map_set_eq hi rfl,rfl⟩
  | skip hi => exact ⟨map_set_eq hi rfl,rfl⟩
  | take hi => exact ⟨map_set_eq hi rfl,rfl⟩
  | leaveEmpty hi => exact ⟨map_set_eq hi rfl,rfl⟩
  | ret hi => exact ⟨map_set_eq hi rfl,rfl⟩
  | spurious hi => exact ⟨map_set_eq hi rfl,rfl⟩
  | _ => exact ⟨rfl,rfl⟩

/-- A step of the pool that calls no sink. -/
lemma Linked.pool (h : Linked p) {pool : ThreadPool (List Char)} {b : PoolAction (List Char)}
    (ha : PoolStep p.pool b pool) (hne : ∀ i, b = .worker i → ∃ pc, p.pool.mWorkList[i]? = some pc ∧
      (∀ e, pc ≠ .leaving (some e)) ∧ ∀ e, pc ≠ .logging e) : Linked { p with pool := pool } := by
  obtain ⟨hcalling,hlog⟩ := calling_step ha hne
  refine ⟨h.logged.trans hlog.symm,fun x hx => ?_,fun k s hk i pc hi => ?_⟩
  · rw [ThreadPool.mWorkList_step ha]
    exact h.index x hx
  · have hcall := congrArg (fun l => l[i]?) hcalling
    simp only [List.getElem?_map, hi, Option.map_some] at hcall
    obtain ⟨pc',hpc',heq⟩ := Option.map_eq_some_iff.mp hcall.symm
    obtain ⟨t,ht,hserved⟩ := h.sink k s hk i pc' hpc'
    exact ⟨t,ht,heq ▸ hserved⟩

lemma Linked.move (h : Linked p) {k : ℕ} {s s' : SharedSink M κ} (hk : p.sinks[k]? = some s)
    (hm : SharedSink.Move ops env s s') : Linked { p with sinks := p.sinks.set k s' } := by
  refine ⟨h.logged,h.index,fun k' u hk' i pc hi => ?_⟩
  simp only [getElem?_set_of_some hk] at hk'
  split_ifs at hk' with hkk
  · cases hk'
    obtain ⟨t,ht,hserved⟩ := h.sink k s hk i pc hi
    rw [hkk]
    exact SharedSink.served_move hm ht hserved
  · exact h.sink k' u hk' i pc hi

/-- A worker begins to log. -/
lemma Linked.call (h : Linked p) {i : ℕ} {e : Entry (List Char)}
    (hi : p.pool.mWorkList[i]? = some (.leaving (some e))) :
    Linked { p with pool := p.pool.unlock.setWorker i (.logging e), sinks := p.callSink i e } := by
  refine ⟨h.logged,fun x hx => by simpa using h.index x hx,fun k u hk j pc hj => ?_⟩
  simp only [ThreadPool.setWorker, ThreadPool.unlock, getElem?_set_of_some hi] at hj
  change (p.callSink i e)[k]? = some u at hk
  change ∃ t, u.threads[j]? = some t ∧ Served k (p.servedBy j) pc.calling t
  -- what was true of the sink before the call
  have hbefore : ∀ s, p.sinks[k]? = some s → e.msg.mSinker ≠ k →
      ∃ t, s.threads[j]? = some t ∧ Served k (p.servedBy j) pc.calling t := by
    intro s hs hne
    split_ifs at hj with hji
    · cases hj
      subst hji
      obtain ⟨t,ht,hserved⟩ := h.sink k s hs j _ hi
      exact ⟨t,ht,hserved.call_of_ne hne⟩
    · exact h.sink k s hs j pc hj
  rw [callSink] at hk
  split at hk
  next hnone =>
    refine hbefore u hk ?_
    rintro rfl
    rw [hnone] at hk
    cases hk
  next s hs =>
    rw [getElem?_set_of_some hs] at hk
    split_ifs at hk with hke
    · cases hk
      subst hke
      obtain ⟨v,hv,hserved⟩ := h.sink _ s hs i _ hi
      rw [SharedSink.makeCall_threads hv]
      change ∃ t, (s.threads.set i _)[j]? = some t ∧ _
      rw [getElem?_set_of_some hv]
      split_ifs at hj ⊢ with hji
      · cases hj
        subst hji
        exact ⟨_,rfl,hserved.call⟩
      · exact h.sink _ s hs j pc hj
    · exact hbefore u hk (Ne.symm hke)

lemma servedBy_append {served : List (ℕ × Entry (List Char))} (p : Pipeline M κ)
    (pool : ThreadPool (List Char)) (hserved : served = p.served) (i j : ℕ) (e : Entry (List Char)) :
    servedBy { p with pool := pool, served := served ++ [(i,e)] } j =
      p.servedBy j ++ if j = i then [e] else [] := by
  subst hserved
  rw [servedBy, servedBy, List.filter_append, List.map_append]
  congr 1
  by_cases hji : j = i
  · simp [hji]
  · simp [hji, Ne.symm hji]

/-- The call of a worker has returned. -/
lemma Linked.returned (h : Linked p) {i : ℕ} {e : Entry (List Char)}
    (hi : p.pool.mWorkList[i]? = some (.logging e)) (hret : p.callReturned i e = true) :
    Linked { p with
      pool := { p.pool with logged := p.pool.logged ++ [e] }.setWorker i .running
      served := p.served ++ [(i,e)] } := by
  obtain ⟨hlt,-⟩ := List.getElem?_eq_some_iff.mp hi
  refine ⟨?_,fun x hx => ?_,fun k s hk j pc hj => ?_⟩
  · simp [h.logged]
  · rw [ThreadPool.setWorker_mWorkList, List.length_set]
    obtain hx | hx := List.mem_append.mp hx
    · exact h.index x hx
    · rw [List.mem_singleton.mp hx]
      exact hlt
  · simp only [ThreadPool.setWorker, getElem?_set_of_some hi] at hj
    change p.sinks[k]? = some s at hk
    rw [servedBy_append p _ rfl]
    split_ifs at hj ⊢ with hji
    · cases hj
      subst hji
      obtain ⟨t,ht,hserved⟩ := h.sink k s hk j _ hi
      refine ⟨t,ht,hserved.finish fun hke => ?_⟩
      subst hke
      rw [callReturned, hk] at hret
      exact (SharedSink.callsReturned_iff ht).mp hret
    · rw [List.append_nil]
      exact h.sink k s hk j pc hj

theorem linked_step (h : Linked p) (ha : PipelineStep ops env p a q) : Linked q := by
  cases ha with
  | sink hk ha => exact h.move hk (SharedSink.step_move ha)
  | call hi => exact h.call hi
  | returned hi hret => exact h.returned hi hret
  | worker hi hne hlog ha =>
    refine h.pool (ThreadPool.step_cases ha) ?_
    rintro j ⟨⟩
    exact ⟨_,hi,hne,hlog⟩
  | pool hne ha => exact h.pool (ThreadPool.step_cases ha) fun i hi => absurd hi (hne i)

end Pipeline
end
end Astlog
