import Astlog.Async.Pipeline
import Astlog.Foundation.Merge
import Astlog.ThreadPool.Order

/-! What a pool leaves in the files of its sinks: whole records, one for each accepted message
that was not evicted. -/
namespace Astlog
open Foundation

section
variable {M : Mutex} {κ : Type} {ops : CustomOps κ} {env : FormatEnv}

namespace Pipeline
variable {p q : Pipeline M κ} {a : PipelineAction} {num m : ℕ} {setups : List (SinkSetup κ)}
  {as : List PipelineAction}

/-- The pipeline on the files it was opened on. -/
structure Kept (ops : CustomOps κ) (env : FormatEnv) (setups : List (SinkSetup κ))
    (p : Pipeline M κ) : Prop where
  linked : Linked p
  sinks : SinksKept ops env p.pool.mWorkList.length setups p.sinks

theorem workers_step (ha : PipelineStep ops env p a q) :
    q.pool.mWorkList.length = p.pool.mWorkList.length := by
  rcases pool_step ha with heq | ⟨b,hb⟩
  · rw [heq]
  · exact ThreadPool.mWorkList_step (ThreadPool.step_cases hb)

lemma kept_step (h : Kept ops env setups p) (ha : PipelineStep ops env p a q) :
    Kept ops env setups q := by
  have hlinked := linked_step h.linked ha
  refine ⟨hlinked,?_⟩
  rw [workers_step ha]
  cases ha with
  | @sink k b s s' hk hb => exact h.sinks.set hk fun f hf => hf.step hb
  | @call i e hi =>
    obtain ⟨hlt,-⟩ := List.getElem?_eq_some_iff.mp hi
    change SinksKept _ _ _ _ (p.callSink i e)
    rw [callSink]
    split
    · exact h.sinks
    next s hs => exact h.sinks.set hs fun f hf => hf.makeCall hlt _
  | returned => exact h.sinks
  | worker => exact h.sinks
  | pool => exact h.sinks

theorem workers_init (M : Mutex) (num m : ℕ) (setups : List (SinkSetup κ)) :
    (init M num m setups).pool.mWorkList = List.replicate (if num = 0 then 1 else num) .running := rfl

lemma kept_init (num m : ℕ) (setups : List (SinkSetup κ)) :
    Kept ops env setups (init M num m setups) := by
  refine ⟨⟨rfl,nofun,fun k s hk i pc hi => ?_⟩,?_⟩
  · simp only [init, List.getElem?_map, Option.map_eq_some_iff] at hk
    obtain ⟨f,-,rfl⟩ := hk
    obtain ⟨hlt,-⟩ := List.getElem?_eq_some_iff.mp hi
    rw [workers_init, List.length_replicate] at hlt
    rw [workers_init] at hi
    obtain rfl := List.eq_of_mem_replicate (List.mem_of_getElem? hi)
    refine ⟨{ calls := [] },?_,rfl,fun _ => ⟨rfl,rfl⟩⟩
    simp [SharedSink.init, List.getElem?_append, hlt]
  · rw [workers_init, List.length_replicate]
    exact sinksKept_open _ setups

theorem kept_run (h : run (step ops env) (init M num m setups) as = some p) : Kept ops env setups p :=
  run_invariant (fun _ _ _ hp ha => kept_step hp (step_cases ha)) h (kept_init num m setups)

/-- A bound for the steps left: those of the pool, each of which may bring about a call of a
sink, and those of the sinks. -/
def work (p : Pipeline M κ) : ℕ := 7*p.pool.work+(p.sinks.map SharedSink.work).sum

/-- No log call, no spurious wakeup, not the beginning of the destructor, and no more than the
threads do to the files. -/
def busy (p : Pipeline M κ) : PipelineAction → Bool
  | .worker _ => true
  | .pool a => p.pool.busy a
  | .sink _ (.move _ _) => true
  | .sink _ (.spill _) => false

lemma work_callSink (p : Pipeline M κ) (i : ℕ) (e : Entry (List Char)) :
    ((p.callSink i e).map SharedSink.work).sum ≤ (p.sinks.map SharedSink.work).sum+6 := by
  rw [callSink]
  split
  · omega
  next s hs =>
    have hsum := sum_map_set hs SharedSink.work (s.makeCall i (.log e.msg.mMsg))
    have hcall := SharedSink.work_makeCall s i (.log e.msg.mMsg)
    omega

lemma work_step (h : ThreadPool.Sections p.pool) (hb : p.busy a = true)
    (ha : p.step ops env a = some q) : q.work < p.work := by
  have hpool : ∀ {b : PoolAction (List Char)} {pool : ThreadPool (List Char)},
      p.pool.busy b = true → p.pool.step b = some pool → pool.work < p.pool.work :=
    fun hbusy hstep => ThreadPool.work_step h hbusy hstep
  cases step_cases ha with
  | @sink k b s s' hk hs =>
    cases b with
    | spill n => cases hb
    | move i now =>
      have hlt := SharedSink.work_step hs
      have hsum := sum_map_set hk SharedSink.work s'
      simp only [work]
      omega
  | @call i e hi =>
    have hlt := hpool (b := .worker i) rfl (by rw [ThreadPool.step, hi]; rfl)
    have hle := work_callSink p i e
    simp only [work]
    omega
  | @returned i e hi =>
    have hlt := hpool (b := .worker i) rfl (by rw [ThreadPool.step, hi]; rfl)
    simp only [work]
    omega
  | worker hi hne hlog hstep =>
    have hlt := hpool rfl hstep
    simp only [work]
    omega
  | pool hne hstep =>
    have hlt := hpool hb hstep
    simp only [work]
    omega

/-- Nothing but a log call, a spurious wakeup or the beginning of the destructor can be next. -/
def AtRest (ops : CustomOps κ) (env : FormatEnv) (p : Pipeline M κ) : Prop :=
  Stuck (restrict busy (step ops env)) p

lemma AtRest.sink (hp : AtRest ops env p) {k : ℕ} {s : SharedSink M κ} (hk : p.sinks[k]? = some s) :
    SharedSink.AtRest ops env s := by
  intro a
  cases a with
  | spill n => rfl
  | move i now =>
    have hnone : p.step ops env (.sink k (.move i now)) = none := hp.eq_none rfl
    simp only [step, hk, Option.map_eq_none_iff] at hnone
    rwa [restrict, if_pos (show s.ofThread (.move i now) = true from rfl)]

theorem AtRest.idle (hp : AtRest ops env p) (h : Kept ops env setups p) (hgrants : M.Grants) {k : ℕ}
    {s : SharedSink M κ} (hk : p.sinks[k]? = some s) {t : SinkThread κ} (ht : t ∈ s.threads) :
    t.pc = .idle ∧ t.calls = [] := by
  obtain ⟨f,-,hkept⟩ := h.sinks.kept k s hk
  exact (hp.sink hk).idle hkept.accounted hgrants ht

theorem AtRest.pool (hp : AtRest ops env p) (h : Kept ops env setups p) (hgrants : M.Grants) :
    ThreadPool.AtRest p.pool := by
  intro b
  rw [restrict]
  split
  next hb =>
    by_cases hworker : ∃ i, b = .worker i
    · obtain ⟨i,rfl⟩ := hworker
      have hnone : p.step ops env (.worker i) = none := hp.eq_none rfl
      simp only [step] at hnone
      split at hnone
      · exact Option.map_eq_none_iff.mp hnone
      next e hi =>
        have hret : p.callReturned i e = true := by
          rw [callReturned]
          split
          · rfl
          next s hs =>
            obtain ⟨t,ht,-⟩ := h.linked.sink _ s hs i _ hi
            exact (SharedSink.callsReturned_iff ht).mpr
              (hp.idle h hgrants hs (List.mem_of_getElem? ht))
        rw [if_pos hret] at hnone
        exact Option.map_eq_none_iff.mp hnone
      · exact Option.map_eq_none_iff.mp hnone
    · have hnot : notWorker b = true := by
        cases b with
        | worker i => exact absurd ⟨i,rfl⟩ hworker
        | _ => rfl
      have hnone : p.step ops env (.pool b) = none := hp.eq_none hb
      rw [step, if_pos hnot] at hnone
      exact Option.map_eq_none_iff.mp hnone
  · rfl

/-- What was served, worker by worker. -/
lemma servedBy_perm (h : Linked p) :
    p.pool.logged.Perm ((List.range p.pool.mWorkList.length).flatMap p.servedBy) := by
  have hall : p.served.filter (·.1 < p.pool.mWorkList.length) = p.served :=
    List.filter_eq_self.mpr fun x hx => by simpa using h.index x hx
  have hgroup := (filter_lt_perm Prod.fst p.served p.pool.mWorkList.length).map Prod.snd
  rwa [hall, h.logged, List.map_flatMap] at hgroup

/-- The messages of the records that the workers have written. -/
def workerMsgs (p : Pipeline M κ) (s : SharedSink M κ) : List (LogMsg (List Char)) :=
  (s.records.filter (·.thread < p.pool.mWorkList.length)).map SinkRecord.msg

/-- With no thread in a call of the sink, a worker's records there are those of the entries it
has logged. -/
lemma records_eq (h : Kept ops env setups p) {k : ℕ} {s : SharedSink M κ}
    (hk : p.sinks[k]? = some s) (hidle : ∀ t ∈ s.threads, t.pc = .idle ∧ t.calls = [])
    {i : ℕ} {pc : WorkerPc (List Char)} (hi : p.pool.mWorkList[i]? = some pc) (hpc : pc.calling = []) :
    (s.records.filter (·.thread = i)).map SinkRecord.msg = toSink k (p.servedBy i) := by
  obtain ⟨f,-,hkept⟩ := h.sinks.kept k s hk
  obtain ⟨t,ht,hserved⟩ := h.linked.sink k s hk i pc hi
  obtain ⟨hpcIdle,hcalls⟩ := hidle t (List.mem_of_getElem? ht)
  have hmade := hserved.made
  rw [hpc, hpcIdle, hcalls, List.append_nil, List.append_nil, SinkPc.call, List.append_nil] at hmade
  rw [hkept.records i t ht, hpcIdle, hmade]
  exact List.append_nil _

lemma workerMsgs_perm (h : Kept ops env setups p) {k : ℕ} {s : SharedSink M κ}
    (hk : p.sinks[k]? = some s) (hidle : ∀ t ∈ s.threads, t.pc = .idle ∧ t.calls = [])
    (hworkers : ∀ pc ∈ p.pool.mWorkList, pc.calling = []) :
    (p.workerMsgs s).Perm (toSink k p.pool.logged) := by
  have hgroup := (filter_lt_perm SinkRecord.thread s.records p.pool.mWorkList.length).map SinkRecord.msg
  rw [List.map_flatMap] at hgroup
  have heach : (List.range p.pool.mWorkList.length).flatMap
      (fun i => (s.records.filter (·.thread = i)).map SinkRecord.msg) =
      (List.range p.pool.mWorkList.length).flatMap fun i => toSink k (p.servedBy i) := by
    refine List.flatMap_congr fun i hi => ?_
    obtain ⟨pc,hpc⟩ : ∃ pc, p.pool.mWorkList[i]? = some pc :=
      ⟨_,List.getElem?_eq_getElem (List.mem_range.mp hi)⟩
    exact records_eq h hk hidle hpc (hworkers pc (List.mem_of_getElem? hpc))
  rw [heach] at hgroup
  have hlogged := (servedBy_perm h.linked).filterMap fun e => e.msg.sentTo k
  rw [List.filterMap_flatMap] at hlogged
  exact hgroup.trans hlogged.symm

/-- A file at the end: what it held and whole records. The workers' records are those of the
accepted messages that were not evicted; the other threads' are those of their calls, in order. -/
structure FileComplete (ops : CustomOps κ) (env : FormatEnv) (p : Pipeline M κ) (k : ℕ)
    (f : SinkSetup κ) (s : SharedSink M κ) : Prop where
  bytes : s.mFile.contents = f.old ++ s.records.flatMap (SinkRecord.bytes ops env)
  workers : (p.workerMsgs s : Multiset (LogMsg (List Char))) + toSink k p.pool.evicted =
    toSink k p.pool.accepted
  outside : ∀ (j : ℕ) (cs : List (BasicSinkCall κ)), f.calls[j]? = some cs →
    (s.records.filter (·.thread = p.pool.mWorkList.length+j)).map SinkRecord.msg =
      cs.filterMap BasicSinkCall.logged

lemma calling_of_held {ws : List (WorkerPc (List Char))} (h : ws.flatMap WorkerPc.held = []) :
    ∀ pc ∈ ws, pc.calling = [] := by
  intro pc hpc
  have hheld := List.flatMap_eq_nil_iff.mp h pc hpc
  cases pc with
  | logging e => cases hheld
  | _ => rfl

theorem fileComplete_of_atRest (h : run (step ops env) (init M num m setups) as = some p)
    (hgrants : M.Grants) (hp : AtRest ops env p) {k : ℕ} {s : SharedSink M κ}
    (hk : p.sinks[k]? = some s) : ∃ f, setups[k]? = some f ∧ FileComplete ops env p k f s := by
  have hkept := kept_run h
  obtain ⟨bs,hpool⟩ := pool_run h
  have hsettled := ThreadPool.settled_of_atRest hpool (hp.pool hkept hgrants)
  have hidle : ∀ t ∈ s.threads, t.pc = .idle ∧ t.calls = [] :=
    fun t ht => hp.idle hkept hgrants hk ht
  obtain ⟨f,hf,hsink⟩ := hkept.sinks.kept k s hk
  obtain ⟨hbytes,houtside⟩ := hsink.complete hidle
  refine ⟨f,hf,hbytes,?_,houtside⟩
  have hperm := Multiset.coe_eq_coe.mpr
    (workerMsgs_perm hkept hk hidle (calling_of_held hsettled.held))
  have hsplit := congrArg (Multiset.filterMap fun e => e.msg.sentTo k) hsettled.split
  rw [Multiset.filterMap_add, Multiset.filterMap_coe, Multiset.filterMap_coe,
    Multiset.filterMap_coe] at hsplit
  rw [hperm]
  exact hsplit.symm

lemma busy_step {p q : Pipeline M κ} {a : PipelineAction} (h : ThreadPool.Sections p.pool)
    (ha : restrict busy (step ops env) p a = some q) :
    ThreadPool.Sections q.pool ∧ q.work < p.work := by
  obtain ⟨hb,ha⟩ := restrict_eq_some.mp ha
  refine ⟨?_,work_step h hb ha⟩
  rcases pool_step (step_cases ha) with heq | ⟨b,hb⟩
  · rwa [heq]
  · exact ThreadPool.sections_step h (ThreadPool.step_cases hb)

lemma sections_run (h : run (step ops env) (init M num m setups) as = some p) :
    ThreadPool.Sections p.pool := by
  obtain ⟨bs,hpool⟩ := pool_run h
  exact ThreadPool.sections_run hpool

/-- The threads come to rest. -/
theorem exists_atRest (h : run (step ops env) (init M num m setups) as = some p) :
    ∃ bs q, run (restrict busy (step ops env)) p bs = some q ∧ AtRest ops env q :=
  exists_run_stuck (fun _ _ _ hs ha => busy_step hs ha) (sections_run h)

/-- What becomes of a pipeline that is left alone: it takes `work` steps at the most, it is at
rest only with the pool settled and every file complete, and it gets there. -/
structure SettlesIntoFiles (ops : CustomOps κ) (env : FormatEnv) (setups : List (SinkSetup κ))
    (p : Pipeline M κ) : Prop where
  bounded : ∀ bs q, run (restrict busy (step ops env)) p bs = some q → bs.length+q.work ≤ p.work
  complete : ∀ bs q, run (step ops env) p bs = some q → AtRest ops env q →
    q.pool.Settled ∧ ∀ (k : ℕ) f, setups[k]? = some f →
      ∃ s, q.sinks[k]? = some s ∧ FileComplete ops env q k f s
  reaches : ∃ bs q, run (restrict busy (step ops env)) p bs = some q ∧ AtRest ops env q

theorem settlesIntoFiles_run (hgrants : M.Grants)
    (h : run (step ops env) (init M num m setups) as = some p) : SettlesIntoFiles ops env setups p := by
  refine ⟨fun bs q hb => run_length_le (fun _ _ _ hs ha => busy_step hs ha) hb (sections_run h),
    fun bs q hb hrest => ?_,exists_atRest h⟩
  have hq := run_append_eq_some.mpr ⟨p,h,hb⟩
  obtain ⟨cs,hpool'⟩ := pool_run hq
  have hkept := kept_run hq
  refine ⟨ThreadPool.settled_of_atRest hpool' (hrest.pool hkept hgrants),fun k f hf => ?_⟩
  obtain ⟨hlt,-⟩ := List.getElem?_eq_some_iff.mp hf
  rw [← hkept.sinks.length] at hlt
  have hk : q.sinks[k]? = some q.sinks[k] := List.getElem?_eq_getElem hlt
  obtain ⟨f',hf',hfile⟩ := fileComplete_of_atRest hq hgrants hrest hk
  obtain rfl : f = f' := Option.some.inj (hf.symm.trans hf')
  exact ⟨_,hk,hfile⟩

/-- A message for the first sink, and one for no sink. -/
def twoMessages : List (AsyncMsg (List Char)) :=
  let msg : LogMsg (List Char) :=
    { mTimeStamp := 0, mLoggerName := "root".toList, mThreadId := 1, mLoc := ⟨1,[],[]⟩, mPayload := "hi".toList }
  [⟨msg,0⟩,⟨msg,1⟩]

/-- One file, which a thread outside the pool syncs. -/
def oneFile (mFormatter : PatternFormatter Empty) : List (SinkSetup Empty) :=
  [⟨mFormatter,"old\n".toList,[[.sync]]⟩]

/-- The first message is posted, a worker takes it and calls the sink. -/
def postAndCall : List PipelineAction :=
  [.pool (.call 0 twoMessages)] ++
    (List.replicate 3 (.pool (.poster 0))) ++ [.pool (.notifyOne 0 none)] ++
    (List.replicate 4 (.worker 0)) ++ List.replicate 2 (.sink 0 (.move 0 fun _ => 0))

theorem settlesIntoFiles_postAndCall :
    let env : FormatEnv := ⟨⟨Unit,fun _ => none,fun _ _ _ => []⟩,0,fun _ => 0⟩
    let setups := oneFile (PatternFormatter.construct noCustom "%v".toList fun _ => none)
    ∃ p, run (step noCustom env) (init stdMutex 2 1 setups) postAndCall = some p ∧
      p.served = [] ∧ SettlesIntoFiles noCustom env setups p := by
  intro env setups
  have hrun : ∃ p, run (step noCustom env) (init stdMutex 2 1 setups) postAndCall = some p ∧
      p.served = [] := ⟨_,rfl,rfl⟩
  obtain ⟨p,hp,hserved⟩ := hrun
  exact ⟨p,hp,hserved,settlesIntoFiles_run stdMutex_grants hp⟩

/-- What one worker has written is all that was logged, in order. -/
theorem workerMsgs_of_one (h : Kept ops env setups p) (hI : ThreadPool.InOrder p.pool)
    (hacc : ThreadPool.Account p.pool) (hsettled : p.pool.Settled) {k : ℕ} {s : SharedSink M κ}
    (hk : p.sinks[k]? = some s) (hidle : ∀ t ∈ s.threads, t.pc = .idle ∧ t.calls = []) :
    p.workerMsgs s = toSink k (p.pool.accepted.filter (· ∉ p.pool.evicted)) := by
  obtain ⟨pc,hws⟩ := List.length_eq_one_iff.mp hI.one
  have hi : p.pool.mWorkList[0]? = some pc := by rw [hws]; rfl
  -- all that was served was served by worker 0
  have hserved : p.servedBy 0 = p.pool.logged := by
    have hall : p.served.filter (·.1 = 0) = p.served := by
      refine List.filter_eq_self.mpr fun x hx => ?_
      have hlt := h.linked.index x hx
      rw [hI.one] at hlt
      simpa using hlt
    rw [servedBy, hall, h.linked.logged]
  have hrecords := records_eq h hk hidle hi
    (calling_of_held hsettled.held pc (List.mem_of_getElem? hi))
  rw [hserved, hI.logged_eq hacc hsettled.split] at hrecords
  rw [workerMsgs, hI.one, ← hrecords]
  simp only [Nat.lt_one_iff]

theorem inOrder_run (hnum : num ≤ 1) (h : run (step ops env) (init M num m setups) as = some p) :
    ThreadPool.InOrder p.pool := by
  obtain ⟨bs,hpool⟩ := pool_run h
  exact ThreadPool.invariant_of_steps (fun _ _ _ hs ha => ThreadPool.inOrder_step hs ha) hpool
    (ThreadPool.inOrder_init hnum m)

/-- With one worker, each file gets the accepted messages that were not evicted in the order in
which they were accepted. -/
theorem workerMsgs_inOrder (hnum : num ≤ 1) (hgrants : M.Grants)
    (h : run (step ops env) (init M num m setups) as = some p) (hp : AtRest ops env p) {k : ℕ}
    {s : SharedSink M κ} (hk : p.sinks[k]? = some s) :
    p.workerMsgs s = toSink k (p.pool.accepted.filter (· ∉ p.pool.evicted)) := by
  have hkept := kept_run h
  obtain ⟨bs,hpool⟩ := pool_run h
  exact workerMsgs_of_one hkept (inOrder_run hnum h) (ThreadPool.account_run hpool)
    (ThreadPool.settled_of_atRest hpool (hp.pool hkept hgrants)) hk
    fun t ht => hp.idle hkept hgrants hk ht

theorem workerMsgs_inOrder_postAndCall :
    let env : FormatEnv := ⟨⟨Unit,fun _ => none,fun _ _ _ => []⟩,0,fun _ => 0⟩
    let setups := oneFile (PatternFormatter.construct noCustom "%v".toList fun _ => none)
    ∃ p bs q, run (step noCustom env) (init stdMutex 1 1 setups) postAndCall = some p ∧
      run (step noCustom env) p bs = some q ∧ ∀ s, q.sinks[0]? = some s →
        q.workerMsgs s = toSink 0 (q.pool.accepted.filter (· ∉ q.pool.evicted)) := by
  intro env setups
  have hrun : ∃ p, run (step noCustom env) (init stdMutex 1 1 setups) postAndCall = some p := ⟨_,rfl⟩
  obtain ⟨p,hp⟩ := hrun
  obtain ⟨bs,q,hq,hrest⟩ := exists_atRest hp
  refine ⟨p,bs,q,hp,run_of_restrict hq,fun s hs => ?_⟩
  have hall := run_append_eq_some.mpr ⟨p,hp,run_of_restrict hq⟩
  exact workerMsgs_inOrder (le_refl 1) stdMutex_grants hall hrest hs

end Pipeline
end
end Astlog
