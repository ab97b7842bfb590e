import Astlog.Async.Files
import Astlog.Logger.Files
import Astlog.ThreadPool.Posting

/-! Threads that log through asynchronous loggers, down to the files. A log call finds the pool or
finds it gone; what it posts reaches the files by way of the queue and the workers. -/
namespace Astlog
open Foundation

namespace LoggerCall

/-- What the call posts when its logger is an asynchronous one. -/
def posts (poolAlive : Bool) (c : LoggerCall) : List (AsyncMsg (List Char)) :=
  (c.logger.log c.logger.mName (AsyncLogger.sinkIt c.levels poolAlive ⟨c.logger,0⟩) c.call).getD []

lemma posts_of_gone (c : LoggerCall) : c.posts false = [] := by
  rw [posts, Logger.log]
  split <;> rfl

/-- It sends to each sink what it would as a call of a plain logger. -/
lemma posts_sentTo (c : LoggerCall) (k : SinkPtr) :
    (c.posts true).filterMap (AsyncMsg.sentTo k) = c.messagesFor k := by
  rw [posts, Logger.log]
  cases h : c.logger.shouldLog c.call.level with
  | false => simp [messagesFor, h]
  | true =>
    have hone : ∀ l : List SinkPtr, (l.map (AsyncMsg.mk (Logger.logmsgOf c.logger.mName c.call))).filterMap
        (AsyncMsg.sentTo k) = List.replicate (l.count k) (Logger.logmsgOf c.logger.mName c.call) := by
      intro l
      induction l with
      | nil => rfl
      | cons x xs ih =>
        rw [List.map_cons, List.filterMap_cons, ih, AsyncMsg.sentTo]
        by_cases hx : x = k
        · rw [if_pos hx, hx, List.count_cons_self, List.replicate_succ]
        · rw [if_neg hx, List.count_cons_of_ne hx]
    rw [if_pos rfl, Option.getD_some, AsyncLogger.sinkIt, if_pos rfl, hone, messagesFor_eq h]
    rfl

end LoggerCall

section
variable {M : Mutex} {κ : Type}

/-- The pipeline, and the log calls that found the pool, each with its thread. -/
structure AsyncProgram (M : Mutex) (κ : Type) where
  pipeline : Pipeline M κ
  made : List (ℕ × LoggerCall) := []

inductive AsyncProgramAction
  | log (j : ℕ) (c : LoggerCall)
  | pipeline (a : PipelineAction)

namespace AsyncProgram
variable (ops : CustomOps κ) (env : FormatEnv)

/-- The destructor of the pool has not begun. -/
def poolAlive (s : AsyncProgram M κ) : Bool := s.pipeline.pool.dtor = .notStarted

def isCall : PipelineAction → Bool
  | .pool (.call _ _) => true
  | _ => false

def step (s : AsyncProgram M κ) : AsyncProgramAction → Option (AsyncProgram M κ)
  | .log j c =>
    (s.pipeline.step ops env (.pool (.call j (c.posts s.poolAlive)))).map fun p =>
      { pipeline := p, made := if s.poolAlive then s.made ++ [(j,c)] else s.made }
  | .pipeline a =>
    if isCall a then none
    else (s.pipeline.step ops env a).map fun p => { s with pipeline := p }

/-- A pool with `num` workers, `m` threads that log, and the sinks. -/
def init (M : Mutex) (num m : ℕ) (setups : List (SinkSetup κ)) : AsyncProgram M κ where
  pipeline := Pipeline.init M num m setups

/-- The calls of thread `j`, in order. -/
def callsOf (s : AsyncProgram M κ) (j : ℕ) : List LoggerCall :=
  (s.made.filter (·.1 = j)).map Prod.snd

/-- What thread `j` has sent to sink `k`. -/
def sentBy (s : AsyncProgram M κ) (k j : ℕ) : List (LogMsg (List Char)) :=
  (s.callsOf j).flatMap (LoggerCall.messagesFor k)

/-- What the pool has accepted of it. -/
def acceptedBy (s : AsyncProgram M κ) (k j : ℕ) : List (LogMsg (List Char)) :=
  (s.pipeline.pool.acceptedOf j).filterMap (AsyncMsg.sentTo k)

end AsyncProgram

namespace AsyncProgram
variable {ops : CustomOps κ} {env : FormatEnv} {s t : AsyncProgram M κ} {a : AsyncProgramAction}
  {num m : ℕ} {setups : List (SinkSetup κ)}

/-- Thread `j` logs, or the pipeline moves on its own. -/
lemma step_cases (h : s.step ops env a = some t) :
    (∃ j c, s.pipeline.pool.posters[j]? = some ⟨.idle,[]⟩ ∧
      t = { pipeline := { s.pipeline with
              pool := s.pipeline.pool.setPoster j ⟨.idle,c.posts s.poolAlive⟩ }
            made := if s.poolAlive then s.made ++ [(j,c)] else s.made }) ∨
    ∃ b p, isCall b = false ∧ PipelineStep ops env s.pipeline b p ∧ t = { s with pipeline := p } := by
  cases a with
  | log j c =>
    obtain ⟨p,hp,rfl⟩ := Option.map_eq_some_iff.mp h
    rw [Pipeline.step, if_pos (show Pipeline.notWorker (.call j (c.posts s.poolAlive)) = true from rfl)] at hp
    obtain ⟨pool,hpool,rfl⟩ := Option.map_eq_some_iff.mp hp
    cases ThreadPool.step_cases hpool with
    | call hj => exact .inl ⟨j,c,hj,rfl⟩
  | pipeline b =>
    rw [step] at h
    split at h
    · cases h
    next hb =>
      obtain ⟨p,hp,rfl⟩ := Option.map_eq_some_iff.mp h
      exact .inr ⟨b,p,by simpa using hb,Pipeline.step_cases hp,rfl⟩

/-- The pipeline makes a run of its own. -/
lemma pipeline_run {as : List AsyncProgramAction}
    (h : run (step ops env) (init M num m setups) as = some s) :
    ∃ bs, run (Pipeline.step ops env) (Pipeline.init M num m setups) bs = some s.pipeline := by
  have hsim : ∀ (s : AsyncProgram M κ) (a : AsyncProgramAction) (t : AsyncProgram M κ)
      (p : Pipeline M κ), s.pipeline = p → s.step ops env a = some t →
        ∃ bs p', run (Pipeline.step ops env) p bs = some p' ∧ t.pipeline = p' := by
    rintro s a t _ rfl ha
    cases a with
    | log j c =>
      obtain ⟨p,hp,rfl⟩ := Option.map_eq_some_iff.mp ha
      exact ⟨[_],p,by rw [run, hp]; rfl,rfl⟩
    | pipeline b =>
      rw [step] at ha
      split at ha
      · cases ha
      · obtain ⟨p,hp,rfl⟩ := Option.map_eq_some_iff.mp ha
        exact ⟨[b],p,by rw [run, hp]; rfl,rfl⟩
  obtain ⟨bs,p,hb,rfl⟩ := run_simulation hsim h rfl
  exact ⟨bs,hb⟩

/-- Each thread posts what its calls bring. -/
structure Posted (s : AsyncProgram M κ) : Prop where
  posted : s.pipeline.pool.PostedInOrder fun j => (s.callsOf j).flatMap (LoggerCall.posts true)
  index : ∀ x ∈ s.made, x.1 < s.pipeline.pool.posters.length

/-- A step of the pipeline that is no call posts what was given before. -/
lemma postedInOrder_pipeline {p q : Pipeline M κ} {b : PipelineAction}
    {given : ℕ → List (AsyncMsg (List Char))} (h : p.pool.PostedInOrder given) (hb : isCall b = false)
    (ha : PipelineStep ops env p b q) :
    q.pool.PostedInOrder given ∧ q.pool.posters.length = p.pool.posters.length := by
  have hpool : ∀ {c : PoolAction (List Char)} {pool : ThreadPool (List Char)}, PoolStep p.pool c pool →
      (∀ j msgs, c ≠ .call j msgs) →
        pool.PostedInOrder given ∧ pool.posters.length = p.pool.posters.length :=
    fun hstep hc => ⟨ThreadPool.postedInOrder_step h hstep hc,ThreadPool.posters_length_step hstep⟩
  cases ha with
  | sink => exact ⟨h,rfl⟩
  | call hi => exact hpool (.leave hi) nofun
  | returned hi => exact hpool (.log hi) nofun
  | worker hi hne hlog hstep => exact hpool (ThreadPool.step_cases hstep) nofun
  | pool hne hstep =>
    refine hpool (ThreadPool.step_cases hstep) ?_
    rintro j msgs rfl
    cases hb

lemma posted_call (h : Posted s) {j : ℕ} (hj : s.pipeline.pool.posters[j]? = some ⟨.idle,[]⟩)
    (c : LoggerCall) : Posted
      { pipeline := { s.pipeline with pool := s.pipeline.pool.setPoster j ⟨.idle,c.posts s.poolAlive⟩ }
        made := if s.poolAlive then s.made ++ [(j,c)] else s.made } := by
  obtain ⟨hlt,-⟩ := List.getElem?_eq_some_iff.mp hj
  have hcall := h.posted.call hj (c.posts s.poolAlive)
  cases halive : s.poolAlive with
  | true =>
    rw [halive] at hcall
    refine ⟨?_,fun x hx => ?_⟩
    · convert hcall using 1
      funext i
      by_cases hij : i = j
      · subst hij
        simp [callsOf]
      · simp [callsOf, Function.update_of_ne hij, Ne.symm hij]
    · simp only [ThreadPool.setPoster_posters, List.length_set]
      rcases List.mem_append.mp hx with hx | hx
      · exact h.index x hx
      · rw [List.mem_singleton.mp hx]
        exact hlt
  | false =>
    -- nothing is posted
    rw [halive, LoggerCall.posts_of_gone, List.append_nil, Function.update_eq_self] at hcall
    refine ⟨?_,fun x hx => ?_⟩
    · rw [LoggerCall.posts_of_gone]
      exact hcall
    · simp only [ThreadPool.setPoster_posters, List.length_set]
      exact h.index x hx

lemma posted_step (h : Posted s) (ha : s.step ops env a = some t) : Posted t := by
  rcases step_cases ha with ⟨j,c,hj,rfl⟩ | ⟨b,p,hb,hstep,rfl⟩
  · exact posted_call h hj c
  · obtain ⟨hposted,hlen⟩ := postedInOrder_pipeline h.posted hb hstep
    refine ⟨hposted,fun x hx => ?_⟩
    rw [hlen]
    exact h.index x hx

lemma posted_run {as : List AsyncProgramAction}
    (h : run (step ops env) (init M num m setups) as = some s) : Posted s :=
  run_invariant (fun _ _ _ hs ha => posted_step hs ha) h
    ⟨ThreadPool.postedInOrder_init num m,nofun⟩

/-- A file of a program at rest: what it held and whole records. Of what a thread sent to the sink
the pool has accepted the beginning, and all of it as long as the pool lives; what is accepted is
in a worker's record or was evicted. One worker keeps the order of each thread. -/
structure FileServed (ops : CustomOps κ) (env : FormatEnv) (s : AsyncProgram M κ) (k : ℕ)
    (f : SinkSetup κ) (sink : SharedSink M κ) : Prop where
  bytes : sink.mFile.contents = f.old ++ sink.records.flatMap (SinkRecord.bytes ops env)
  accepted : ∀ j, j < s.pipeline.pool.posters.length → s.acceptedBy k j <+: s.sentBy k j ∧
    (s.poolAlive = true → s.acceptedBy k j = s.sentBy k j)
  workers : (s.pipeline.workerMsgs sink : Multiset (LogMsg (List Char))) +
    toSink k s.pipeline.pool.evicted =
      (List.range s.pipeline.pool.posters.length).flatMap (s.acceptedBy k)
  inOrder : s.pipeline.pool.mWorkList.length = 1 → ∃ order,
    Merge ((List.range s.pipeline.pool.posters.length).map (s.acceptedBy k)) order ∧
      (s.pipeline.workerMsgs sink).Sublist order

lemma sentBy_eq (s : AsyncProgram M κ) (k j : ℕ) : s.sentBy k j =
    ((s.callsOf j).flatMap (LoggerCall.posts true)).filterMap (AsyncMsg.sentTo k) := by
  rw [List.filterMap_flatMap, sentBy]
  exact List.flatMap_congr fun c _ => (c.posts_sentTo k).symm

lemma acceptedBy_eq (s : AsyncProgram M κ) (k j : ℕ) : s.acceptedBy k j =
    (s.pipeline.pool.accepted.filter (·.poster = j)).filterMap fun e => e.msg.sentTo k := by
  rw [acceptedBy, ThreadPool.acceptedOf, List.filterMap_map]
  rfl

lemma Posted.acceptedBy (h : Posted s) (hrest : ∀ p ∈ s.pipeline.pool.posters, p = {}) (k : ℕ)
    {j : ℕ} (hj : j < s.pipeline.pool.posters.length) : s.acceptedBy k j <+: s.sentBy k j ∧
      (s.poolAlive = true → s.acceptedBy k j = s.sentBy k j) := by
  have hp : s.pipeline.pool.posters[j]? = some {} := by
    rw [List.getElem?_eq_getElem hj, hrest _ (List.getElem_mem hj)]
  obtain ⟨hpre,hall⟩ := h.posted.rest hp
  rw [sentBy_eq, AsyncProgram.acceptedBy]
  refine ⟨hpre.filterMap _,fun halive => ?_⟩
  rw [hall (by simpa [poolAlive] using halive)]

lemma Posted.merge (h : Posted s) (k : ℕ) :
    Merge ((List.range s.pipeline.pool.posters.length).map (s.acceptedBy k))
      (toSink k s.pipeline.pool.accepted) := by
  have hmerge := (merge_of_key Entry.poster s.pipeline.pool.accepted h.posted.index).filterMap
    fun e => e.msg.sentTo k
  have heach : (List.range s.pipeline.pool.posters.length).map (s.acceptedBy k) =
      ((List.range s.pipeline.pool.posters.length).map fun j =>
        s.pipeline.pool.accepted.filter (·.poster = j)).map
          (List.filterMap fun e => e.msg.sentTo k) := by
    rw [List.map_map]
    exact List.map_congr_left fun j _ => s.acceptedBy_eq k j
  rw [heach]
  exact hmerge

lemma workers_run {as : List AsyncProgramAction}
    (h : run (step ops env) (init M num m setups) as = some s) :
    s.pipeline.pool.mWorkList.length = if num = 0 then 1 else num := by
  obtain ⟨bs,hb⟩ := pipeline_run h
  refine run_invariant (I := fun p : Pipeline M κ => p.pool.mWorkList.length = if num = 0 then 1 else num)
    (fun _ _ _ hp ha => (Pipeline.workers_step (Pipeline.step_cases ha)).trans hp) hb ?_
  rw [Pipeline.workers_init, List.length_replicate]

lemma fileServed_of_atRest {as : List AsyncProgramAction} (hgrants : M.Grants)
    (h : run (step ops env) (init M num m setups) as = some s)
    (hrest : Pipeline.AtRest ops env s.pipeline) {k : ℕ} {sink : SharedSink M κ}
    (hk : s.pipeline.sinks[k]? = some sink) :
    ∃ f, setups[k]? = some f ∧ FileServed ops env s k f sink := by
  obtain ⟨bs,hb⟩ := pipeline_run h
  obtain ⟨cs,hpool⟩ := Pipeline.pool_run hb
  have hkept := Pipeline.kept_run hb
  have hposted := posted_run h
  have hsettled := ThreadPool.settled_of_atRest hpool (hrest.pool hkept hgrants)
  have hmerge := hposted.merge k
  obtain ⟨f,hf,hfile⟩ := Pipeline.fileComplete_of_atRest hb hgrants hrest hk
  refine ⟨f,hf,hfile.bytes,fun j hj => hposted.acceptedBy hsettled.posters k hj,?_,fun hone => ?_⟩
  · rw [hfile.workers, Multiset.coe_eq_coe, List.flatMap_def]
    exact hmerge.perm
  · have hnum : num ≤ 1 := by
      rw [workers_run h] at hone
      split_ifs at hone with hzero
      · omega
      · omega
    refine ⟨_,hmerge,?_⟩
    rw [Pipeline.workerMsgs_of_one hkept (Pipeline.inOrder_run hnum hb) (ThreadPool.account_run hpool)
      hsettled hk fun t ht => hrest.idle hkept hgrants hk ht]
    exact List.filter_sublist.filterMap _

/-- A run of the pipeline without calls is a run of the program. -/
lemma run_pipeline {p q : Pipeline M κ} {bs : List PipelineAction} (made : List (ℕ × LoggerCall))
    (h : run (restrict Pipeline.busy (Pipeline.step ops env)) p bs = some q) :
    run (step ops env) ⟨p,made⟩ (bs.map .pipeline) = some ⟨q,made⟩ := by
  induction bs generalizing p with
  | nil =>
    cases h
    rfl
  | cons b bs ih =>
    obtain ⟨u,hu,hrun⟩ := run_cons_eq_some.mp h
    obtain ⟨hbusy,hstep⟩ := restrict_eq_some.mp hu
    have hcall : isCall b = false := by
      cases b with
      | pool a =>
        cases a with
        | call j msgs => cases hbusy
        | _ => rfl
      | _ => rfl
    refine run_cons_eq_some.mpr ⟨⟨u,made⟩,?_,ih hrun⟩
    simp only [step, hcall, Bool.false_eq_true, if_false, hstep, Option.map_some]

/-- What becomes of a program that logs no more: it comes to rest, and whenever it is at rest all
files are served. -/
structure ServesFiles (ops : CustomOps κ) (env : FormatEnv) (setups : List (SinkSetup κ))
    (s : AsyncProgram M κ) : Prop where
  files : ∀ bs u, run (step ops env) s bs = some u → Pipeline.AtRest ops env u.pipeline →
    ∀ (k : ℕ) f, setups[k]? = some f →
      ∃ sink, u.pipeline.sinks[k]? = some sink ∧ FileServed ops env u k f sink
  reaches : ∃ bs u, run (step ops env) s bs = some u ∧ u.made = s.made ∧
    Pipeline.AtRest ops env u.pipeline

theorem servesFiles_run {as : List AsyncProgramAction} (hgrants : M.Grants)
    (h : run (step ops env) (init M num m setups) as = some s) : ServesFiles ops env setups s := by
  refine ⟨fun bs u hb hrest k f hf => ?_,?_⟩
  · have hu := run_append_eq_some.mpr ⟨s,h,hb⟩
    obtain ⟨cs,hpipeline⟩ := pipeline_run hu
    obtain ⟨hlt,-⟩ := List.getElem?_eq_some_iff.mp hf
    rw [← (Pipeline.kept_run hpipeline).sinks.length] at hlt
    have hk := List.getElem?_eq_getElem hlt
    obtain ⟨f',hf',hfile⟩ := fileServed_of_atRest hgrants hu hrest hk
    obtain rfl : f = f' := Option.some.inj (hf.symm.trans hf')
    exact ⟨_,hk,hfile⟩
  · obtain ⟨bs,hpipeline⟩ := pipeline_run h
    obtain ⟨cs,q,hq,hrest⟩ := Pipeline.exists_atRest hpipeline
    exact ⟨_,_,run_pipeline s.made hq,rfl,hrest⟩

/-- Two threads log, and the first of them has posted. -/
def logTwice : List AsyncProgramAction :=
  [.log 0 (SharedLogging.greetingAt .error),.log 1 (SharedLogging.greetingAt .info)] ++
    (List.replicate 3 (.pipeline (.pool (.poster 0))))

theorem servesFiles_logTwice :
    let env : FormatEnv := ⟨⟨Unit,fun _ => none,fun _ _ _ => []⟩,0,fun _ => 0⟩
    ∃ s, run (step noCustom env) (init stdMutex 1 2 SharedLogging.greetingFile) logTwice = some s ∧
      s.made.length = 2 ∧ ServesFiles noCustom env SharedLogging.greetingFile s := by
  intro env
  have hrun : ∃ s, run (step noCustom env) (init stdMutex 1 2 SharedLogging.greetingFile) logTwice =
      some s ∧ s.made.length = 2 := ⟨_,rfl,rfl⟩
  obtain ⟨s,hs,hmade⟩ := hrun
  exact ⟨s,hs,hmade,servesFiles_run stdMutex_grants hs⟩

end AsyncProgram
end
end Astlog
