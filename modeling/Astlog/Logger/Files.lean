import Astlog.Logger.Threads

/-! What the log calls of several threads leave in the files of the sinks: at the end the records
of all calls, and after a call that flushes its own and those before it. -/
namespace Astlog
open Foundation

section
variable {M : Mutex} {κ : Type}

/-- A bound for the steps of a thread that are left, those inside the sinks included. -/
def LoggingThread.work (t : LoggingThread) : ℕ :=
  (t.calls.map fun c => 1+8*(c.sinkCalls).length).sum+8*t.sinkCalls.length+
    if t.inSink.isSome then 1 else 0

namespace SharedLogging
variable {ops : CustomOps κ} {env : FormatEnv} {s u : SharedLogging M κ}
  {a : LoggingAction} {setups : List (SinkSetup κ)} {calls : List (List LoggerCall)}

def work (s : SharedLogging M κ) : ℕ :=
  (s.threads.map (LoggingThread.work)).sum+(s.sinks.map SharedSink.work).sum

/-- The steps of the threads. The streams hand bytes on whenever they like. -/
def ofThread (_ : SharedLogging M κ) : LoggingAction → Bool
  | .thread _ => true
  | .sink _ (.move _ _) => true
  | .sink _ (.spill _) => false

lemma work_step (hb : s.ofThread a = true) (ha : s.step ops env a = some u) :
    u.work < s.work := by
  cases step_cases ha with
  | @sink k b sink sink' hk hs =>
    cases b with
    | spill n => cases hb
    | move i now =>
      have hlt := SharedSink.work_step hs
      have hsum := sum_map_set hk SharedSink.work sink'
      simp only [work]
      omega
  | @returned i t k sink ht hin hk hret =>
    have hsum := sum_map_set ht (LoggingThread.work) { t with inSink := none }
    simp only [LoggingThread.work, hin, Option.isSome_some, Option.isSome_none, ↓reduceIte,
      Bool.false_eq_true] at hsum
    simp only [work]
    omega
  | @sinkCall i t c cs sink ht hin hcalls hk =>
    have hsinks := sum_map_set hk SharedSink.work (sink.makeCall i c.member)
    have hcall := SharedSink.work_makeCall sink i c.member
    have hsum := sum_map_set ht (LoggingThread.work)
      { t with sinkCalls := cs, inSink := some c.sink, made := t.made ++ [c] }
    simp only [LoggingThread.work, hin, hcalls, Option.isSome_some, Option.isSome_none, ↓reduceIte,
      Bool.false_eq_true, List.length_cons] at hsum
    simp only [work]
    omega
  | @logCall i t c cs ht hin hnil hcalls =>
    have hsum := sum_map_set ht (LoggingThread.work)
      { t with calls := cs, sinkCalls := c.sinkCalls }
    simp only [LoggingThread.work, hnil, hcalls, List.length_nil, List.map_cons, List.sum_cons] at hsum
    simp only [work]
    omega

/-- Each thread waits or has nothing to do. -/
def AtRest (ops : CustomOps κ) (env : FormatEnv)
    (s : SharedLogging M κ) : Prop :=
  Stuck (restrict ofThread (step ops env)) s

lemma AtRest.sink (hs : AtRest ops env s) {k : ℕ} {sink : SharedSink M κ}
    (hk : s.sinks[k]? = some sink) : SharedSink.AtRest ops env sink := by
  intro a
  cases a with
  | spill n => rfl
  | move i now =>
    have hnone : s.step ops env (.sink k (.move i now)) = none := hs.eq_none rfl
    simp only [step, hk, Option.map_eq_none_iff] at hnone
    rwa [restrict, if_pos (show sink.ofThread (.move i now) = true from rfl)]

lemma AtRest.idle (hs : AtRest ops env s) (h : Kept ops env setups calls s)
    (hgrants : M.Grants) {k : ℕ} {sink : SharedSink M κ} (hk : s.sinks[k]? = some sink)
    {v : SinkThread κ} (hv : v ∈ sink.threads) : v.pc = .idle ∧ v.calls = [] := by
  obtain ⟨f,-,hkept⟩ := h.sinks.kept k sink hk
  exact (hs.sink hk).idle hkept.accounted hgrants hv

/-- No logger has a null pointer among its sinks. -/
def SinksGiven (setups : List (SinkSetup κ)) (calls : List (List LoggerCall)) : Prop :=
  ∀ cs ∈ calls, ∀ c ∈ cs, ∀ k ∈ c.logger.mSinks, k < setups.length

/-- At rest each thread has made its log calls. -/
lemma AtRest.done (hs : AtRest ops env s) (h : Kept ops env setups calls s)
    (hgrants : M.Grants)
    (hsinks : SinksGiven setups calls)
    {t : LoggingThread} (ht : t ∈ s.threads) : t.calls = [] ∧ t.sinkCalls = [] ∧ t.inSink = none := by
  obtain ⟨i,hi⟩ := List.getElem?_of_mem ht
  have hnone : s.step ops env (.thread i) = none := hs.eq_none rfl
  simp only [step, hi] at hnone
  have hout : t.inSink = none := by
    cases hin : t.inSink with
    | none => rfl
    | some k =>
      have hk := List.getElem?_eq_getElem (h.inside t ht k hin)
      obtain ⟨v,hv,-⟩ := h.called k _ hk i t hi
      have hret := (SharedSink.callsReturned_iff hv).mpr
        (hs.idle h hgrants hk (List.mem_of_getElem? hv))
      simp [hin, hk, hret] at hnone
  obtain ⟨done,hdone,hmade⟩ := h.progress i t hi
  have hempty : t.sinkCalls = [] := by
    cases hcs : t.sinkCalls with
    | nil => rfl
    | cons x xs =>
      have hx : x ∈ done.flatMap (LoggerCall.sinkCalls) := by
        rw [← hmade, hcs]
        simp
      obtain ⟨c,hc,hxc⟩ := List.mem_flatMap.mp hx
      have hlt := hsinks _ (List.mem_of_getElem? hdone) c (List.mem_append_left _ hc) _
        (LoggerCall.sink_mem hxc)
      rw [← h.sinks.length] at hlt
      simp [hout, hcs, List.getElem?_eq_getElem hlt] at hnone
  refine ⟨?_,hempty,hout⟩
  cases hcs : t.calls with
  | nil => rfl
  | cons c cs => simp [hout, hempty, hcs] at hnone

lemma logged_flatMap (k : SinkPtr) (cs : List LoggerCall) :
    (callsOn κ k (cs.flatMap LoggerCall.sinkCalls)).filterMap BasicSinkCall.logged =
      cs.flatMap (LoggerCall.messagesFor k) := by
  rw [callsOn_flatMap, List.filterMap_flatMap]
  exact List.flatMap_congr fun c _ => logged_callsOn k c

/-- Outside of sinks, all calls of sinks that a thread has made have returned. -/
lemma returned_eq (h : Kept ops env setups calls s) {k : ℕ} {sink : SharedSink M κ}
    (hk : s.sinks[k]? = some sink) {i : ℕ} {t : LoggingThread} (ht : s.threads[i]? = some t)
    (hout : t.inSink = none) :
    ∃ v, sink.threads[i]? = some v ∧ v.pc = .idle ∧ v.returned = callsOn κ k t.made := by
  obtain ⟨v,hv,hcalled⟩ := h.called k sink hk i t ht
  obtain ⟨hpc,hcalls⟩ := hcalled.quiet (by rw [hout]; nofun)
  have hmade := hcalled.made
  rw [hpc, hcalls, SinkPc.call, List.append_nil, List.append_nil] at hmade
  exact ⟨v,hv,hpc,hmade⟩

/-- A file at the end: what it held and whole records, those of each thread in the order of its
calls. -/
structure FileLogged (ops : CustomOps κ) (env : FormatEnv) (calls : List (List LoggerCall)) (k : ℕ)
    (f : SinkSetup κ) (sink : SharedSink M κ) : Prop where
  bytes : sink.mFile.contents = f.old ++ sink.records.flatMap (SinkRecord.bytes ops env)
  threads : ∀ (i : ℕ) (cs : List LoggerCall), calls[i]? = some cs →
    (sink.records.filter (·.thread = i)).map SinkRecord.msg = cs.flatMap (LoggerCall.messagesFor k)
  outside : ∀ (j : ℕ) (cs : List (BasicSinkCall κ)), f.calls[j]? = some cs →
    (sink.records.filter (·.thread = calls.length+j)).map SinkRecord.msg =
      cs.filterMap BasicSinkCall.logged

lemma fileLogged_of_atRest (h : Kept ops env setups calls s) (hs : AtRest ops env s)
    (hgrants : M.Grants) (hsinks : SinksGiven setups calls) {k : ℕ} {sink : SharedSink M κ}
    (hk : s.sinks[k]? = some sink) :
    ∃ f, setups[k]? = some f ∧ FileLogged ops env calls k f sink := by
  obtain ⟨f,hf,hkept⟩ := h.sinks.kept k sink hk
  obtain ⟨hbytes,houtside⟩ := hkept.complete fun v hv => hs.idle h hgrants hk hv
  refine ⟨f,hf,hbytes,fun i cs hi => ?_,houtside⟩
  obtain ⟨hlt,-⟩ := List.getElem?_eq_some_iff.mp hi
  rw [← h.length] at hlt
  have ht := List.getElem?_eq_getElem hlt
  obtain ⟨hcalls,hnil,hout⟩ := hs.done h hgrants hsinks (List.mem_of_getElem? ht)
  obtain ⟨done,hdone,hmade⟩ := h.progress i _ ht
  obtain ⟨v,hv,hpc,hret⟩ := returned_eq h hk ht hout
  rw [hcalls, List.append_nil] at hdone
  rw [hnil, List.append_nil] at hmade
  obtain rfl : cs = done := Option.some.inj (hi.symm.trans hdone)
  rw [hkept.records i v hv, hpc, hret, hmade, logged_flatMap]
  exact List.append_nil _

/-- What becomes of the log calls from some state on: the threads take `work` steps at the most,
they stop only when each has made its calls and every file has their records, and they get there. -/
structure LogsIntoFiles (ops : CustomOps κ) (env : FormatEnv) (setups : List (SinkSetup κ))
    (calls : List (List LoggerCall)) (s : SharedLogging M κ) : Prop where
  bounded : ∀ bs u, run (restrict ofThread (step ops env)) s bs = some u → bs.length+u.work ≤ s.work
  complete : ∀ bs u, run (step ops env) s bs = some u → AtRest ops env u →
    (∀ t ∈ u.threads, t.calls = [] ∧ t.sinkCalls = [] ∧ t.inSink = none) ∧
    ∀ (k : ℕ) f, setups[k]? = some f →
      ∃ sink, u.sinks[k]? = some sink ∧ FileLogged ops env calls k f sink
  reaches : ∃ bs u, run (restrict ofThread (step ops env)) s bs = some u ∧ AtRest ops env u

theorem logsIntoFiles_run (hgrants : M.Grants) (hsinks : SinksGiven setups calls)
    {as : List LoggingAction} (h : run (step ops env) (init M setups calls) as = some s) :
    LogsIntoFiles ops env setups calls s := by
  have hstep : ∀ (s : SharedLogging M κ) a u, True → restrict ofThread (step ops env) s a = some u →
      True ∧ u.work < s.work := by
    intro s a u _ ha
    obtain ⟨hb,ha⟩ := restrict_eq_some.mp ha
    exact ⟨trivial,work_step hb ha⟩
  refine ⟨fun bs u hb => run_length_le hstep hb trivial,fun bs u hb hrest => ?_,
    exists_run_stuck hstep trivial⟩
  have hkept := kept_run (run_append_eq_some.mpr ⟨s,h,hb⟩)
  refine ⟨fun t ht => hrest.done hkept hgrants hsinks ht,fun k f hf => ?_⟩
  obtain ⟨hlt,-⟩ := List.getElem?_eq_some_iff.mp hf
  rw [← hkept.sinks.length] at hlt
  have hk := List.getElem?_eq_getElem hlt
  obtain ⟨f',hf',hfile⟩ := fileLogged_of_atRest hkept hrest hgrants hsinks hk
  obtain rfl : f = f' := Option.some.inj (hf.symm.trans hf')
  exact ⟨_,hk,hfile⟩

/-- A greeting at some level, through a logger with one sink. -/
def greetingAt (level : Level) : LoggerCall where
  logger := { mSinks := [0] }
  levels := fun _ => .trace
  call := { greeting with level := level }
  fits := by simp [greeting, recordCapacity]

/-- Two threads that log, the first of them an error. -/
def twoGreetings : List (List LoggerCall) := [[greetingAt .error],[greetingAt .info]]

/-- A file for them. -/
def greetingFile : List (SinkSetup Empty) :=
  [⟨PatternFormatter.construct noCustom "%l".toList fun _ => none,"old\n".toList,[]⟩]

/-- Thread `i` moves in the first sink so many times. -/
def inSink (i n : ℕ) : List LoggingAction := List.replicate n (.sink 0 (.move i fun _ => 0))

/-- The first thread is in the sink, the second waits for it. -/
def bothInSink : List LoggingAction :=
  [.thread 0,.thread 0] ++ inSink 0 3 ++ [.thread 1,.thread 1] ++ inSink 1 1

theorem logsIntoFiles_bothInSink :
    let env : FormatEnv := ⟨⟨Unit,fun _ => none,fun _ _ _ => []⟩,0,fun _ => 0⟩
    ∃ s, run (step noCustom env) (init stdMutex greetingFile twoGreetings) bothInSink = some s ∧
      LogsIntoFiles noCustom env greetingFile twoGreetings s := by
  intro env
  have hrun : ∃ s, run (step noCustom env) (init stdMutex greetingFile twoGreetings) bothInSink = some s :=
    ⟨_,rfl⟩
  obtain ⟨s,hs⟩ := hrun
  refine ⟨s,hs,logsIntoFiles_run stdMutex_grants (fun cs hcs c hc k hk => ?_) hs⟩
  fin_cases hcs <;> fin_cases hc <;> fin_cases hk <;> exact Nat.one_pos

/-- For each call of `done` that flushed, the kernel has its record and those of the calls before
it, in every sink of its logger. -/
def Secured (ops : CustomOps κ) (env : FormatEnv) (setups : List (SinkSetup κ))
    (s : SharedLogging M κ) (i : ℕ) (done : List LoggerCall) : Prop :=
  ∀ pre c post, done = pre ++ c::post → c.flushes = true → ∀ k ∈ c.logger.mSinks, ∀ f sink,
    setups[k]? = some f → s.sinks[k]? = some sink →
      sink.InKernel ops env f.old i ((pre ++ [c]).flatMap (LoggerCall.messagesFor k))

/-- The sinks keep their records, and the kernel what it was handed of them. -/
lemma sinks_step (ha : s.step ops env a = some u) {k : ℕ} {sink' : SharedSink M κ}
    (hk : u.sinks[k]? = some sink') : ∃ sink, s.sinks[k]? = some sink ∧
      sink.records <+: sink'.records ∧ sink.mFile.kernel <+: sink'.mFile.kernel := by
  cases step_cases ha with
  | sink hk₀ hs =>
    simp only [getElem?_set_of_some hk₀] at hk
    split_ifs at hk with heq
    · cases hk
      subst heq
      exact ⟨_,hk₀,SharedSink.records_step hs,(SharedSink.step_file hs).kernel⟩
    · exact ⟨_,hk,List.prefix_rfl,List.prefix_rfl⟩
  | @sinkCall i t c cs sink ht hin hcalls hk₀ =>
    simp only [getElem?_set_of_some hk₀] at hk
    split_ifs at hk with heq
    · cases hk
      subst heq
      obtain ⟨hrecords,hfile⟩ := sink.makeCall_kept i c.member
      rw [hrecords, hfile]
      exact ⟨_,hk₀,List.prefix_rfl,List.prefix_rfl⟩
    · exact ⟨_,hk,List.prefix_rfl,List.prefix_rfl⟩
  | returned => exact ⟨_,hk,List.prefix_rfl,List.prefix_rfl⟩
  | logCall => exact ⟨_,hk,List.prefix_rfl,List.prefix_rfl⟩

lemma secured_step {i : ℕ} {done : List LoggerCall} (h : Secured ops env setups s i done)
    (ha : s.step ops env a = some u) : Secured ops env setups u i done := by
  intro pre c post hdone hc k hmem f sink hf hk
  obtain ⟨sink₀,hk₀,hrecords,hkernel⟩ := sinks_step ha hk
  exact (h pre c post hdone hc k hmem f sink₀ hf hk₀).mono hrecords hkernel

lemma secured_of_outside (hkept : Kept ops env setups calls s) {i : ℕ} {t : LoggingThread}
    (ht : s.threads[i]? = some t) (hout : t.inSink = none) (hnil : t.sinkCalls = []) :
    ∃ done, calls[i]? = some (done ++ t.calls) ∧ Secured ops env setups s i done := by
  obtain ⟨done,hdone,hmade⟩ := hkept.progress i t ht
  refine ⟨done,hdone,?_⟩
  rintro pre c post rfl hc k hmem f sink hf hk
  obtain ⟨f',hf',hsink⟩ := hkept.sinks.kept k sink hk
  obtain rfl : f = f' := Option.some.inj (hf.symm.trans hf')
  obtain ⟨v,hv,hpc,hret⟩ := returned_eq hkept hk ht hout
  rw [hnil, List.append_nil] at hmade
  -- what was called on the sink up to the first flush of `c`
  have hpast : (callsOn κ k (pre.flatMap LoggerCall.sinkCalls) ++ (c.messagesFor k).map .log) ++
      [.flush] <+: v.past := by
    obtain ⟨n,hn⟩ := Nat.exists_eq_succ_of_ne_zero (List.count_pos_iff.mpr hmem).ne'
    have hflush := callsOn_sinkCalls (κ := κ) k c
    rw [if_pos hc, hn, List.replicate_succ] at hflush
    rw [SinkThread.past_idle hpc, hret, hmade, List.flatMap_append, List.flatMap_cons,
      callsOn_append, callsOn_append, hflush]
    refine ⟨List.replicate n .flush ++ callsOn κ k (post.flatMap LoggerCall.sinkCalls),?_⟩
    simp only [List.append_assoc, List.cons_append, List.nil_append]
  have hkernel := hsink.flushed i v hv _ hpast
  rwa [List.filterMap_append, logged_flatMap, logged_map_log, ← List.flatMap_singleton
    (LoggerCall.messagesFor k) c, ← List.flatMap_append] at hkernel

/-- What has returned to a thread between two log calls is secured from then on. -/
theorem secured_run {as bs : List LoggingAction}
    (h : run (step ops env) (init M setups calls) as = some s) {i : ℕ} {t : LoggingThread}
    (ht : s.threads[i]? = some t) (hout : t.inSink = none) (hnil : t.sinkCalls = [])
    (hu : run (step ops env) s bs = some u) :
    ∃ done, calls[i]? = some (done ++ t.calls) ∧ Secured ops env setups u i done := by
  obtain ⟨done,hdone,hsecured⟩ := secured_of_outside (kept_run h) ht hout hnil
  exact ⟨done,hdone,run_invariant (fun _ _ _ hs ha => secured_step hs ha) hu hsecured⟩

/-- The first thread makes its call. -/
def errorAlone : List LoggingAction :=
  [.thread 0,.thread 0] ++ inSink 0 6 ++ [.thread 0,.thread 0] ++ inSink 0 4 ++ [.thread 0]

theorem secured_errorAlone :
    let env : FormatEnv := ⟨⟨Unit,fun _ => none,fun _ _ _ => []⟩,0,fun _ => 0⟩
    ∃ s u sink, run (step noCustom env) (init stdMutex greetingFile twoGreetings) errorAlone = some s ∧
      run (step noCustom env) s [.thread 1,.thread 1] = some u ∧ u.sinks[0]? = some sink ∧
        sink.InKernel noCustom env "old\n".toList 0 ((greetingAt .error).messagesFor 0) := by
  intro env
  have hrun : ∃ s t u sink,
      run (step noCustom env) (init stdMutex greetingFile twoGreetings) errorAlone = some s ∧
      s.threads[0]? = some t ∧ t.inSink = none ∧ t.sinkCalls = [] ∧ t.calls = [] ∧
      run (step noCustom env) s [.thread 1,.thread 1] = some u ∧ u.sinks[0]? = some sink :=
    ⟨_,_,_,_,rfl,rfl,rfl,rfl,rfl,rfl,rfl⟩
  obtain ⟨s,t,u,sink,hs,ht,hout,hnil,hcalls,hu,hsink⟩ := hrun
  obtain ⟨done,hdone,hsecured⟩ := secured_run hs ht hout hnil hu
  rw [hcalls, List.append_nil] at hdone
  obtain rfl : [greetingAt .error] = done := Option.some.inj hdone
  have hkernel := hsecured [] _ [] rfl rfl 0 (List.mem_singleton_self 0) _ sink rfl hsink
  exact ⟨s,u,sink,hs,hu,hsink,by simpa using hkernel⟩

end SharedLogging
end
end Astlog
