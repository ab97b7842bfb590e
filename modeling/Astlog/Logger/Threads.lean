import Astlog.Logger.SinkIt
import Astlog.Sink.Called

/-! Threads that log through plain loggers, whose sinks are on files that they share. A log call
goes through the sinks in turn and may wait for the mutex of each, while the other threads go on. -/
namespace Astlog
open Foundation

/-- A log call, with the logger and the levels of the sinks as it reads them. To format a text that
does not fit the buffer is undefined. -/
structure LoggerCall where
  logger : Logger
  levels : SinkPtr → Level
  call : LogCall
  fits : call.text.length ≤ recordCapacity

namespace LoggerCall

/-- The calls of sinks that it makes, in order. -/
def sinkCalls (c : LoggerCall) : List (SinkCall (List Char)) :=
  (c.logger.log c.logger.mName (c.logger.sinkIt c.levels) c.call).getD []

/-- What it sends to sink `k`: its message, as often as the logger has the sink. -/
def messagesFor (k : SinkPtr) (c : LoggerCall) : List (LogMsg (List Char)) :=
  if c.logger.shouldLog c.call.level && sinkShouldLog c.levels c.call.level k then
    List.replicate (c.logger.mSinks.count k) (Logger.logmsgOf c.logger.mName c.call)
  else []

def flushes (c : LoggerCall) : Bool :=
  c.logger.shouldLog c.call.level && c.logger.shouldFlush c.call.level

/-- One message for each of the sinks that let it pass. -/
theorem messagesFor_eq {c : LoggerCall} (h : c.logger.shouldLog c.call.level = true) (k : SinkPtr) :
    c.messagesFor k =
      List.replicate ((c.logger.mSinks.filter (sinkShouldLog c.levels c.call.level)).count k)
        (Logger.logmsgOf c.logger.mName c.call) := by
  rw [messagesFor, h, Bool.true_and]
  by_cases hk : sinkShouldLog c.levels c.call.level k = true
  · rw [if_pos hk, List.count_filter hk]
  · rw [if_neg hk, List.count_eq_zero_of_not_mem fun hmem => hk (List.mem_filter.mp hmem).2]
    rfl

end LoggerCall

section
variable {ν : Type}

def SinkCall.sink : SinkCall ν → SinkPtr
  | .log sink _ => sink
  | .flush sink => sink

end

/-- It calls no sinks but those of the logger. -/
theorem LoggerCall.sink_mem {c : LoggerCall} {x : SinkCall (List Char)} (hx : x ∈ c.sinkCalls) :
    x.sink ∈ c.logger.mSinks := by
  rw [sinkCalls, Logger.log] at hx
  split_ifs at hx
  · simp only [Option.getD_some, Logger.sinkIt, List.mem_append, List.mem_map, List.mem_filter] at hx
    rcases hx with ⟨k,⟨hk,-⟩,rfl⟩ | hx
    · exact hk
    · split_ifs at hx
      · obtain ⟨k,hk,rfl⟩ := List.mem_map.mp hx
        exact hk
      · cases hx
  · cases hx

section
variable {κ : Type}

/-- The member function of `basicSink` that is called. -/
def SinkCall.member : SinkCall (List Char) → BasicSinkCall κ
  | .log _ msg => .log msg
  | .flush _ => .flush

/-- What is called on sink `k`. -/
def callsOn (κ : Type) (k : SinkPtr) (cs : List (SinkCall (List Char))) : List (BasicSinkCall κ) :=
  (cs.filter (·.sink = k)).map SinkCall.member

theorem callsOn_append (k : SinkPtr) (cs ds : List (SinkCall (List Char))) :
    callsOn κ k (cs ++ ds) = callsOn κ k cs ++ callsOn κ k ds := by
  rw [callsOn, List.filter_append, List.map_append]
  rfl

lemma callsOn_self (c : SinkCall (List Char)) : callsOn κ c.sink [c] = [c.member] := by
  simp [callsOn]

lemma callsOn_of_ne {k : SinkPtr} {c : SinkCall (List Char)} (h : c.sink ≠ k) :
    callsOn κ k [c] = [] := by
  simp [callsOn, h]

theorem callsOn_flatMap {β : Type} (k : SinkPtr) (l : List β) (f : β → List (SinkCall (List Char))) :
    callsOn κ k (l.flatMap f) = l.flatMap fun x => callsOn κ k (f x) := by
  induction l with
  | nil => rfl
  | cons x xs ih => rw [List.flatMap_cons, List.flatMap_cons, callsOn_append, ih]

/-- One call for each sink of a list. -/
lemma callsOn_map (k : SinkPtr) {g : SinkPtr → SinkCall (List Char)} (hg : ∀ x, (g x).sink = x)
    (l : List SinkPtr) : callsOn κ k (l.map g) = List.replicate (l.count k) (g k).member := by
  induction l with
  | nil => rfl
  | cons x xs ih =>
    rw [List.map_cons, ← List.singleton_append, callsOn_append, ih]
    by_cases hx : x = k
    · subst hx
      have hself := callsOn_self (κ := κ) (g x)
      rw [hg x] at hself
      rw [hself, List.count_cons_self, List.replicate_succ, List.singleton_append]
    · rw [callsOn_of_ne (by rwa [hg x]), List.count_cons_of_ne hx, List.nil_append]

/-- A log call logs to a sink first and flushes it then. -/
theorem callsOn_sinkCalls (k : SinkPtr) (c : LoggerCall) :
    callsOn κ k c.sinkCalls = (c.messagesFor k).map .log ++
      List.replicate (if c.flushes then c.logger.mSinks.count k else 0) .flush := by
  have hlevel : (Logger.logmsgOf c.logger.mName c.call).mLevel = c.call.level := rfl
  rw [LoggerCall.sinkCalls, LoggerCall.flushes, Logger.log]
  cases h : c.logger.shouldLog c.call.level with
  | false => simp [LoggerCall.messagesFor, h, callsOn]
  | true =>
    simp only [if_true, Option.getD_some, Bool.true_and, Logger.sinkIt, hlevel, callsOn_append]
    congr 1
    · rw [LoggerCall.messagesFor_eq h, List.map_replicate]
      exact callsOn_map k (fun _ => rfl) _
    · cases c.logger.shouldFlush c.call.level with
      | false => rfl
      | true => exact callsOn_map k (fun _ => rfl) c.logger.mSinks

theorem logged_map_log (msgs : List (LogMsg (List Char))) :
    (msgs.map (BasicSinkCall.log (κ := κ))).filterMap BasicSinkCall.logged = msgs := by
  rw [List.filterMap_map]
  exact List.filterMap_some

theorem logged_callsOn (k : SinkPtr) (c : LoggerCall) :
    (callsOn κ k c.sinkCalls).filterMap BasicSinkCall.logged = c.messagesFor k := by
  have hflush : (List.replicate (if c.flushes then c.logger.mSinks.count k else 0)
      (BasicSinkCall.flush (κ := κ))).filterMap BasicSinkCall.logged = [] := by
    rw [List.filterMap_eq_nil_iff]
    intro x hx
    rw [List.eq_of_mem_replicate hx]
    rfl
  rw [callsOn_sinkCalls, List.filterMap_append, logged_map_log, hflush, List.append_nil]

end

/-- A thread: the log calls it still has to make, what is left of the one in progress, the sink
that it is in a call of, and the calls of sinks it has made. -/
structure LoggingThread where
  calls : List LoggerCall
  sinkCalls : List (SinkCall (List Char)) := []
  inSink : Option SinkPtr := none
  made : List (SinkCall (List Char)) := []

/-- The sinks and the threads, of which each is the thread of the same number in every sink. -/
structure SharedLogging (M : Mutex) (κ : Type) where
  sinks : List (SharedSink M κ)
  threads : List LoggingThread

inductive LoggingAction
  | thread (i : ℕ)
  | sink (k : ℕ) (a : SharedSinkAction)

section
variable {M : Mutex} {κ : Type}

namespace SharedLogging
variable (ops : CustomOps κ) (env : FormatEnv)

/-- A `sinkPtr` to no sink is null, and a call through it is undefined. -/
def step (s : SharedLogging M κ) : LoggingAction → Option (SharedLogging M κ)
  | .thread i =>
    match s.threads[i]? with
    | none => none
    | some t =>
      match t.inSink with
      | some k =>
        match s.sinks[k]? with
        | none => none
        | some sink =>
          if sink.callsReturned i then
            some { s with threads := s.threads.set i { t with inSink := none } }
          else none
      | none =>
        match t.sinkCalls with
        | c::cs =>
          match s.sinks[c.sink]? with
          | none => none
          | some sink =>
            some
              { sinks := s.sinks.set c.sink (sink.makeCall i c.member)
                threads := s.threads.set i
                  { t with sinkCalls := cs, inSink := some c.sink, made := t.made ++ [c] } }
        | [] =>
          match t.calls with
          | [] => none
          | c::cs =>
            some { s with
              threads := s.threads.set i { t with calls := cs, sinkCalls := c.sinkCalls } }
  | .sink k a =>
    match s.sinks[k]? with
    | none => none
    | some sink => (sink.step ops env a).map fun sink => { s with sinks := s.sinks.set k sink }

/-- The sinks on their files, and the log calls of each thread. -/
def init (M : Mutex) (setups : List (SinkSetup κ)) (calls : List (List LoggerCall)) :
    SharedLogging M κ where
  sinks := setups.map (SinkSetup.open M calls.length)
  threads := calls.map fun cs => { calls := cs }

end SharedLogging

/-- The steps of the threads and the sinks. -/
inductive LoggingStep (ops : CustomOps κ) (env : FormatEnv)
    (s : SharedLogging M κ) : LoggingAction → SharedLogging M κ → Prop
  | sink {k a sink sink'} (hk : s.sinks[k]? = some sink) (ha : sink.step ops env a = some sink') :
      LoggingStep ops env s (.sink k a) { s with sinks := s.sinks.set k sink' }
  | returned {i t k sink} (ht : s.threads[i]? = some t) (hin : t.inSink = some k)
      (hk : s.sinks[k]? = some sink) (hret : sink.callsReturned i = true) :
      LoggingStep ops env s (.thread i)
        { s with threads := s.threads.set i { t with inSink := none } }
  | sinkCall {i t c cs sink} (ht : s.threads[i]? = some t) (hin : t.inSink = none)
      (hcalls : t.sinkCalls = c::cs) (hk : s.sinks[c.sink]? = some sink) :
      LoggingStep ops env s (.thread i)
        { sinks := s.sinks.set c.sink (sink.makeCall i c.member)
          threads := s.threads.set i
            { t with sinkCalls := cs, inSink := some c.sink, made := t.made ++ [c] } }
  | logCall {i t c cs} (ht : s.threads[i]? = some t) (hin : t.inSink = none)
      (hnil : t.sinkCalls = []) (hcalls : t.calls = c::cs) :
      LoggingStep ops env s (.thread i)
        { s with threads := s.threads.set i { t with calls := cs, sinkCalls := c.sinkCalls } }

namespace SharedLogging
variable {ops : CustomOps κ} {env : FormatEnv} {s u : SharedLogging M κ}
  {a : LoggingAction}

theorem step_cases (h : s.step ops env a = some u) : LoggingStep ops env s a u := by
  cases a with
  | thread i =>
    simp only [step] at h
    split at h
    · cases h
    next t ht =>
      split at h
      next k hin =>
        split at h
        · cases h
        next sink hk =>
          split_ifs at h with hret
          cases h
          exact .returned ht hin hk hret
      next hin =>
        split at h
        next c cs hcalls =>
          split at h
          · cases h
          next sink hk =>
            cases h
            exact .sinkCall ht hin hcalls hk
        next hnil =>
          split at h
          · cases h
          next c cs hcalls =>
            cases h
            exact .logCall ht hin hnil hcalls
  | sink k a =>
    simp only [step] at h
    split at h
    · cases h
    next sink hk =>
      obtain ⟨sink',hs,rfl⟩ := Option.map_eq_some_iff.mp h
      exact .sink hk hs

/-- What thread `t` has called a sink with, and that it is there only while it is in a call. -/
structure Called (k : SinkPtr) (t : LoggingThread) (v : SinkThread κ) : Prop where
  made : v.returned ++ v.pc.call ++ v.calls = callsOn κ k t.made
  quiet : t.inSink ≠ some k → v.pc = .idle ∧ v.calls = []

/-- The threads have called the sinks as their log calls say, `setups` being the files of the sinks
and `calls` the log calls of the threads. -/
structure Kept (ops : CustomOps κ) (env : FormatEnv)
    (setups : List (SinkSetup κ)) (calls : List (List LoggerCall)) (s : SharedLogging M κ) : Prop where
  sinks : SinksKept ops env calls.length setups s.sinks
  length : s.threads.length = calls.length
  progress : ∀ (i : ℕ) (t : LoggingThread), s.threads[i]? = some t →
    ∃ done : List LoggerCall, calls[i]? = some (done ++ t.calls) ∧
      t.made ++ t.sinkCalls = done.flatMap (LoggerCall.sinkCalls)
  inside : ∀ t ∈ s.threads, ∀ k, t.inSink = some k → k < s.sinks.length
  called : ∀ (k : ℕ) (sink : SharedSink M κ), s.sinks[k]? = some sink →
    ∀ (i : ℕ) (t : LoggingThread), s.threads[i]? = some t →
      ∃ v, sink.threads[i]? = some v ∧ Called k t v

variable {setups : List (SinkSetup κ)} {calls : List (List LoggerCall)}

lemma kept_init : Kept ops env setups calls (init M setups calls) := by
  refine ⟨sinksKept_open _ setups,List.length_map _,fun i t ht => ?_,fun t ht k hk => ?_,
    fun k sink hk i t ht => ?_⟩
  · obtain ⟨cs,hcs,rfl⟩ := Option.map_eq_some_iff.mp ((List.getElem?_map ..).symm.trans ht)
    exact ⟨[],hcs,rfl⟩
  · obtain ⟨cs,-,rfl⟩ := List.mem_map.mp ht
    cases hk
  · obtain ⟨cs,hcs,rfl⟩ := Option.map_eq_some_iff.mp ((List.getElem?_map ..).symm.trans ht)
    obtain ⟨f,-,rfl⟩ := Option.map_eq_some_iff.mp ((List.getElem?_map ..).symm.trans hk)
    obtain ⟨hlt,-⟩ := List.getElem?_eq_some_iff.mp hcs
    refine ⟨{ calls := [] },?_,rfl,fun _ => ⟨rfl,rfl⟩⟩
    simp [SinkSetup.open, SharedSink.init, List.getElem?_append, hlt]

lemma kept_step (h : Kept ops env setups calls s) (ha : s.step ops env a = some u) :
    Kept ops env setups calls u := by
  cases step_cases ha with
  | @sink k b sink sink' hk hb =>
    have hm := SharedSink.step_move hb
    refine ⟨h.sinks.set hk fun f hf => hf.step hb,h.length,h.progress,fun t ht k' hk' => ?_,
      fun k' v hv i t ht => ?_⟩
    · rw [List.length_set]
      exact h.inside t ht k' hk'
    · simp only [getElem?_set_of_some hk] at hv
      split_ifs at hv with hkk
      · cases hv
        subst hkk
        obtain ⟨w,hw,hcalled⟩ := h.called _ sink hk i t ht
        obtain ⟨w',hw',heq,hsame⟩ := SharedSink.thread_move hm hw
        refine ⟨w',hw',heq.trans hcalled.made,fun hne => ?_⟩
        obtain ⟨hpc,hcalls⟩ := hcalled.quiet hne
        rw [hsame hpc hcalls]
        exact ⟨hpc,hcalls⟩
      · exact h.called k' v hv i t ht
  | @returned i t k sink ht hin hk hret =>
    refine ⟨h.sinks,List.length_set.trans h.length,fun j w hw => ?_,fun w hw k' hk' => ?_,
      fun k' v hv j w hw => ?_⟩
    · simp only [getElem?_set_of_some ht] at hw
      split_ifs at hw with hj
      · cases hw
        rw [hj]
        exact h.progress i t ht
      · exact h.progress j w hw
    · obtain hw | rfl := List.mem_or_eq_of_mem_set hw
      · exact h.inside w hw k' hk'
      · cases hk'
    · simp only [getElem?_set_of_some ht] at hw
      split_ifs at hw with hj
      · cases hw
        subst hj
        obtain ⟨x,hx,hcalled⟩ := h.called k' v hv _ t ht
        refine ⟨x,hx,hcalled.made,fun _ => ?_⟩
        by_cases hkk : k = k'
        · subst hkk
          obtain rfl : sink = v := Option.some.inj (hk.symm.trans hv)
          exact (SharedSink.callsReturned_iff hx).mp hret
        · exact hcalled.quiet (by rw [hin]; exact fun heq => hkk (Option.some.inj heq))
      · exact h.called k' v hv j w hw
  | @sinkCall i t c cs sink ht hin hcalls hk =>
    obtain ⟨hi,-⟩ := List.getElem?_eq_some_iff.mp ht
    obtain ⟨hlt,-⟩ := List.getElem?_eq_some_iff.mp hk
    rw [h.length] at hi
    refine ⟨h.sinks.set hk fun f hf => hf.makeCall hi _,List.length_set.trans h.length,
      fun j w hw => ?_,fun w hw k' hk' => ?_,fun k' v hv j w hw => ?_⟩
    · simp only [getElem?_set_of_some ht] at hw
      split_ifs at hw with hj
      · cases hw
        rw [hj]
        obtain ⟨done,hdone,hmade⟩ := h.progress i t ht
        refine ⟨done,hdone,?_⟩
        rw [← hmade, hcalls, List.append_assoc, List.singleton_append]
      · exact h.progress j w hw
    · rw [List.length_set]
      obtain hw | rfl := List.mem_or_eq_of_mem_set hw
      · exact h.inside w hw k' hk'
      · cases hk'
        exact hlt
    · obtain ⟨x,hx,hx'⟩ := h.called _ sink hk i t ht
      have hquiet := hx'.quiet (by rw [hin]; nofun)
      simp only [getElem?_set_of_some hk] at hv
      simp only [getElem?_set_of_some ht] at hw
      split_ifs at hv hw with hkk hj hj
      -- the sink that is called, by the thread itself and by another
      · cases hv
        cases hw
        subst hkk hj
        rw [SharedSink.makeCall_threads hx]
        refine ⟨_,by rw [getElem?_set_of_some hx, if_pos rfl],?_,fun hne => absurd rfl hne⟩
        rw [callsOn_append, callsOn_self, ← hx'.made]
        simp only [List.append_assoc]
      · cases hv
        subst hkk
        rw [SharedSink.makeCall_threads hx]
        simp only [getElem?_set_of_some hx, if_neg hj]
        exact h.called _ sink hk j w hw
      -- another sink
      · cases hw
        subst hj
        obtain ⟨y,hy,hy'⟩ := h.called k' v hv _ t ht
        refine ⟨y,hy,?_,fun _ => hy'.quiet (by rw [hin]; nofun)⟩
        rw [callsOn_append, callsOn_of_ne (Ne.symm hkk), List.append_nil, hy'.made]
      · exact h.called k' v hv j w hw
  | @logCall i t c cs ht hin hnil hcalls =>
    refine ⟨h.sinks,List.length_set.trans h.length,fun j w hw => ?_,fun w hw k' hk' => ?_,
      fun k' v hv j w hw => ?_⟩
    · simp only [getElem?_set_of_some ht] at hw
      split_ifs at hw with hj
      · cases hw
        rw [hj]
        obtain ⟨done,hdone,hmade⟩ := h.progress i t ht
        refine ⟨done ++ [c],?_,?_⟩
        · rw [hdone, hcalls, List.append_assoc, List.singleton_append]
        · rw [hnil, List.append_nil] at hmade
          rw [hmade, List.flatMap_append, List.flatMap_singleton]
      · exact h.progress j w hw
    · obtain hw | rfl := List.mem_or_eq_of_mem_set hw
      · exact h.inside w hw k' hk'
      · exact h.inside t (List.mem_of_getElem? ht) k' hk'
    · simp only [getElem?_set_of_some ht] at hw
      split_ifs at hw with hj
      · cases hw
        subst hj
        obtain ⟨x,hx,hcalled⟩ := h.called k' v hv _ t ht
        exact ⟨x,hx,hcalled.made,hcalled.quiet⟩
      · exact h.called k' v hv j w hw

theorem kept_run {as : List LoggingAction}
    (h : run (step ops env) (init M setups calls) as = some s) :
    Kept ops env setups calls s :=
  run_invariant (fun _ _ _ hs ha => kept_step hs ha) h kept_init

end SharedLogging

end
end Astlog
