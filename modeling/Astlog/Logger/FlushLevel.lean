import Astlog.Foundation.Stdio
import Astlog.Logger.SinkIt

/-! The flush level: which sinks are flushed after a record that reaches it, if the logger
calls its sinks itself and if it hands the record to a pool. -/
namespace Astlog
open Foundation

namespace AnyLogger

/-- A member function of `Logger` on the object. -/
def onBase (f : Logger → Logger) : AnyLogger → AnyLogger
  | sync l => sync (f l)
  | async l => async { l with toLogger := f l.toLogger }

def isAsync : AnyLogger → Bool
  | sync _ => false
  | async _ => true

end AnyLogger

/-- An accepted record that reached the flush level: the sinks its logger had, and those
flushed since. -/
structure FlushDue where
  sinks : List SinkPtr
  flushed : List SinkPtr := []
  deriving DecidableEq

/-- A logger in use, with a pool, the files of the sinks, and the records to be flushed,
which no step reads. Its calls return, so their texts fit. -/
structure FlushSession where
  logger : AnyLogger
  pool : ThreadPool (List Char)
  files : SinkPtr → StdioFile Char
  due : List FlushDue

inductive FlushAction
  | setFlush (level : Level)
  | setLevel (level : Level)
  | addSink (sink : SinkPtr)
  | log (j : ℕ) (c : LogCall)
  | pool (a : PoolAction (List Char))
  | spill (sink : SinkPtr) (n : ℕ)

/-- The record is accepted and reaches the flush level. -/
def Logger.mustFlush (l : Logger) (c : LogCall) : Bool := l.shouldLog c.level && l.shouldFlush c.level

namespace FlushSession
variable (levels : SinkPtr → Level) (render : SinkPtr → LogMsg (List Char) → List Char)

/-- A call of a sink: `log` writes what the sink makes of the message, `flush` flushes. -/
def callSink (s : FlushSession) : SinkCall (List Char) → FlushSession
  | .log k msg =>
    { s with files := Function.update s.files k ((s.files k).fwrite (render k msg)) }
  | .flush k =>
    { s with
      files := Function.update s.files k (s.files k).fflush
      due := s.due.map fun r => { r with flushed := r.flushed ++ [k] } }

def callSinks (s : FlushSession) (calls : List (SinkCall (List Char))) : FlushSession :=
  calls.foldl (callSink render) s

/-- The record of the call is noted if it is to be flushed. -/
def noteDue (s : FlushSession) (l : Logger) (c : LogCall) : FlushSession :=
  { s with due := s.due ++ if l.mustFlush c then [⟨l.mSinks,[]⟩] else [] }

/-- The calls of sinks that the workers made in a step of the pool. -/
def workerCalls (p p' : ThreadPool (List Char)) : List (SinkCall (List Char)) :=
  (p'.logged.drop p.logged.length).map fun e => .log e.msg.mSinker e.msg.mMsg

def step (s : FlushSession) : FlushAction → Option FlushSession
  | .setFlush level => some { s with logger := s.logger.onBase (·.setFlush level) }
  | .setLevel level => some { s with logger := s.logger.onBase (·.setLevel level) }
  | .addSink sink => some { s with logger := s.logger.onBase (·.addSink sink) }
  | .log j c =>
    match s.logger with
    | .sync l =>
      some ((s.noteDue l c).callSinks render ((l.log l.mName (l.sinkIt levels) c).getD []))
    | .async l =>
      let alive := s.pool.dtor = .notStarted
      (s.pool.step (.call j ((l.log l.mName (l.sinkIt levels alive) c).getD []))).map fun pool =>
        { s.noteDue l.toLogger c with pool := pool }
  | .pool (.call _ _) => none
  | .pool a =>
    (s.pool.step a).map fun pool =>
      { s with pool := pool }.callSinks render (workerCalls s.pool pool)
  | .spill k n => some { s with files := Function.update s.files k ((s.files k).spill n) }

/-- A logger, a pool with `num` workers, and `m` threads that log. -/
def init (l : AnyLogger) (num m : ℕ) : FlushSession where
  logger := l
  pool := ThreadPool.init (List Char) num m
  files := fun _ => {}
  due := []

/-- Every sink of every record that was to be flushed has been flushed since. -/
def Honoured (s : FlushSession) : Prop := ∀ r ∈ s.due, ∀ k ∈ r.sinks, k ∈ r.flushed

variable {levels render} {s t : FlushSession}

@[simp] lemma callSinks_logger (s : FlushSession) (calls : List (SinkCall (List Char))) :
    (s.callSinks render calls).logger = s.logger := by
  induction calls generalizing s with
  | nil => rfl
  | cons call calls ih =>
    refine (ih (s.callSink render call)).trans ?_
    cases call <;> rfl

/-- The sinks that some calls flush, in order. -/
def flushedBy (calls : List (SinkCall (List Char))) : List SinkPtr :=
  calls.filterMap fun
    | .log _ _ => none
    | .flush k => some k

lemma callSinks_due (s : FlushSession) (calls : List (SinkCall (List Char))) :
    (s.callSinks render calls).due =
      s.due.map fun r => { r with flushed := r.flushed ++ flushedBy calls } := by
  induction calls generalizing s with
  | nil => simp [callSinks, flushedBy]
  | cons call calls ih =>
    refine (ih (s.callSink render call)).trans ?_
    cases call with
    | log k msg => rfl
    | flush k => simp [callSink, flushedBy, Function.comp_def]

lemma flushedBy_append (calls calls' : List (SinkCall (List Char))) :
    flushedBy (calls ++ calls') = flushedBy calls ++ flushedBy calls' := List.filterMap_append

lemma flushedBy_flush (l : Logger) : flushedBy l.flush = l.mSinks := by
  simp [flushedBy, Logger.flush]

/-- The workers never flush. -/
lemma flushedBy_workerCalls (p p' : ThreadPool (List Char)) : flushedBy (workerCalls p p') = [] := by
  rw [flushedBy, List.filterMap_eq_nil_iff, workerCalls]
  intro call hcall
  obtain ⟨e,-,rfl⟩ := List.mem_map.mp hcall
  rfl

/-- What a plain logger flushes after a record. -/
lemma flushedBy_sinkIt (l : Logger) (msg : LogMsg (List Char)) :
    flushedBy (l.sinkIt levels msg) = if l.shouldFlush msg.mLevel then l.mSinks else [] := by
  have hlog : flushedBy ((l.mSinks.filter (sinkShouldLog levels msg.mLevel)).map (.log · msg)) = [] := by
    simp [flushedBy]
  rw [Logger.sinkIt, flushedBy_append, hlog, List.nil_append]
  split
  · exact flushedBy_flush l
  · rfl

/-- More calls leave no record behind. -/
lemma honoured_callSinks (h : s.Honoured) (calls : List (SinkCall (List Char))) :
    (s.callSinks render calls).Honoured := by
  intro r hr k hk
  rw [callSinks_due] at hr
  obtain ⟨r',hr',rfl⟩ := List.mem_map.mp hr
  exact List.mem_append_left _ (h r' hr' k hk)

/-- A plain logger flushes all its sinks before the call returns. -/
lemma honoured_log (h : s.Honoured) (l : Logger) (c : LogCall) :
    ((s.noteDue l c).callSinks render ((l.log l.mName (l.sinkIt levels) c).getD [])).Honoured := by
  intro r hr k hk
  rw [callSinks_due] at hr
  obtain ⟨r',hr',rfl⟩ := List.mem_map.mp hr
  obtain hold | hnew := List.mem_append.mp hr'
  · exact List.mem_append_left _ (h r' hold k hk)
  · cases hmust : l.mustFlush c with
    | false =>
      rw [hmust] at hnew
      cases hnew
    | true =>
      rw [hmust, if_pos rfl, List.mem_singleton] at hnew
      subst hnew
      obtain ⟨hlog,hflush⟩ := Bool.and_eq_true_iff.mp hmust
      refine List.mem_append_right _ ?_
      rw [Logger.log, if_pos hlog, Option.getD_some, flushedBy_sinkIt,
        show (Logger.logmsgOf l.mName c).mLevel = c.level from rfl, if_pos hflush]
      exact hk

/-- The record is flushed if the logger calls its sinks, and nothing is if it has a pool. -/
def FlushInv (async : Bool) (s : FlushSession) : Prop :=
  s.logger.isAsync = async ∧ if async then ∀ r ∈ s.due, r.flushed = [] else s.Honoured

lemma isAsync_onBase (l : AnyLogger) (f : Logger → Logger) : (l.onBase f).isAsync = l.isAsync := by
  cases l <;> rfl

lemma flushInv_pool {async : Bool} (h : FlushInv async s) (pool : ThreadPool (List Char)) :
    FlushInv async ({ s with pool := pool }.callSinks render (workerCalls s.pool pool)) := by
  obtain ⟨hasync,hdue⟩ := h
  refine ⟨by rw [callSinks_logger]; exact hasync,?_⟩
  cases async with
  | false => exact honoured_callSinks (s := { s with pool := pool }) hdue _
  | true =>
    intro r hr
    rw [callSinks_due, flushedBy_workerCalls] at hr
    obtain ⟨r',hr',rfl⟩ := List.mem_map.mp hr
    exact (List.append_nil _).trans (hdue r' hr')

/-- A plain logger calls its sinks, the other posts. -/
lemma flushInv_log {async : Bool} (h : FlushInv async s) {j : ℕ} {c : LogCall}
    (ha : s.step levels render (.log j c) = some t) : FlushInv async t := by
  obtain ⟨hasync,hdue⟩ := h
  rw [step] at ha
  split at ha
  next l hl =>
    rw [hl] at hasync
    subst hasync
    cases ha
    exact ⟨by rw [callSinks_logger]; exact congrArg AnyLogger.isAsync hl,honoured_log hdue l c⟩
  next l hl =>
    rw [hl] at hasync
    subst hasync
    obtain ⟨pool,-,rfl⟩ := Option.map_eq_some_iff.mp ha
    refine ⟨congrArg AnyLogger.isAsync hl,fun r hr => ?_⟩
    obtain hold | hnew := List.mem_append.mp hr
    · exact hdue r hold
    · split at hnew
      · rw [List.mem_singleton.mp hnew]
      · cases hnew

lemma flushInv_step {async : Bool} {a : FlushAction} (h : FlushInv async s)
    (ha : s.step levels render a = some t) : FlushInv async t := by
  cases a with
  | setFlush | setLevel | addSink =>
    cases ha
    exact ⟨(isAsync_onBase _ _).trans h.1,h.2⟩
  | spill k n =>
    cases ha
    exact h
  | pool a =>
    cases a with
    | call j msgs => cases ha
    | _ =>
      obtain ⟨pool,-,rfl⟩ := Option.map_eq_some_iff.mp ha
      exact flushInv_pool h pool
  | log j c => exact flushInv_log h ha

lemma flushInv_run {l : AnyLogger} {num m : ℕ} {as : List FlushAction}
    (h : run (step levels render) (init l num m) as = some s) : FlushInv l.isAsync s := by
  refine run_invariant (fun s a t hs ha => flushInv_step hs ha) h ⟨rfl,?_⟩
  split
  · exact fun r hr => absurd hr List.not_mem_nil
  · exact fun r hr => absurd hr List.not_mem_nil

/-- Flushes leave nothing in the buffers of the sinks they are made on. -/
lemma buffer_callSinks_flush (s : FlushSession) (sinks : List SinkPtr) {k : SinkPtr}
    (h : k ∈ sinks ∨ (s.files k).buffer = []) :
    ((s.callSinks render (sinks.map .flush)).files k).buffer = [] := by
  induction sinks generalizing s with
  | nil => exact h.resolve_left List.not_mem_nil
  | cons sink sinks ih =>
    refine ih (s.callSink render (.flush sink)) ?_
    by_cases hk : k = sink
    · subst hk
      exact .inr (by simp [callSink, StdioFile.fflush])
    · obtain hmem | hempty := h
      · exact .inl ((List.mem_cons.mp hmem).resolve_left hk)
      · exact .inr (by simpa [callSink, hk] using hempty)

lemma buffer_of_log (s : FlushSession) {l : Logger} {c : LogCall} (hmust : l.mustFlush c = true)
    {k : SinkPtr} (hk : k ∈ l.mSinks) :
    (((s.noteDue l c).callSinks render ((l.log l.mName (l.sinkIt levels) c).getD [])).files k).buffer =
      [] := by
  obtain ⟨hlog,hflush⟩ := Bool.and_eq_true_iff.mp hmust
  rw [Logger.log, if_pos hlog, Option.getD_some, Logger.sinkIt,
    show (Logger.logmsgOf l.mName c).mLevel = c.level from rfl, if_pos hflush, callSinks,
    List.foldl_append]
  exact buffer_callSinks_flush _ l.mSinks (.inl hk)

/-- The flush level is honoured by a plain logger, which leaves nothing of the record in
the buffers of its sinks; by a logger with a pool, however far the workers have got, only as
long as no record that reaches the level is logged to a sink. -/
theorem honoured_iff {l : AnyLogger} {num m : ℕ} {as : List FlushAction}
    (h : run (step levels render) (init l num m) as = some s) :
    (s.Honoured ↔ (l.isAsync = true → ∀ r ∈ s.due, r.sinks = [])) ∧
    (l.isAsync = false → ∀ j c t, s.step levels render (.log j c) = some t →
      s.logger.base.mustFlush c = true → ∀ k ∈ s.logger.base.mSinks, (t.files k).buffer = []) := by
  obtain ⟨hasync,hdue⟩ := flushInv_run h
  cases hl : l.isAsync with
  | false =>
    rw [hl] at hasync hdue
    refine ⟨iff_of_true hdue fun hc => absurd hc Bool.false_ne_true,fun _ j c t ht hmust k hk => ?_⟩
    rw [step] at ht
    split at ht
    next l' hl' =>
      cases ht
      rw [hl'] at hmust hk
      exact buffer_of_log s hmust hk
    next l' hl' =>
      rw [hl'] at hasync
      cases hasync
  | true =>
    rw [hl] at hasync hdue
    refine ⟨?_,fun hc => absurd hc.symm Bool.false_ne_true⟩
    constructor
    · intro hhonoured _ r hr
      rw [List.eq_nil_iff_forall_not_mem]
      intro k hk
      have hflushed := hhonoured r hr k hk
      rw [hdue r hr] at hflushed
      cases hflushed
    · intro hnone r hr k hk
      rw [hnone rfl r hr] at hk
      cases hk

/-- A logger with one sink. -/
def oneSink : Logger := ⟨"root".toList,[0],.debug,.error⟩

/-- An ERROR record. -/
def errorCall : LogCall := ⟨.error,⟨12,"main.cc".toList,"main".toList⟩,"hi".toList,0,1⟩

theorem honoured_plain : ∃ s,
    run (step (fun _ => .debug) fun _ _ => "hi\n".toList) (init (.sync oneSink) 1 1)
      [.setLevel .info,.log 0 errorCall] = some s ∧ s.due.map FlushDue.sinks = [[0]] ∧ s.Honoured := by
  have heval : (run (step (fun _ => .debug) fun _ _ => "hi\n".toList) (init (.sync oneSink) 1 1)
      [.setLevel .info,.log 0 errorCall]).map (fun s => s.due.map FlushDue.sinks) = some [[0]] := by
    decide +kernel
  obtain ⟨s,hs,hdue⟩ := Option.map_eq_some_iff.mp heval
  exact ⟨s,hs,hdue,(honoured_iff hs).1.mpr fun hc => absurd hc Bool.false_ne_true⟩

/-- Nothing is queued or in hand, and every thread is at rest. -/
def Drained (s : FlushSession) : Prop :=
  s.pool.ring = [] ∧ (∀ p ∈ s.pool.posters, p = {}) ∧
    ∀ pc ∈ s.pool.mWorkList, pc = .running ∨ pc = .parked

instance (s : FlushSession) : Decidable s.Drained :=
  inferInstanceAs (Decidable (_ ∧ (∀ p ∈ s.pool.posters, _) ∧ ∀ pc ∈ s.pool.mWorkList, _))

/-- The record is posted, and the worker logs it. -/
def logOnce : List FlushAction :=
  [.log 0 errorCall,.pool (.poster 0),.pool (.poster 0),.pool (.poster 0),.pool (.notifyOne 0 none)] ++
    List.replicate 5 (.pool (.worker 0))

/-- The worker is done with an ERROR record, which is still in the buffer of the stream. -/
theorem pool_never_flushes : ¬∀ (levels : SinkPtr → Level)
    (render : SinkPtr → LogMsg (List Char) → List Char) (l : AnyLogger) (num m : ℕ)
    (as : List FlushAction) (s : FlushSession),
      run (step levels render) (init l num m) as = some s → s.Drained → s.Honoured := by
  intro h
  have heval : (run (step (fun _ => .debug) fun _ _ => "hi\n".toList)
      (init (.async ⟨oneSink,0⟩) 1 1) logOnce).map
        (fun s => (decide s.Drained,s.due,(s.files 0).buffer)) =
      some (true,[⟨[0],[]⟩],"hi\n".toList) := by decide +kernel
  obtain ⟨s,hs,htriple⟩ := Option.map_eq_some_iff.mp heval
  obtain ⟨hdrained,hpair⟩ := Prod.mk.inj htriple
  have hdue := (Prod.mk.inj hpair).1
  have hflushed := h _ _ _ 1 1 logOnce s hs (of_decide_eq_true hdrained) ⟨[0],[]⟩
    (by rw [hdue]; exact List.mem_singleton_self _) 0 (List.mem_singleton_self _)
  cases hflushed

end FlushSession
end Astlog
