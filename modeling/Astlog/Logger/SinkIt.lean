import Astlog.ThreadPool.Machine

/-! The two `sinkIt`: a `Logger` calls its sinks in turn, an `asyncLogger` posts one
message to the pool for each of them. -/
namespace Astlog

variable {ν : Type}

/-- A call of a virtual function of a sink. -/
inductive SinkCall (ν : Type)
  | log (sink : SinkPtr) (msg : LogMsg ν)
  | flush (sink : SinkPtr)
  deriving DecidableEq

/-- `sink::shouldLog`, where `levels` gives the `m_level` of each sink. -/
def sinkShouldLog (levels : SinkPtr → Level) (level : Level) (sink : SinkPtr) : Bool :=
  level.atLeast (levels sink)

/-- `Logger::flush`. -/
def Logger.flush (l : Logger) : List (SinkCall ν) := l.mSinks.map .flush

/-- `Logger::sinkIt`: the calls it makes, in order. -/
def Logger.sinkIt (levels : SinkPtr → Level) (l : Logger) (msg : LogMsg ν) : List (SinkCall ν) :=
  (l.mSinks.filter (sinkShouldLog levels msg.mLevel)).map (.log · msg) ++
    if l.shouldFlush msg.mLevel then l.flush else []

/-- `asyncLogger::sinkIt`: the messages it posts, in order, none once the weak reference
to the pool has expired. -/
def AsyncLogger.sinkIt (levels : SinkPtr → Level) (poolAlive : Bool) (l : AsyncLogger)
    (msg : LogMsg ν) : List (AsyncMsg ν) :=
  if poolAlive then (l.mSinks.filter (sinkShouldLog levels msg.mLevel)).map (⟨msg,·⟩) else []

/-- The message that a call passes to the `log` of sink `k`. -/
def SinkCall.loggedBy (k : SinkPtr) : SinkCall ν → Option (LogMsg ν)
  | .log sink msg => if sink = k then some msg else none
  | .flush _ => none

/-- The message posted for sink `k`. -/
def AsyncMsg.sentTo (k : SinkPtr) (m : AsyncMsg ν) : Option (LogMsg ν) :=
  if m.mSinker = k then some m.mMsg else none

/-- What is asked of the calls of a logger, but for the flushes. -/
theorem Logger.sinkIt_filterMap {β : Type} (levels : SinkPtr → Level) (l : Logger) (msg : LogMsg ν)
    {f : SinkCall ν → Option β} (hf : ∀ k, f (.flush k) = none) :
    (l.sinkIt levels msg).filterMap f =
      (l.mSinks.filter (sinkShouldLog levels msg.mLevel)).filterMap fun sink => f (.log sink msg) := by
  have hflush : (l.flush : List (SinkCall ν)).filterMap f = [] := by simp [Logger.flush, hf]
  rw [Logger.sinkIt, List.filterMap_append, List.filterMap_map]
  split
  · rw [hflush, List.append_nil]
    rfl
  · rw [List.filterMap_nil, List.append_nil]
    rfl

/-- For each sink the two loggers name the same messages. -/
theorem sinkIt_loggedBy (levels : SinkPtr → Level) (l : AsyncLogger) (msg : LogMsg ν) (k : SinkPtr) :
    (l.toLogger.sinkIt levels msg).filterMap (SinkCall.loggedBy k) =
      (l.sinkIt levels true msg).filterMap (AsyncMsg.sentTo k) := by
  rw [l.toLogger.sinkIt_filterMap levels msg fun _ => rfl, AsyncLogger.sinkIt, if_pos rfl,
    List.filterMap_map]
  rfl

end Astlog
