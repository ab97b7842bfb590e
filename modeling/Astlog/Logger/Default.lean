import Astlog.Foundation.Schedule
import Astlog.Foundation.Update
import Astlog.Sink.BasicSink

/-! `LoggerImpl`, the logger behind the macros, used by any number of threads. Its one
sink writes to the console; `fwrite` is atomic, and so is every other step. -/
namespace Astlog
open Foundation

/-- The statics of `LoggerImpl::Logger`. The sink is number 0; its level is all of it that
a logger reads. -/
structure LoggerImpl where
  sinkLevel : Level
  logger : Logger
  deriving DecidableEq

/-- `Logger::Logger(std::string, sinkPtr)`. -/
def Logger.ofSink (name : List Char) (sink : SinkPtr) : Logger := { mName := name, mSinks := [sink] }

namespace LoggerImpl

/-- The colour sink. -/
def sink : AnsicolorSink Empty :=
  ⟨DefaultConfig.colorMap,PatternFormatter.construct noCustom DefaultConfig.formatStr fun _ => none⟩

/-- What the initialisers of the statics leave. -/
def initialized : LoggerImpl :=
  ⟨.debug,(((Logger.ofSink "root".toList 0).addSink 0).setLevel .debug).setFlush .info⟩

/-- `LoggerImpl::Logger()`: the initialisers run in the first call. -/
def get : Option LoggerImpl → LoggerImpl
  | none => initialized
  | some impl => impl

end LoggerImpl

/-- A call that was not below the logger's level, with the lines its sinks formatted for it:
a line is the text of a record and its end of line. No step reads the lines. -/
structure CallRecord where
  call : LogCall
  lines : List (List Char)
  deriving DecidableEq

/-- A line formatted for the last call. -/
def addLine (line : List Char) : List CallRecord → List CallRecord
  | [] => []
  | [r] => [{ r with lines := r.lines ++ [line] }]
  | r::r'::rs => r::addLine line (r'::rs)

/-- A thread: the calls it still has to make, the rest of the call in progress, its time
caches, and what it has printed. -/
structure ConsoleThread where
  calls : List LogCall
  ops : List SinkOp := []
  caches : ThreadCaches := {}
  records : List CallRecord := []
  deriving DecidableEq

/-- The default logger and its threads, whose calls return: their texts fit. -/
structure Console (M : Lockable) where
  statics : Option LoggerImpl
  mMtx : M.State
  threads : List ConsoleThread
  bytes : List Char

namespace ConsoleThread

/-- `LoggerImpl::Logger().log(…)` up to the first step inside a sink. -/
def beginCall (impl : LoggerImpl) (t : ConsoleThread) : Option ConsoleThread :=
  match t.calls with
  | [] => none
  | c::calls =>
    match impl.logger.log impl.logger.mName (impl.logger.sinkIt fun _ => impl.sinkLevel) c with
    | none => some { t with calls := calls }
    | some sinkCalls =>
      some { t with
        calls := calls
        ops := sinkCalls.flatMap SinkCall.ops
        records := t.records ++ [⟨c,[]⟩] }

/-- A step inside the sink, with what it writes. A level without an entry in the colour map
has no step. -/
def opStep {M : Lockable} (env : FormatEnv) (mMtx : M.State) (t : ConsoleThread) :
    SinkOp → Option (M.State × ConsoleThread × List Char)
  | .lock => (M.lock mMtx).map (·,t,[])
  | .sinkIt msg =>
    if h : msg.mLevel.toIndex < Level.levelMax then
      let r := LoggerImpl.sink.sinkIt noCustom env t.caches msg h
      some (mMtx,
        { t with
          ops := r.1.map .fwrite ++ t.ops
          caches := r.2
          records := addLine r.1.flatten t.records },
        [])
    else none
  | .fwrite b => some (mMtx,t,b)
  | .fflush => some (mMtx,t,[])
  | .unlock => some (M.unlock mMtx,t,[])

end ConsoleThread

/-- The thread that moves, and the readings of the clock in its step. -/
structure ConsoleAction where
  thread : ℕ
  now : ℕ → ℤ

namespace Console
variable {M : Lockable} (env : FormatEnv)

def step (s : Console M) (a : ConsoleAction) : Option (Console M) :=
  match s.threads[a.thread]? with
  | none => none
  | some t =>
    match t.ops with
    | [] =>
      (t.beginCall (LoggerImpl.get s.statics)).map fun u =>
        { s with statics := some (LoggerImpl.get s.statics), threads := s.threads.set a.thread u }
    | op::ops =>
      (ConsoleThread.opStep { env with now := a.now } s.mMtx { t with ops := ops } op).map fun r =>
        { s with
          mMtx := r.1
          threads := s.threads.set a.thread r.2.1
          bytes := s.bytes ++ r.2.2 }

/-- No thread has made a call yet. -/
def init (M : Lockable) (calls : List (List LogCall)) : Console M :=
  ⟨none,M.init,calls.map fun cs => { calls := cs },[]⟩

/-- All calls have returned. -/
def Done (s : Console M) : Prop := ∀ t ∈ s.threads, t.calls = [] ∧ t.ops = []

instance (s : Console M) : Decidable s.Done := inferInstanceAs (Decidable (∀ t ∈ s.threads, _))

end Console

/-- Neither the logger nor the sink turns the call away. -/
def printed (c : LogCall) : Bool :=
  LoggerImpl.initialized.logger.shouldLog c.level &&
    sinkShouldLog (fun _ => LoggerImpl.initialized.sinkLevel) c.level 0

/-- The steps of a call that is not turned away: the sink is registered twice. -/
def callOps (c : LogCall) : List SinkOp :=
  let msg := Logger.logmsgOf LoggerImpl.initialized.logger.mName c
  let flushes := if LoggerImpl.initialized.logger.shouldFlush c.level
    then [.lock,.fflush,.unlock,.lock,.fflush,.unlock] else []
  [.lock,.sinkIt msg,.unlock,.lock,.sinkIt msg,.unlock] ++ flushes

/-- What a step does to its thread, and what it writes. -/
inductive ThreadMove (t : ConsoleThread) : ConsoleThread → List Char → Prop
  | turnedAway {c : LogCall} {calls : List LogCall} (hops : t.ops = []) (hcalls : t.calls = c::calls)
      (hc : printed c = false) : ThreadMove t { t with calls := calls } []
  | begun {c : LogCall} {calls : List LogCall} (hops : t.ops = []) (hcalls : t.calls = c::calls)
      (hc : printed c = true) :
      ThreadMove t
        { t with calls := calls, ops := callOps c, records := t.records ++ [⟨c,[]⟩] } []
  | formatted {msg : LogMsg (List Char)} {ops : List SinkOp} (hops : t.ops = .sinkIt msg::ops)
      (text : List Char) (caches : ThreadCaches) :
      ThreadMove t
        { t with
          ops := .fwrite text::.fwrite (eol.take 1)::ops
          caches := caches
          records := addLine (text ++ eol.take 1) t.records } []
  | wrote {b : List Char} {ops : List SinkOp} (hops : t.ops = .fwrite b::ops) :
      ThreadMove t { t with ops := ops } b
  | passed {op : SinkOp} {ops : List SinkOp} (hops : t.ops = op::ops) (hop : op.isSinkIt = false)
      (hb : op.bytes = []) : ThreadMove t { t with ops := ops } []

lemma beginCall_cases {t u : ConsoleThread} (hops : t.ops = [])
    (h : t.beginCall LoggerImpl.initialized = some u) : ThreadMove t u [] := by
  unfold ConsoleThread.beginCall at h
  split at h
  · cases h
  · next c calls hcalls =>
    cases hc : LoggerImpl.initialized.logger.shouldLog c.level with
    | false =>
      simp only [Logger.log, hc, Bool.false_eq_true, if_false, Option.some.injEq] at h
      subst h
      exact .turnedAway hops hcalls (by rw [printed, hc, Bool.false_and])
    | true =>
      have hp : printed c = true := by
        rw [printed, hc, Bool.true_and]
        exact hc
      have hsinks : LoggerImpl.initialized.logger.mSinks.filter
          (sinkShouldLog (fun _ => LoggerImpl.initialized.sinkLevel) c.level) = [0,0] := by
        have h0 : sinkShouldLog (fun _ => LoggerImpl.initialized.sinkLevel) c.level 0 = true := hc
        rw [show LoggerImpl.initialized.logger.mSinks = [0,0] from rfl, List.filter_cons_of_pos h0,
          List.filter_cons_of_pos h0, List.filter_nil]
      have hcall : (LoggerImpl.initialized.logger.sinkIt (fun _ => LoggerImpl.initialized.sinkLevel)
          (Logger.logmsgOf LoggerImpl.initialized.logger.mName c)).flatMap SinkCall.ops = callOps c := by
        rw [Logger.sinkIt, show (Logger.logmsgOf _ c).mLevel = c.level from rfl, hsinks]
        unfold callOps
        split <;> rfl
      simp only [Logger.log, hc, if_true, Option.some.injEq] at h
      rw [hcall] at h
      subst h
      exact .begun hops hcalls hp

lemma opStep_cases {M : Lockable} {env : FormatEnv} {mMtx : M.State} {t : ConsoleThread}
    {op : SinkOp} {ops : List SinkOp} {r : M.State × ConsoleThread × List Char}
    (hops : t.ops = op::ops) (h : ConsoleThread.opStep env mMtx { t with ops := ops } op = some r) :
    ThreadMove t r.2.1 r.2.2 := by
  cases op with
  | lock =>
    obtain ⟨m,-,rfl⟩ := Option.map_eq_some_iff.mp h
    exact .passed hops rfl rfl
  | sinkIt msg =>
    simp only [ConsoleThread.opStep] at h
    split at h
    · cases h
      exact .formatted hops _ _
    · cases h
  | fwrite b =>
    cases h
    exact .wrote hops
  | fflush =>
    cases h
    exact .passed hops rfl rfl
  | unlock =>
    cases h
    exact .passed hops rfl rfl

namespace Console
variable {M : Lockable} {env : FormatEnv} {s s' : Console M} {a : ConsoleAction}

/-- The statics, once constructed, are never written again. -/
def Initialized (s : Console M) : Prop := LoggerImpl.get s.statics = LoggerImpl.initialized

/-- A step is a move of one thread. -/
theorem step_cases (hs : s.Initialized) (h : s.step env a = some s') :
    s'.Initialized ∧ ∃ t u b, s.threads[a.thread]? = some t ∧ ThreadMove t u b ∧
      s'.threads = s.threads.set a.thread u ∧ s'.bytes = s.bytes ++ b := by
  unfold step at h
  split at h
  · cases h
  · next t ht =>
    split at h
    · next hops =>
      obtain ⟨u,hu,rfl⟩ := Option.map_eq_some_iff.mp h
      rw [hs] at hu
      exact ⟨hs,t,u,[],ht,beginCall_cases hops hu,rfl,(List.append_nil _).symm⟩
    · next op ops hops =>
      obtain ⟨r,hr,rfl⟩ := Option.map_eq_some_iff.mp h
      exact ⟨hs,t,r.2.1,r.2.2,ht,opStep_cases hops hr,rfl,rfl⟩

/-- What every move keeps of the threads and the bytes, every run keeps. -/
theorem run_invariant_of_moves {I : List ConsoleThread → List Char → Prop}
    (hmove : ∀ {ts bytes i t u b}, I ts bytes → ts[i]? = some t → ThreadMove t u b →
      I (ts.set i u) (bytes ++ b))
    {calls : List (List LogCall)} {as : List ConsoleAction}
    (h : run (step env) (init M calls) as = some s)
    (hinit : I (calls.map fun cs => { calls := cs }) []) : I s.threads s.bytes := by
  have hboth : s.Initialized ∧ I s.threads s.bytes := by
    refine run_invariant (I := fun s : Console M => s.Initialized ∧ I s.threads s.bytes) ?_ h
      ⟨rfl,hinit⟩
    rintro s a s' ⟨hs,hI⟩ hstep
    obtain ⟨hs',t,u,b,ht,hm,hthreads,hbytes⟩ := step_cases hs hstep
    refine ⟨hs',?_⟩
    rw [hthreads, hbytes]
    exact hmove hI ht hm
  exact hboth.2

end Console
end Astlog
