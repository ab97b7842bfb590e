import Astlog.MemBuf.InlineBuffer
import Astlog.LogMsg

/-! `Logger::log`, from the format call to the message handed to `sinkIt`. -/
namespace Astlog

/-- `FORMATTED_RECORD_INLINE_CAPACITY`. -/
def recordCapacity : ℕ := 256

/-- `formatterBuf`. -/
abbrev FormatterBuf : Type := InlineBuffer recordCapacity

/-- `std::format_to(p, …)` with `p = data() + i`: the characters of the text are stored
one after another. The second component lists the offsets from `data()` it writes. -/
def formatTo {N : ℕ} (b : InlineBuffer N) (i : ℕ) : List Char → InlineBuffer N × List ℕ
  | [] => (b,[])
  | c::cs =>
    let r := formatTo (b.storeAt i c) (i+1) cs
    (r.1,i::r.2)

/-- A `sinkPtr`, as the identity of the sink it points to. -/
abbrev SinkPtr := ℕ

/-- `Logger`. -/
structure Logger where
  mName : List Char := "root".toList
  mSinks : List SinkPtr
  mLevel : Level := .debug
  mFlushLevel : Level := .error
  deriving DecidableEq

/-- `asyncLogger`: a logger with a weak reference to its pool. -/
structure AsyncLogger extends Logger where
  mPool : ℕ
  deriving DecidableEq

/-- What a log call brings: the level, where it stands, the text `std::format` makes of
its arguments, and the clock and thread it runs on. The text can be of any length, but to format
one that does not fit the buffer is undefined: the programs that log are to be read as ones whose
texts fit. -/
structure LogCall where
  level : Level
  loc : SourceLocation
  text : List Char
  now : ℤ
  threadId : ℕ
  deriving DecidableEq

/-- A call that the source defines all of: its level is one of a record, and its text fits. -/
structure LogCall.Proper (c : LogCall) : Prop where
  level : c.level ≠ .max
  fits : c.text.length ≤ recordCapacity

namespace Logger

def shouldLog (l : Logger) (level : Level) : Bool := level.atLeast l.mLevel

def shouldFlush (l : Logger) (level : Level) : Bool := level.atLeast l.mFlushLevel

def setLevel (l : Logger) (level : Level) : Logger := { l with mLevel := level }

def setFlush (l : Logger) (level : Level) : Logger := { l with mFlushLevel := level }

def addSink (l : Logger) (sink : SinkPtr) : Logger := { l with mSinks := l.mSinks ++ [sink] }

/-- The local buffer of `log` after the format call, and the offsets written. -/
def formatCall (c : LogCall) : FormatterBuf × List ℕ := formatTo (.empty recordCapacity) 0 c.text

/-- The `logmsg` that `log` builds. The payload is the string of `size()` characters at
`data()`; the name is a view of the logger's own, given here by `name`. -/
def logmsgOf {ν : Type} (name : ν) (c : LogCall) : LogMsg ν :=
  let buf := (formatCall c).1
  { mLevel := c.level
    mTimeStamp := c.now
    mLoggerName := name
    mThreadId := c.threadId
    mLoc := c.loc
    mPayload := buf.data.take buf.size }

/-- `log`: nothing below the level, otherwise one call of the virtual `sinkIt`. -/
def log {ν β : Type} (l : Logger) (name : ν) (sinkIt : LogMsg ν → β) (c : LogCall) : Option β :=
  if l.shouldLog c.level then some (sinkIt (logmsgOf name c)) else none

end Logger

/-- Either class of logger; `log` is inherited, only `sinkIt` differs. -/
inductive AnyLogger
  | sync (l : Logger)
  | async (l : AsyncLogger)

namespace AnyLogger

/-- The `Logger` part of the object. -/
def base : AnyLogger → Logger
  | sync l => l
  | async l => l.toLogger

/-- The message that `log` hands to `sinkIt`, if it does. -/
def handedToSinkIt (l : AnyLogger) (c : LogCall) : Option (LogMsg (List Char)) :=
  l.base.log l.base.mName id c

end AnyLogger

/-- Writing through the raw pointer never moves the size. -/
lemma formatTo_mSize {N : ℕ} (b : InlineBuffer N) (i : ℕ) (s : List Char) :
    (formatTo b i s).1.mSize = b.mSize := by
  induction s generalizing b i with
  | nil => rfl
  | cons c cs ih => rw [formatTo, ih, InlineBuffer.storeAt_mSize]

/-- The offsets written are those of the text, whatever the storage holds. -/
lemma formatTo_writes {N : ℕ} (b : InlineBuffer N) (i : ℕ) (s : List Char) :
    (formatTo b i s).2 = List.range' i s.length := by
  induction s generalizing b i with
  | nil => rfl
  | cons c cs ih => simp only [formatTo, ih, List.length_cons, List.range'_succ]

lemma logmsgOf_mPayload {ν : Type} (name : ν) (c : LogCall) :
    (Logger.logmsgOf name c).mPayload = [] := by
  have h : (Logger.formatCall c).1.mSize = 0 := formatTo_mSize _ _ _
  simp [Logger.logmsgOf, InlineBuffer.size, h]

/-- The writes stay inside the buffer exactly for texts that fit the inline array. -/
lemma formatCall_writes_lt (c : LogCall) :
    (∀ i ∈ (Logger.formatCall c).2, i < recordCapacity) ↔ c.text.length ≤ recordCapacity := by
  rw [Logger.formatCall, formatTo_writes]
  simp only [List.mem_range'_1]
  constructor
  · intro h
    by_contra hc
    exact absurd (h recordCapacity ⟨by omega, by omega⟩) (lt_irrefl _)
  · intro h i hi
    omega

/-- The message carries the text, and no character was stored outside the buffer. -/
def HandsOver (l : AnyLogger) (c : LogCall) : Prop :=
  (l.handedToSinkIt c).map LogMsg.mPayload = some c.text ∧
  ∀ i ∈ (Logger.formatCall c).2, i < recordCapacity

/-- `buf.size()` is still zero when the payload is built, so only the empty text arrives. -/
theorem handsOver_iff (l : AnyLogger) (c : LogCall) (h : l.base.shouldLog c.level) :
    HandsOver l c ↔ c.text = [] := by
  have hp : (l.handedToSinkIt c).map LogMsg.mPayload = some [] := by
    simp only [AnyLogger.handedToSinkIt, Logger.log, h, if_true, id, Option.map_some,
      logmsgOf_mPayload]
  rw [HandsOver, hp, formatCall_writes_lt, Option.some.injEq]
  constructor
  · exact fun hc => hc.1.symm
  · intro hc
    exact ⟨hc.symm, by simp [hc]⟩

/-- An `info("hi")` call on a default logger. -/
def greeting : LogCall := ⟨.info,⟨12,"main.cc".toList,"main".toList⟩,"hi".toList,0,1⟩

theorem greeting_proper : greeting.Proper := ⟨by decide,by decide⟩

theorem handsOver_iff_greeting : Logger.shouldLog ⟨"root".toList,[0],.debug,.error⟩ .info = true ∧
    ¬HandsOver (.sync ⟨"root".toList,[0],.debug,.error⟩) greeting :=
  ⟨by decide, fun h => by
    have := (handsOver_iff (.sync ⟨"root".toList,[0],.debug,.error⟩) greeting (by decide)).mp h
    simp [greeting] at this⟩

/-- The record loses its text: the message handed over is empty. -/
theorem greeting_lost :
    ¬∀ (l : AnyLogger) (c : LogCall), l.base.shouldLog c.level → HandsOver l c := by
  intro h
  have hc := (h (.sync ⟨"root".toList,[0],.debug,.error⟩) greeting (by decide)).1
  revert hc
  decide

end Astlog
