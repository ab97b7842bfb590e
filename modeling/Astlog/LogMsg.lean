import Mathlib.Tactic

/-! Levels, source locations and the record that travels from a log call to a sink. -/
namespace Astlog

/-- `enum class LEVEL`, in the order of the FOREACH list. -/
inductive Level
  | trace | debug | info | warn | error | fatal | max
  deriving DecidableEq, Repr

namespace Level

/-- `toIndex`: the enumerator's value, which also orders the levels. -/
def toIndex : Level → ℕ
  | trace => 0
  | debug => 1
  | info => 2
  | warn => 3
  | error => 4
  | fatal => 5
  | max => 6

/-- `LEVEL_MAX`, the number of levels proper. -/
def levelMax : ℕ := toIndex max

/-- `toStr`. -/
def toStr : Level → List Char
  | trace => "TRACE".toList
  | debug => "DEBUG".toList
  | info => "INFO".toList
  | warn => "WARN".toList
  | error => "ERROR".toList
  | fatal => "FATAL".toList
  | max => "MAX".toList

/-- `level >= threshold`, the comparison of loggers and sinks alike. -/
def atLeast (level threshold : Level) : Bool := threshold.toIndex ≤ level.toIndex

end Level

/-- The fields of `std::source_location` a formatter reads. -/
structure SourceLocation where
  line : ℕ
  fileName : List Char
  functionName : List Char
  deriving DecidableEq

/-- `logmsg`. The logger's name is a `string_view`: `ν` is the text where only the
text matters, and a reference to the logger where its lifetime does. Timestamps are
the nanoseconds of the system clock. -/
structure LogMsg (ν : Type) where
  mLevel : Level := .trace
  mTimeStamp : ℤ
  mLoggerName : ν
  mThreadId : ℕ
  mColorRangeStart : ℕ := 0
  mColorRangeStop : ℕ := 0
  mLoc : SourceLocation
  mPayload : List Char := []
  deriving DecidableEq

end Astlog
