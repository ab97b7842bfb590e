import Astlog.Logger.SinkIt
import Astlog.Sink.Sinks

/-! `basicSink`: every member function holds the sink's mutex around its virtual part. The
mutex type is a template argument. -/
namespace Astlog

/-- The concept `Lockable`, as far as a sink uses it. Where `lock` has no result the thread
has to wait. -/
structure Lockable where
  State : Type
  init : State
  lock : State → Option State
  unlock : State → State

/-- `NonMutex`. -/
def nonMutex : Lockable := ⟨Unit,(),some,id⟩

/-- The steps of a thread inside a sink. Each `fwrite` is one step. -/
inductive SinkOp
  | lock
  | sinkIt (msg : LogMsg (List Char))
  | fwrite (bytes : List Char)
  | fflush
  | unlock
  deriving DecidableEq

/-- `basicSink::log` and `basicSink::flush`. -/
def SinkCall.ops : SinkCall (List Char) → List SinkOp
  | .log _ msg => [.lock,.sinkIt msg,.unlock]
  | .flush _ => [.lock,.fflush,.unlock]

namespace SinkOp

/-- What the step writes. -/
def bytes : SinkOp → List Char
  | fwrite b => b
  | _ => []

/-- Whether a record is formatted in the step. -/
def isSinkIt : SinkOp → Bool
  | sinkIt _ => true
  | _ => false

end SinkOp
end Astlog
