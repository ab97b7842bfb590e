import Astlog.Foundation.Schedule
import Astlog.Foundation.Update
import Astlog.MemBuf.DataBuf
import Astlog.Logger.Log

/-! `threadPool::impl` as a machine over its threads: the workers, any number of
posting threads and the destructor. A step is what a thread does between two points at
which another can interfere: taking or releasing the mutex, the body of a critical section,
parking, a notification, a call of a sink. -/
namespace Astlog
open Foundation

/-- `async_msg`. A message that is posted has a sinker, which `asyncLogger::sinkIt` has
called before; the worker's `async_msg msg{}` without one is the absence of a message. -/
structure AsyncMsg (ν : Type) where
  mMsg : LogMsg ν
  mSinker : SinkPtr
  deriving DecidableEq

/-- A message that `postmsg` accepted, with its place among the accepted ones and the
posting thread. The code reads neither; they tell equal messages apart. -/
structure Entry (ν : Type) where
  ticket : ℕ
  poster : ℕ
  msg : AsyncMsg ν
  deriving DecidableEq

/-- Where a worker stands in its loop. -/
inductive WorkerPc (ν : Type)
  /-- At the top of the loop, to take the mutex. -/
  | running
  /-- Holds the mutex, to evaluate the predicate of the wait. -/
  | testing
  /-- The predicate was false; to release the mutex and park. -/
  | waiting
  | parked
  /-- Out of the wait set, to take the mutex again. -/
  | woken
  /-- The wait returned, the mutex held. -/
  | proceeding
  /-- Holds the mutex, with the message it dequeued; without one, at the `continue`. -/
  | leaving (msg : Option (Entry ν))
  /-- To call the sink, without the mutex. -/
  | logging (msg : Entry ν)
  /-- Holds the mutex, at the `return`. -/
  | returning
  | returned
  deriving DecidableEq

/-- Where a posting thread stands in `postmsg`. -/
inductive PosterPc
  /-- Outside, or at the entry with a message to post. -/
  | idle
  | locked
  /-- Holds the mutex, its message accepted or refused. -/
  | unlocking (accepted : Bool)
  /-- Released the mutex, to call `notify_one`. -/
  | notifying
  deriving DecidableEq

/-- A posting thread, with the messages its present log call has still to post. -/
structure Poster (ν : Type) where
  pc : PosterPc := .idle
  todo : List (AsyncMsg ν) := []
  deriving DecidableEq

/-- Where the destructor stands. -/
inductive DtorPc
  | notStarted
  | locked
  /-- `m_stop` is set, the mutex still held. -/
  | unlocking
  /-- Released the mutex, to call `notify_all`. -/
  | notifying
  | joining
  | done
  deriving DecidableEq

inductive Thread
  | worker (i : ℕ)
  | poster (j : ℕ)
  | destructor
  deriving DecidableEq

/-- The pool, its threads, and what has become of the messages so far. -/
structure ThreadPool (ν : Type) where
  mMtx : Option Thread := none
  mStop : Bool := false
  mBuffer : DataBuf (Entry ν) 32 := {}
  mWorkList : List (WorkerPc ν)
  posters : List (Poster ν)
  dtor : DtorPc := .notStarted
  accepted : List (Entry ν) := []
  refused : List (AsyncMsg ν) := []
  evicted : List (Entry ν) := []
  logged : List (Entry ν) := []
  deriving DecidableEq

/-- The choices of a run: whose step is next, what a thread logs next, which parked
worker a `notify_one` wakes, and spurious wakeups. -/
inductive PoolAction (ν : Type)
  | call (j : ℕ) (msgs : List (AsyncMsg ν))
  | poster (j : ℕ)
  | notifyOne (j : ℕ) (w : Option ℕ)
  | worker (i : ℕ)
  | spurious (i : ℕ)
  | destructor
  deriving DecidableEq

namespace ThreadPool
variable {ν : Type}

/-- `impl(num)`, next to `m` threads that will post. -/
def init (ν : Type) (num m : ℕ) : ThreadPool ν where
  mWorkList := List.replicate (if num = 0 then 1 else num) .running
  posters := List.replicate m {}

/-- The queued messages, oldest first. -/
def ring (s : ThreadPool ν) : List (Entry ν) := s.mBuffer.contents

@[simps] def setWorker (s : ThreadPool ν) (i : ℕ) (pc : WorkerPc ν) : ThreadPool ν :=
  { s with mWorkList := s.mWorkList.set i pc }

@[simps] def setPoster (s : ThreadPool ν) (j : ℕ) (p : Poster ν) : ThreadPool ν :=
  { s with posters := s.posters.set j p }

def lock (s : ThreadPool ν) (t : Thread) : Option (ThreadPool ν) :=
  if s.mMtx = none then some { s with mMtx := some t } else none

@[simps] def unlock (s : ThreadPool ν) : ThreadPool ν := { s with mMtx := none }

/-- The entry that poster `j` makes of a message, were it accepted now. -/
def entry (s : ThreadPool ν) (j : ℕ) (msg : AsyncMsg ν) : Entry ν := ⟨s.accepted.length,j,msg⟩

/-- `m_buffer.push(msg)`. -/
@[simps] def pushMsg (s : ThreadPool ν) (j : ℕ) (msg : AsyncMsg ν) : ThreadPool ν :=
  { s with
    mBuffer := s.mBuffer.push (s.entry j msg)
    accepted := s.accepted ++ [s.entry j msg]
    evicted := s.evicted ++ if s.mBuffer.full then s.mBuffer.front.toList else [] }

/-- The next step of poster `j` in `postmsg`, up to its notification. -/
def posterStep (s : ThreadPool ν) (j : ℕ) : Poster ν → Option (ThreadPool ν)
  | ⟨.idle,m::ms⟩ => (s.lock (.poster j)).map fun s => s.setPoster j ⟨.locked,m::ms⟩
  | ⟨.locked,m::ms⟩ =>
    if s.mStop then
      some ({ s with refused := s.refused ++ [m] }.setPoster j ⟨.unlocking false,ms⟩)
    else
      some ((s.pushMsg j m).setPoster j ⟨.unlocking true,ms⟩)
  | ⟨.unlocking accepted,ms⟩ =>
    some (s.unlock.setPoster j ⟨if accepted then .notifying else .idle,ms⟩)
  | _ => none

def isParked : WorkerPc ν → Bool
  | .parked => true
  | _ => false

def isReturned : WorkerPc ν → Bool
  | .returned => true
  | _ => false

/-- One parked worker leaves the wait set. -/
def wakeOne (s : ThreadPool ν) (i : ℕ) : Option (ThreadPool ν) :=
  match s.mWorkList[i]? with
  | some .parked => some (s.setWorker i .woken)
  | _ => none

/-- `notify_one` wakes a parked worker, whichever, and does nothing only if none is parked. -/
def notifyOneStep (s : ThreadPool ν) (j : ℕ) (w : Option ℕ) : Poster ν → Option (ThreadPool ν)
  | ⟨.notifying,ms⟩ =>
    match w with
    | some i => (s.wakeOne i).map fun s => s.setPoster j ⟨.idle,ms⟩
    | none => if s.mWorkList.any isParked then none else some (s.setPoster j ⟨.idle,ms⟩)
  | _ => none

/-- The next step of worker `i`. -/
def workerStep (s : ThreadPool ν) (i : ℕ) : WorkerPc ν → Option (ThreadPool ν)
  | .running => (s.lock (.worker i)).map fun s => s.setWorker i .testing
  | .testing =>
    some (s.setWorker i (if s.mStop || !s.mBuffer.empty then .proceeding else .waiting))
  | .waiting => some (s.unlock.setWorker i .parked)
  | .parked => none
  | .woken => (s.lock (.worker i)).map fun s => s.setWorker i .testing
  | .proceeding =>
    if s.mStop && s.mBuffer.empty then some (s.setWorker i .returning)
    else
      match s.mBuffer.front with
      | none => some (s.setWorker i (.leaving none))
      | some e => some ({ s with mBuffer := s.mBuffer.pop }.setWorker i (.leaving (some e)))
  | .leaving none => some (s.unlock.setWorker i .running)
  | .leaving (some e) => some (s.unlock.setWorker i (.logging e))
  | .logging e => some ({ s with logged := s.logged ++ [e] }.setWorker i .running)
  | .returning => some (s.unlock.setWorker i .returned)
  | .returned => none

/-- What `notify_all` does to a worker. -/
def wake : WorkerPc ν → WorkerPc ν
  | .parked => .woken
  | pc => pc

/-- The next step of `~impl`. -/
def dtorStep (s : ThreadPool ν) : Option (ThreadPool ν) :=
  match s.dtor with
  | .notStarted => (s.lock .destructor).map fun s => { s with dtor := .locked }
  | .locked => some { s with mStop := true, dtor := .unlocking }
  | .unlocking => some { s.unlock with dtor := .notifying }
  | .notifying => some { s with mWorkList := s.mWorkList.map wake, dtor := .joining }
  | .joining =>
    if s.mWorkList.all isReturned then some { s with dtor := .done } else none
  | .done => none

def step (s : ThreadPool ν) : PoolAction ν → Option (ThreadPool ν)
  | .call j msgs =>
    match s.posters[j]? with
    | some ⟨.idle,[]⟩ => some (s.setPoster j ⟨.idle,msgs⟩)
    | _ => none
  | .poster j => s.posters[j]?.bind (s.posterStep j)
  | .notifyOne j w => s.posters[j]?.bind (s.notifyOneStep j w)
  | .worker i => s.mWorkList[i]?.bind (s.workerStep i)
  | .spurious i => s.wakeOne i
  | .destructor => s.dtorStep

end ThreadPool
end Astlog
