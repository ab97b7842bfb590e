import Astlog.Foundation.Schedule
import Astlog.Foundation.Ring

/-! `SPSCQueue` shared by one producer and one consumer. Each atomic load, each
construction, move and destruction in a slot and each atomic store is a step of its own. -/
namespace Astlog
open Foundation

/-- What lives in a slot. The destructor runs on a moved-from object too. -/
inductive SlotObject (α : Type)
  | value (v : α)
  | movedFrom
  deriving DecidableEq

/-- The queue. A slot without an object is raw storage; `ptr_at(idx)` is the slot at `idx`. -/
structure SPSCQueue (α : Type) where
  storage_ : List (Option (SlotObject α))
  capacity_ : ℕ
  mask_ : ℕ
  head_ : ℕ
  tail_ : ℕ
  deriving DecidableEq

/-- A call by the producer. The value is the one that the slot is constructed with; of
`try_emplace`, what the constructor makes of the arguments. -/
inductive PushCall (α : Type)
  | tryPush (v : α)
  | tryPushMove (v : α)
  | tryEmplace (v : α)
  deriving DecidableEq

def PushCall.value {α : Type} : PushCall α → α
  | .tryPush v => v
  | .tryPushMove v => v
  | .tryEmplace v => v

/-- Where the producer stands, with the locals that are still read. -/
inductive ProducerPc (α : Type)
  /-- In no call, with what the last one returned. -/
  | idle (ret : Option Bool)
  | loadTail (v : α)
  | loadHead (v : α) (tail next : ℕ)
  | construct (v : α) (tail next : ℕ)
  | storeTail (v : α) (next : ℕ)
  deriving DecidableEq

/-- Where the consumer stands in `try_pop`. -/
inductive ConsumerPc
  | idle (ret : Option Bool)
  | loadHead
  | loadTail (head : ℕ)
  | move (head : ℕ)
  | destroy (head : ℕ)
  | storeHead (next : ℕ)
  deriving DecidableEq

/-- The queue between its two threads, with the values pushed by the calls that returned
true and the values moved out. -/
structure SpscSession (α : Type) extends SPSCQueue α where
  producer : ProducerPc α := .idle none
  consumer : ConsumerPc := .idle none
  pushed : List α := []
  popped : List α := []
  deriving DecidableEq

/-- The choices of a run: when a thread calls, with what, and which thread moves. -/
inductive SpscAction (α : Type)
  | call (c : PushCall α)
  | callPop
  | produce
  | consume
  deriving DecidableEq

variable {α : Type}

/-- The queue as it is constructed, with `2^k` slots. -/
def SPSCQueue.construct (α : Type) (k : ℕ) : SPSCQueue α where
  storage_ := List.replicate (2^k) none
  capacity_ := 2^k
  mask_ := 2^k-1
  head_ := 0
  tail_ := 0

def SPSCQueue.capacity (q : SPSCQueue α) : ℕ := q.capacity_-1

namespace SpscSession

def init (α : Type) (k : ℕ) : SpscSession α where
  toSPSCQueue := SPSCQueue.construct α k

/-- One step of `try_push` or `try_emplace`, which have the same body. -/
def produce (s : SpscSession α) : Option (SpscSession α) :=
  match s.producer with
  | .idle _ => none
  | .loadTail v => some { s with producer := .loadHead v s.tail_ ((s.tail_+1) &&& s.mask_) }
  | .loadHead v tail next =>
    if next = s.head_ then some { s with producer := .idle (some false) }
    else some { s with producer := .construct v tail next }
  | .construct v tail next =>
    some { s with
      storage_ := s.storage_.set tail (some (.value v))
      producer := .storeTail v next }
  | .storeTail v next =>
    some { s with tail_ := next, producer := .idle (some true), pushed := s.pushed ++ [v] }

/-- One step of `try_pop`. A move out of a slot that holds no value is undefined. -/
def consume (s : SpscSession α) : Option (SpscSession α) :=
  match s.consumer with
  | .idle _ => none
  | .loadHead => some { s with consumer := .loadTail s.head_ }
  | .loadTail head =>
    if head = s.tail_ then some { s with consumer := .idle (some false) }
    else some { s with consumer := .move head }
  | .move head =>
    match s.storage_[head]? with
    | some (some (.value v)) =>
      some { s with
        storage_ := s.storage_.set head (some .movedFrom)
        consumer := .destroy head
        popped := s.popped ++ [v] }
    | _ => none
  | .destroy head =>
    some { s with
      storage_ := s.storage_.set head none
      consumer := .storeHead ((head+1) &&& s.mask_) }
  | .storeHead next => some { s with head_ := next, consumer := .idle (some true) }

def step (s : SpscSession α) : SpscAction α → Option (SpscSession α)
  | .call c =>
    match s.producer with
    | .idle _ => some { s with producer := .loadTail c.value }
    | _ => none
  | .callPop =>
    match s.consumer with
    | .idle _ => some { s with consumer := .loadHead }
    | _ => none
  | .produce => s.produce
  | .consume => s.consume

end SpscSession
end Astlog
