import Astlog.Foundation.Schedule
import Astlog.Foundation.Stdio
import Astlog.Foundation.Update
import Astlog.Sink.BasicSink

/-! A `fileSink` used by any number of threads. Each call takes the mutex, does its virtual
part and gives the mutex back; the formatter is read in one step, and each `fwrite` is one. -/
namespace Astlog
open Foundation

/-- A mutex type that excludes: it can be taken only while nobody holds it. -/
structure Mutex extends Lockable where
  held : State → Bool
  init_free : held init = false
  lock_free : ∀ {m m'}, lock m = some m' → held m = false ∧ held m' = true
  unlock_free : ∀ {m}, held m = true → held (unlock m) = false

/-- `std::mutex`. -/
def stdMutex : Mutex where
  State := Bool
  init := false
  lock m := if m then none else some true
  unlock _ := false
  held m := m
  init_free := rfl
  lock_free {m m'} h := by
    cases m with
    | true => cases h
    | false =>
      cases h
      exact ⟨rfl,rfl⟩
  unlock_free _ := rfl

/-- A call of a member function of `basicSink`. -/
inductive BasicSinkCall (κ : Type)
  | log (msg : LogMsg (List Char))
  | flush
  | sync
  | setPattern (pattern : List Char)
  | setFormatter (formatter : PatternFormatter κ)

/-- Where a thread is: in none of the functions; before the lock; holding the mutex, before
the virtual part; holding it, with the `fwrite` calls still to make. -/
inductive SinkPc (κ : Type)
  | idle
  | locking (call : BasicSinkCall κ)
  | inside (call : BasicSinkCall κ)
  | writing (call : BasicSinkCall κ) (chunks : List (List Char))

/-- A thread: the calls it still has to make, where it is, its time caches, and the calls
that have returned. -/
structure SinkThread (κ : Type) where
  calls : List (BasicSinkCall κ)
  pc : SinkPc κ := .idle
  caches : ThreadCaches := {}
  returned : List (BasicSinkCall κ) := []

/-- A record: who logged which message, and the formatter, the caches and the clock it was
formatted with. -/
structure SinkRecord (κ : Type) where
  thread : ℕ
  msg : LogMsg (List Char)
  mFormatter : PatternFormatter κ
  caches : ThreadCaches
  now : ℕ → ℤ

/-- What happened to the formatter of the sink: it was read for a record, or replaced. -/
inductive FormatterEvent (κ : Type)
  | rendered (r : SinkRecord κ)
  | replaced (formatter : PatternFormatter κ)

/-- The sink and its threads. No step reads the history. -/
structure SharedSink (M : Mutex) (κ : Type) where
  mMtx : M.State
  mFormatter : PatternFormatter κ
  mFile : StdioFile Char
  threads : List (SinkThread κ)
  history : List (FormatterEvent κ)

/-- The thread that moves, with the readings of the clock in its step; or the stream hands
bytes to the kernel. -/
inductive SharedSinkAction
  | move (thread : ℕ) (now : ℕ → ℤ)
  | spill (n : ℕ)

section
variable {M : Mutex} {κ : Type} (ops : CustomOps κ) (env : FormatEnv)

namespace SinkRecord

/-- The text the formatter makes of the message. -/
def text (r : SinkRecord κ) : List Char :=
  (r.mFormatter.format ops { env with now := r.now }
    { msg := r.msg, dest := .empty recordCapacity, caches := r.caches }).dest.view

/-- The record in the file: the text and one end of line. -/
def bytes (r : SinkRecord κ) : List Char := r.text ops env ++ eol.take 1

end SinkRecord

namespace SharedSink

/-- The virtual part of a call, by thread `i`. -/
def virtualPart (s : SharedSink M κ) (i : ℕ) (now : ℕ → ℤ) (t : SinkThread κ)
    (call : BasicSinkCall κ) : SharedSink M κ :=
  match call with
  | .log msg =>
    let r := FileSink.sinkIt ops { env with now := now } ⟨s.mFormatter⟩ t.caches msg
    { s with
      threads := s.threads.set i { t with pc := .writing call r.1, caches := r.2 }
      history := s.history ++ [.rendered ⟨i,msg,s.mFormatter,t.caches,now⟩] }
  | .flush =>
    { s with
      mFile := s.mFile.fflush
      threads := s.threads.set i { t with pc := .writing call [] } }
  | .sync =>
    { s with
      mFile := s.mFile.fsync
      threads := s.threads.set i { t with pc := .writing call [] } }
  | .setPattern pattern =>
    let formatter := PatternFormatter.construct ops pattern fun _ => none
    { s with
      mFormatter := formatter
      threads := s.threads.set i { t with pc := .writing call [] }
      history := s.history ++ [.replaced formatter] }
  | .setFormatter formatter =>
    { s with
      mFormatter := formatter
      threads := s.threads.set i { t with pc := .writing call [] }
      history := s.history ++ [.replaced formatter] }

def step (s : SharedSink M κ) : SharedSinkAction → Option (SharedSink M κ)
  | .spill n => some { s with mFile := s.mFile.spill n }
  | .move i now =>
    match s.threads[i]? with
    | none => none
    | some t =>
      match t.pc with
      | .idle =>
        match t.calls with
        | [] => none
        | call::calls =>
          some { s with threads := s.threads.set i { t with calls := calls, pc := .locking call } }
      | .locking call =>
        (M.lock s.mMtx).map fun m =>
          { s with mMtx := m, threads := s.threads.set i { t with pc := .inside call } }
      | .inside call => some (s.virtualPart ops env i now t call)
      | .writing call [] =>
        some { s with
          mMtx := M.unlock s.mMtx
          threads := s.threads.set i { t with pc := .idle, returned := t.returned ++ [call] } }
      | .writing call (b::bs) =>
        some { s with
          mFile := s.mFile.fwrite b
          threads := s.threads.set i { t with pc := .writing call bs } }

/-- The sink on a file that holds `old`, before the first call. -/
def init (M : Mutex) (mFormatter : PatternFormatter κ) (old : List Char)
    (calls : List (List (BasicSinkCall κ))) : SharedSink M κ where
  mMtx := M.init
  mFormatter := mFormatter
  mFile := { kernel := old, disk := old }
  threads := calls.map fun cs => { calls := cs }
  history := []

end SharedSink
end
end Astlog
