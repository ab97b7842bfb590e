import Astlog.Foundation.Schedule
import Astlog.Foundation.Stdio
import Astlog.Sink.Sinks

/-! A sink on an open file, called by one thread after another. -/
namespace Astlog
open Foundation

/-- The two sinks that write to a file. Their `flush_` is `fflush`; their `sync_` is
`fdatasync` for the one and `fsync` for the other. -/
inductive SinkClass
  | fileSink
  | ansicolorSink (mColorMap : ColorMap)

variable {κ : Type}

/-- `sinkIt` of either class; a level that does not index the colour map has none. -/
def SinkClass.sinkIt (cls : SinkClass) (ops : CustomOps κ) (env : FormatEnv)
    (mFormatter : PatternFormatter κ) (caches : ThreadCaches) (msg : LogMsg (List Char)) :
    Option (List (List Char) × ThreadCaches) :=
  match cls with
  | fileSink => some (FileSink.sinkIt ops env ⟨mFormatter⟩ caches msg)
  | ansicolorSink mColorMap =>
    if h : msg.mLevel.toIndex < Level.levelMax then
      some (AnsicolorSink.sinkIt ops env ⟨mColorMap,mFormatter⟩ caches msg h)
    else none

/-- The sink between two steps: its file, the `fwrite` calls the record in progress still
needs, and the records it was given so far, which no step reads. -/
structure OpenSink (κ : Type) where
  mFormatter : PatternFormatter κ
  mFile : StdioFile Char
  unwritten : List (List Char) := []
  logged : List (List Char) := []

/-- `log` up to its first `fwrite`, with the caches of the calling thread and the readings
of the clock; one `fwrite` of it; `flush`; `sync`; and a spill of the stream's buffer,
which may come at any time. -/
inductive OpenSinkStep
  | log (msg : LogMsg (List Char)) (caches : ThreadCaches) (now : ℕ → ℤ)
  | fwrite
  | flush
  | sync
  | spill (n : ℕ)

namespace OpenSink
variable (cls : SinkClass) (ops : CustomOps κ) (env : FormatEnv)

/-- A call begins when the one before it has returned. -/
def step (s : OpenSink κ) : OpenSinkStep → Option (OpenSink κ)
  | .log msg caches now =>
    if s.unwritten = [] then
      (cls.sinkIt ops { env with now := now } s.mFormatter caches msg).map fun r =>
        { s with unwritten := r.1, logged := s.logged ++ [r.1.flatten] }
    else none
  | .fwrite =>
    match s.unwritten with
    | [] => none
    | bytes::rest => some { s with mFile := s.mFile.fwrite bytes, unwritten := rest }
  | .flush => if s.unwritten = [] then some { s with mFile := s.mFile.fflush } else none
  | .sync => if s.unwritten = [] then some { s with mFile := s.mFile.fsync } else none
  | .spill n => some { s with mFile := s.mFile.spill n }

/-- The sink on a file that holds `old`. -/
def opened (mFormatter : PatternFormatter κ) (old : List Char) : OpenSink κ :=
  { mFormatter := mFormatter, mFile := { kernel := old, disk := old } }

/-- The file and what is yet to be written make up the records. -/
def Complete (old : List Char) (s : OpenSink κ) : Prop :=
  s.mFile.contents ++ s.unwritten.flatten = old ++ s.logged.flatten

variable {cls ops env} {s t : OpenSink κ} {old : List Char} {mFormatter : PatternFormatter κ}

lemma complete_step (h : s.Complete old) {a : OpenSinkStep} (ha : s.step cls ops env a = some t) :
    t.Complete old := by
  unfold Complete at h ⊢
  cases a with
  | log msg caches now =>
    rw [step] at ha
    split_ifs at ha with hu
    obtain ⟨r,-,rfl⟩ := Option.map_eq_some_iff.mp ha
    rw [hu, List.flatten_nil, List.append_nil] at h
    simp [h]
  | fwrite =>
    rw [step] at ha
    split at ha
    · cases ha
    · next bytes rest hu =>
      cases ha
      rw [hu] at h
      simpa using h
  | flush =>
    rw [step] at ha
    split_ifs at ha
    cases ha
    simpa using h
  | sync =>
    rw [step] at ha
    split_ifs at ha
    cases ha
    simpa using h
  | spill n =>
    cases ha
    simpa using h

lemma complete_run {as : List OpenSinkStep}
    (h : run (step cls ops env) (opened mFormatter old) as = some s) : s.Complete old := by
  refine run_invariant (I := Complete old) (fun u a v hu ha => complete_step hu ha) h ?_
  simp [Complete, opened, StdioFile.contents]

lemma step_sync_eq_some : s.step cls ops env .sync = some t ↔
    s.unwritten = [] ∧ t = { s with mFile := s.mFile.fsync } := by
  rw [step]
  split_ifs with hu
  · simp [hu, eq_comm]
  · simp [hu]

end OpenSink

section
variable (cls : SinkClass) (ops : CustomOps κ) (env : FormatEnv) (mFormatter : PatternFormatter κ)
  (old : List Char) (as : List OpenSinkStep)

/-- Whenever a `sync` of the sequence returns, all records logged so far are on disk. -/
def DurableSyncs : Prop := ∀ earlier later s, as = earlier ++ .sync::later →
  run (OpenSink.step cls ops env) (OpenSink.opened mFormatter old) (earlier ++ [.sync]) = some s →
    s.mFile.disk = old ++ s.logged.flatten

/-- Whenever a `sync` of the sequence is called, the stream has nothing buffered. -/
def UnbufferedSyncs : Prop := ∀ earlier later s, as = earlier ++ .sync::later →
  run (OpenSink.step cls ops env) (OpenSink.opened mFormatter old) earlier = some s →
    s.unwritten = [] → s.mFile.buffer = []

/-- `sync` does not flush, so it relies on what others have flushed. -/
theorem durableSyncs_iff : DurableSyncs cls ops env mFormatter old as ↔
    UnbufferedSyncs cls ops env mFormatter old as := by
  have hsync : ∀ {earlier : List OpenSinkStep} {s : OpenSink κ},
      run (OpenSink.step cls ops env) (OpenSink.opened mFormatter old) earlier = some s →
      s.unwritten = [] → (s.mFile.fsync.disk = old ++ s.logged.flatten ↔ s.mFile.buffer = []) := by
    intro earlier s hs hu
    have hcomplete := OpenSink.complete_run hs
    rw [OpenSink.Complete, hu, List.flatten_nil, List.append_nil] at hcomplete
    rw [← hcomplete, StdioFile.fsync_disk_eq_contents_iff]
  constructor
  · intro hdurable earlier later s has hs hu
    have hstep : s.step cls ops env .sync = some { s with mFile := s.mFile.fsync } :=
      OpenSink.step_sync_eq_some.mpr ⟨hu,rfl⟩
    have hlast : run (OpenSink.step cls ops env) s [.sync] = some { s with mFile := s.mFile.fsync } :=
      run_cons_eq_some.mpr ⟨_,hstep,rfl⟩
    have hrun := run_append_eq_some.mpr ⟨s,hs,hlast⟩
    exact (hsync hs hu).mp (hdurable earlier later _ has hrun)
  · intro hempty earlier later t has ht
    obtain ⟨s,hs,hlast⟩ := run_append_eq_some.mp ht
    obtain ⟨u,hstep,hu⟩ := run_cons_eq_some.mp hlast
    cases hu
    obtain ⟨hunwritten,rfl⟩ := OpenSink.step_sync_eq_some.mp hstep
    exact (hsync hs hunwritten).mpr (hempty earlier later s has hs hunwritten)

end

/-- One record is logged; its text and its end of line are written. -/
def oneRecord : List OpenSinkStep :=
  [.log { mTimeStamp := 0, mLoggerName := [], mThreadId := 1, mLoc := ⟨1,[],[]⟩, mPayload := ['a'] } {}
    (fun _ => 0),.fwrite,.fwrite]

/-- A `sync` after it leaves it in the stream's buffer. -/
theorem sync_leaves_buffered : ¬∀ (cls : SinkClass) (ops : CustomOps Empty) (env : FormatEnv)
    (mFormatter : PatternFormatter Empty) (old : List Char) (as : List OpenSinkStep),
      DurableSyncs cls ops env mFormatter old as := by
  intro h
  set env : FormatEnv := ⟨⟨Unit,fun _ => none,fun _ _ _ => []⟩,0,fun _ => 0⟩
  set mFormatter := PatternFormatter.construct noCustom "%v".toList fun _ => none
  have heval : (run (OpenSink.step .fileSink noCustom env) (OpenSink.opened mFormatter [])
      (oneRecord ++ [.sync])).map (fun s => (s.mFile.disk,s.logged)) = some ([],[['a','\n']]) := by
    decide +kernel
  obtain ⟨s,hs,hpair⟩ := Option.map_eq_some_iff.mp heval
  obtain ⟨hdisk,hlogged⟩ := Prod.mk.inj hpair
  have hall := h .fileSink noCustom env mFormatter [] (oneRecord ++ [.sync]) oneRecord [] s rfl hs
  rw [hdisk, hlogged] at hall
  cases hall

end Astlog
