import Astlog.Sink.OpenSink
import Astlog.Sink.Shared

/-! What the two sinks that write to a file pass to stdio, from their construction on: the
pointer `m_file`, whatever it is. -/
namespace Astlog
open Foundation

/-- A `FILE*`. -/
inductive FilePtr
  | uninitialised
  | null
  | opened
  deriving DecidableEq

/-- The stdio functions the sinks call with their file. -/
inductive StdioFn
  | fwrite (bytes : List Char)
  | fflush
  | fileno
  | fclose
  deriving DecidableEq

/-- A call of one of them. -/
structure StdioCall where
  fn : StdioFn
  file : FilePtr
  deriving DecidableEq

/-- A sink with its file. What it has printed by `perror` and called in stdio is history,
which no step reads. -/
structure FileBacked (κ : Type) where
  cls : SinkClass
  mFormatter : PatternFormatter κ
  mFile : FilePtr
  reported : List (List Char) := []
  issued : List StdioCall := []

/-- A constructor call: the one of `fileSink` and the two of `ansicolorSink`. -/
inductive SinkConstruction (κ : Type)
  | fileSink (fileName : List Char) (formatter : PatternFormatter κ)
  | ansicolorSink
  | ansicolorSinkTo (color : ColorMap) (formatter : PatternFormatter κ) (targetFile : FilePtr)

/-- Whether the constructor is given a file: the default one of `ansicolorSink` is not. -/
def SinkConstruction.getsFile {κ : Type} (fopen : List Char → Bool) : SinkConstruction κ → Bool
  | fileSink fileName _ => fopen fileName
  | ansicolorSink => false
  | ansicolorSinkTo _ _ targetFile => targetFile = .opened

/-- A call of a member function, with the caches of the calling thread and the readings of
the clock. -/
structure SinkUse (κ : Type) where
  call : BasicSinkCall κ
  caches : ThreadCaches := {}
  now : ℕ → ℤ := fun _ => 0

variable {κ : Type}

/-- Whether the call reaches stdio. -/
def BasicSinkCall.usesFile : BasicSinkCall κ → Bool
  | log _ => true
  | flush => true
  | sync => true
  | setPattern _ => false
  | setFormatter _ => false

namespace FileBacked
variable (ops : CustomOps κ) (env : FormatEnv)

/-- The constructors, where `fopen` says which files can be opened for appending. The
default one of `ansicolorSink` has no initialiser for `m_file`. -/
def construct (fopen : List Char → Bool) : SinkConstruction κ → FileBacked κ
  | .fileSink fileName formatter =>
    { cls := .fileSink
      mFormatter := formatter
      mFile := if fopen fileName then .opened else .null }
  | .ansicolorSink =>
    { cls := .ansicolorSink fun _ => []
      mFormatter := PatternFormatter.construct ops [] fun _ => none
      mFile := .uninitialised }
  | .ansicolorSinkTo color formatter targetFile =>
    { cls := .ansicolorSink color
      mFormatter := formatter
      mFile := targetFile
      reported :=
        if targetFile = .null then ["file can not be openned!  check if accessible".toList] else [] }

/-- The stdio calls of the functions are made with `m_file`. -/
def issue (s : FileBacked κ) (fns : List StdioFn) : FileBacked κ :=
  { s with issued := s.issued ++ fns.map (⟨·,s.mFile⟩) }

/-- A call of a member function. -/
def step (s : FileBacked κ) (u : SinkUse κ) : Option (FileBacked κ) :=
  match u.call with
  | .log msg =>
    (s.cls.sinkIt ops { env with now := u.now } s.mFormatter u.caches msg).map fun r =>
      s.issue (r.1.map .fwrite)
  | .flush => some (s.issue [.fflush])
  | .sync => some (s.issue [.fileno])
  | .setPattern pattern =>
    some { s with mFormatter := PatternFormatter.construct ops pattern fun _ => none }
  | .setFormatter formatter => some { s with mFormatter := formatter }

/-- The destructor: `fileSink` closes a file that is not null, `ansicolorSink` closes none. -/
def destroy (s : FileBacked κ) : FileBacked κ :=
  match s.cls with
  | .fileSink => if s.mFile = .null then s else s.issue [.fclose]
  | .ansicolorSink _ => s

/-- Every stdio call was given a file that was opened, and without one there was none. -/
structure OnlyOpened (s : FileBacked κ) : Prop where
  opened : ∀ c ∈ s.issued, c.file = .opened
  inert : s.mFile ≠ .opened → s.issued = []

variable {ops env} {s t : FileBacked κ}

lemma issue_nil (s : FileBacked κ) : s.issue [] = s := by simp [issue]

/-- The sink after calls that made these stdio calls, whatever its formatter is by then. -/
def After (s : FileBacked κ) (fns : List StdioFn) (t : FileBacked κ) : Prop :=
  ∃ formatter, t = { s.issue fns with mFormatter := formatter }

lemma After.refl (s : FileBacked κ) : s.After [] s := ⟨s.mFormatter,by rw [issue_nil]⟩

lemma After.trans {u : FileBacked κ} {fns fns' : List StdioFn} (h : s.After fns t)
    (h' : t.After fns' u) : s.After (fns ++ fns') u := by
  obtain ⟨formatter,rfl⟩ := h
  obtain ⟨formatter',rfl⟩ := h'
  exact ⟨formatter',by simp [issue]⟩

lemma After.mFile_eq {fns : List StdioFn} (h : s.After fns t) : t.mFile = s.mFile := by
  obtain ⟨formatter,rfl⟩ := h
  rfl

lemma After.cls_eq {fns : List StdioFn} (h : s.After fns t) : t.cls = s.cls := by
  obtain ⟨formatter,rfl⟩ := h
  rfl

lemma After.issued_eq {fns : List StdioFn} (h : s.After fns t) :
    t.issued = s.issued ++ fns.map (⟨·,s.mFile⟩) := by
  obtain ⟨formatter,rfl⟩ := h
  rfl

/-- A record takes two `fwrite` calls. -/
lemma sinkIt_ne_nil {cls : SinkClass} {mFormatter : PatternFormatter κ} {caches : ThreadCaches}
    {msg : LogMsg (List Char)} {r : List (List Char) × ThreadCaches}
    (h : cls.sinkIt ops env mFormatter caches msg = some r) : r.1 ≠ [] := by
  cases cls with
  | fileSink =>
    cases h
    exact List.cons_ne_nil _ _
  | ansicolorSink mColorMap =>
    rw [SinkClass.sinkIt] at h
    split at h
    · cases h
      exact List.cons_ne_nil _ _
    · cases h

lemma after_step {u : SinkUse κ} (h : s.step ops env u = some t) :
    ∃ fns, s.After fns t ∧ (fns = [] ↔ u.call.usesFile = false) := by
  rw [step] at h
  cases hcall : u.call with
  | log msg =>
    rw [hcall] at h
    obtain ⟨r,hr,rfl⟩ := Option.map_eq_some_iff.mp h
    refine ⟨r.1.map .fwrite,⟨s.mFormatter,rfl⟩,?_⟩
    exact iff_of_false (fun hnil => sinkIt_ne_nil hr (List.map_eq_nil_iff.mp hnil)) Bool.noConfusion
  | flush =>
    rw [hcall] at h
    cases h
    exact ⟨[.fflush],⟨s.mFormatter,rfl⟩,iff_of_false (List.cons_ne_nil _ _) Bool.noConfusion⟩
  | sync =>
    rw [hcall] at h
    cases h
    exact ⟨[.fileno],⟨s.mFormatter,rfl⟩,iff_of_false (List.cons_ne_nil _ _) Bool.noConfusion⟩
  | setPattern pattern =>
    rw [hcall] at h
    cases h
    exact ⟨[],⟨_,by rw [issue_nil]⟩,iff_of_true rfl rfl⟩
  | setFormatter formatter =>
    rw [hcall] at h
    cases h
    exact ⟨[],⟨_,by rw [issue_nil]⟩,iff_of_true rfl rfl⟩

lemma after_run {uses : List (SinkUse κ)} (h : run (step ops env) s uses = some t) :
    ∃ fns, s.After fns t ∧ (fns = [] ↔ ∀ u ∈ uses, u.call.usesFile = false) := by
  induction uses generalizing s with
  | nil =>
    cases h
    exact ⟨[],After.refl _,by simp⟩
  | cons u uses ih =>
    obtain ⟨v,hv,ht⟩ := run_cons_eq_some.mp h
    obtain ⟨fns,hfirst,hnone⟩ := after_step hv
    obtain ⟨fns',hrest,hnone'⟩ := ih ht
    refine ⟨fns ++ fns',hfirst.trans hrest,?_⟩
    rw [List.append_eq_nil_iff, hnone, hnone', List.forall_mem_cons]

/-- A constructor calls nothing with the file, and `fileSink` leaves none uninitialised. -/
lemma construct_fresh (ops : CustomOps κ) (fopen : List Char → Bool) (c : SinkConstruction κ) :
    (construct ops fopen c).issued = [] ∧
      ((construct ops fopen c).cls = .fileSink → (construct ops fopen c).mFile ≠ .uninitialised) := by
  cases c with
  | fileSink fileName formatter =>
    refine ⟨rfl,fun _ => ?_⟩
    simp only [construct]
    split <;> decide
  | ansicolorSink => exact ⟨rfl,fun h => by cases h⟩
  | ansicolorSinkTo color formatter targetFile => exact ⟨rfl,fun h => by cases h⟩

lemma construct_mFile_iff (ops : CustomOps κ) (fopen : List Char → Bool) (c : SinkConstruction κ) :
    (construct ops fopen c).mFile = .opened ↔ c.getsFile fopen = true := by
  cases c with
  | fileSink fileName formatter =>
    change (if fopen fileName then FilePtr.opened else .null) = .opened ↔ fopen fileName = true
    cases fopen fileName <;> decide
  | ansicolorSink => exact iff_of_false FilePtr.noConfusion Bool.false_ne_true
  | ansicolorSinkTo color formatter targetFile => exact decide_eq_true_iff.symm

/-- The destructor closes only a file that was opened. -/
lemma after_destroy (h : s.cls = .fileSink → s.mFile ≠ .uninitialised) :
    ∃ fns, s.After fns s.destroy ∧ (s.mFile ≠ .opened → fns = []) := by
  rw [destroy]
  cases hcls : s.cls with
  | fileSink =>
    by_cases hnull : s.mFile = .null
    · rw [if_pos hnull]
      exact ⟨[],After.refl s,fun _ => rfl⟩
    · rw [if_neg hnull]
      refine ⟨[.fclose],⟨s.mFormatter,rfl⟩,fun hopened => ?_⟩
      have huninit := h hcls
      cases hfile : s.mFile with
      | uninitialised => exact absurd hfile huninit
      | null => exact absurd hfile hnull
      | opened => exact absurd hfile hopened
  | ansicolorSink mColorMap => exact ⟨[],After.refl s,fun _ => rfl⟩

end FileBacked

open FileBacked

/-- No member function looks at `m_file` before it uses it. -/
theorem onlyOpened_iff (ops : CustomOps κ) (env : FormatEnv) (fopen : List Char → Bool)
    (c : SinkConstruction κ) (uses : List (SinkUse κ)) {s : FileBacked κ}
    (h : run (step ops env) (construct ops fopen c) uses = some s) :
    s.destroy.OnlyOpened ↔ c.getsFile fopen = true ∨ ∀ u ∈ uses, u.call.usesFile = false := by
  rw [← construct_mFile_iff ops]
  obtain ⟨hfresh,huninit⟩ := construct_fresh ops fopen c
  obtain ⟨fns,hafter,hnone⟩ := after_run h
  rw [← hafter.cls_eq, ← hafter.mFile_eq] at huninit
  obtain ⟨closing,hclosing,hclosed⟩ := after_destroy huninit
  have hlife := hafter.trans hclosing
  have hissued := hlife.issued_eq
  rw [hfresh, List.nil_append] at hissued
  by_cases hopen : (construct ops fopen c).mFile = .opened
  · refine iff_of_true ⟨fun call hcall => ?_,fun hne => ?_⟩ (.inl hopen)
    · rw [hissued] at hcall
      obtain ⟨fn,-,rfl⟩ := List.mem_map.mp hcall
      exact hopen
    · exact absurd (hlife.mFile_eq.trans hopen) hne
  · have hnoclose : closing = [] := hclosed (by rwa [hafter.mFile_eq])
    rw [hnoclose, List.append_nil] at hissued
    rw [or_iff_right hopen, ← hnone]
    constructor
    · intro honly
      rw [List.eq_nil_iff_forall_not_mem]
      intro fn hfn
      refine hopen (honly.opened ⟨fn,_⟩ ?_)
      rw [hissued]
      exact List.mem_map_of_mem hfn
    · rintro rfl
      refine ⟨fun call hcall => ?_,fun _ => hissued⟩
      rw [hissued] at hcall
      cases hcall

/-- A sink for the payloads, and a call that logs one. -/
def payloadSink : SinkConstruction Empty :=
  .fileSink "logs/app.log".toList (PatternFormatter.construct noCustom "%v".toList fun _ => none)

def logOne : SinkUse Empty :=
  { call := .log { mTimeStamp := 0, mLoggerName := [], mThreadId := 1, mLoc := ⟨1,[],[]⟩, mPayload := ['a'] } }

/-- A system without a calendar. -/
def noCalendarEnv : FormatEnv := ⟨⟨Unit,fun _ => none,fun _ _ _ => []⟩,0,fun _ => 0⟩

theorem onlyOpened_logOne :
    ∃ s, run (step noCustom noCalendarEnv) (construct noCustom (fun _ => true) payloadSink) [logOne] =
      some s ∧ s.destroy.OnlyOpened :=
  ⟨_,rfl,(onlyOpened_iff noCustom noCalendarEnv (fun _ => true) payloadSink [logOne] rfl).mpr (.inl rfl)⟩

/-- Where the file cannot be opened, the record is written to a null pointer. -/
theorem fwrite_to_null : ¬∀ (env : FormatEnv) (fopen : List Char → Bool) (c : SinkConstruction Empty)
    (uses : List (SinkUse Empty)) (s : FileBacked Empty),
      run (step noCustom env) (construct noCustom fopen c) uses = some s → s.destroy.OnlyOpened := by
  intro h
  have honly := h noCalendarEnv (fun _ => false) payloadSink [logOne] _ rfl
  have hnull := honly.opened _ List.mem_cons_self
  cases hnull

end Astlog
