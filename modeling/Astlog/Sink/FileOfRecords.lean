import Astlog.Sink.Shared

/-! The file of a shared sink: complete records in the order in which they were formatted,
and of the one in progress what has been written. -/
namespace Astlog
open Foundation

section
variable {κ : Type}

/-- The points at which a thread holds the mutex. -/
def SinkPc.holds : SinkPc κ → Bool
  | idle => false
  | locking _ => false
  | inside _ => true
  | writing _ _ => true

/-- What the `fwrite` calls still to be made will write. -/
def SinkPc.unwritten : SinkPc κ → List Char
  | writing _ chunks => chunks.flatten
  | _ => []

/-- The message that a call logs. -/
def BasicSinkCall.logged : BasicSinkCall κ → Option (LogMsg (List Char))
  | log msg => some msg
  | _ => none

/-- The call in progress. -/
def SinkPc.call : SinkPc κ → List (BasicSinkCall κ)
  | idle => []
  | locking call => [call]
  | inside call => [call]
  | writing call _ => [call]

/-- The message of the call in progress, once its record is formatted. -/
def SinkPc.rendered : SinkPc κ → List (LogMsg (List Char))
  | writing call _ => call.logged.toList
  | _ => []

/-- The record that was formatted in an event. -/
def FormatterEvent.record : FormatterEvent κ → Option (SinkRecord κ)
  | rendered r => some r
  | replaced _ => none

/-- The formatter installed by an event. -/
def FormatterEvent.installed : FormatterEvent κ → Option (PatternFormatter κ)
  | rendered _ => none
  | replaced formatter => some formatter

/-- The formatter that is installed after some events: the last that was put in. -/
def installedAfter (mFormatter : PatternFormatter κ) (events : List (FormatterEvent κ)) :
    PatternFormatter κ := (events.filterMap FormatterEvent.installed).getLast?.getD mFormatter

end

namespace SharedSink
variable {M : Mutex} {κ : Type} {ops : CustomOps κ} {env : FormatEnv}

/-- What is still to be written of the record in progress. -/
def unwritten (s : SharedSink M κ) : List Char := s.threads.flatMap fun t => t.pc.unwritten

/-- All records, in the order in which they were formatted. -/
def records (s : SharedSink M κ) : List (SinkRecord κ) := s.history.filterMap FormatterEvent.record

/-- What a step does. -/
inductive Move (ops : CustomOps κ) (env : FormatEnv) (s : SharedSink M κ) : SharedSink M κ → Prop
  | spilled (n : ℕ) : Move ops env s { s with mFile := s.mFile.spill n }
  | begun {i : ℕ} {t : SinkThread κ} {call : BasicSinkCall κ} {calls : List (BasicSinkCall κ)}
      (ht : s.threads[i]? = some t) (hpc : t.pc = .idle) (hcalls : t.calls = call::calls) :
      Move ops env s
        { s with threads := s.threads.set i { t with calls := calls, pc := .locking call } }
  | locked {i : ℕ} {t : SinkThread κ} {call : BasicSinkCall κ} {m : M.State}
      (ht : s.threads[i]? = some t) (hpc : t.pc = .locking call) (hm : M.lock s.mMtx = some m) :
      Move ops env s
        { s with mMtx := m, threads := s.threads.set i { t with pc := .inside call } }
  | rendered {i : ℕ} {t : SinkThread κ} {msg : LogMsg (List Char)} {r : SinkRecord κ}
      (ht : s.threads[i]? = some t) (hpc : t.pc = .inside (.log msg)) (hi : r.thread = i)
      (hmsg : r.msg = msg) (hformatter : r.mFormatter = s.mFormatter) (caches : ThreadCaches) :
      Move ops env s
        { s with
          threads := s.threads.set i
            { t with pc := .writing (.log msg) [r.text ops env,eol.take 1], caches := caches }
          history := s.history ++ [.rendered r] }
  | flushed {i : ℕ} {t : SinkThread κ} {call : BasicSinkCall κ} {file : StdioFile Char}
      (ht : s.threads[i]? = some t) (hpc : t.pc = .inside call) (hcall : call.logged = none)
      (hfile : file.contents = s.mFile.contents) :
      Move ops env s
        { s with mFile := file, threads := s.threads.set i { t with pc := .writing call [] } }
  | replaced {i : ℕ} {t : SinkThread κ} {call : BasicSinkCall κ} (formatter : PatternFormatter κ)
      (ht : s.threads[i]? = some t) (hpc : t.pc = .inside call) (hcall : call.logged = none) :
      Move ops env s
        { s with
          mFormatter := formatter
          threads := s.threads.set i { t with pc := .writing call [] }
          history := s.history ++ [.replaced formatter] }
  | wrote {i : ℕ} {t : SinkThread κ} {call : BasicSinkCall κ} {b : List Char}
      {bs : List (List Char)} (ht : s.threads[i]? = some t) (hpc : t.pc = .writing call (b::bs)) :
      Move ops env s
        { s with
          mFile := s.mFile.fwrite b
          threads := s.threads.set i { t with pc := .writing call bs } }
  | unlocked {i : ℕ} {t : SinkThread κ} {call : BasicSinkCall κ}
      (ht : s.threads[i]? = some t) (hpc : t.pc = .writing call []) :
      Move ops env s
        { s with
          mMtx := M.unlock s.mMtx
          threads := s.threads.set i { t with pc := .idle, returned := t.returned ++ [call] } }

variable {s s' : SharedSink M κ}

/-- The record is what `sinkIt` writes. -/
lemma virtualPart_log (s : SharedSink M κ) (i : ℕ) (now : ℕ → ℤ) (t : SinkThread κ)
    (msg : LogMsg (List Char)) :
    s.virtualPart ops env i now t (.log msg) =
      let r : SinkRecord κ := ⟨i,msg,s.mFormatter,t.caches,now⟩
      { s with
        threads := s.threads.set i
          { t with
            pc := .writing (.log msg) [r.text ops env,eol.take 1]
            caches := (FileSink.sinkIt ops { env with now := now } ⟨s.mFormatter⟩ t.caches msg).2 }
        history := s.history ++ [.rendered r] } := rfl

theorem step_move {a : SharedSinkAction} (h : s.step ops env a = some s') : Move ops env s s' := by
  cases a with
  | spill n =>
    cases h
    exact .spilled n
  | move i now =>
    simp only [step] at h
    split at h
    · cases h
    next t ht =>
      split at h
      next hpc =>
        split at h
        · cases h
        next call calls hcalls =>
          cases h
          exact .begun ht hpc hcalls
      next call hpc =>
        obtain ⟨m,hm,rfl⟩ := Option.map_eq_some_iff.mp h
        exact .locked ht hpc hm
      next call hpc =>
        obtain rfl := Option.some.inj h
        cases call with
        | log msg =>
          rw [virtualPart_log]
          exact Move.rendered (r := ⟨i,msg,s.mFormatter,t.caches,now⟩) ht hpc rfl rfl rfl _
        | flush => exact .flushed ht hpc rfl (StdioFile.contents_fflush _)
        | sync => exact .flushed ht hpc rfl (StdioFile.contents_fsync _)
        | setPattern pattern => exact .replaced _ ht hpc rfl
        | setFormatter formatter => exact .replaced _ ht hpc rfl
      next call hpc =>
        cases h
        exact .unlocked ht hpc
      next call b bs hpc =>
        cases h
        exact .wrote ht hpc

/-- At most one thread holds the mutex, and the mutex knows. -/
structure OneInside (s : SharedSink M κ) : Prop where
  held : ∀ (i : ℕ) (t : SinkThread κ), s.threads[i]? = some t → t.pc.holds = true →
    M.held s.mMtx = true
  unique : ∀ (i j : ℕ) (t u : SinkThread κ), s.threads[i]? = some t → s.threads[j]? = some u →
    t.pc.holds = true → u.pc.holds = true → i = j

/-- The thread that moves held the mutex before, or does not hold it now. -/
lemma OneInside.set (h : s.OneInside) {i : ℕ} {t u : SinkThread κ} (ht : s.threads[i]? = some t)
    (hu : u.pc.holds = true → t.pc.holds = true) {m : M.State}
    (hm : ∀ (j : ℕ) (v : SinkThread κ), s.threads[j]? = some v → j ≠ i → v.pc.holds = true → M.held m = true)
    (hself : u.pc.holds = true → M.held m = true) {s' : SharedSink M κ} (hmtx : s'.mMtx = m)
    (hthreads : s'.threads = s.threads.set i u) : s'.OneInside where
  held j v hv hh := by
    rw [hthreads, getElem?_set_of_some ht] at hv
    rw [hmtx]
    split_ifs at hv with hj
    · cases hv
      exact hself hh
    · exact hm j v hv hj hh
  unique j k v w hv hw hhv hhw := by
    rw [hthreads, getElem?_set_of_some ht] at hv hw
    split_ifs at hv hw with hj hk hk
    · rw [hj, hk]
    · cases hv
      rw [hj]
      exact h.unique i k t w ht hw (hu hhv) hhw
    · cases hw
      rw [hk]
      exact h.unique j i v t hv ht hhv (hu hhw)
    · exact h.unique j k v w hv hw hhv hhw

/-- A step that leaves the mutex alone. -/
theorem OneInside.keep (h : s.OneInside) {i : ℕ} {t u : SinkThread κ} (ht : s.threads[i]? = some t)
    (hu : u.pc.holds = true → t.pc.holds = true) (hmtx : s'.mMtx = s.mMtx)
    (hthreads : s'.threads = s.threads.set i u) : s'.OneInside :=
  h.set ht hu (fun j v hv _ hh => h.held j v hv hh) (fun hh => h.held i t ht (hu hh)) hmtx hthreads

theorem oneInside_init (mFormatter : PatternFormatter κ) (old : List Char)
    (calls : List (List (BasicSinkCall κ))) : (init M mFormatter old calls).OneInside := by
  have hnone : ∀ (i : ℕ) (t : SinkThread κ), (init M mFormatter old calls).threads[i]? = some t →
      t.pc.holds = false := by
    intro i t ht
    obtain ⟨cs,-,rfl⟩ := List.mem_map.mp (List.mem_of_getElem? ht)
    rfl
  refine ⟨fun i t ht hh => ?_,fun i j t u ht hu hh _ => ?_⟩
  · rw [hnone i t ht] at hh
    cases hh
  · rw [hnone i t ht] at hh
    cases hh

theorem oneInside_move (h : s.OneInside) (hm : Move ops env s s') : s'.OneInside := by
  cases hm with
  | spilled n => exact ⟨h.held,h.unique⟩
  | begun ht hpc hcalls =>
    refine h.keep ht (fun hh => ?_) rfl rfl
    exact absurd hh Bool.false_ne_true
  | @locked i t call m ht hpc hm =>
    obtain ⟨hfree,hheld⟩ := M.lock_free hm
    -- nobody was inside, since the mutex was free
    have hout : ∀ (j : ℕ) (v : SinkThread κ), s.threads[j]? = some v → v.pc.holds ≠ true := by
      intro j v hv hh
      rw [h.held j v hv hh] at hfree
      cases hfree
    refine ⟨fun _ _ _ _ => hheld,fun j k v w hv hw hhv hhw => ?_⟩
    simp only [getElem?_set_of_some ht] at hv hw
    split_ifs at hv hw with hj hk hk
    · rw [hj, hk]
    · exact absurd hhw (hout k w hw)
    · exact absurd hhv (hout j v hv)
    · exact absurd hhv (hout j v hv)
  | rendered ht hpc => exact h.keep ht (fun _ => by rw [hpc]; rfl) rfl rfl
  | flushed ht hpc => exact h.keep ht (fun _ => by rw [hpc]; rfl) rfl rfl
  | replaced formatter ht hpc => exact h.keep ht (fun _ => by rw [hpc]; rfl) rfl rfl
  | wrote ht hpc => exact h.keep ht (fun _ => by rw [hpc]; rfl) rfl rfl
  | @unlocked i t call ht hpc =>
    have hholds : t.pc.holds = true := by rw [hpc]; rfl
    refine h.set ht (fun _ => hholds) (fun j v hv hj hh => ?_) (fun hh => ?_) rfl rfl
    · exact absurd (h.unique j i v t hv ht hh hholds) hj
    · exact absurd hh Bool.false_ne_true

/-- While a thread holds the mutex, no other has anything to write. -/
lemma OneInside.unwritten_set (h : s.OneInside) {i : ℕ} {t : SinkThread κ}
    (ht : s.threads[i]? = some t) (hholds : t.pc.holds = true) (u : SinkThread κ) :
    (s.threads.set i u).flatMap (fun t => t.pc.unwritten) = u.pc.unwritten := by
  refine flatMap_set_of_others_nil ht (fun j v hj hv => ?_) u
  cases hpc : v.pc with
  | idle => rfl
  | locking call => rfl
  | inside call => rfl
  | writing call chunks =>
    have hv' : v.pc.holds = true := by rw [hpc]; rfl
    exact absurd (h.unique j i v t hv ht hv' hholds) hj

theorem OneInside.unwritten_eq (h : s.OneInside) {i : ℕ} {t : SinkThread κ}
    (ht : s.threads[i]? = some t) (hholds : t.pc.holds = true) : s.unwritten = t.pc.unwritten := by
  rw [← h.unwritten_set ht hholds t, unwritten, flatMap_set_eq ht rfl]

/-- The file holds complete records, and with what is still to be written the last one too. -/
structure Balanced (ops : CustomOps κ) (env : FormatEnv) (old : List Char) (s : SharedSink M κ) :
    Prop where
  bytes : s.mFile.contents ++ s.unwritten = old ++ s.records.flatMap (SinkRecord.bytes ops env)
  last : s.unwritten ≠ [] → ∃ earlier r, s.records = earlier ++ [r] ∧ s.unwritten <:+ r.bytes ops env

theorem records_rendered (s : SharedSink M κ) (r : SinkRecord κ) :
    (s.history ++ [FormatterEvent.rendered r]).filterMap FormatterEvent.record = s.records ++ [r] := by
  rw [List.filterMap_append]
  rfl

theorem records_replaced (s : SharedSink M κ) (formatter : PatternFormatter κ) :
    (s.history ++ [FormatterEvent.replaced formatter]).filterMap FormatterEvent.record = s.records := by
  rw [List.filterMap_append]
  exact List.append_nil _

/-- A step that changes neither the bytes nor the records nor what is still to be written. -/
theorem Balanced.congr {old : List Char} (h : Balanced ops env old s)
    (hfile : s'.mFile.contents = s.mFile.contents) (hunwritten : s'.unwritten = s.unwritten)
    (hrecords : s'.records = s.records) : Balanced ops env old s' := by
  refine ⟨?_,fun hne => ?_⟩
  · rw [hfile, hunwritten, hrecords, h.bytes]
  · rw [hunwritten] at hne ⊢
    rw [hrecords]
    exact h.last hne

/-- With nothing to write, a new record is formatted. -/
lemma Balanced.rendered {old : List Char} (h : Balanced ops env old s) (r : SinkRecord κ)
    (hfile : s'.mFile = s.mFile) (hbefore : s.unwritten = []) (hafter : s'.unwritten = r.bytes ops env)
    (hrecords : s'.records = s.records ++ [r]) : Balanced ops env old s' := by
  have hbytes := h.bytes
  rw [hbefore, List.append_nil] at hbytes
  refine ⟨?_,fun _ => ⟨s.records,r,hrecords,?_⟩⟩
  · rw [hfile, hafter, hrecords, List.flatMap_append, hbytes]
    simp
  · rw [hafter]

/-- The next of the bytes to be written are. -/
lemma Balanced.wrote {old : List Char} (h : Balanced ops env old s) {b : List Char}
    (hfile : s'.mFile = s.mFile.fwrite b) (hunwritten : s.unwritten = b ++ s'.unwritten)
    (hrecords : s'.records = s.records) : Balanced ops env old s' := by
  have hbytes := h.bytes
  rw [hunwritten, ← List.append_assoc] at hbytes
  refine ⟨?_,fun hne => ?_⟩
  · rw [hfile, StdioFile.contents_fwrite, hrecords, hbytes]
  · have hne' : s.unwritten ≠ [] := by
      rw [hunwritten]
      exact List.append_ne_nil_of_right_ne_nil b hne
    obtain ⟨earlier,r,hlast,hsuffix⟩ := h.last hne'
    rw [hunwritten] at hsuffix
    exact ⟨earlier,r,hrecords.trans hlast,(List.suffix_append b _).trans hsuffix⟩

theorem balanced_move (h1 : s.OneInside) {old : List Char} (h : Balanced ops env old s)
    (hm : Move ops env s s') : Balanced ops env old s' := by
  cases hm with
  | spilled n => exact h.congr (StdioFile.contents_spill _ n) rfl rfl
  | begun ht hpc hcalls => exact h.congr rfl (flatMap_set_eq ht (by rw [hpc]; rfl)) rfl
  | locked ht hpc hm => exact h.congr rfl (flatMap_set_eq ht (by rw [hpc]; rfl)) rfl
  | @rendered i t msg r ht hpc hi hmsg hformatter caches =>
    have hholds : t.pc.holds = true := by rw [hpc]; rfl
    have hbefore : s.unwritten = [] := by rw [h1.unwritten_eq ht hholds, hpc]; rfl
    have hafter := h1.unwritten_set ht hholds
      { t with pc := .writing (.log msg) [r.text ops env,eol.take 1], caches := caches }
    have hchunks : (SinkPc.writing (κ := κ) (.log msg) [r.text ops env,eol.take 1]).unwritten =
        r.bytes ops env := by simp [SinkPc.unwritten, SinkRecord.bytes]
    exact h.rendered r rfl hbefore (hafter.trans hchunks) (records_rendered s r)
  | flushed ht hpc hcall hfile => exact h.congr hfile (flatMap_set_eq ht (by rw [hpc]; rfl)) rfl
  | replaced formatter ht hpc hcall =>
    exact h.congr rfl (flatMap_set_eq ht (by rw [hpc]; rfl)) (records_replaced s formatter)
  | @wrote i t call b bs ht hpc =>
    have hholds : t.pc.holds = true := by rw [hpc]; rfl
    have hbefore : s.unwritten = b ++ bs.flatten := by rw [h1.unwritten_eq ht hholds, hpc]; rfl
    have hafter := h1.unwritten_set ht hholds { t with pc := .writing call bs }
    refine h.wrote rfl ?_ rfl
    rw [hbefore]
    exact congrArg (b ++ ·) hafter.symm
  | unlocked ht hpc => exact h.congr rfl (flatMap_set_eq ht (by rw [hpc]; rfl)) rfl

/-- The messages of a thread's records are those it has logged, in order. -/
def ThreadRecords (s : SharedSink M κ) : Prop :=
  ∀ (i : ℕ) (t : SinkThread κ), s.threads[i]? = some t →
    (s.records.filter (·.thread = i)).map SinkRecord.msg =
      t.returned.filterMap BasicSinkCall.logged ++ t.pc.rendered

/-- A step that formats no record, by a thread for which the messages stay the same. -/
theorem ThreadRecords.set (h : s.ThreadRecords) {i : ℕ} {t u : SinkThread κ}
    (ht : s.threads[i]? = some t)
    (hu : u.returned.filterMap BasicSinkCall.logged ++ u.pc.rendered =
      t.returned.filterMap BasicSinkCall.logged ++ t.pc.rendered)
    (hrecords : s'.records = s.records) (hthreads : s'.threads = s.threads.set i u) :
    s'.ThreadRecords := by
  intro j v hv
  rw [hthreads, getElem?_set_of_some ht] at hv
  rw [hrecords]
  split_ifs at hv with hj
  · cases hv
    rw [hj, h i t ht, hu]
  · exact h j v hv

theorem threadRecords_move (h : s.ThreadRecords) (hm : Move ops env s s') : s'.ThreadRecords := by
  cases hm with
  | spilled n => exact h
  | begun ht hpc hcalls => exact h.set ht (by rw [hpc]; rfl) rfl rfl
  | locked ht hpc hm => exact h.set ht (by rw [hpc]; rfl) rfl rfl
  | @rendered i t msg r ht hpc hi hmsg hformatter caches =>
    intro j v hv
    simp only [getElem?_set_of_some ht] at hv
    rw [records, records_rendered, List.filter_append, List.map_append]
    split_ifs at hv with hj
    · cases hv
      have hbefore := h i t ht
      rw [hpc] at hbefore
      subst hj
      rw [hbefore, List.filter_singleton, hi]
      simp [SinkPc.rendered, BasicSinkCall.logged, hmsg]
    · have hother : [r].filter (·.thread = j) = [] := by
        rw [List.filter_singleton, hi]
        simp [Ne.symm hj]
      rw [hother, List.map_nil, List.append_nil]
      exact h j v hv
  | flushed ht hpc hcall hfile =>
    exact h.set ht (by rw [hpc]; simp [SinkPc.rendered, hcall]) rfl rfl
  | replaced formatter ht hpc hcall =>
    exact h.set ht (by rw [hpc]; simp [SinkPc.rendered, hcall]) (records_replaced s formatter) rfl
  | wrote ht hpc => exact h.set ht (by rw [hpc]; rfl) rfl rfl
  | @unlocked i t call ht hpc =>
    refine h.set ht ?_ rfl rfl
    rw [hpc, List.filterMap_append]
    cases hcall : call.logged <;> simp [SinkPc.rendered, hcall]

/-- Each thread makes its calls in order. -/
theorem calls_move (hm : Move ops env s s') :
    s'.threads.map (fun t => t.returned ++ t.pc.call ++ t.calls) =
      s.threads.map fun t => t.returned ++ t.pc.call ++ t.calls := by
  cases hm with
  | spilled n => rfl
  | begun ht hpc hcalls => exact map_set_eq ht (by rw [hpc, hcalls]; simp [SinkPc.call])
  | locked ht hpc hm => exact map_set_eq ht (by rw [hpc]; rfl)
  | rendered ht hpc hi hmsg hformatter caches => exact map_set_eq ht (by rw [hpc]; rfl)
  | flushed ht hpc hcall hfile => exact map_set_eq ht (by rw [hpc]; rfl)
  | replaced formatter ht hpc hcall => exact map_set_eq ht (by rw [hpc]; rfl)
  | wrote ht hpc => exact map_set_eq ht (by rw [hpc]; rfl)
  | unlocked ht hpc => exact map_set_eq ht (by rw [hpc]; simp [SinkPc.call])

/-- Every record was formatted by the formatter installed at that moment. -/
structure ByInstalled (mFormatter : PatternFormatter κ) (s : SharedSink M κ) : Prop where
  current : s.mFormatter = installedAfter mFormatter s.history
  record : ∀ earlier r later, s.history = earlier ++ .rendered r::later →
    r.mFormatter = installedAfter mFormatter earlier

/-- An event in a history with one more event at the end. -/
lemma mem_concat_cases {earlier later history : List (FormatterEvent κ)} {e e' : FormatterEvent κ}
    (h : history ++ [e] = earlier ++ e'::later) :
    history = earlier ∧ e = e' ∨ ∃ later', history = earlier ++ e'::later' := by
  obtain rfl | ⟨later',last,rfl⟩ := List.eq_nil_or_concat later
  · obtain ⟨rfl,he⟩ := List.append_inj' h rfl
    exact .inl ⟨rfl,List.head_eq_of_cons_eq he⟩
  · rw [List.concat_eq_append, ← List.cons_append, ← List.append_assoc] at h
    exact .inr ⟨later',List.append_inj_left' h rfl⟩

lemma byInstalled_move {mFormatter : PatternFormatter κ} (h : ByInstalled mFormatter s)
    (hm : Move ops env s s') : ByInstalled mFormatter s' := by
  cases hm with
  | @rendered i t msg r ht hpc hi hmsg hformatter caches =>
    refine ⟨?_,fun earlier r' later hhistory => ?_⟩
    · rw [h.current, installedAfter, installedAfter, List.filterMap_append]
      exact congrArg (fun l => (List.getLast? l).getD mFormatter) (List.append_nil _).symm
    · obtain ⟨rfl,hr⟩ | ⟨later',hbefore⟩ := mem_concat_cases hhistory
      · cases hr
        rw [hformatter, h.current]
      · exact h.record earlier r' later' hbefore
  | @replaced i t call formatter ht hpc hcall =>
    refine ⟨?_,fun earlier r' later hhistory => ?_⟩
    · rw [installedAfter, List.filterMap_append]
      simp [FormatterEvent.installed]
    · obtain ⟨-,hr⟩ | ⟨later',hbefore⟩ := mem_concat_cases hhistory
      · cases hr
      · exact h.record earlier r' later' hbefore
  | _ => exact ⟨h.current,h.record⟩

section
variable {mFormatter : PatternFormatter κ} {old : List Char}
  {calls : List (List (BasicSinkCall κ))} {as : List SharedSinkAction}

/-- Before the first step no thread is in a call. -/
theorem start_of_mem_init {t : SinkThread κ} (ht : t ∈ (init M mFormatter old calls).threads) :
    t.returned = [] ∧ t.pc = .idle := by
  obtain ⟨cs,-,rfl⟩ := List.mem_map.mp ht
  exact ⟨rfl,rfl⟩

theorem unwritten_of_idle (hidle : ∀ t ∈ s.threads, t.pc = .idle) : s.unwritten = [] := by
  rw [unwritten, List.flatMap_eq_nil_iff]
  intro t ht
  rw [hidle t ht]
  rfl

theorem balanced_run (h : run (step ops env) (init M mFormatter old calls) as = some s) :
    Balanced ops env old s := by
  have hboth : s.OneInside ∧ Balanced ops env old s := by
    refine run_invariant (I := fun s : SharedSink M κ => s.OneInside ∧ Balanced ops env old s) ?_ h ?_
    · rintro s a s' ⟨h1,hb⟩ ha
      exact ⟨oneInside_move h1 (step_move ha),balanced_move h1 hb (step_move ha)⟩
    · have hnone : (init M mFormatter old calls).unwritten = [] :=
        unwritten_of_idle fun t ht => (start_of_mem_init ht).2
      refine ⟨oneInside_init mFormatter old calls,⟨?_,fun hne => absurd hnone hne⟩⟩
      rw [hnone]
      simp [init, StdioFile.contents, records]
  exact hboth.2

theorem threadRecords_run (h : run (step ops env) (init M mFormatter old calls) as = some s) :
    s.ThreadRecords := by
  refine run_invariant (I := ThreadRecords) (fun s a s' hs ha => threadRecords_move hs (step_move ha))
    h ?_
  intro i t ht
  obtain ⟨hret,hpc⟩ := start_of_mem_init (List.mem_of_getElem? ht)
  rw [hret, hpc]
  rfl

/-- The threads make the calls that they were given, in order. -/
theorem made_run (h : run (step ops env) (init M mFormatter old calls) as = some s) :
    s.threads.map (fun t => t.returned ++ t.pc.call ++ t.calls) = calls := by
  refine run_invariant (I := fun s : SharedSink M κ =>
    s.threads.map (fun t => t.returned ++ t.pc.call ++ t.calls) = calls) ?_ h ?_
  · exact fun s a s' hs ha => (calls_move (step_move ha)).trans hs
  · simp [init, SinkPc.call, Function.comp_def]

lemma byInstalled_run (h : run (step ops env) (init M mFormatter old calls) as = some s) :
    ByInstalled mFormatter s := by
  refine run_invariant (fun s a s' hs ha => byInstalled_move hs (step_move ha)) h ⟨rfl,?_⟩
  intro earlier r later hhistory
  exact absurd hhistory.symm (by simp [init])

end

/-- The file of a sink whose threads have made some of their calls. While no call is in
progress it consists of complete records, one for each call of `log` that has returned. -/
structure FileOfRecords (ops : CustomOps κ) (env : FormatEnv) (mFormatter : PatternFormatter κ)
    (old : List Char) (calls : List (List (BasicSinkCall κ))) (s : SharedSink M κ) : Prop where
  balanced : Balanced ops env old s
  threadRecords : s.ThreadRecords
  made : s.threads.map (fun t => t.returned ++ t.pc.call ++ t.calls) = calls
  byInstalled : ByInstalled mFormatter s
  whole : (∀ t ∈ s.threads, t.pc = .idle) →
    s.mFile.contents = old ++ s.records.flatMap (SinkRecord.bytes ops env) ∧
    ∀ (i : ℕ) (t : SinkThread κ), s.threads[i]? = some t →
      (s.records.filter (·.thread = i)).map SinkRecord.msg =
        t.returned.filterMap BasicSinkCall.logged

theorem fileOfRecords_run {mFormatter : PatternFormatter κ} {old : List Char}
    {calls : List (List (BasicSinkCall κ))} {as : List SharedSinkAction}
    (h : run (step ops env) (init M mFormatter old calls) as = some s) :
    FileOfRecords ops env mFormatter old calls s := by
  have hbalanced := balanced_run h
  have hthread := threadRecords_run h
  refine ⟨hbalanced,hthread,made_run h,byInstalled_run h,fun hidle => ⟨?_,fun i t ht => ?_⟩⟩
  · have hbytes := hbalanced.bytes
    rwa [unwritten_of_idle hidle, List.append_nil] at hbytes
  · rw [hthread i t ht, hidle t (List.mem_of_getElem? ht)]
    exact List.append_nil _

/-- Two threads that log, one of them behind a change of the pattern. -/
def twoThreads : List (List (BasicSinkCall Empty)) :=
  let msg : LogMsg (List Char) :=
    { mTimeStamp := 0, mLoggerName := [], mThreadId := 1, mLoc := ⟨1,[],[]⟩, mPayload := "hi".toList }
  [[.log msg],[.setPattern "%l".toList,.log msg]]

/-- Both log calls are under way when the pattern has changed; thread 0 gets the mutex first. -/
def twoThreadsSchedule : List SharedSinkAction :=
  ([1,1,0,1,1,0,1,0,0].map (.move · fun _ => 0)) ++ [.spill 1] ++
    ([0,0,1,1,1,1,1].map (.move · fun _ => 0))

theorem fileOfRecords_twoThreads :
    let env : FormatEnv := ⟨⟨Unit,fun _ => none,fun _ _ _ => []⟩,0,fun _ => 0⟩
    let mFormatter := PatternFormatter.construct noCustom "%v".toList fun _ => none
    ∃ s, run (step noCustom env) (init stdMutex mFormatter [] twoThreads) twoThreadsSchedule = some s ∧
      s.mFile.contents = "TRACE\nTRACE\n".toList ∧
      FileOfRecords noCustom env mFormatter [] twoThreads s := by
  intro env mFormatter
  have heval : (run (step noCustom env) (init stdMutex mFormatter [] twoThreads)
      twoThreadsSchedule).map (fun s => s.mFile.contents) = some "TRACE\nTRACE\n".toList := by
    decide +kernel
  obtain ⟨s,hs,hfile⟩ := Option.map_eq_some_iff.mp heval
  exact ⟨s,hs,hfile,fileOfRecords_run hs⟩

end SharedSink
end Astlog
