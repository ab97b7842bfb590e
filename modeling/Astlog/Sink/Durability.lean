import Astlog.Sink.FileOfRecords

/-! What a crash leaves of the file of a shared sink, and what a `flush` followed by a `sync`
secures, whatever the other threads do in between. -/
namespace Astlog
open Foundation

namespace SharedSink
variable {M : Mutex} {κ : Type} {ops : CustomOps κ} {env : FormatEnv} {s u : SharedSink M κ}

/-- A thread about to make the virtual part of a call, and the file after it. -/
lemma virtualPart_file (s : SharedSink M κ) (i : ℕ) (now : ℕ → ℤ) (t : SinkThread κ)
    (call : BasicSinkCall κ) : s.mFile.Next (s.virtualPart ops env i now t call).mFile := by
  cases call with
  | log msg => exact .kept
  | flush => exact .fflush
  | sync => exact .fsync
  | setPattern pattern => exact .kept
  | setFormatter formatter => exact .kept

theorem step_file {a : SharedSinkAction} (h : s.step ops env a = some u) : s.mFile.Next u.mFile := by
  cases a with
  | spill n =>
    cases h
    exact .spill n
  | move i now =>
    simp only [step] at h
    split at h
    · cases h
    next t ht =>
      split at h
      · split at h <;> cases h
        exact .kept
      · obtain ⟨m,-,rfl⟩ := Option.map_eq_some_iff.mp h
        exact .kept
      · obtain rfl := Option.some.inj h
        exact virtualPart_file s i now t _
      · cases h
        exact .kept
      · cases h
        exact .fwrite _

lemma extends_run {as : List SharedSinkAction} (h : run (step ops env) s as = some u)
    (hs : s.mFile.Behind) : s.mFile.Extends u.mFile :=
  run_invariant (I := fun u : SharedSink M κ => s.mFile.Extends u.mFile)
    (fun _ _ _ hu ha => hu.next (step_file ha)) h (.refl hs)

/-- Where a thread stands before the virtual part of a call, the step is that part. -/
lemma step_inside {i : ℕ} {t : SinkThread κ} {call : BasicSinkCall κ} {now : ℕ → ℤ}
    (ht : s.threads[i]? = some t) (hpc : t.pc = .inside call) :
    s.step ops env (.move i now) = some (s.virtualPart ops env i now t call) := by
  simp only [step, ht, hpc]

section
variable {mFormatter : PatternFormatter κ} {old : List Char}
  {calls : List (List (BasicSinkCall κ))} {as : List SharedSinkAction}

lemma oneInside_run (h : run (step ops env) (init M mFormatter old calls) as = some s) :
    s.OneInside :=
  run_invariant (fun _ _ _ hs ha => oneInside_move hs (step_move ha)) h
    (oneInside_init mFormatter old calls)

/-- The file was opened on what is on disk. -/
lemma extends_init (h : run (step ops env) (init M mFormatter old calls) as = some s) :
    (StdioFile.mk [] old old).Extends s.mFile := extends_run h List.prefix_rfl

/-- What is on disk, and whatever else a crash may leave: the old file, whole records, and perhaps
the beginning of the next. -/
structure CrashSafe (ops : CustomOps κ) (env : FormatEnv) (old : List Char) (s : SharedSink M κ) :
    Prop where
  disk : s.mFile.Leaves s.mFile.disk
  torn : ∀ left, s.mFile.Leaves left → ∃ whole rest part, s.records = whole ++ rest ∧
    left = old ++ whole.flatMap (SinkRecord.bytes ops env) ++ part ∧
    (part = [] ∨ ∃ r, rest.head? = some r ∧ part <+: r.bytes ops env)

/-- Wherever a crash comes. -/
theorem crashSafe_run (h : run (step ops env) (init M mFormatter old calls) as = some s) :
    CrashSafe ops env old s := by
  refine ⟨(extends_init h).behind.leaves_disk,fun left hleft => ?_⟩
  obtain ⟨⟨bytes,rfl⟩,hcontents⟩ := (extends_init h).leaves hleft
  have hall : old ++ bytes <+: old ++ s.records.flatMap (SinkRecord.bytes ops env) := by
    rw [← (balanced_run h).bytes]
    exact hcontents.trans (List.prefix_append _ _)
  rw [List.prefix_append_right_inj] at hall
  obtain ⟨whole,rest,part,hrecords,rfl,hcut⟩ := StdioFile.prefix_flatMap_cases hall
  exact ⟨whole,rest,part,hrecords,(List.append_assoc _ _ _).symm,hcut⟩

/-- While a thread is before its virtual part, no other has a record formatted or half written. -/
lemma contents_of_inside (h : run (step ops env) (init M mFormatter old calls) as = some s)
    {i : ℕ} {t : SinkThread κ} {call : BasicSinkCall κ} (ht : s.threads[i]? = some t)
    (hpc : t.pc = .inside call) :
    s.mFile.contents = old ++ s.records.flatMap (SinkRecord.bytes ops env) := by
  have hnone : s.unwritten = [] := by
    rw [(oneInside_run h).unwritten_eq ht (by rw [hpc]; rfl), hpc]
    rfl
  have hbytes := (balanced_run h).bytes
  rwa [hnone, List.append_nil] at hbytes

lemma rendered_of_inside (h : run (step ops env) (init M mFormatter old calls) as = some s)
    {i : ℕ} {t : SinkThread κ} {call : BasicSinkCall κ} (ht : s.threads[i]? = some t)
    (hpc : t.pc = .inside call) {k : ℕ} {u : SinkThread κ} (hu : s.threads[k]? = some u) :
    u.pc.rendered = [] := by
  have hholds : t.pc.holds = true := by rw [hpc]; rfl
  cases hw : u.pc with
  | writing call chunks =>
    obtain rfl := (oneInside_run h).unique k i u t hu ht (by rw [hw]; rfl) hholds
    rw [Option.some.inj (hu.symm.trans ht), hpc] at hw
    cases hw
  | _ => rfl

/-- The records there are at a `flush`, one for each call of `log` that has returned, are on
disk after a later `sync`, and stay there. -/
theorem durable_of_flush_sync (h : run (step ops env) (init M mFormatter old calls) as = some s)
    {i : ℕ} {t : SinkThread κ} (ht : s.threads[i]? = some t) (hflush : t.pc = .inside .flush)
    {now : ℕ → ℤ} {bs : List SharedSinkAction} {v : SharedSink M κ}
    (hbetween : run (step ops env) s (.move i now::bs) = some v) {j : ℕ} {t' : SinkThread κ}
    (ht' : v.threads[j]? = some t') (hsync : t'.pc = .inside .sync) {now' : ℕ → ℤ}
    {cs : List SharedSinkAction} (hafter : run (step ops env) v (.move j now'::cs) = some u) :
    old ++ s.records.flatMap (SinkRecord.bytes ops env) <+: u.mFile.disk ∧
      ∀ k w, s.threads[k]? = some w → (s.records.filter (·.thread = k)).map SinkRecord.msg =
        w.returned.filterMap BasicSinkCall.logged := by
  obtain ⟨s₁,hs₁,hrun₁⟩ := run_cons_eq_some.mp hbetween
  obtain ⟨v₁,hv₁,hrun₂⟩ := run_cons_eq_some.mp hafter
  rw [step_inside ht hflush] at hs₁
  rw [step_inside ht' hsync] at hv₁
  obtain rfl := Option.some.inj hs₁
  obtain rfl := Option.some.inj hv₁
  have hbehind := (extends_init h).behind
  have hext := extends_run hrun₁ (((StdioFile.Extends.refl hbehind).next .fflush).behind)
  have hsynced := extends_run hrun₂ (((StdioFile.Extends.refl hext.behind).next .fsync).behind)
  constructor
  · rw [← contents_of_inside h ht hflush]
    exact hext.kernel.trans hsynced.disk
  · intro k w hw
    rw [threadRecords_run h k w hw, rendered_of_inside h ht hflush hw, List.append_nil]

end

theorem crashSafe_twoThreads :
    let env : FormatEnv := ⟨⟨Unit,fun _ => none,fun _ _ _ => []⟩,0,fun _ => 0⟩
    let mFormatter := PatternFormatter.construct noCustom "%v".toList fun _ => none
    ∃ s, run (step noCustom env) (init stdMutex mFormatter [] twoThreads) twoThreadsSchedule = some s ∧
      CrashSafe noCustom env [] s := by
  intro env mFormatter
  have heval : (run (step noCustom env) (init stdMutex mFormatter [] twoThreads)
      twoThreadsSchedule).isSome = true := by decide +kernel
  obtain ⟨s,hs⟩ := Option.isSome_iff_exists.mp heval
  exact ⟨s,hs,crashSafe_run hs⟩

/-- A thread logs and flushes, another syncs. -/
def logFlushSync : List (List (BasicSinkCall Empty)) :=
  let msg : LogMsg (List Char) :=
    { mTimeStamp := 0, mLoggerName := [], mThreadId := 1, mLoc := ⟨1,[],[]⟩, mPayload := "hi".toList }
  [[.log msg,.flush],[.sync]]

/-- Thread `i` makes `n` steps. -/
def moves (i n : ℕ) : List SharedSinkAction := List.replicate n (.move i fun _ => 0)

theorem durable_logFlushSync :
    let env : FormatEnv := ⟨⟨Unit,fun _ => none,fun _ _ _ => []⟩,0,fun _ => 0⟩
    let mFormatter := PatternFormatter.construct noCustom "%v".toList fun _ => none
    ∃ s v u, run (step noCustom env) (init stdMutex mFormatter [] logFlushSync) (moves 0 8) = some s ∧
      run (step noCustom env) s (moves 0 2 ++ moves 1 2) = some v ∧
      run (step noCustom env) v (moves 1 2) = some u ∧ s.records.length = 1 ∧
      s.records.flatMap (SinkRecord.bytes noCustom env) <+: u.mFile.disk := by
  intro env mFormatter
  have hrun : ∃ s t v t' u, run (step noCustom env) (init stdMutex mFormatter [] logFlushSync)
      (moves 0 8) = some s ∧ s.threads[0]? = some t ∧ t.pc = .inside .flush ∧
      run (step noCustom env) s (moves 0 2 ++ moves 1 2) = some v ∧ v.threads[1]? = some t' ∧
      t'.pc = .inside .sync ∧ run (step noCustom env) v (moves 1 2) = some u ∧
      s.records.length = 1 := ⟨_,_,_,_,_,rfl,rfl,rfl,rfl,rfl,rfl,rfl,rfl⟩
  obtain ⟨s,t,v,t',u,hs,ht,hflush,hv,ht',hsync,hu,hlen⟩ := hrun
  exact ⟨s,v,u,hs,hv,hu,hlen,(durable_of_flush_sync hs ht hflush hv ht' hsync hu).1⟩

end SharedSink
end Astlog
