import Astlog.Sink.Durability
import Astlog.Sink.Returning

/-! What a `flush` secures for the thread that calls it: its records up to the call are out of
the buffer of the stream for good, together with every record before them. -/
namespace Astlog
open Foundation

section
variable {κ : Type}

/-- The calls whose virtual part is behind the thread. -/
def SinkThread.past (t : SinkThread κ) : List (BasicSinkCall κ) :=
  match t.pc with
  | .writing call _ => t.returned ++ [call]
  | _ => t.returned

theorem SinkThread.past_idle {t : SinkThread κ} (h : t.pc = .idle) : t.past = t.returned := by
  rw [past, h]

end

namespace SharedSink
variable {M : Mutex} {κ : Type} {ops : CustomOps κ} {env : FormatEnv} {s u : SharedSink M κ}
  {old : List Char} {i : ℕ} {msgs : List (LogMsg (List Char))}

/-- Thread `i` makes a virtual part in the step, or the calls behind the threads stay the same. -/
lemma past_step {a : SharedSinkAction} (h : s.step ops env a = some u) :
    (∃ i t call now, s.threads[i]? = some t ∧ t.pc = .inside call ∧
      u = s.virtualPart ops env i now t call) ∨
    u.threads.map SinkThread.past = s.threads.map SinkThread.past := by
  cases a with
  | spill n =>
    cases h
    exact .inr rfl
  | move i now =>
    simp only [step] at h
    split at h
    · cases h
    next t ht =>
      split at h
      next hpc =>
        split at h <;> cases h
        exact .inr (map_set_eq ht (by simp only [SinkThread.past, hpc]))
      next call hpc =>
        obtain ⟨m,-,rfl⟩ := Option.map_eq_some_iff.mp h
        exact .inr (map_set_eq ht (by simp only [SinkThread.past, hpc]))
      next call hpc =>
        obtain rfl := Option.some.inj h
        exact .inl ⟨i,t,call,now,ht,hpc,rfl⟩
      next call hpc =>
        cases h
        exact .inr (map_set_eq ht (by simp only [SinkThread.past, hpc]))
      next call b bs hpc =>
        cases h
        exact .inr (map_set_eq ht (by simp only [SinkThread.past, hpc]))

theorem records_step {a : SharedSinkAction} (h : s.step ops env a = some u) :
    s.records <+: u.records := by
  cases step_move h with
  | rendered => exact ⟨_,(records_rendered s _).symm⟩
  | replaced formatter => exact ⟨[],(List.append_nil _).trans (records_replaced s formatter).symm⟩
  | _ => exact List.prefix_rfl

/-- The kernel has the records of thread `i` with these messages, and all records before them. -/
def InKernel (ops : CustomOps κ) (env : FormatEnv) (old : List Char) (s : SharedSink M κ) (i : ℕ)
    (msgs : List (LogMsg (List Char))) : Prop :=
  ∃ whole, whole <+: s.records ∧
    old ++ whole.flatMap (SinkRecord.bytes ops env) <+: s.mFile.kernel ∧
    (whole.filter (·.thread = i)).map SinkRecord.msg = msgs

theorem InKernel.mono (h : InKernel ops env old s i msgs) (hrecords : s.records <+: u.records)
    (hkernel : s.mFile.kernel <+: u.mFile.kernel) : InKernel ops env old u i msgs := by
  obtain ⟨whole,hwhole,hbytes,hmsgs⟩ := h
  exact ⟨whole,hwhole.trans hrecords,hbytes.trans hkernel,hmsgs⟩

/-- At every `flush` behind a thread, the messages that it had logged got into the kernel. -/
def Flushed (ops : CustomOps κ) (env : FormatEnv) (old : List Char) (s : SharedSink M κ) : Prop :=
  ∀ (i : ℕ) (t : SinkThread κ), s.threads[i]? = some t → ∀ pre, pre ++ [.flush] <+: t.past →
    InKernel ops env old s i (pre.filterMap BasicSinkCall.logged)

/-- A thread before its `flush_`, which hands all that was written to the kernel. -/
lemma inKernel_flush (h1 : s.OneInside) (hb : Balanced ops env old s) (hr : s.ThreadRecords)
    {t : SinkThread κ} (ht : s.threads[i]? = some t) (hpc : t.pc = .inside .flush) {now : ℕ → ℤ} :
    InKernel ops env old (s.virtualPart ops env i now t .flush) i
      (t.returned.filterMap BasicSinkCall.logged) := by
  have hnone : s.unwritten = [] := by
    rw [h1.unwritten_eq ht (by rw [hpc]; rfl), hpc]
    rfl
  have hbytes := hb.bytes
  rw [hnone, List.append_nil] at hbytes
  refine ⟨s.records,List.prefix_rfl,?_,?_⟩
  · rw [← hbytes]
    exact List.prefix_rfl
  · rw [hr i t ht, hpc]
    exact List.append_nil _

theorem flushed_step (h1 : s.OneInside) (hb : Balanced ops env old s) (hr : s.ThreadRecords)
    (h : Flushed ops env old s) {a : SharedSinkAction} (ha : s.step ops env a = some u) :
    Flushed ops env old u := by
  have hmono : ∀ {j : ℕ} {msgs : List (LogMsg (List Char))}, InKernel ops env old s j msgs →
      InKernel ops env old u j msgs := fun hk => hk.mono (records_step ha) (step_file ha).kernel
  intro j v hv pre hpre
  rcases past_step ha with ⟨i,t,call,now,ht,hpc,rfl⟩ | hsame
  · obtain ⟨chunks,caches,-,hthreads⟩ := virtualPart_threads ops env s i now t call
    rw [hthreads, getElem?_set_of_some ht] at hv
    split_ifs at hv with hj
    · cases hv
      subst hj
      obtain heq | hbefore := List.prefix_concat_iff.mp hpre
      · obtain ⟨rfl,hcall⟩ := List.append_inj' heq rfl
        obtain rfl := List.head_eq_of_cons_eq hcall
        exact inKernel_flush h1 hb hr ht hpc
      · exact hmono (h _ t ht pre (by simpa only [SinkThread.past, hpc] using hbefore))
    · exact hmono (h j v hv pre hpre)
  · have hthread := congrArg (fun l => l[j]?) hsame
    simp only [List.getElem?_map, hv, Option.map_some] at hthread
    obtain ⟨w,hw,heq⟩ := Option.map_eq_some_iff.mp hthread.symm
    exact hmono (h j w hw pre (by rwa [heq]))

/-- Before the first call nothing was flushed. -/
theorem flushed_of_past (h : ∀ t ∈ s.threads, t.past = []) : Flushed ops env old s := by
  intro i t ht pre hpre
  rw [h t (List.mem_of_getElem? ht)] at hpre
  exact absurd (List.prefix_nil.mp hpre) (List.append_ne_nil_of_right_ne_nil pre nofun)

end SharedSink
end Astlog
