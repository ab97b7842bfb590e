import Astlog.Foundation.Progress
import Astlog.Sink.FileOfRecords

/-! Calls of a shared sink return: the threads cannot block one another for good, and each
call costs so many steps at the most. -/
namespace Astlog
open Foundation

/-- A mutex type that is given to a thread whenever nobody holds it. -/
def Mutex.Grants (M : Mutex) : Prop := ∀ m, M.held m = false → ∃ m', M.lock m = some m'

theorem stdMutex_grants : stdMutex.Grants := by
  rintro m hm
  obtain rfl : m = false := hm
  exact ⟨true,rfl⟩

section
variable {κ : Type}

/-- A bound for the steps that the call in progress still takes. -/
def SinkPc.work : SinkPc κ → ℕ
  | idle => 0
  | locking _ => 5
  | inside _ => 4
  | writing _ chunks => chunks.length+1

/-- The same with the calls still to be made. -/
def SinkThread.work (t : SinkThread κ) : ℕ := 6*t.calls.length+t.pc.work

end

namespace SharedSink
variable {M : Mutex} {κ : Type} {ops : CustomOps κ} {env : FormatEnv} {s u : SharedSink M κ}

def work (s : SharedSink M κ) : ℕ := (s.threads.map SinkThread.work).sum

/-- The steps of the threads. The stream hands bytes on whenever it likes. -/
def ofThread (_ : SharedSink M κ) : SharedSinkAction → Bool
  | .move _ _ => true
  | .spill _ => false

lemma work_set {i : ℕ} {t t' : SinkThread κ} (ht : s.threads[i]? = some t)
    (hlt : t'.work < t.work) (hu : u.threads = s.threads.set i t') : u.work < s.work := by
  have hsum := sum_map_set ht SinkThread.work t'
  rw [work, work, hu]
  omega

/-- The virtual part leaves at most two writes to make. -/
theorem virtualPart_threads (ops : CustomOps κ) (env : FormatEnv) (s : SharedSink M κ) (i : ℕ) (now : ℕ → ℤ) (t : SinkThread κ)
    (call : BasicSinkCall κ) : ∃ chunks caches, chunks.length ≤ 2 ∧
      (s.virtualPart ops env i now t call).threads =
        s.threads.set i { t with pc := .writing call chunks, caches := caches } := by
  cases call with
  | log msg => exact ⟨_,_,le_refl 2,rfl⟩
  | _ => exact ⟨[],t.caches,Nat.zero_le 2,rfl⟩

theorem work_step {i : ℕ} {now : ℕ → ℤ} (h : s.step ops env (.move i now) = some u) :
    u.work < s.work := by
  simp only [step] at h
  split at h
  · cases h
  next t ht =>
    split at h
    next hpc =>
      split at h
      · cases h
      next call calls hcalls =>
        cases h
        refine work_set ht ?_ rfl
        simp only [SinkThread.work, SinkPc.work, hcalls, hpc, List.length_cons]
        omega
    next call hpc =>
      obtain ⟨m,-,rfl⟩ := Option.map_eq_some_iff.mp h
      refine work_set ht ?_ rfl
      simp only [SinkThread.work, SinkPc.work, hpc]
      omega
    next call hpc =>
      obtain rfl := Option.some.inj h
      obtain ⟨chunks,caches,hlen,hthreads⟩ :=
        virtualPart_threads ops env s i now t call
      refine work_set ht ?_ hthreads
      simp only [SinkThread.work, SinkPc.work, hpc]
      omega
    next call hpc =>
      cases h
      refine work_set ht ?_ rfl
      simp [SinkThread.work, SinkPc.work, hpc]
    next call b bs hpc =>
      cases h
      refine work_set ht ?_ rfl
      simp [SinkThread.work, SinkPc.work, hpc]

/-- A mutex that is held is held by a thread inside. -/
structure Accounted (s : SharedSink M κ) : Prop where
  one : s.OneInside
  holder : M.held s.mMtx = true → ∃ t ∈ s.threads, t.pc.holds = true

/-- A thread that was not inside moves and leaves the mutex alone. -/
lemma Accounted.holder_set (h : s.Accounted) {i : ℕ} {t t' : SinkThread κ}
    (ht : s.threads[i]? = some t) (hpc : t.pc.holds = false) (hm : M.held s.mMtx = true) :
    ∃ v ∈ s.threads.set i t', v.pc.holds = true := by
  obtain ⟨v,hv,hh⟩ := h.holder hm
  refine ⟨v,mem_set_of_ne ht hv ?_ t',hh⟩
  rintro rfl
  rw [hpc] at hh
  cases hh

theorem accounted_move (h : s.Accounted) (hm : Move ops env s u) : u.Accounted := by
  refine ⟨oneInside_move h.one hm,fun hheld => ?_⟩
  cases hm with
  | spilled n => exact h.holder hheld
  | begun ht hpc => exact h.holder_set ht (by rw [hpc]; rfl) hheld
  | locked ht => exact ⟨_,mem_set_self_of_some ht _,rfl⟩
  | rendered ht => exact ⟨_,mem_set_self_of_some ht _,rfl⟩
  | flushed ht => exact ⟨_,mem_set_self_of_some ht _,rfl⟩
  | replaced formatter ht => exact ⟨_,mem_set_self_of_some ht _,rfl⟩
  | wrote ht => exact ⟨_,mem_set_self_of_some ht _,rfl⟩
  | unlocked ht hpc =>
    have hbefore := h.one.held _ _ ht (by rw [hpc]; rfl)
    rw [M.unlock_free hbefore] at hheld
    cases hheld

/-- Every thread waits or has nothing to call. -/
def AtRest (ops : CustomOps κ) (env : FormatEnv) (s : SharedSink M κ) : Prop :=
  Stuck (restrict ofThread (step ops env)) s

/-- A thread inside can go on. -/
lemma AtRest.not_holds (hs : AtRest ops env s) {t : SinkThread κ} (ht : t ∈ s.threads) :
    t.pc.holds = false := by
  obtain ⟨i,hi⟩ := List.getElem?_of_mem ht
  have hnone : s.step ops env (.move i fun _ => 0) = none := hs.eq_none rfl
  simp only [step, hi] at hnone
  cases hpc : t.pc with
  | idle => rfl
  | locking call => rfl
  | inside call => simp [hpc] at hnone
  | writing call chunks => cases chunks <;> simp [hpc] at hnone

theorem AtRest.idle (hs : AtRest ops env s) (h : s.Accounted) (hgrants : M.Grants)
    {t : SinkThread κ} (ht : t ∈ s.threads) : t.pc = .idle ∧ t.calls = [] := by
  have hfree : M.held s.mMtx = false := by
    by_contra hne
    obtain ⟨v,hv,hh⟩ := h.holder (by simpa using hne)
    rw [hs.not_holds hv] at hh
    cases hh
  obtain ⟨m,hm⟩ := hgrants _ hfree
  obtain ⟨i,hi⟩ := List.getElem?_of_mem ht
  have hnone : s.step ops env (.move i fun _ => 0) = none := hs.eq_none rfl
  have hout := hs.not_holds ht
  simp only [step, hi] at hnone
  cases hpc : t.pc with
  | idle =>
    cases hcalls : t.calls with
    | nil => exact ⟨rfl,rfl⟩
    | cons call calls => simp [hpc, hcalls] at hnone
  | locking call => simp [hpc, hm] at hnone
  | inside call =>
    rw [hpc] at hout
    cases hout
  | writing call chunks =>
    rw [hpc] at hout
    cases hout

/-- What becomes of the calls from some state on: the threads take `work` steps at the most,
they stop only when each has made its calls, and they get there; the file then consists of whole
records, those of each thread in the order of its calls. -/
structure CallsReturn (ops : CustomOps κ) (env : FormatEnv) (old : List Char)
    (calls : List (List (BasicSinkCall κ))) (s : SharedSink M κ) : Prop where
  bounded : ∀ bs u, run (restrict ofThread (step ops env)) s bs = some u →
    bs.length+u.work ≤ s.work
  complete : ∀ bs u, run (step ops env) s bs = some u → AtRest ops env u →
    u.threads.map SinkThread.returned = calls ∧
    u.mFile.contents = old ++ u.records.flatMap (SinkRecord.bytes ops env) ∧
    ∀ (i : ℕ) (t : SinkThread κ), u.threads[i]? = some t →
      (u.records.filter (·.thread = i)).map SinkRecord.msg = t.returned.filterMap BasicSinkCall.logged
  reaches : ∃ bs u, run (restrict ofThread (step ops env)) s bs = some u ∧ AtRest ops env u

theorem accounted_run {mFormatter : PatternFormatter κ} {old : List Char}
    {calls : List (List (BasicSinkCall κ))} {as : List SharedSinkAction}
    (h : run (step ops env) (init M mFormatter old calls) as = some s) : s.Accounted := by
  refine run_invariant (fun _ _ _ hs ha => accounted_move hs (step_move ha)) h
    ⟨oneInside_init mFormatter old calls,fun hheld => ?_⟩
  rw [show (init M mFormatter old calls).mMtx = M.init from rfl, M.init_free] at hheld
  cases hheld

theorem callsReturn_run (hgrants : M.Grants) {mFormatter : PatternFormatter κ} {old : List Char}
    {calls : List (List (BasicSinkCall κ))} {as : List SharedSinkAction}
    (h : run (step ops env) (init M mFormatter old calls) as = some s) :
    CallsReturn ops env old calls s := by
  have hstep : ∀ (s : SharedSink M κ) a u, True → restrict ofThread (step ops env) s a = some u →
      True ∧ u.work < s.work := by
    intro s a u _ ha
    obtain ⟨hok,ha⟩ := restrict_eq_some.mp ha
    cases a with
    | move i now => exact ⟨trivial,work_step ha⟩
    | spill n => cases hok
  refine ⟨fun bs u hb => run_length_le hstep hb trivial,fun bs u hb hrest => ?_,
    exists_run_stuck hstep trivial⟩
  have hu := run_append_eq_some.mpr ⟨s,h,hb⟩
  have hidle : ∀ t ∈ u.threads, t.pc = .idle ∧ t.calls = [] :=
    fun t ht => hrest.idle (accounted_run hu) hgrants ht
  refine ⟨?_,?_,fun i t ht => ?_⟩
  · rw [← made_run hu]
    refine List.map_congr_left fun t ht => ?_
    obtain ⟨hpc,hcalls⟩ := hidle t ht
    simp [hpc, hcalls, SinkPc.call]
  · have hbytes := (balanced_run hu).bytes
    rwa [unwritten_of_idle fun t ht => (hidle t ht).1, List.append_nil] at hbytes
  · rw [threadRecords_run hu i t ht, (hidle t (List.mem_of_getElem? ht)).1]
    exact List.append_nil _

/-- From the middle of the run of two threads, one of them inside. -/
theorem callsReturn_twoThreads :
    let env : FormatEnv := ⟨⟨Unit,fun _ => none,fun _ _ _ => []⟩,0,fun _ => 0⟩
    let mFormatter := PatternFormatter.construct noCustom "%v".toList fun _ => none
    ∃ s, run (step noCustom env) (init stdMutex mFormatter [] twoThreads)
        (twoThreadsSchedule.take 8) = some s ∧ s.work = 8 ∧
      CallsReturn noCustom env [] twoThreads s := by
  intro env mFormatter
  have hrun : ∃ s, run (step noCustom env) (init stdMutex mFormatter [] twoThreads)
      (twoThreadsSchedule.take 8) = some s ∧ s.work = 8 := ⟨_,rfl,rfl⟩
  obtain ⟨s,hs,hwork⟩ := hrun
  exact ⟨s,hs,hwork,callsReturn_run stdMutex_grants hs⟩

end SharedSink
end Astlog
