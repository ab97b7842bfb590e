import Astlog.Sink.Flushing

/-! A shared sink among others: some of its threads are given their calls one by one, by the
program that they run; the others make calls of their own. -/
namespace Astlog
open Foundation

section
variable {M : Mutex} {κ : Type}

/-- A file that a sink is opened on: what it holds, the sink's first formatter, and the calls of
the threads that are given none. -/
structure SinkSetup (κ : Type) where
  mFormatter : PatternFormatter κ
  old : List Char
  calls : List (List (BasicSinkCall κ))

namespace SharedSink

/-- Thread `i` is to make one more call. -/
def makeCall (s : SharedSink M κ) (i : ℕ) (call : BasicSinkCall κ) : SharedSink M κ :=
  match s.threads[i]? with
  | none => s
  | some t => { s with threads := s.threads.set i { t with calls := t.calls ++ [call] } }

/-- All calls that thread `i` was to make have returned. -/
def callsReturned (s : SharedSink M κ) (i : ℕ) : Bool :=
  match s.threads[i]? with
  | some ⟨[],.idle,_,_⟩ => true
  | _ => false

variable {ops : CustomOps κ} {env : FormatEnv} {s s' : SharedSink M κ}

/-- A thread with nothing to do does nothing. -/
lemma move_idle (hm : Move ops env s s') {i : ℕ} {t t' : SinkThread κ}
    (ht : s.threads[i]? = some t) (ht' : s'.threads[i]? = some t') (hpc : t.pc = .idle)
    (hcalls : t.calls = []) : t' = t := by
  have hother : ∀ {j : ℕ} {v v' : SinkThread κ}, s.threads[j]? = some v → (v.pc ≠ .idle ∨ v.calls ≠ []) →
      (s.threads.set j v')[i]? = some t' → t' = t := by
    intro j v v' hv hbusy hset
    rw [getElem?_set_of_some hv] at hset
    split_ifs at hset with hij
    · subst hij
      obtain rfl : t = v := Option.some.inj (ht.symm.trans hv)
      rcases hbusy with hb | hb
      · exact absurd hpc hb
      · exact absurd hcalls hb
    · exact Option.some.inj (hset.symm.trans ht)
  cases hm with
  | spilled n => exact Option.some.inj (ht'.symm.trans ht)
  | begun hv hvpc hvcalls => exact hother hv (.inr (by rw [hvcalls]; nofun)) ht'
  | locked hv hvpc => exact hother hv (.inl (by rw [hvpc]; nofun)) ht'
  | rendered hv hvpc => exact hother hv (.inl (by rw [hvpc]; nofun)) ht'
  | flushed hv hvpc => exact hother hv (.inl (by rw [hvpc]; nofun)) ht'
  | replaced formatter hv hvpc => exact hother hv (.inl (by rw [hvpc]; nofun)) ht'
  | wrote hv hvpc => exact hother hv (.inl (by rw [hvpc]; nofun)) ht'
  | unlocked hv hvpc => exact hother hv (.inl (by rw [hvpc]; nofun)) ht'

/-- A step of the sink leaves a thread with the calls it was given, and alone if there are none
left. -/
theorem thread_move (hm : Move ops env s s') {i : ℕ} {t : SinkThread κ}
    (ht : s.threads[i]? = some t) : ∃ t', s'.threads[i]? = some t' ∧
      t'.returned ++ t'.pc.call ++ t'.calls = t.returned ++ t.pc.call ++ t.calls ∧
        (t.pc = .idle → t.calls = [] → t' = t) := by
  have hcalls := congrArg (fun l => l[i]?) (calls_move hm)
  simp only [List.getElem?_map, ht, Option.map_some] at hcalls
  obtain ⟨t',ht',heq⟩ := Option.map_eq_some_iff.mp hcalls
  exact ⟨t',ht',heq,move_idle hm ht ht'⟩

theorem callsReturned_iff {i : ℕ} {t : SinkThread κ} (ht : s.threads[i]? = some t) :
    s.callsReturned i = true ↔ t.pc = .idle ∧ t.calls = [] := by
  obtain ⟨calls,pc,caches,ret⟩ := t
  rw [callsReturned, ht]
  cases calls <;> cases pc <;> simp

theorem makeCall_threads {i : ℕ} {t : SinkThread κ} (ht : s.threads[i]? = some t)
    (call : BasicSinkCall κ) :
    s.makeCall i call = { s with threads := s.threads.set i { t with calls := t.calls ++ [call] } } := by
  rw [makeCall, ht]

/-- To be called changes neither the records nor the file. -/
theorem makeCall_kept (s : SharedSink M κ) (i : ℕ) (call : BasicSinkCall κ) :
    (s.makeCall i call).records = s.records ∧ (s.makeCall i call).mFile = s.mFile := by
  rw [makeCall]
  split <;> exact ⟨rfl,rfl⟩

theorem work_makeCall (s : SharedSink M κ) (i : ℕ) (call : BasicSinkCall κ) :
    (s.makeCall i call).work ≤ s.work+6 := by
  rw [SharedSink.makeCall]
  split
  · omega
  next t ht =>
    have hsum := sum_map_set ht SinkThread.work { t with calls := t.calls ++ [call] }
    simp only [SharedSink.work, SinkThread.work, List.length_append, List.length_singleton] at hsum ⊢
    omega

end SharedSink

section
variable {ops : CustomOps κ} {env : FormatEnv}

/-- A sink opened on a file, which so many threads call one call at a time. -/
structure SinkKept (ops : CustomOps κ) (env : FormatEnv) (workers : ℕ) (f : SinkSetup κ)
    (s : SharedSink M κ) : Prop where
  accounted : s.Accounted
  balanced : SharedSink.Balanced ops env f.old s
  records : s.ThreadRecords
  flushed : SharedSink.Flushed ops env f.old s
  outside : (s.threads.drop workers).map (fun t => t.returned ++ t.pc.call ++ t.calls) = f.calls

namespace SinkKept
variable {s u : SharedSink M κ} {workers : ℕ} {f : SinkSetup κ}

theorem step (h : SinkKept ops env workers f s) {a : SharedSinkAction}
    (ha : s.step ops env a = some u) : SinkKept ops env workers f u := by
  have hm := SharedSink.step_move ha
  refine ⟨SharedSink.accounted_move h.accounted hm,SharedSink.balanced_move h.accounted.one h.balanced hm,
    SharedSink.threadRecords_move h.records hm,
    SharedSink.flushed_step h.accounted.one h.balanced h.records h.flushed ha,?_⟩
  have hcalls := SharedSink.calls_move hm
  rw [List.map_drop, hcalls, ← List.map_drop]
  exact h.outside

/-- To be called changes nothing yet. -/
theorem makeCall (h : SinkKept ops env workers f s) {i : ℕ} (hi : i < workers)
    (call : BasicSinkCall κ) : SinkKept ops env workers f (s.makeCall i call) := by
  cases ht : s.threads[i]? with
  | none =>
    rw [SharedSink.makeCall, ht]
    exact h
  | some t =>
    rw [SharedSink.makeCall_threads ht]
    refine ⟨⟨?_,fun hheld => ?_⟩,?_,?_,?_,?_⟩
    · exact h.accounted.one.keep (u := { t with calls := t.calls ++ [call] }) ht id rfl rfl
    · obtain ⟨v,hv,hh⟩ := h.accounted.holder hheld
      by_cases hvt : v = t
      · exact ⟨_,mem_set_self_of_some ht _,by rw [hvt] at hh; exact hh⟩
      · exact ⟨v,mem_set_of_ne ht hv hvt _,hh⟩
    · exact h.balanced.congr rfl (flatMap_set_eq ht rfl) rfl
    · exact h.records.set (u := { t with calls := t.calls ++ [call] }) ht rfl rfl rfl
    · intro j v hv pre hpre
      rw [getElem?_set_of_some ht] at hv
      split_ifs at hv with hj
      · cases hv
        subst hj
        exact h.flushed _ t ht pre hpre
      · exact h.flushed j v hv pre hpre
    · change ((s.threads.set i _).drop workers).map _ = _
      rw [List.drop_set_of_lt hi]
      exact h.outside

/-- The file once no thread is in a call of the sink: what it held and whole records, those of the
threads that make their own calls in the order of these. -/
theorem complete (h : SinkKept ops env workers f s)
    (hidle : ∀ t ∈ s.threads, t.pc = .idle ∧ t.calls = []) :
    s.mFile.contents = f.old ++ s.records.flatMap (SinkRecord.bytes ops env) ∧
      ∀ (j : ℕ) (cs : List (BasicSinkCall κ)), f.calls[j]? = some cs →
        (s.records.filter (·.thread = workers+j)).map SinkRecord.msg =
          cs.filterMap BasicSinkCall.logged := by
  refine ⟨?_,fun j cs hj => ?_⟩
  · have hbytes := h.balanced.bytes
    rwa [SharedSink.unwritten_of_idle fun t ht => (hidle t ht).1, List.append_nil] at hbytes
  · have hthread := congrArg (fun l => l[j]?) h.outside
    simp only [hj, List.getElem?_map, List.getElem?_drop] at hthread
    obtain ⟨t,ht,hcalls⟩ := Option.map_eq_some_iff.mp hthread
    obtain ⟨hpc,hempty⟩ := hidle t (List.mem_of_getElem? ht)
    rw [hpc, hempty, List.append_nil, SinkPc.call, List.append_nil] at hcalls
    rw [h.records _ t ht, hpc, hcalls]
    exact List.append_nil _

end SinkKept

/-- The sinks, on the files that they were opened on. -/
structure SinksKept (ops : CustomOps κ) (env : FormatEnv) (workers : ℕ)
    (setups : List (SinkSetup κ)) (sinks : List (SharedSink M κ)) : Prop where
  length : sinks.length = setups.length
  kept : ∀ (k : ℕ) (s : SharedSink M κ), sinks[k]? = some s →
    ∃ f, setups[k]? = some f ∧ SinkKept ops env workers f s

/-- The sinks before the first call. -/
def SinkSetup.open (M : Mutex) (workers : ℕ) (f : SinkSetup κ) : SharedSink M κ :=
  SharedSink.init M f.mFormatter f.old (List.replicate workers [] ++ f.calls)

theorem sinksKept_open (workers : ℕ) (setups : List (SinkSetup κ)) :
    SinksKept ops env workers setups (setups.map (SinkSetup.open M workers)) := by
  refine ⟨List.length_map _,fun k s hk => ?_⟩
  simp only [List.getElem?_map, Option.map_eq_some_iff] at hk
  obtain ⟨f,hf,rfl⟩ := hk
  refine ⟨f,hf,?_,?_,?_,?_,?_⟩
  · exact SharedSink.accounted_run (run_nil (SharedSink.step ops env) _)
  · exact SharedSink.balanced_run (run_nil _ _)
  · exact SharedSink.threadRecords_run (run_nil (SharedSink.step ops env) _)
  · refine SharedSink.flushed_of_past fun t ht => ?_
    obtain ⟨hret,hpc⟩ := SharedSink.start_of_mem_init ht
    rw [SinkThread.past_idle hpc, hret]
  · simp [SinkSetup.open, SharedSink.init, SinkPc.call, Function.comp_def]

namespace SinksKept
variable {workers k : ℕ} {setups : List (SinkSetup κ)} {sinks : List (SharedSink M κ)}
  {s u : SharedSink M κ}

theorem set (h : SinksKept ops env workers setups sinks) (hk : sinks[k]? = some s)
    (hu : ∀ f, SinkKept ops env workers f s → SinkKept ops env workers f u) :
    SinksKept ops env workers setups (sinks.set k u) := by
  refine ⟨List.length_set.trans h.length,fun k' v hv => ?_⟩
  rw [getElem?_set_of_some hk] at hv
  split_ifs at hv with hkk
  · cases hv
    subst hkk
    obtain ⟨f,hf,hkept⟩ := h.kept _ s hk
    exact ⟨f,hf,hu f hkept⟩
  · exact h.kept k' v hv

end SinksKept

end
end
end Astlog
