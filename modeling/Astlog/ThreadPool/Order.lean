import Astlog.ThreadPool.Accounting
import Mathlib.Data.Multiset.UnionInter

/-! The order in which a sink receives the messages of one thread. One worker keeps it;
two workers may overtake each other between the dequeue and the call of the sink. -/
namespace Astlog
open Foundation

variable {ν : Type}

namespace ThreadPool
variable {s t : ThreadPool ν} {a : PoolAction ν}

/-- What one thread posted in order and the sink received, it received in order. -/
def OrderPreserved (ν : Type) (num : ℕ) : Prop :=
  ∀ (m : ℕ) (as : List (PoolAction ν)) (s : ThreadPool ν), run step (init ν num m) as = some s →
    ∀ a b : Entry ν, a.poster = b.poster → a.msg.mSinker = b.msg.mSinker →
      [a,b].Sublist s.accepted → a ∈ s.logged → b ∈ s.logged →
        [a,b].Sublist (s.logged.filter fun e => e.msg.mSinker = a.msg.mSinker)

/-- The messages not evicted, from the first one logged to the last one queued. -/
def line (s : ThreadPool ν) : List (Entry ν) := s.logged ++ s.held ++ s.ring

/-- A lone worker. -/
lemma eq_singleton {ws : List (WorkerPc ν)} (h : ws.length = 1) {i : ℕ} {pc : WorkerPc ν}
    (hi : ws[i]? = some pc) : ws = [pc] ∧ i = 0 := by
  obtain ⟨q,rfl⟩ := List.length_eq_one_iff.mp h
  cases i with
  | zero => exact ⟨by simpa using hi,rfl⟩
  | succ i => cases hi

/-- With one worker, a step either keeps the line or lets one new message join it at
the end, with the oldest queued message perhaps gone. -/
lemma line_step (hone : s.mWorkList.length = 1) (hq : QueueInv s) (ha : PoolStep s a t) :
    (t.line = s.line ∧ t.accepted = s.accepted) ∨
    ∃ e, e.ticket = s.accepted.length ∧ t.accepted = s.accepted ++ [e] ∧
      t.line.Sublist (s.line ++ [e]) := by
  cases flow_cases ha with
  | still hbuf hheld hacc _ hlog =>
    have hring : t.ring = s.ring := congrArg DataBuf.contents hbuf
    exact .inl ⟨by rw [line, hlog, hheld, hring, line],hacc⟩
  | @push j m ms hp ht =>
    subst ht
    refine .inr ⟨s.entry j m,rfl,rfl,?_⟩
    rw [line, ring_setPoster, hq.ring_pushMsg, line, List.append_assoc (s.logged ++ s.held)]
    exact (DataBuf.pushDropOldest_sublist 32 s.ring _).append_left _
  | take hi hf ht =>
    subst ht
    obtain ⟨hw,rfl⟩ := eq_singleton hone hi
    refine .inl ⟨?_,rfl⟩
    rw [line, line, hq.ring_take hf]
    simp [held, hw, ring, WorkerPc.held]
  | log hi ht =>
    subst ht
    obtain ⟨hw,rfl⟩ := eq_singleton hone hi
    refine .inl ⟨?_,rfl⟩
    simp [line, held, hw, ring, WorkerPc.held]

/-- The line of a lone worker is in the order of acceptance. -/
structure InOrder (s : ThreadPool ν) : Prop where
  one : s.mWorkList.length = 1
  queue : QueueInv s
  sorted : s.line.Pairwise fun a b => a.ticket < b.ticket
  fresh : ∀ e ∈ s.line, e.ticket < s.accepted.length

theorem inOrder_step (h : InOrder s) (ha : PoolStep s a t) : InOrder t := by
  have hone := (mWorkList_step ha).trans h.one
  have hq := queueInv_step h.queue ha
  rcases line_step h.one h.queue ha with ⟨hl,hacc⟩ | ⟨e,he,hacc,hl⟩
  · exact ⟨hone,hq,hl ▸ h.sorted,by rw [hl, hacc]; exact h.fresh⟩
  · refine ⟨hone,hq,List.Pairwise.sublist hl ?_,?_⟩
    · refine List.pairwise_append.mpr ⟨h.sorted,List.pairwise_singleton _ _,?_⟩
      intro x hx y hy
      rw [List.mem_singleton.mp hy, he]
      exact h.fresh x hx
    · intro x hx
      rw [hacc, List.length_append, List.length_singleton]
      rcases List.mem_append.mp (hl.subset hx) with hx | hx
      · have := h.fresh x hx
        omega
      · rw [List.mem_singleton.mp hx, he]
        exact Nat.lt_succ_self _

theorem inOrder_init {num : ℕ} (hnum : num ≤ 1) (m : ℕ) : InOrder (init ν num m) := by
  have hone : (init ν num m).mWorkList = [.running] := by
    interval_cases num <;> rfl
  have hline : (init ν num m).line = [] := by
    rw [line, ring_init, held, hone]
    rfl
  refine ⟨by rw [hone]; rfl,queueInv_init num m,?_,?_⟩
  · rw [hline]
    exact .nil
  · rw [hline]
    intro e he
    exact absurd he List.not_mem_nil

/-- Tickets are given out in the order of acceptance. -/
lemma Account.ticket_lt (h : Account s) {a b : Entry ν} (hab : [a,b].Sublist s.accepted) :
    a.ticket < b.ticket := by
  have hs : (s.accepted.map Entry.ticket).Pairwise (· < ·) := by
    rw [h.tickets]
    exact List.pairwise_lt_range
  exact List.pairwise_iff_forall_sublist.mp (List.pairwise_map.mp hs) hab

/-- With one worker, the messages logged are those accepted and not evicted, in order. -/
theorem InOrder.logged_eq [DecidableEq ν] (h : InOrder s) (hacc : Account s)
    (hsplit : (s.accepted : Multiset (Entry ν)) = s.logged + s.evicted) :
    s.logged = s.accepted.filter (· ∉ s.evicted) := by
  have hnodup : ((s.logged : Multiset (Entry ν)) + s.evicted).Nodup := by
    rw [← hsplit, Multiset.coe_nodup]
    exact hacc.accepted_nodup
  obtain ⟨-,-,hdisjoint⟩ := Multiset.nodup_add.mp hnodup
  rw [Multiset.coe_disjoint] at hdisjoint
  have hperm : (s.accepted.filter (· ∉ s.evicted)).Perm s.logged := by
    have hfilter := (Multiset.coe_eq_coe.mp hsplit).filter (· ∉ s.evicted)
    have hkept : s.logged.filter (· ∉ s.evicted) = s.logged :=
      List.filter_eq_self.mpr fun e he => by simpa using hdisjoint he
    have hgone : s.evicted.filter (· ∉ s.evicted) = [] :=
      List.filter_eq_nil_iff.mpr fun e he => by simpa using he
    rwa [List.filter_append, hkept, hgone, List.append_nil] at hfilter
  have hsorted : s.logged.Pairwise fun a b => a.ticket < b.ticket :=
    h.sorted.sublist (by rw [line, List.append_assoc]; exact List.sublist_append_left _ _)
  have htickets : s.accepted.Pairwise fun a b => a.ticket < b.ticket := by
    refine List.pairwise_map.mp ?_
    rw [hacc.tickets]
    exact List.pairwise_lt_range
  refine (hperm.eq_of_pairwise (fun a b _ _ hab hba => ?_) (htickets.filter _) hsorted).symm
  exact absurd hab (lt_asymm hba)

lemma orderPreserved_of_le_one {num : ℕ} (hnum : num ≤ 1) : OrderPreserved ν num := by
  intro m as s h a b _ hsink hab ha hb
  have hI : InOrder s := invariant_of_steps (fun _ _ _ hs ha => inOrder_step hs ha) h
    (inOrder_init hnum m)
  have hlogged : s.logged.Pairwise fun a b => a.ticket < b.ticket :=
    hI.sorted.sublist (by rw [line, List.append_assoc]; exact List.sublist_append_left _ _)
  refine pair_sublist_of_pairwise (fun x y hxy hyx => lt_asymm hxy hyx) (hlogged.filter _)
    ?_ ?_ ((account_run h).ticket_lt hab)
  · simpa using ha
  · simpa [hsink] using hb

/-- Both workers park, one thread posts twice and wakes one after the other, each
dequeues one message, and the second calls the sink before the first. -/
def overtaking (ν : Type) (msg : AsyncMsg ν) : List (PoolAction ν) :=
  [.worker 0,.worker 0,.worker 0,.worker 1,.worker 1,.worker 1,.call 0 [msg,msg],
    .poster 0,.poster 0,.poster 0,.notifyOne 0 (some 0),
    .poster 0,.poster 0,.poster 0,.notifyOne 0 (some 1),
    .worker 0,.worker 0,.worker 0,.worker 0,.worker 1,.worker 1,.worker 1,.worker 1,
    .worker 1,.worker 0]

lemma init_two (k : ℕ) : init ν (k+2) 1 =
    { mWorkList := .running::.running::List.replicate k .running, posters := [{}] } := rfl

lemma run_overtaking (k : ℕ) (msg : AsyncMsg ν) :
    ∃ s, run step (init ν (k+2) 1) (overtaking ν msg) = some s ∧
      s.accepted = [⟨0,0,msg⟩,⟨1,0,msg⟩] ∧ s.logged = [⟨1,0,msg⟩,⟨0,0,msg⟩] := by
  rw [init_two]
  simp [overtaking, run, step, workerStep, posterStep, notifyOneStep, wakeOne, lock, setWorker,
    setPoster, unlock, pushMsg, entry, DataBuf.empty, DataBuf.push, DataBuf.full, DataBuf.front,
    DataBuf.pop, DataBuf.dropHead]

lemma not_orderPreserved (k : ℕ) (msg : AsyncMsg ν) : ¬OrderPreserved ν (k+2) := by
  intro h
  obtain ⟨s,hs,hacc,hlog⟩ := run_overtaking k msg
  have hsub := h 1 _ s hs ⟨0,0,msg⟩ ⟨1,0,msg⟩ rfl rfl (by rw [hacc]) (by simp [hlog]) (by simp [hlog])
  have heq : ([⟨0,0,msg⟩,⟨1,0,msg⟩] : List (Entry ν)) = [⟨1,0,msg⟩,⟨0,0,msg⟩] := by
    refine List.Sublist.eq_of_length ?_ rfl
    simpa [hlog] using hsub
  simp at heq

/-- One worker keeps the order, and no larger number of workers does. -/
theorem orderPreserved_iff [Inhabited ν] (num : ℕ) : OrderPreserved ν num ↔ num ≤ 1 := by
  constructor
  · intro h
    by_contra hnum
    obtain ⟨k,rfl⟩ : ∃ k, num = k+2 := ⟨num-2,by omega⟩
    let loc : SourceLocation := ⟨1,[],[]⟩
    exact not_orderPreserved k ⟨{ mTimeStamp := 0, mLoggerName := default, mThreadId := 1, mLoc := loc },0⟩ h
  · exact orderPreserved_of_le_one

/-- The ten workers a pool has by default reorder one thread's messages. -/
theorem tenWorkers_overtake : ¬∀ num : ℕ, 1 ≤ num → OrderPreserved ℕ num := by
  intro h
  exact not_orderPreserved 8 hello (h 10 (by norm_num))

end ThreadPool
end Astlog
