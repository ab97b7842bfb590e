import Astlog.ThreadPool.Queue

/-! Where the accepted messages are: logged, held by a worker, queued or evicted, each in
exactly one place. -/
namespace Astlog
open Foundation

variable {ν : Type}

/-- The message a worker has dequeued and not yet passed to its sink. -/
def WorkerPc.held : WorkerPc ν → List (Entry ν)
  | .leaving msg => msg.toList
  | .logging e => [e]
  | _ => []

/-- A worker past its `return`, or at it. -/
def WorkerPc.retiring : WorkerPc ν → Bool
  | .returning => true
  | .returned => true
  | _ => false

namespace ThreadPool
variable {s t : ThreadPool ν}

/-- The messages between dequeue and log. -/
def held (s : ThreadPool ν) : List (Entry ν) := s.mWorkList.flatMap WorkerPc.held

/-- A step as the messages see it: one is accepted, dequeued or logged, or none moves. -/
inductive Flow (s t : ThreadPool ν) : Prop
  | still (hbuf : t.mBuffer = s.mBuffer) (hheld : t.held = s.held) (hacc : t.accepted = s.accepted)
      (hev : t.evicted = s.evicted) (hlog : t.logged = s.logged)
  | push {j m ms} (hp : s.posters[j]? = some ⟨.locked,m::ms⟩)
      (ht : t = (s.pushMsg j m).setPoster j ⟨.unlocking true,ms⟩)
  | take {i e} (hi : s.mWorkList[i]? = some .proceeding) (hf : s.mBuffer.front = some e)
      (ht : t = { s with mBuffer := s.mBuffer.pop }.setWorker i (.leaving (some e)))
  | log {i e} (hi : s.mWorkList[i]? = some (.logging e))
      (ht : t = { s with logged := s.logged ++ [e] }.setWorker i .running)

lemma held_map_wake (ws : List (WorkerPc ν)) :
    (ws.map wake).flatMap WorkerPc.held = ws.flatMap WorkerPc.held := by
  rw [List.flatMap_map]
  congr 1
  funext pc
  cases pc <;> rfl

theorem flow_cases {a : PoolAction ν} (ha : PoolStep s a t) : Flow s t := by
  cases ha with
  | push hp => exact .push hp rfl
  | take hi hf => exact .take hi hf rfl
  | log hi => exact .log hi rfl
  | notifyAll => exact .still rfl (held_map_wake _) rfl rfl rfl
  | workerLock hi hpc =>
    exact .still rfl (flatMap_set_eq hi (by rcases hpc with rfl | rfl <;> rfl)) rfl rfl rfl
  | notifyWake _ hi => exact .still rfl (flatMap_set_eq hi rfl) rfl rfl rfl
  | testTrue hi => exact .still rfl (flatMap_set_eq hi rfl) rfl rfl rfl
  | testFalse hi => exact .still rfl (flatMap_set_eq hi rfl) rfl rfl rfl
  | park hi => exact .still rfl (flatMap_set_eq hi rfl) rfl rfl rfl
  | giveUp hi => exact .still rfl (flatMap_set_eq hi rfl) rfl rfl rfl
  | skip hi => exact .still rfl (flatMap_set_eq hi rfl) rfl rfl rfl
  | leaveEmpty hi => exact .still rfl (flatMap_set_eq hi rfl) rfl rfl rfl
  | leave hi => exact .still rfl (flatMap_set_eq hi rfl) rfl rfl rfl
  | ret hi => exact .still rfl (flatMap_set_eq hi rfl) rfl rfl rfl
  | spurious hi => exact .still rfl (flatMap_set_eq hi rfl) rfl rfl rfl
  | _ => exact .still rfl rfl rfl rfl rfl

/-- Every accepted message is in one of four places, and tickets are places in the order
of acceptance. -/
structure Account (s : ThreadPool ν) : Prop where
  queue : QueueInv s
  balance : (s.accepted : Multiset (Entry ν)) = s.logged + s.held + s.ring + s.evicted
  tickets : s.accepted.map Entry.ticket = List.range s.accepted.length

lemma balance_push (h : Account s) (j : ℕ) (m : AsyncMsg ν) (p : Poster ν) :
    (s.accepted ++ [s.entry j m] : Multiset (Entry ν)) = s.logged + s.held +
      ((s.pushMsg j m).setPoster j p).ring + (s.pushMsg j m).evicted := by
  have hr := congrArg (fun l : List (Entry ν) => (l : Multiset (Entry ν)))
    (DataBuf.droppedByPush_append 32 s.ring (s.entry j m))
  have hb := h.balance
  rw [ring_setPoster, h.queue.ring_pushMsg, h.queue.evicted_pushMsg]
  simp only [← Multiset.coe_add] at *
  grind

lemma balance_take (h : Account s) {i : ℕ} {e : Entry ν} (hi : s.mWorkList[i]? = some .proceeding)
    (hf : s.mBuffer.front = some e) : (s.accepted : Multiset (Entry ν)) = s.logged +
      (s.setWorker i (.leaving (some e))).held + s.mBuffer.pop.contents + s.evicted := by
  have hs := coe_flatMap_set hi WorkerPc.held (.leaving (some e))
  have hr := congrArg (fun l : List (Entry ν) => (l : Multiset (Entry ν))) (h.queue.ring_take hf)
  have hb := h.balance
  simp only [WorkerPc.held, Option.toList_some, Multiset.coe_nil, add_zero, held, setWorker,
    ← Multiset.cons_coe, ← Multiset.singleton_add] at *
  grind

lemma balance_log (h : Account s) {i : ℕ} {e : Entry ν} (hi : s.mWorkList[i]? = some (.logging e)) :
    (s.accepted : Multiset (Entry ν)) = (s.logged ++ [e] : List (Entry ν)) +
      (s.setWorker i .running).held + s.ring + s.evicted := by
  have hs := coe_flatMap_set hi WorkerPc.held .running
  have hb := h.balance
  simp only [WorkerPc.held, Multiset.coe_nil, add_zero, held, setWorker, ← Multiset.coe_add] at *
  grind

lemma account_step {a : PoolAction ν} (h : Account s) (ha : PoolStep s a t) : Account t := by
  have hq := queueInv_step h.queue ha
  cases flow_cases ha with
  | still hbuf hheld hacc hev hlog =>
    have hring : t.ring = s.ring := congrArg DataBuf.contents hbuf
    exact ⟨hq,by rw [hacc, hlog, hheld, hring, hev]; exact h.balance,by rw [hacc]; exact h.tickets⟩
  | @push j m ms hp ht =>
    subst ht
    refine ⟨hq,balance_push h j m _,?_⟩
    simp [entry, h.tickets, List.range_succ]
  | take hi hf ht =>
    subst ht
    exact ⟨hq,balance_take h hi hf,h.tickets⟩
  | log hi ht =>
    subst ht
    exact ⟨hq,balance_log h hi,h.tickets⟩

theorem held_init (num m : ℕ) : (init ν num m).held = [] := by
  simp [held, init, List.flatMap_replicate, WorkerPc.held]

lemma account_init (num m : ℕ) : Account (init ν num m) where
  queue := queueInv_init num m
  balance := by
    rw [held_init, ring_init]
    rfl
  tickets := rfl

theorem account_run {num m : ℕ} {as : List (PoolAction ν)}
    (h : run step (init ν num m) as = some s) : Account s :=
  invariant_of_steps (fun _ _ _ hs ha => account_step hs ha) h (account_init num m)

/-- A worker leaves its loop only from a stopped pool with nothing queued. -/
def Closed (s : ThreadPool ν) : Prop :=
  ∀ pc ∈ s.mWorkList, pc.retiring = true → s.mStop = true ∧ s.ring = []

theorem closed_step {a : PoolAction ν} (h : Closed s) (hq : QueueInv s) (ha : PoolStep s a t) :
    Closed t := by
  cases ha with
  | push hp hs =>
    intro pc hpc hr
    have := (h pc hpc hr).1
    simp_all
  | take hi hf =>
    refine forall_mem_set (fun pc hpc hr => ?_) nofun
    have hc := (h pc hpc hr).2
    rw [hq.ring_take hf] at hc
    cases hc
  | stop => exact fun pc hpc hr => ⟨rfl,(h pc hpc hr).2⟩
  | notifyAll =>
    intro pc hpc hr
    obtain ⟨q,hq,rfl⟩ := List.mem_map.mp hpc
    exact h q hq (by revert hr; cases q <;> simp [wake, WorkerPc.retiring])
  | giveUp hi hs he => exact forall_mem_set h fun _ => ⟨hs,hq.empty_iff.mp he⟩
  | ret hi => exact forall_mem_set h fun _ => h _ (List.mem_of_getElem? hi) rfl
  | workerLock => exact forall_mem_set h nofun
  | notifyWake => exact forall_mem_set h nofun
  | testTrue => exact forall_mem_set h nofun
  | testFalse => exact forall_mem_set h nofun
  | park => exact forall_mem_set h nofun
  | skip => exact forall_mem_set h nofun
  | leaveEmpty => exact forall_mem_set h nofun
  | leave => exact forall_mem_set h nofun
  | log => exact forall_mem_set h nofun
  | spurious => exact forall_mem_set h nofun
  | _ => exact h

theorem closed_init (num m : ℕ) : Closed (init ν num m) := by
  intro pc hpc hr
  rw [List.eq_of_mem_replicate hpc] at hr
  cases hr

theorem closed_run {num m : ℕ} {as : List (PoolAction ν)}
    (h : run step (init ν num m) as = some s) : Closed s := by
  have hI : QueueInv s ∧ Closed s :=
    invariant_of_steps (I := fun s => QueueInv s ∧ Closed s)
      (fun _ _ _ hs ha => ⟨queueInv_step hs.1 ha,closed_step hs.2 hs.1 ha⟩) h
      ⟨queueInv_init num m,closed_init num m⟩
  exact hI.2

/-- Only a push evicts, only when it finds 31 messages queued, and then the oldest. -/
lemma evicted_step {a : PoolAction ν} (hq : QueueInv s) (ha : PoolStep s a t) :
    t.evicted = s.evicted ∨ ∃ e, s.ring.length = 31 ∧ s.ring.head? = some e ∧
      t.evicted = s.evicted ++ [e] ∧ t.accepted.length = s.accepted.length+1 := by
  cases ha with
  | @push j m ms hp hs =>
    rw [setPoster_evicted, hq.evicted_pushMsg, DataBuf.droppedByPush]
    split_ifs with hl
    · right
      cases hr : s.ring with
      | nil => simp [hr] at hl
      | cons e es =>
        rw [hr] at hl
        exact ⟨e,by omega,rfl,by simp,by simp⟩
    · left
      simp
  | _ => exact .inl rfl

/-- What the pool's queue does with the messages it accepted. -/
structure Accounted (s : ThreadPool ν) : Prop where
  split : (s.accepted : Multiset (Entry ν)) = s.logged + s.held + s.ring + s.evicted
  distinct : s.accepted.Nodup
  loggedOnce : s.logged.Nodup
  evicts : ∀ a t, s.step a = some t → t.evicted = s.evicted ∨
    ∃ e, s.ring.length = 31 ∧ s.ring.head? = some e ∧ t.evicted = s.evicted ++ [e] ∧
      t.accepted.length = s.accepted.length+1
  drained : (∀ pc ∈ s.mWorkList, pc = .returned) → s.ring = [] ∧ s.held = [] ∧
    (s.accepted : Multiset (Entry ν)) = s.logged + s.evicted

theorem Account.accepted_nodup (h : Account s) : s.accepted.Nodup := by
  apply List.Nodup.of_map Entry.ticket
  rw [h.tickets]
  exact List.nodup_range

lemma held_of_returned (h : ∀ pc ∈ s.mWorkList, pc = .returned) : s.held = [] := by
  apply List.flatMap_eq_nil_iff.mpr
  intro pc hpc
  rw [h pc hpc]
  rfl

/-- Every pool that started with a worker still has one. -/
theorem mWorkList_step {a : PoolAction ν} (ha : PoolStep s a t) :
    t.mWorkList.length = s.mWorkList.length := by
  cases ha <;> simp

theorem mWorkList_run {num m : ℕ} {as : List (PoolAction ν)}
    (h : run step (init ν num m) as = some s) : s.mWorkList ≠ [] := by
  have hl : 0 < s.mWorkList.length := by
    refine invariant_of_steps (I := fun s => 0 < s.mWorkList.length) ?_ h ?_
    · intro s a t hs ha
      rwa [mWorkList_step ha]
    · simp only [init, List.length_replicate]
      split <;> omega
  exact List.ne_nil_of_length_pos hl

/-- The destructor ends with every worker joined. -/
lemma returned_step (h : s.dtor = .done → ∀ pc ∈ s.mWorkList, pc = .returned)
    {a : PoolAction ν} (ha : PoolStep s a t) : t.dtor = .done → ∀ pc ∈ t.mWorkList, pc = .returned := by
  have hset : ∀ {i : ℕ} {pc pc' : WorkerPc ν}, s.mWorkList[i]? = some pc → pc ≠ .returned →
      s.dtor = .done → ∀ q ∈ s.mWorkList.set i pc', q = .returned :=
    fun hi hne hd => absurd (h hd _ (List.mem_of_getElem? hi)) hne
  cases ha with
  | join _ hr => exact fun _ => hr
  | workerLock hi hpc => exact hset hi (by rcases hpc with rfl | rfl <;> nofun)
  | notifyWake _ hi => exact hset hi nofun
  | testTrue hi => exact hset hi nofun
  | testFalse hi => exact hset hi nofun
  | park hi => exact hset hi nofun
  | giveUp hi => exact hset hi nofun
  | skip hi => exact hset hi nofun
  | take hi => exact hset hi nofun
  | leaveEmpty hi => exact hset hi nofun
  | leave hi => exact hset hi nofun
  | log hi => exact hset hi nofun
  | ret hi => exact hset hi nofun
  | spurious hi => exact hset hi nofun
  | dtorLock => exact nofun
  | stop => exact nofun
  | dtorUnlock => exact nofun
  | notifyAll => exact nofun
  | _ => exact h

theorem returned_of_done {num m : ℕ} {as : List (PoolAction ν)}
    (h : run step (init ν num m) as = some s) (hd : s.dtor = .done) :
    ∀ pc ∈ s.mWorkList, pc = .returned :=
  invariant_of_steps (I := fun s => s.dtor = .done → ∀ pc ∈ s.mWorkList, pc = .returned)
    (fun _ _ _ hs ha => returned_step hs ha) h nofun hd

/-- When all workers have returned, nothing is left under way. -/
theorem drained_of_returned {num m : ℕ} {as : List (PoolAction ν)}
    (h : run step (init ν num m) as = some s) (hret : ∀ pc ∈ s.mWorkList, pc = .returned) :
    s.ring = [] ∧ s.held = [] ∧ (s.accepted : Multiset (Entry ν)) = s.logged + s.evicted := by
  obtain ⟨pc,hpc⟩ := List.exists_mem_of_ne_nil _ (mWorkList_run h)
  have hr : s.ring = [] := (closed_run h pc hpc (by rw [hret pc hpc]; rfl)).2
  have hh := held_of_returned hret
  refine ⟨hr,hh,?_⟩
  simpa [hr, hh] using (account_run h).balance

theorem accounted {num m : ℕ} {as : List (PoolAction ν)}
    (h : run step (init ν num m) as = some s) : Accounted s := by
  have hs := account_run h
  have hnd := hs.accepted_nodup
  refine ⟨hs.balance,hnd,?_,?_,drained_of_returned h⟩
  · have hle : (s.logged : Multiset (Entry ν)) ≤ s.accepted := by
      rw [hs.balance, add_assoc, add_assoc]
      exact Multiset.le_add_right _ _
    exact Multiset.coe_nodup.mp (Multiset.nodup_of_le hle (Multiset.coe_nodup.mpr hnd))
  · intro a t ha
    exact evicted_step hs.queue (step_cases ha)

/-- A whole `postmsg` of poster `j` while no worker is parked. -/
def postOne (ν : Type) (j : ℕ) : List (PoolAction ν) :=
  [.poster j,.poster j,.poster j,.notifyOne j none]

/-- A message for the sink `0`, logged by the logger `0`. -/
def hello : AsyncMsg ℕ :=
  ⟨{ mTimeStamp := 0, mLoggerName := 0, mThreadId := 1, mLoc := ⟨12,[],[]⟩ },0⟩

/-- One thread posts 32 messages before the workers start, so the last push evicts. -/
def overflow : List (PoolAction ℕ) :=
  .call 0 (List.replicate 32 hello)::(List.replicate 32 (postOne ℕ 0)).flatten

theorem accounted_overflow : ∃ s, run step (init ℕ 10 1) overflow = some s ∧
    s.evicted = [⟨0,0,hello⟩] ∧ Accounted s :=
  ⟨_,rfl,rfl,accounted (show run step (init ℕ 10 1) overflow = some _ from rfl)⟩

end ThreadPool
end Astlog
