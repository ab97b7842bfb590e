import Astlog.ThreadPool.Accounting

/-! What is lost of a burst is its beginning: the messages accepted last are never evicted,
and only so many can be on their way at a time. -/
namespace Astlog
open Foundation

variable {ν : Type}

namespace ThreadPool
variable {s t : ThreadPool ν} {a : PoolAction ν}

/-- The queue is in the order of acceptance, and what was evicted is old. -/
structure RecentKept (s : ThreadPool ν) : Prop where
  queue : QueueInv s
  sorted : (s.ring.map Entry.ticket).Pairwise (· < ·)
  fresh : ∀ n ∈ s.ring.map Entry.ticket, n < s.accepted.length
  evicted : ∀ e ∈ s.evicted, e.ticket+32 ≤ s.accepted.length

/-- The tickets after a push, of which the oldest may be gone. -/
lemma tickets_pushMsg (hq : QueueInv s) (j : ℕ) (m : AsyncMsg ν) :
    ((s.pushMsg j m).ring.map Entry.ticket).Sublist
      (s.ring.map Entry.ticket ++ [s.accepted.length]) := by
  rw [hq.ring_pushMsg]
  simpa [entry] using (DataBuf.pushDropOldest_sublist 32 s.ring (s.entry j m)).map Entry.ticket

lemma recentKept_push (h : RecentKept s) (j : ℕ) (m : AsyncMsg ν) (p : Poster ν) :
    RecentKept ((s.pushMsg j m).setPoster j p) := by
  have hsub := tickets_pushMsg h.queue j m
  have hall : (s.ring.map Entry.ticket ++ [s.accepted.length]).Pairwise (· < ·) := by
    refine List.pairwise_append.mpr ⟨h.sorted,List.pairwise_singleton _ _,?_⟩
    intro x hx y hy
    rw [List.mem_singleton.mp hy]
    exact h.fresh x hx
  refine ⟨queueInv_of_holds (DataBuf.Holds.push h.queue (by norm_num) _),hall.sublist hsub,?_,?_⟩
  · intro n hn
    rw [setPoster_accepted, pushMsg_accepted, List.length_append, List.length_singleton]
    obtain hold | hnew := List.mem_append.mp (hsub.subset hn)
    · exact Nat.lt_succ_of_lt (h.fresh n hold)
    · rw [List.mem_singleton.mp hnew]
      exact Nat.lt_succ_self _
  · intro e he
    rw [setPoster_evicted, h.queue.evicted_pushMsg, DataBuf.droppedByPush] at he
    rw [setPoster_accepted, pushMsg_accepted, List.length_append, List.length_singleton]
    obtain hold | hnew := List.mem_append.mp he
    · exact Nat.le_succ_of_le (h.evicted e hold)
    · -- the evicted message is the first of 31, all older than the one pushed
      split_ifs at hnew with hfull
      · have hhead : (s.ring.map Entry.ticket).head? = some e.ticket := by
          rw [List.head?_map]
          cases hr : s.ring with
          | nil => simp [hr] at hnew
          | cons x xs =>
            rw [hr] at hnew
            have hx : e = x := by simpa using hnew
            rw [hx]
            rfl
        have hle := head_add_length_le h.sorted h.fresh hhead
        rw [List.length_map] at hle
        omega
      · cases hnew

lemma recentKept_step (h : RecentKept s) (ha : PoolStep s a t) : RecentKept t := by
  have hq := queueInv_step h.queue ha
  cases flow_cases ha with
  | still hbuf hheld hacc hev hlog =>
    have hring : t.ring = s.ring := congrArg DataBuf.contents hbuf
    exact ⟨hq,by rw [hring]; exact h.sorted,by rw [hring, hacc]; exact h.fresh,
      by rw [hev, hacc]; exact h.evicted⟩
  | push hp ht =>
    subst ht
    exact recentKept_push h _ _ _
  | @take i e hi hf ht =>
    subst ht
    have hring := h.queue.ring_take hf
    have hsorted := h.sorted
    have hfresh := h.fresh
    rw [hring, List.map_cons] at hsorted hfresh
    exact ⟨hq,(List.pairwise_cons.mp hsorted).2,
      fun n hn => hfresh n (List.mem_cons_of_mem _ hn),h.evicted⟩
  | log hi ht =>
    subst ht
    exact ⟨hq,h.sorted,h.fresh,h.evicted⟩

lemma recentKept_run {num m : ℕ} {as : List (PoolAction ν)}
    (h : run step (init ν num m) as = some s) : RecentKept s := by
  refine invariant_of_steps (fun _ _ _ hs ha => recentKept_step hs ha) h ⟨queueInv_init num m,?_,?_,nofun⟩
  · rw [ring_init]
    exact .nil
  · rw [ring_init]
    nofun

lemma held_length_le (s : ThreadPool ν) : s.held.length ≤ s.mWorkList.length := by
  have hone : ∀ pc : WorkerPc ν, pc.held.length ≤ 1 := by
    intro pc
    cases pc with
    | leaving msg => cases msg <;> simp [WorkerPc.held]
    | _ => simp [WorkerPc.held]
  rw [held]
  induction s.mWorkList with
  | nil => simp
  | cons pc ws ih =>
    have hpc := hone pc
    rw [List.flatMap_cons, List.length_append, List.length_cons]
    omega

/-- How much can be lost. At any moment at most 31 messages and one for each worker are
neither logged nor evicted; only messages followed by 31 others are evicted; and once the
workers have returned, the 31 messages accepted last have all been logged. -/
structure Backlog (s : ThreadPool ν) : Prop where
  underway : s.accepted.length ≤
    s.logged.length+s.evicted.length+s.mWorkList.length+31
  evicted : ∀ e ∈ s.evicted, e.ticket+32 ≤ s.accepted.length
  recent : (∀ pc ∈ s.mWorkList, pc = .returned) →
    ∀ e ∈ s.accepted, s.accepted.length ≤ e.ticket+31 → e ∈ s.logged

theorem backlog_run {num m : ℕ} {as : List (PoolAction ν)}
    (h : run step (init ν num m) as = some s) : Backlog s := by
  have hacc := account_run h
  have hrecent := recentKept_run h
  refine ⟨?_,hrecent.evicted,fun hret e he hlast => ?_⟩
  · have hcard := congrArg Multiset.card hacc.balance
    simp only [Multiset.card_add, Multiset.coe_card] at hcard
    have hheld := held_length_le s
    have hring := hacc.queue.fits
    change s.ring.length < 32 at hring
    omega
  · have hsplit := (drained_of_returned h hret).2.2
    have hmem : e ∈ (s.logged + s.evicted : Multiset (Entry ν)) := hsplit ▸ Multiset.mem_coe.mpr he
    obtain hlog | hev := Multiset.mem_add.mp hmem
    · exact Multiset.mem_coe.mp hlog
    · have hold := hrecent.evicted e (Multiset.mem_coe.mp hev)
      omega

/-- After 32 messages posted before a worker looks, the first is gone and 31 are queued. -/
theorem backlog_overflow : ∃ s, run step (init ℕ 10 1) overflow = some s ∧
    s.evicted.map Entry.ticket = [0] ∧ Backlog s :=
  ⟨_,rfl,rfl,backlog_run (show run step (init ℕ 10 1) overflow = some _ from rfl)⟩

end ThreadPool
end Astlog
