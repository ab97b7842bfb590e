import Astlog.SpscRing.Queries

/-! The memory orders of the queue are the ones it needs. As they are written no two
accesses to a slot race; with a weaker order, or with a producer that peeks, two can. -/
namespace Astlog
open Foundation

variable {α : Type}

/-- What two threads may rely on whatever they read: no race, the values come out in the order
they went in, each object is where it is looked for, and the queue is never too full. -/
structure WeakSession.SynchronizedFifo (s : WeakSession α) : Prop where
  raceFree : s.raced = false
  popped_prefix : s.popped <+: s.pushed
  stored_le : s.pushed.length ≤ s.popped.length+(s.capacity_-1)
  constructs : ∀ v tail next, s.producer = .construct v tail next → s.storage_[tail]? = some none
  moves : ∀ head, s.consumer = .move head →
    ∃ v, s.storage_[head]? = some (some (.value v)) ∧ s.popped ++ [v] <+: s.pushed
  copies : ∀ head, s.query .consumer = .copy head →
    ∃ v, s.storage_[head]? = some (some (.value v)) ∧ s.popped ++ [v] <+: s.pushed
  destroys : ∀ head, s.consumer = .destroy head → s.storage_[head]? = some (some .movedFrom)

lemma SpscInv.prefix_of_cons {k : ℕ} {s : SpscSession α} {v : α} {q : List α}
    (h : SpscInv k s (v::q)) : s.popped ++ [v] <+: s.pushed :=
  ⟨q,by rw [h.pushed_eq, List.append_assoc, List.singleton_append]⟩

/-- Every run of a program in which only the consumer peeks, on a ring of any power of two. -/
theorem WeakSession.synchronizedFifo_run {k : ℕ} {as : List (WeakAction α)} {s : WeakSession α}
    (h : run sourceStep (WeakSession.init α k) as = some s) : s.SynchronizedFifo := by
  obtain ⟨q,hq⟩ := QueryInv.run h
  have hsession := hq.weak.session
  have hpushed : s.pushed = s.popped ++ q := hsession.pushed_eq
  refine ⟨hq.weak.raced_eq,⟨q,hpushed.symm⟩,?_,fun v tail next hp => hsession.constructs_raw hp,
    fun head hc => ?_,fun head hc => ?_,fun head hc => (hsession.destroys hc).1⟩
  · have hfree : s.toSession.used q+s.producer.back.length < 2^k := hsession.producing.room
    have hcapacity : s.capacity_ = 2^k := hsession.capacity_eq
    rw [hpushed, List.length_append, hcapacity]
    rw [SpscSession.used] at hfree
    omega
  · obtain ⟨v,q',rfl,hslot,-⟩ := hsession.moves hc
    exact ⟨v,hslot,hsession.prefix_of_cons⟩
  · have hfits := hq.fits .consumer
    rw [hc] at hfits
    obtain ⟨-,hhead,hlt⟩ := hfits
    have halone := hq.alone .consumer (by rw [hc]; rfl)
    obtain ⟨-,-,v,q',rfl,hslot⟩ := hq.weak.front_cell halone hhead hlt
    exact ⟨v,hslot,hsession.prefix_of_cons⟩

/-- Two slots: the second push reads a stale `head_` and is refused. -/
theorem WeakSession.synchronizedFifo_stale :
    ∃ s : WeakSession ℕ, run WeakSession.sourceStep (WeakSession.init ℕ 1)
      [.call (.tryPush 5),.produce 0,.produce 0,.produce 0,.produce 0,.callPop,.consume 0,.consume 1,
        .consume 0,.consume 0,.consume 0,.call (.tryPush 6),.produce 1,.produce 0] = some s ∧
      s.SynchronizedFifo := by
  obtain ⟨s,hs⟩ := Option.isSome_iff_exists.mp (show Option.isSome (run WeakSession.sourceStep
    (WeakSession.init ℕ 1) [.call (.tryPush 5),.produce 0,.produce 0,.produce 0,.produce 0,.callPop,
      .consume 0,.consume 1,.consume 0,.consume 0,.consume 0,.call (.tryPush 6),.produce 1,
      .produce 0]) = true by decide +kernel)
  exact ⟨s,hs,WeakSession.synchronizedFifo_run hs⟩

/-- The steps with the orders `o`, where the producer may peek or may not. -/
def WeakSession.stepWith (o : SpscOrders) (peeks : Bool) :
    WeakSession α → WeakAction α → Option (WeakSession α) :=
  restrict (fun _ a => peeks || !a.peeksAside) (WeakSession.step o)

/-- Two slots, both used once: the third push constructs in the slot of the first value. -/
def reuse : List (WeakAction ℕ) :=
  [.call (.tryPush 5),.produce 0,.produce 0,.produce 0,.produce 0,
    .callPop,.consume 0,.consume 1,.consume 0,.consume 0,.consume 0,
    .call (.tryPush 6),.produce 1,.produce 1,.produce 0,.produce 0,
    .callPop,.consume 1,.consume 2,.consume 0,.consume 0,.consume 0,
    .call (.tryPush 7),.produce 2,.produce 2,.produce 0]

/-- Two slots: the producer copies the value that the consumer moves out. -/
def peekAside : List (WeakAction ℕ) :=
  [.call (.tryPush 5),.produce 0,.produce 0,.produce 0,.produce 0,
    .ask .producer .peek,.observe .producer 0,.observe .producer 1,.observe .producer 0,
    .callPop,.consume 0,.consume 1,.consume 0]

lemma reuse_races (o : SpscOrders) (peeks : Bool) (ho : o ≠ .source) :
    (run (WeakSession.stepWith o peeks) (WeakSession.init ℕ 1) reuse).any (·.raced) = true := by
  obtain ⟨a,b,c,d⟩ := o
  cases a <;> cases b <;> cases c <;> cases d
  case true.true.true.true => exact absurd rfl ho
  all_goals cases peeks <;> decide +kernel

lemma peekAside_races :
    (run (WeakSession.stepWith .source true) (WeakSession.init ℕ 1) peekAside).any (·.raced) =
      true := by decide +kernel

/-- No run of any program races exactly when all four orders are as they are written and the
producer does not peek. -/
theorem SpscOrders.raceFree_iff (o : SpscOrders) (peeks : Bool) :
    (∀ (α : Type) (k : ℕ) (as : List (WeakAction α)) (s : WeakSession α),
      run (WeakSession.stepWith o peeks) (WeakSession.init α k) as = some s → s.raced = false) ↔
        o = .source ∧ peeks = false := by
  constructor
  · intro h
    have hnone : ∀ as, (run (WeakSession.stepWith o peeks) (WeakSession.init ℕ 1) as).any
        (·.raced) ≠ true := by
      intro as hrace
      rw [Option.any_eq_true] at hrace
      obtain ⟨s,hs,hraced⟩ := hrace
      rw [h ℕ 1 as s hs] at hraced
      cases hraced
    have ho : o = .source := by
      by_contra ho
      exact hnone reuse (reuse_races o peeks ho)
    subst ho
    cases peeks with
    | false => exact ⟨rfl,rfl⟩
    | true => exact absurd peekAside_races (hnone peekAside)
  · rintro ⟨rfl,rfl⟩ α k as s hs
    obtain ⟨q,hq⟩ := QueryInv.run (k := k) (s := s) hs
    exact hq.weak.raced_eq

end Astlog
