import Astlog.SpscRing.Queries

/-! The queue under release and acquire does all that it does when each load returns the
newest value. What it does besides is to refuse: both threads can be refused when there is a
value and room for one. -/
namespace Astlog
open Foundation

variable {α : Type}

namespace WeakInv
variable {k : ℕ} {w : WeakSession α} {q : List α} {t : SpscSession α}

/-- A step of a push between the newest values of the indices. -/
lemma exists_produce (h : WeakInv k w q) (hs : w.toSession.produce = some t) :
    ∃ n w', w.produce .source n = some w' ∧ w'.toSession = t := by
  rw [SpscSession.produce] at hs
  cases hp : w.producer with
  | idle ret => simp only [WeakSession.toSession, hp, reduceCtorEq] at hs
  | loadTail v =>
    simp only [WeakSession.toSession, hp, Option.some.injEq] at hs
    subst hs
    obtain ⟨n,u,hl⟩ := RaMemory.load_latest (h.sound.knows .producer .tail).lt false
    refine ⟨n,?_⟩
    simp only [WeakSession.produce, hp, hl, Option.map_some]
    exact ⟨_,rfl,rfl⟩
  | loadHead v tail next =>
    simp only [WeakSession.toSession, hp] at hs
    obtain ⟨n,u,hl⟩ := RaMemory.load_latest (h.sound.knows .producer .head).lt true
    refine ⟨n,?_⟩
    simp only [WeakSession.produce, hp, SpscOrders.source, hl, Option.map_some]
    refine ⟨_,rfl,?_⟩
    split_ifs at hs ⊢ with hfull
    · exact Option.some.inj hs
    · exact Option.some.inj hs
  | construct v tail next =>
    simp only [WeakSession.toSession, hp, Option.some.injEq] at hs
    subst hs
    refine ⟨0,?_⟩
    simp only [WeakSession.produce, hp]
    exact ⟨_,rfl,rfl⟩
  | storeTail v next =>
    simp only [WeakSession.toSession, hp, Option.some.injEq] at hs
    subst hs
    refine ⟨0,?_⟩
    simp only [WeakSession.produce, hp]
    exact ⟨_,rfl,by simp [WeakSession.toSession]⟩

lemma exists_consume (h : WeakInv k w q) (hs : w.toSession.consume = some t) :
    ∃ n w', w.consume .source n = some w' ∧ w'.toSession = t := by
  rw [SpscSession.consume] at hs
  cases hc : w.consumer with
  | idle ret => simp only [WeakSession.toSession, hc, reduceCtorEq] at hs
  | loadHead =>
    simp only [WeakSession.toSession, hc, Option.some.injEq] at hs
    subst hs
    obtain ⟨n,u,hl⟩ := RaMemory.load_latest (h.sound.knows .consumer .head).lt false
    refine ⟨n,?_⟩
    simp only [WeakSession.consume, hc, hl, Option.map_some]
    exact ⟨_,rfl,rfl⟩
  | loadTail head =>
    simp only [WeakSession.toSession, hc] at hs
    obtain ⟨n,u,hl⟩ := RaMemory.load_latest (h.sound.knows .consumer .tail).lt true
    refine ⟨n,?_⟩
    simp only [WeakSession.consume, hc, SpscOrders.source, hl, Option.map_some]
    refine ⟨_,rfl,?_⟩
    split_ifs at hs ⊢ with hempty
    · exact Option.some.inj hs
    · exact Option.some.inj hs
  | move head =>
    obtain ⟨v,q',-,hslot,-⟩ := h.session.moves hc
    have hslot' : w.storage_[head]? = some (some (.value v)) := hslot
    simp only [WeakSession.toSession, hc, hslot', Option.some.injEq] at hs
    subst hs
    refine ⟨0,?_⟩
    simp only [WeakSession.consume, hc, hslot']
    exact ⟨_,rfl,rfl⟩
  | destroy head =>
    simp only [WeakSession.toSession, hc, Option.some.injEq] at hs
    subst hs
    refine ⟨0,?_⟩
    simp only [WeakSession.consume, hc]
    exact ⟨_,rfl,rfl⟩
  | storeHead next =>
    simp only [WeakSession.toSession, hc, Option.some.injEq] at hs
    subst hs
    refine ⟨0,?_⟩
    simp only [WeakSession.consume, hc]
    exact ⟨_,rfl,by simp [WeakSession.toSession]⟩

/-- A step of a push that is no refusal does what it does between the newest values. -/
lemma toSession_produce {w' : WeakSession α} (h : WeakInv k w q) {n : ℕ}
    (hs : w.produce .source n = some w') (hok : ¬ w'.refused .producer) :
    w.toSession.produce = some w'.toSession := by
  have hfits := h.session.producing.fits
  rw [SpscSession.produce]
  rw [WeakSession.produce] at hs
  cases hp : w.producer with
  | idle ret => simp only [hp, reduceCtorEq] at hs
  | loadTail v =>
    simp only [hp, Option.map_eq_some_iff] at hs
    obtain ⟨⟨tail,mem⟩,hl,rfl⟩ := hs
    obtain ⟨rfl,-,rfl⟩ := h.sound.load_own (t := .producer) rfl hl
    simp only [WeakSession.toSession, hp]
  | loadHead v tail next =>
    rw [show w.toSession.producer = _ from hp] at hfits
    obtain ⟨rfl,rfl⟩ := hfits
    simp only [hp, Option.map_eq_some_iff] at hs
    obtain ⟨⟨head,mem⟩,hl,rfl⟩ := hs
    have hnext := h.loadHead hp hl
    obtain ⟨-,-,-,-,u,rfl,-⟩ := h.acquires hl
    -- what the value that was read leaves room for, the newest one does too
    split_ifs at hok hnext ⊢ with hfull
    · exact absurd rfl hok
    have hroom := hnext.session.producing.fits.2.2
    have hnewest : (w.toSession.tail_+1) % 2^k ≠ w.toSession.head_ := fun heq => by
      have hused := h.session.full_iff.mp heq
      change w.toSession.used q+1 < 2^k at hroom
      omega
    simp only [show w.toSession.producer = _ from hp]
    rw [if_neg hnewest]
    rfl
  | construct v tail next =>
    simp only [hp, Option.some.injEq] at hs
    subst hs
    simp only [WeakSession.toSession, hp]
    rfl
  | storeTail v next =>
    simp only [hp, Option.some.injEq] at hs
    subst hs
    simp [WeakSession.toSession, hp]

lemma toSession_consume {w' : WeakSession α} (h : WeakInv k w q) {n : ℕ}
    (hs : w.consume .source n = some w') (hok : ¬ w'.refused .consumer) :
    w.toSession.consume = some w'.toSession := by
  have hfits := h.session.consumer_fits
  rw [SpscSession.consume]
  rw [WeakSession.consume] at hs
  cases hc : w.consumer with
  | idle ret => simp only [hc, reduceCtorEq] at hs
  | loadHead =>
    simp only [hc, Option.map_eq_some_iff] at hs
    obtain ⟨⟨head,mem⟩,hl,rfl⟩ := hs
    obtain ⟨rfl,-,rfl⟩ := h.sound.load_own (t := .consumer) rfl hl
    simp only [WeakSession.toSession, hc]
  | loadTail head =>
    rw [show w.toSession.consumer = _ from hc] at hfits
    obtain rfl : head = w.mem.latest .head := hfits
    simp only [hc, Option.map_eq_some_iff] at hs
    obtain ⟨⟨tail,mem⟩,hl,rfl⟩ := hs
    have hnext := h.loadTail hc hl
    obtain ⟨-,-,-,-,u,rfl,-⟩ := h.acquires hl
    split_ifs at hok hnext ⊢ with hempty
    · exact absurd rfl hok
    have hq := hnext.session.consumer_fits.2
    have hnewest : w.toSession.head_ ≠ w.toSession.tail_ := fun heq => by
      have hused := h.session.empty_iff.mp heq
      rw [SpscSession.used] at hused
      exact hq (List.eq_nil_of_length_eq_zero (by omega))
    simp only [show w.toSession.consumer = _ from hc]
    exact if_neg hnewest
  | move head =>
    obtain ⟨v,q',hslot,-⟩ := h.moves hc
    simp only [hc, hslot, Option.some.injEq] at hs
    subst hs
    simp only [WeakSession.toSession, hc, hslot]
    rfl
  | destroy head =>
    simp only [hc, Option.some.injEq] at hs
    subst hs
    simp only [WeakSession.toSession, hc]
    rfl
  | storeHead next =>
    simp only [hc, Option.some.injEq] at hs
    subst hs
    simp [WeakSession.toSession, hc]

end WeakInv

/-- A step of a query. -/
def WeakAction.queries : WeakAction α → Bool
  | .ask _ _ => true
  | .observe _ _ => true
  | _ => false

/-- A query leaves everything but its own thread's view and answer. -/
lemma WeakSession.toSession_observe {w w' : WeakSession α} {u : SpscThread} {n : ℕ}
    (hs : w.observe u n = some w') : w'.toSession = w.toSession := by
  unfold WeakSession.observe at hs
  split at hs
  · cases hs
  · obtain ⟨⟨head,mem⟩,hl,rfl⟩ := Option.map_eq_some_iff.mp hs
    obtain ⟨-,u,-,-,rfl⟩ := RaMemory.load_eq_some.mp hl
    rfl
  · obtain ⟨⟨tail,mem⟩,hl,rfl⟩ := Option.map_eq_some_iff.mp hs
    obtain ⟨-,u,-,-,rfl⟩ := RaMemory.load_eq_some.mp hl
    rfl
  · split at hs
    · cases hs
      rfl
    · cases hs

/-- What a step is between the newest values: a query's is none, one of a push or a pop is a step or
a refusal. -/
lemma WeakInv.toSession_step {k : ℕ} {w w' : WeakSession α} {q : List α} (h : WeakInv k w q)
    {a : WeakAction α} (hs : w.step .source a = some w') :
    a.queries = true ∧ w'.toSession = w.toSession ∨
      (∃ b, w.toSession.step b = some w'.toSession) ∨ ∃ u n, a = u.turn n ∧ w'.refused u := by
  cases a with
  | call c =>
    rw [WeakSession.step] at hs
    split_ifs at hs with hcall
    obtain ⟨hcalling,-⟩ := WeakSession.inCall_eq_false.mp (Bool.not_eq_true _ ▸ hcall)
    obtain ⟨ret,hp⟩ := ProducerPc.inCall_eq_false.mp hcalling
    cases hs
    exact .inr (.inl ⟨.call c,by rw [SpscSession.step, show w.toSession.producer = _ from hp]; rfl⟩)
  | callPop =>
    rw [WeakSession.step] at hs
    split_ifs at hs with hcall
    obtain ⟨hcalling,-⟩ := WeakSession.inCall_eq_false.mp (Bool.not_eq_true _ ▸ hcall)
    obtain ⟨ret,hc⟩ := ConsumerPc.inCall_eq_false.mp hcalling
    cases hs
    exact .inr (.inl ⟨.callPop,by rw [SpscSession.step, show w.toSession.consumer = _ from hc]; rfl⟩)
  | ask u c =>
    rw [WeakSession.step] at hs
    split_ifs at hs with hcall
    cases hs
    exact .inl ⟨rfl,rfl⟩
  | produce n =>
    by_cases hok : w'.refused .producer
    · exact .inr (.inr ⟨.producer,n,rfl,hok⟩)
    · exact .inr (.inl ⟨.produce,h.toSession_produce hs hok⟩)
  | consume n =>
    by_cases hok : w'.refused .consumer
    · exact .inr (.inr ⟨.consumer,n,rfl,hok⟩)
    · exact .inr (.inl ⟨.consume,h.toSession_consume hs hok⟩)
  | observe u n => exact .inl ⟨rfl,WeakSession.toSession_observe hs⟩

/-- A weak state between calls and queries that shows the session `s`. -/
def WeakSession.Shows (k : ℕ) (s : SpscSession α) (w : WeakSession α) : Prop :=
  w.toSession = s ∧ (∀ u, (w.query u).inCall = false) ∧ ∃ q, QueryInv k w q

/-- What two threads can do when each load returns the newest value, they can do. -/
theorem WeakSession.shows_run {k : ℕ} {as : List (SpscAction α)} {s : SpscSession α}
    (h : run SpscSession.step (SpscSession.init α k) as = some s) :
    ∃ bs w, run WeakSession.sourceStep (WeakSession.init α k) bs = some w ∧
      WeakSession.Shows k s w := by
  refine run_simulation (R := WeakSession.Shows k) ?_ h ⟨rfl,fun _ => rfl,[],QueryInv.init k⟩
  rintro s a t w ⟨rfl,hidle,q,hq⟩ hs
  cases a with
  | call c =>
    rw [SpscSession.step] at hs
    split at hs
    · next ret hp =>
      cases hs
      have hstep : w.sourceStep (.call c) = some { w with producer := .loadTail c.value } := by
        have hcall : w.inCall .producer = false :=
          WeakSession.inCall_eq_false.mpr ⟨ProducerPc.inCall_eq_false.mpr ⟨ret,hp⟩,hidle .producer⟩
        exact restrict_eq_some.mpr ⟨rfl,by rw [WeakSession.step, hcall]; rfl⟩
      exact ⟨[.call c],_,run_cons_eq_some.mpr ⟨_,hstep,rfl⟩,rfl,hidle,(hq.step hstep).1⟩
    · cases hs
  | callPop =>
    rw [SpscSession.step] at hs
    split at hs
    · next ret hc =>
      cases hs
      have hstep : w.sourceStep .callPop = some { w with consumer := .loadHead } := by
        have hcall : w.inCall .consumer = false :=
          WeakSession.inCall_eq_false.mpr ⟨ConsumerPc.inCall_eq_false.mpr ⟨ret,hc⟩,hidle .consumer⟩
        exact restrict_eq_some.mpr ⟨rfl,by rw [WeakSession.step, hcall]; rfl⟩
      exact ⟨[.callPop],_,run_cons_eq_some.mpr ⟨_,hstep,rfl⟩,rfl,hidle,(hq.step hstep).1⟩
    · cases hs
  | produce =>
    obtain ⟨n,w',hw,rfl⟩ := hq.weak.exists_produce hs
    have hstep : w.sourceStep (.produce n) = some w' := restrict_eq_some.mpr ⟨rfl,hw⟩
    have hquery := (hq.weak.produce_callStep hw).query_eq
    exact ⟨[.produce n],w',run_cons_eq_some.mpr ⟨w',hstep,rfl⟩,rfl,fun u => by rw [hquery, hidle u],
      (hq.step hstep).1⟩
  | consume =>
    obtain ⟨n,w',hw,rfl⟩ := hq.weak.exists_consume hs
    have hstep : w.sourceStep (.consume n) = some w' := restrict_eq_some.mpr ⟨rfl,hw⟩
    have hquery := (hq.weak.consume_callStep hw).query_eq
    exact ⟨[.consume n],w',run_cons_eq_some.mpr ⟨w',hstep,rfl⟩,rfl,fun u => by rw [hquery, hidle u],
      (hq.step hstep).1⟩

/-- Two slots: a value on its way out. -/
theorem WeakSession.shows_pushAndPop :
    ∃ bs w, run WeakSession.sourceStep (WeakSession.init ℕ 1) bs = some w ∧
      WeakSession.Shows 1
        { storage_ := [some .movedFrom,none]
          capacity_ := 2
          mask_ := 1
          head_ := 0
          tail_ := 1
          producer := .idle (some true)
          consumer := .destroy 0
          pushed := [5]
          popped := [5] } w :=
  WeakSession.shows_run (k := 1) (s := _)
    (show run SpscSession.step (SpscSession.init ℕ 1)
      [.call (.tryPush 5),.produce,.produce,.produce,.produce,.callPop,.consume,.consume,
        .consume] = some _ by decide +kernel)

/-- Where each load returns the newest value, the last of two threads to be refused has seen the
queue as it is. -/
lemma SpscInv.refused_step {k : ℕ} {s t : SpscSession α} {q : List α} {a : SpscAction α}
    (h : SpscInv k s q) (hs : s.step a = some t) (hp : t.producer = .idle (some false))
    (hc : t.consumer = .idle (some false)) :
    t.pushed.length = t.popped.length ∨ t.pushed.length+1 = t.popped.length+2^k := by
  have hpushed := congrArg List.length h.pushed_eq
  rw [List.length_append] at hpushed
  cases a with
  | call c =>
    rw [SpscSession.step] at hs
    split at hs <;> cases hs
    cases hp
  | callPop =>
    rw [SpscSession.step] at hs
    split at hs <;> cases hs
    cases hc
  | produce =>
    have hfits := h.producing.fits
    simp only [SpscSession.step, SpscSession.produce] at hs
    split at hs
    · cases hs
    · cases hs
      cases hp
    · next v tail next hpc =>
      rw [hpc] at hfits
      obtain ⟨rfl,rfl⟩ := hfits
      split_ifs at hs with hfull <;> cases hs
      · have hused := h.full_iff.mp hfull
        simp only [SpscSession.used, show s.consumer = _ from hc, ConsumerPc.cleared,
          ConsumerPc.front, List.length_nil] at hused
        right
        change s.pushed.length+1 = s.popped.length+2^k
        omega
      · cases hp
    · cases hs
      cases hp
    · cases hs
      cases hp
  | consume =>
    have hfits := h.consumer_fits
    simp only [SpscSession.step, SpscSession.consume] at hs
    split at hs
    · cases hs
    · cases hs
      cases hc
    · next head hpc =>
      rw [hpc] at hfits
      obtain rfl : head = s.head_ := hfits
      split_ifs at hs with hempty <;> cases hs
      · have hused := h.empty_iff.mp hempty
        rw [SpscSession.used] at hused
        left
        change s.pushed.length = s.popped.length
        omega
      · cases hc
    · split at hs <;> cases hs
      cases hc
    · cases hs
      cases hc
    · cases hs
      cases hc

/-- Four slots: the fourth push and the third pop are both refused. -/
def bothRefused : List (WeakAction ℕ) :=
  [.call (.tryPush 5),.produce 0,.produce 0,.produce 0,.produce 0,
    .call (.tryPush 6),.produce 1,.produce 0,.produce 0,.produce 0,
    .call (.tryPush 7),.produce 2,.produce 0,.produce 0,.produce 0,
    .callPop,.consume 0,.consume 1,.consume 0,.consume 0,.consume 0,
    .callPop,.consume 1,.consume 2,.consume 0,.consume 0,.consume 0,
    .call (.tryPush 8),.produce 3,.produce 0,.callPop,.consume 2,.consume 2]

/-- A step under release and acquire that is no refusal is a step between the newest values, or
one of a query. Between the newest values both threads have been refused only when the queue is
empty or full; under release and acquire it can be neither. -/
theorem refusals_only :
    (∀ (α : Type) (k : ℕ) (as : List (WeakAction α)) (a : WeakAction α) (w w' : WeakSession α),
      run WeakSession.sourceStep (WeakSession.init α k) as = some w → w.sourceStep a = some w' →
        a.queries = true ∧ w'.toSession = w.toSession ∨
          (∃ b, w.toSession.step b = some w'.toSession) ∨ ∃ u n, a = u.turn n ∧ w'.refused u) ∧
    (∀ (α : Type) (k : ℕ) (as : List (SpscAction α)) (s : SpscSession α),
      run SpscSession.step (SpscSession.init α k) as = some s →
        s.producer = .idle (some false) → s.consumer = .idle (some false) →
          s.pushed.length = s.popped.length ∨ s.pushed.length = s.popped.length+s.capacity) ∧
    ∃ (as : List (WeakAction ℕ)) (w : WeakSession ℕ),
      run WeakSession.sourceStep (WeakSession.init ℕ 2) as = some w ∧
        w.producer = .idle (some false) ∧ w.consumer = .idle (some false) ∧
          w.popped.length < w.pushed.length ∧ w.pushed.length < w.popped.length+(w.capacity_-1) := by
  refine ⟨?_,?_,?_⟩
  · intro α k as a w w' h hs
    obtain ⟨q,hq⟩ := QueryInv.run h
    exact hq.weak.toSession_step (restrict_eq_some.mp hs).2
  · intro α k as s h hp hc
    obtain ⟨q,hq⟩ := SpscInv.run h
    obtain rfl | ⟨bs,a,rfl⟩ := List.eq_nil_or_concat as
    · cases h
      cases hp
    · obtain ⟨u,hu,ha⟩ := run_append_eq_some.mp (List.concat_eq_append ▸ h)
      obtain ⟨t,ht,hnil⟩ := run_cons_eq_some.mp ha
      cases hnil
      obtain ⟨q',hq'⟩ := SpscInv.run hu
      refine (hq'.refused_step ht hp hc).imp_right fun hfull => ?_
      have hpos := Nat.two_pow_pos k
      rw [SPSCQueue.capacity, hq.capacity_eq]
      omega
  · have hrun : (run WeakSession.sourceStep (WeakSession.init ℕ 2) bothRefused).any (fun w =>
        decide (w.producer = .idle (some false) ∧ w.consumer = .idle (some false) ∧
          w.popped.length < w.pushed.length ∧
            w.pushed.length < w.popped.length+(w.capacity_-1))) = true := by decide +kernel
    obtain ⟨w,hw,hrefused⟩ := (Option.any_eq_true _ _).mp hrun
    exact ⟨bothRefused,w,hw,of_decide_eq_true hrefused⟩

end Astlog
