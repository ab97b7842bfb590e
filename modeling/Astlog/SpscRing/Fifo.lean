import Astlog.SpscRing.Machine

/-! The queue is first in, first out, whichever way its two threads interleave. The proof
counts the slots the producer cannot have yet: that of the object being popped among them,
until the new `head_` is stored. -/
namespace Astlog
open Foundation

variable {α : Type}

/-- The object that the consumer has moved out of and not yet destroyed. -/
@[simp] def ConsumerPc.front (α : Type) : ConsumerPc → List (SlotObject α)
  | .destroy _ => [.movedFrom]
  | _ => []

/-- The slots that the consumer has cleared and not yet given back. -/
@[simp] def ConsumerPc.cleared : ConsumerPc → ℕ
  | .storeHead _ => 1
  | _ => 0

/-- The object that the producer has constructed and not yet published. -/
@[simp] def ProducerPc.back : ProducerPc α → List (SlotObject α)
  | .storeTail v _ => [.value v]
  | _ => []

/-- The locals of the producer agree with the queue, where `used` slots are not free. -/
def ProducerPc.Fits (N tail_ used : ℕ) : ProducerPc α → Prop
  | .idle _ => True
  | .loadTail _ => True
  | .loadHead _ tail next => tail = tail_ ∧ next = (tail_+1) % N
  | .construct _ tail next => tail = tail_ ∧ next = (tail_+1) % N ∧ used+1 < N
  | .storeTail _ next => next = (tail_+1) % N

/-- The locals of the consumer agree with the queue, where `q` waits to be popped. -/
def ConsumerPc.Fits (N head_ : ℕ) (q : List α) : ConsumerPc → Prop
  | .idle _ => True
  | .loadHead => True
  | .loadTail head => head = head_
  | .move head => head = head_ ∧ q ≠ []
  | .destroy head => head = head_
  | .storeHead next => next = (head_+1) % N

/-- The producer, with what `tail_` and its locals say of the slots it has used. -/
structure ProducerSide (N head_ tail_ used : ℕ) (pc : ProducerPc α) : Prop where
  tail_eq : tail_ = (head_+used) % N
  room : used+pc.back.length < N
  fits : pc.Fits N tail_ used

lemma ProducerPc.Fits.mono {N tail_ m n : ℕ} {pc : ProducerPc α} (h : pc.Fits N tail_ n)
    (hmn : m ≤ n) : pc.Fits N tail_ m := by
  cases pc with
  | idle | loadTail | loadHead | storeTail => exact h
  | construct v tail next =>
    obtain ⟨ht,hn,hroom⟩ := h
    exact ⟨ht,hn,by omega⟩

/-- A slot is given back. -/
lemma ProducerSide.free {N head_ tail_ used : ℕ} {pc : ProducerPc α}
    (h : ProducerSide N head_ tail_ (used+1) pc) : ProducerSide N ((head_+1) % N) tail_ used pc where
  tail_eq := by
    rw [ring_index_advance]
    exact h.tail_eq
  room := by
    have hroom := h.room
    omega
  fits := h.fits.mono (Nat.le_succ used)

lemma ConsumerPc.Fits.append {N head_ : ℕ} {q : List α} {pc : ConsumerPc}
    (h : pc.Fits N head_ q) (v : α) : pc.Fits N head_ (q ++ [v]) := by
  cases pc with
  | idle | loadHead | loadTail | destroy | storeHead => exact h
  | move head => exact ⟨h.1,by simp⟩

/-- Masking wraps an index. -/
theorem next_eq {k i mask : ℕ} (h : mask = 2^k-1) : (i+1) &&& mask = (i+1) % 2^k := by
  rw [h, Nat.and_two_pow_sub_one_eq_mod]

namespace SpscSession

/-- The objects in the slots, oldest first, where `q` is published and not yet moved. -/
def objects (s : SpscSession α) (q : List α) : List (SlotObject α) :=
  s.consumer.front α ++ q.map .value ++ s.producer.back

/-- How many slots, from `head_` on, the producer has published and not been given back. -/
def used (s : SpscSession α) (q : List α) : ℕ :=
  s.consumer.cleared+(s.consumer.front α).length+q.length

end SpscSession

/-- A queue of `2^k` slots between its threads, where `q` waits to be popped. -/
structure SpscInv (k : ℕ) (s : SpscSession α) (q : List α) : Prop where
  capacity_eq : s.capacity_ = 2^k
  mask_eq : s.mask_ = 2^k-1
  pushed_eq : s.pushed = s.popped ++ q
  holds : RingHolds (2^k) s.storage_ ((s.head_+s.consumer.cleared) % 2^k)
    ((s.tail_+s.producer.back.length) % 2^k) (s.objects q)
  head_lt : s.head_ < 2^k
  producing : ProducerSide (2^k) s.head_ s.tail_ (s.used q) s.producer
  consumer_fits : s.consumer.Fits (2^k) s.head_ q

namespace SpscInv
variable {k : ℕ} {s t : SpscSession α} {q : List α}

theorem init (k : ℕ) : SpscInv k (SpscSession.init α k) [] where
  capacity_eq := rfl
  mask_eq := rfl
  pushed_eq := rfl
  holds := by
    have h := RingHolds.nil (α := SlotObject α) (Nat.two_pow_pos k)
    simpa [SpscSession.init, SPSCQueue.construct, SpscSession.objects] using h
  head_lt := Nat.two_pow_pos k
  producing := ⟨(Nat.zero_mod _).symm,Nat.two_pow_pos k,trivial⟩
  consumer_fits := trivial

lemma tail_lt (h : SpscInv k s q) : s.tail_ < 2^k := by
  rw [h.producing.tail_eq]
  exact Nat.mod_lt _ (Nat.two_pow_pos k)

/-- The producer finds the queue full exactly when no slot but one is free. -/
theorem full_iff (h : SpscInv k s q) : (s.tail_+1) % 2^k = s.head_ ↔ s.used q+1 = 2^k := by
  have hr := h.producing.room
  rw [h.producing.tail_eq, ring_index_succ, ring_index_eq_head_iff h.head_lt (by omega)]
  omega

/-- The consumer finds the queue empty exactly when no slot is used. -/
theorem empty_iff (h : SpscInv k s q) : s.head_ = s.tail_ ↔ s.used q = 0 := by
  have hr := h.producing.room
  rw [eq_comm, h.producing.tail_eq, ring_index_eq_head_iff h.head_lt (by omega)]
  omega

/-- A step of the producer that only changes its locals. -/
theorem setProducer (h : SpscInv k s q) {pc : ProducerPc α} (hb : pc.back = s.producer.back)
    (hpc : pc.Fits (2^k) s.tail_ (s.used q)) : SpscInv k { s with producer := pc } q :=
  { h with
    holds := by
      have hr := h.holds
      rw [SpscSession.objects, ← hb] at hr
      exact hr
    producing := by
      have hr := h.producing.room
      rw [← hb] at hr
      exact ⟨h.producing.tail_eq,hr,hpc⟩ }

/-- A step of the consumer that only changes its locals. -/
theorem setConsumer (h : SpscInv k s q) {pc : ConsumerPc}
    (hf : pc.front α = s.consumer.front α) (hc : pc.cleared = s.consumer.cleared)
    (hpc : pc.Fits (2^k) s.head_ q) : SpscInv k { s with consumer := pc } q := by
  have hused : SpscSession.used { s with consumer := pc } q = s.used q := by
    simp only [SpscSession.used, hf, hc]
  have hobjects : SpscSession.objects { s with consumer := pc } q = s.objects q := by
    simp only [SpscSession.objects, hf]
  exact
    { h with
      holds := by
        rw [hobjects]
        simp only [hc]
        exact h.holds
      producing := by
        rw [hused]
        exact h.producing
      consumer_fits := hpc }

theorem construct (h : SpscInv k s q) {v : α} {tail next : ℕ}
    (hp : s.producer = .construct v tail next) :
    SpscInv k { s with
      storage_ := s.storage_.set tail (some (.value v))
      producer := .storeTail v next } q := by
  have hfits := h.producing.fits
  have hholds := h.holds
  rw [hp] at hfits
  obtain ⟨rfl,rfl,hroom⟩ := hfits
  simp only [SpscSession.objects, hp, ProducerPc.back, List.append_nil, List.length_nil,
    Nat.add_zero, Nat.mod_eq_of_lt h.tail_lt] at hholds
  have hlen : (s.consumer.front α ++ q.map SlotObject.value).length+1 < 2^k := by
    rw [SpscSession.used] at hroom
    simp only [List.length_append, List.length_map]
    omega
  exact
    { h with
      holds := hholds.push hlen (.value v)
      producing := ⟨h.producing.tail_eq,hroom,rfl⟩ }

/-- The new `tail_` publishes the value. -/
theorem storeTail (h : SpscInv k s q) {v : α} {next : ℕ} (hp : s.producer = .storeTail v next) :
    SpscInv k { s with
      tail_ := next
      producer := .idle (some true)
      pushed := s.pushed ++ [v] } (q ++ [v]) := by
  have hfits := h.producing.fits
  have hholds := h.holds
  have hroom := h.producing.room
  rw [hp] at hfits
  obtain rfl : next = (s.tail_+1) % 2^k := hfits
  simp only [SpscSession.objects, SpscSession.used, hp, ProducerPc.back] at hholds hroom
  exact
    { h with
      pushed_eq := by simp only [h.pushed_eq, List.append_assoc]
      holds := by
        simpa [SpscSession.objects] using hholds
      producing := by
        refine ⟨?_,?_,trivial⟩
        · rw [h.producing.tail_eq, ring_index_succ]
          simp [SpscSession.used, Nat.add_assoc]
        · simp only [SpscSession.used, ProducerPc.back, List.length_append, List.length_singleton,
            List.length_nil] at hroom ⊢
          omega
      consumer_fits := h.consumer_fits.append v }

/-- The consumer finds the oldest published value in its slot. -/
theorem moves (h : SpscInv k s q) {head : ℕ} (hc : s.consumer = .move head) :
    ∃ v q', q = v::q' ∧ s.storage_[head]? = some (some (.value v)) ∧
      SpscInv k { s with
        storage_ := s.storage_.set head (some .movedFrom)
        consumer := .destroy head
        popped := s.popped ++ [v] } q' := by
  have hfits := h.consumer_fits
  have hholds := h.holds
  rw [hc] at hfits
  obtain ⟨rfl,hq⟩ := hfits
  obtain ⟨v,q',rfl⟩ := List.exists_cons_of_ne_nil hq
  simp only [SpscSession.objects, hc, ConsumerPc.front, ConsumerPc.cleared, Nat.add_zero,
    Nat.mod_eq_of_lt h.head_lt, List.map_cons, List.nil_append, List.cons_append] at hholds
  have hused : SpscSession.used { s with
      storage_ := s.storage_.set s.head_ (some .movedFrom)
      consumer := .destroy s.head_
      popped := s.popped ++ [v] } q' = s.used (v::q') := by
    simp [SpscSession.used, hc, Nat.add_comm]
  refine ⟨v,q',rfl,hholds.head_cell,?_⟩
  exact
    { h with
      pushed_eq := by simp [h.pushed_eq]
      holds := by
        have hr := hholds.replace .movedFrom
        simpa [SpscSession.objects, Nat.mod_eq_of_lt h.head_lt] using hr
      producing := by
        rw [hused]
        exact h.producing
      consumer_fits := rfl }

/-- The consumer destroys the object that it has moved out of. -/
theorem destroys (h : SpscInv k s q) {head : ℕ} (hc : s.consumer = .destroy head) :
    s.storage_[head]? = some (some .movedFrom) ∧
      SpscInv k { s with
        storage_ := s.storage_.set head none
        consumer := .storeHead ((head+1) &&& s.mask_) } q := by
  have hfits := h.consumer_fits
  have hholds := h.holds
  rw [hc] at hfits
  obtain rfl : head = s.head_ := hfits
  simp only [SpscSession.objects, hc, ConsumerPc.front, ConsumerPc.cleared, Nat.add_zero,
    Nat.mod_eq_of_lt h.head_lt, List.cons_append, List.nil_append] at hholds
  have hused : SpscSession.used { s with
      storage_ := s.storage_.set s.head_ none
      consumer := .storeHead ((s.head_+1) &&& s.mask_) } q = s.used q := by
    simp [SpscSession.used, hc]
  refine ⟨hholds.head_cell,?_⟩
  exact
    { h with
      holds := by
        simpa [SpscSession.objects] using hholds.pop
      producing := by
        rw [hused]
        exact h.producing
      consumer_fits := next_eq h.mask_eq }

/-- The new `head_` gives the slot back. -/
theorem storeHead (h : SpscInv k s q) {next : ℕ} (hc : s.consumer = .storeHead next) :
    SpscInv k { s with head_ := next, consumer := .idle (some true) } q := by
  have hfits := h.consumer_fits
  have hholds := h.holds
  rw [hc] at hfits
  obtain rfl : next = (s.head_+1) % 2^k := hfits
  simp only [SpscSession.objects, hc, ConsumerPc.front, ConsumerPc.cleared] at hholds
  have hused : s.used q = SpscSession.used { s with
      head_ := (s.head_+1) % 2^k, consumer := .idle (some true) } q+1 := by
    simp [SpscSession.used, hc, Nat.add_comm]
  exact
    { h with
      holds := by
        simpa [SpscSession.objects] using hholds
      head_lt := Nat.mod_lt _ (Nat.two_pow_pos k)
      producing := by
        have hproducing := h.producing
        rw [hused] at hproducing
        exact hproducing.free
      consumer_fits := trivial }

lemma produce (h : SpscInv k s q) (hs : s.produce = some t) : ∃ q', SpscInv k t q' := by
  have hfits := h.producing.fits
  rw [SpscSession.produce] at hs
  cases hp : s.producer with
  | idle ret => simp only [hp, reduceCtorEq] at hs
  | loadTail v =>
    simp only [hp, Option.some.injEq] at hs
    subst hs
    exact ⟨q,h.setProducer (by rw [hp]; rfl) ⟨rfl,next_eq h.mask_eq⟩⟩
  | loadHead v tail next =>
    rw [hp] at hfits
    obtain ⟨rfl,rfl⟩ := hfits
    simp only [hp] at hs
    split_ifs at hs with hfull
    · cases hs
      exact ⟨q,h.setProducer (by rw [hp]; rfl) trivial⟩
    · cases hs
      have hroom := h.producing.room
      rw [h.full_iff] at hfull
      exact ⟨q,h.setProducer (by rw [hp]; rfl) ⟨rfl,rfl,by omega⟩⟩
  | construct v tail next =>
    simp only [hp, Option.some.injEq] at hs
    subst hs
    exact ⟨q,h.construct hp⟩
  | storeTail v next =>
    simp only [hp, Option.some.injEq] at hs
    subst hs
    exact ⟨q ++ [v],h.storeTail hp⟩

lemma consume (h : SpscInv k s q) (hs : s.consume = some t) : ∃ q', SpscInv k t q' := by
  have hfits := h.consumer_fits
  rw [SpscSession.consume] at hs
  cases hc : s.consumer with
  | idle ret => simp only [hc, reduceCtorEq] at hs
  | loadHead =>
    simp only [hc, Option.some.injEq] at hs
    subst hs
    exact ⟨q,h.setConsumer (by rw [hc]; rfl) (by rw [hc]; rfl) rfl⟩
  | loadTail head =>
    rw [hc] at hfits
    obtain rfl : head = s.head_ := hfits
    simp only [hc] at hs
    split_ifs at hs with hempty
    · cases hs
      exact ⟨q,h.setConsumer (by rw [hc]; rfl) (by rw [hc]; rfl) trivial⟩
    · cases hs
      have hq : q ≠ [] := by
        rintro rfl
        exact hempty (h.empty_iff.mpr (by simp [SpscSession.used, hc]))
      exact ⟨q,h.setConsumer (by rw [hc]; rfl) (by rw [hc]; rfl) ⟨rfl,hq⟩⟩
  | move head =>
    obtain ⟨v,q',-,hslot,h'⟩ := h.moves hc
    simp only [hc, hslot, Option.some.injEq] at hs
    subst hs
    exact ⟨q',h'⟩
  | destroy head =>
    simp only [hc, Option.some.injEq] at hs
    subst hs
    exact ⟨q,(h.destroys hc).2⟩
  | storeHead next =>
    simp only [hc, Option.some.injEq] at hs
    subst hs
    exact ⟨q,h.storeHead hc⟩

lemma step (h : SpscInv k s q) {a : SpscAction α} (hs : s.step a = some t) :
    ∃ q', SpscInv k t q' := by
  cases a with
  | call c =>
    rw [SpscSession.step] at hs
    split at hs
    · next ret hp =>
      cases hs
      exact ⟨q,h.setProducer (by rw [hp]; rfl) trivial⟩
    · cases hs
  | callPop =>
    rw [SpscSession.step] at hs
    split at hs
    · next ret hc =>
      cases hs
      exact ⟨q,h.setConsumer (by rw [hc]; rfl) (by rw [hc]; rfl) trivial⟩
    · cases hs
  | produce => exact h.produce hs
  | consume => exact h.consume hs

theorem run {as : List (SpscAction α)}
    (h : run SpscSession.step (SpscSession.init α k) as = some s) : ∃ q, SpscInv k s q := by
  refine run_invariant (I := fun s => ∃ q, SpscInv k s q) ?_ h ⟨[],SpscInv.init k⟩
  rintro s a t ⟨q,hq⟩ hs
  exact hq.step hs

/-- The slot at the tail is vacant while the producer has not constructed in it. -/
theorem constructs_raw (h : SpscInv k s q) {v : α} {tail next : ℕ}
    (hp : s.producer = .construct v tail next) : s.storage_[tail]? = some none := by
  have hfits := h.producing.fits
  have hvacant := h.holds.tail_vacant
  rw [hp] at hfits hvacant
  obtain ⟨rfl,-,-⟩ := hfits
  simpa [Nat.mod_eq_of_lt h.tail_lt] using hvacant

/-- One slot always holds no object. -/
lemma countP_isSome_lt (h : SpscInv k s q) : s.storage_.countP Option.isSome < 2^k := by
  rw [h.holds.countP_isSome]
  exact h.holds.fits

end SpscInv

/-- What two threads may rely on: the values come out in the order they went in, a
construction gets raw storage, a move and a destruction get a live object, and the objects
are never more than `capacity()`. -/
structure SpscSession.LinearFifo (s : SpscSession α) : Prop where
  popped_prefix : s.popped <+: s.pushed
  constructs : ∀ v tail next, s.producer = .construct v tail next →
    s.storage_[tail]? = some none
  moves : ∀ head, s.consumer = .move head → ∃ v, s.storage_[head]? = some (some (.value v))
  destroys : ∀ head, s.consumer = .destroy head → ∃ o, s.storage_[head]? = some (some o)
  stored_le : s.storage_.countP Option.isSome ≤ s.capacity

/-- Every interleaving of one producer and one consumer, on a ring of any power of two. -/
theorem SpscSession.linearFifo_run {k : ℕ} {as : List (SpscAction α)} {s : SpscSession α}
    (h : run SpscSession.step (SpscSession.init α k) as = some s) : s.LinearFifo := by
  obtain ⟨q,hq⟩ := SpscInv.run h
  refine ⟨⟨q,hq.pushed_eq.symm⟩,fun v tail next hp => hq.constructs_raw hp,?_,?_,?_⟩
  · intro head hc
    obtain ⟨v,q',-,hslot,-⟩ := hq.moves hc
    exact ⟨v,hslot⟩
  · intro head hc
    exact ⟨_,(hq.destroys hc).1⟩
  · have hlt := hq.countP_isSome_lt
    rw [SPSCQueue.capacity, hq.capacity_eq]
    omega

/-- Two slots: the second push is refused while the first value is being moved out. -/
theorem SpscSession.linearFifo_twoSlots :
    SpscSession.LinearFifo
      { storage_ := [some .movedFrom,none]
        capacity_ := 2
        mask_ := 1
        head_ := 0
        tail_ := 1
        producer := .idle (some false)
        consumer := .destroy 0
        pushed := [5]
        popped := [5] } :=
  SpscSession.linearFifo_run (k := 1) (s := _)
    (show run SpscSession.step (SpscSession.init ℕ 1)
      [.call (.tryPush 5),.produce,.produce,.produce,.callPop,.consume,.produce,.consume,
        .call (.tryEmplace 6),.produce,.consume,.produce] = some _ by decide +kernel)

end Astlog
