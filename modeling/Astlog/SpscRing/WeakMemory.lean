import Astlog.Foundation.ReleaseAcquire
import Astlog.SpscRing.Serial

/-! The queue under release and acquire: a thread may read an index that the other has long
overwritten, and what it knows of the slots is what it has acquired. -/
namespace Astlog
open Foundation

inductive SpscThread
  | producer
  | consumer
  deriving DecidableEq

/-- The two atomics. -/
inductive SpscIndex
  | head
  | tail
  deriving DecidableEq

def SpscIndex.writer : SpscIndex → SpscThread
  | .head => .consumer
  | .tail => .producer

/-- Which accesses to the atomics by the thread on the other side synchronize: the loads of
`head_` by a push and of `tail_` by a pop, and the stores to `tail_` and `head_`. -/
structure SpscOrders where
  pushAcquires : Bool
  popAcquires : Bool
  pushReleases : Bool
  popReleases : Bool
  deriving DecidableEq

/-- The orders as they are written. -/
def SpscOrders.source : SpscOrders := ⟨true,true,true,true⟩

/-- The calls that change nothing. -/
inductive SpscQuery
  | peek
  | empty
  | size
  deriving DecidableEq

/-- Where a thread stands in a query. -/
inductive QueryPc (α : Type)
  /-- In no query, with the answer to the last one. -/
  | idle (answer : Option (SpscAnswer α))
  | loadHead (c : SpscQuery)
  | loadTail (c : SpscQuery) (head : ℕ)
  | copy (head : ℕ)
  deriving DecidableEq

/-- The queue between its threads. The mark is set when an access to a slot races with one by
the other thread, and the run is undefined from there. -/
structure WeakSession (α : Type) where
  mem : RaMemory SpscThread SpscIndex ℕ
  storage_ : List (Option (SlotObject α))
  capacity_ : ℕ
  mask_ : ℕ
  producer : ProducerPc α := .idle none
  consumer : ConsumerPc := .idle none
  query : SpscThread → QueryPc α := fun _ => .idle none
  pushed : List α := []
  popped : List α := []
  raced : Bool := false

/-- The choices of a run: also which write to an index a load returns. -/
inductive WeakAction (α : Type)
  | call (c : PushCall α)
  | callPop
  | ask (t : SpscThread) (c : SpscQuery)
  | produce (n : ℕ)
  | consume (n : ℕ)
  | observe (t : SpscThread) (n : ℕ)
  deriving DecidableEq

variable {α : Type}

def ProducerPc.inCall : ProducerPc α → Bool
  | .idle _ => false
  | _ => true

def ConsumerPc.inCall : ConsumerPc → Bool
  | .idle _ => false
  | _ => true

def QueryPc.inCall : QueryPc α → Bool
  | .idle _ => false
  | _ => true

/-- What follows the two loads of a query, of which `empty()` does that of `head_` first. -/
def SpscQuery.next (capacity_ head tail : ℕ) : SpscQuery → QueryPc α
  | .peek => if head = tail then .idle (some (.out false none)) else .copy head
  | .empty => .idle (some (.empty (head = tail)))
  | .size => .idle (some (.count (if tail ≥ head then tail-head else (capacity_-head)+tail)))

namespace WeakSession

def init (α : Type) (k : ℕ) : WeakSession α where
  mem := RaMemory.init SpscThread SpscIndex ℕ
  storage_ := (SPSCQueue.construct α k).storage_
  capacity_ := (SPSCQueue.construct α k).capacity_
  mask_ := (SPSCQueue.construct α k).mask_

/-- An access to the slot at `idx`. -/
def touch (s : WeakSession α) (t : SpscThread) (idx : ℕ) : WeakSession α :=
  { s with
    mem := s.mem.access t idx
    raced := s.raced || s.mem.races t idx }

def setSlot (s : WeakSession α) (t : SpscThread) (idx : ℕ) (o : Option (SlotObject α)) :
    WeakSession α :=
  { s.touch t idx with storage_ := s.storage_.set idx o }

/-- The thread is in a push or a pop. -/
def calling (s : WeakSession α) : SpscThread → Bool
  | .producer => s.producer.inCall
  | .consumer => s.consumer.inCall

def inCall (s : WeakSession α) (t : SpscThread) : Bool := s.calling t || (s.query t).inCall

/-- One step of a push, whose load, if it is one, returns the write `n`. -/
def produce (o : SpscOrders) (s : WeakSession α) (n : ℕ) : Option (WeakSession α) :=
  match s.producer with
  | .idle _ => none
  | .loadTail v =>
    (s.mem.load .producer .tail n false).map fun (tail,mem) =>
      { s with mem := mem, producer := .loadHead v tail ((tail+1) &&& s.mask_) }
  | .loadHead v tail next =>
    (s.mem.load .producer .head n o.pushAcquires).map fun (head,mem) =>
      if next = head then { s with mem := mem, producer := .idle (some false) }
      else { s with mem := mem, producer := .construct v tail next }
  | .construct v tail next =>
    some { s.setSlot .producer tail (some (.value v)) with producer := .storeTail v next }
  | .storeTail v next =>
    some { s with
      mem := s.mem.store .producer .tail next o.pushReleases
      producer := .idle (some true)
      pushed := s.pushed ++ [v] }

/-- One step of `try_pop`, whose load, if it is one, returns the write `n`. -/
def consume (o : SpscOrders) (s : WeakSession α) (n : ℕ) : Option (WeakSession α) :=
  match s.consumer with
  | .idle _ => none
  | .loadHead =>
    (s.mem.load .consumer .head n false).map fun (head,mem) =>
      { s with mem := mem, consumer := .loadTail head }
  | .loadTail head =>
    (s.mem.load .consumer .tail n o.popAcquires).map fun (tail,mem) =>
      if head = tail then { s with mem := mem, consumer := .idle (some false) }
      else { s with mem := mem, consumer := .move head }
  | .move head =>
    match s.storage_[head]? with
    | some (some (.value v)) =>
      some { s.setSlot .consumer head (some .movedFrom) with
        consumer := .destroy head
        popped := s.popped ++ [v] }
    | _ => none
  | .destroy head =>
    some { s.setSlot .consumer head none with consumer := .storeHead ((head+1) &&& s.mask_) }
  | .storeHead next =>
    some { s with
      mem := s.mem.store .consumer .head next o.popReleases
      consumer := .idle (some true) }

/-- One step of a query by `t`, whose load, if it is one, returns the write `n`. -/
def observe (s : WeakSession α) (t : SpscThread) (n : ℕ) : Option (WeakSession α) :=
  match s.query t with
  | .idle _ => none
  | .loadHead c =>
    (s.mem.load t .head n true).map fun (head,mem) =>
      { s with mem := mem, query := Function.update s.query t (.loadTail c head) }
  | .loadTail c head =>
    (s.mem.load t .tail n true).map fun (tail,mem) =>
      { s with mem := mem, query := Function.update s.query t (c.next s.capacity_ head tail) }
  | .copy head =>
    match s.storage_[head]? with
    | some (some (.value v)) =>
      some { s.touch t head with
        query := Function.update s.query t (.idle (some (.out true (some v)))) }
    | _ => none

def step (o : SpscOrders) (s : WeakSession α) : WeakAction α → Option (WeakSession α)
  | .call c =>
    if s.inCall .producer then none else some { s with producer := .loadTail c.value }
  | .callPop => if s.inCall .consumer then none else some { s with consumer := .loadHead }
  | .ask t c =>
    if s.inCall t then none
    else some { s with query := Function.update s.query t (.loadHead c) }
  | .produce n => s.produce o n
  | .consume n => s.consume o n
  | .observe t n => s.observe t n

/-- The session with the newest values of the indices. -/
def toSession (s : WeakSession α) : SpscSession α where
  storage_ := s.storage_
  capacity_ := s.capacity_
  mask_ := s.mask_
  head_ := s.mem.latest .head
  tail_ := s.mem.latest .tail
  producer := s.producer
  consumer := s.consumer
  pushed := s.pushed
  popped := s.popped

end WeakSession

/-- The producer has claimed a slot that it has not published. -/
@[simp] def ProducerPc.claimed : ProducerPc α → ℕ
  | .construct _ _ _ => 1
  | .storeTail _ _ => 1
  | _ => 0

/-- The consumer has found a value that it has not moved out. -/
@[simp] def ConsumerPc.found : ConsumerPc → ℕ
  | .move _ => 1
  | _ => 0

/-- The writes to an index count up, from 0, around the ring. -/
def CountsUp (N : ℕ) (ws : List (Write SpscThread SpscIndex)) : Prop :=
  ∀ n w, ws[n]? = some w → w.value = n % N

/-- A queue of `2^k` slots under release and acquire, where `q` waits to be popped. -/
structure WeakInv (k : ℕ) (s : WeakSession α) (q : List α) : Prop where
  session : SpscInv k s.toSession q
  sound : s.mem.Sound SpscIndex.writer
  counts : ∀ x, CountsUp (2^k) (s.mem.history x)
  tail_length : (s.mem.history .tail).length = s.pushed.length+1
  head_length : (s.mem.history .head).length+s.consumer.cleared+(s.consumer.front α).length =
    s.popped.length+1
  room : s.pushed.length+1+s.producer.claimed ≤ s.mem.view .producer (.inr .head)+2^k
  ahead : s.popped.length+s.consumer.found ≤ s.mem.view .consumer (.inr .tail)
  produced : s.mem.HandsOver (· % 2^k) .producer .tail (s.pushed.length+s.producer.back.length)
  consumed : s.mem.HandsOver (· % 2^k) .consumer .head s.pushed.length
  raced_eq : s.raced = false

namespace WeakInv
variable {k : ℕ} {s t : WeakSession α} {q : List α}

theorem init (k : ℕ) : WeakInv k (WeakSession.init α k) [] where
  session := SpscInv.init k
  sound := RaMemory.Sound.init _
  counts x n w hw := by
    obtain ⟨hn,rfl⟩ := List.getElem?_eq_some_iff.mp hw
    obtain rfl : n = 0 := Nat.lt_one_iff.mp hn
    rfl
  tail_length := rfl
  head_length := rfl
  room := by
    have hpos := Nat.two_pow_pos k
    change 0+1+0 ≤ 0+2^k
    omega
  ahead := le_refl _
  produced := RaMemory.HandsOver.init _ _ _
  consumed := RaMemory.HandsOver.init _ _ _
  raced_eq := rfl

theorem latest_eq (h : WeakInv k s q) {x : SpscIndex} {n : ℕ}
    (hn : (s.mem.history x).length = n+1) : s.mem.latest x = n % 2^k := by
  have hlt : n < (s.mem.history x).length := by omega
  have hlast := List.getElem?_eq_getElem hlt
  rw [RaMemory.latest, List.getLast?_eq_getElem?, hn, Nat.add_sub_cancel, hlast]
  exact h.counts x n _ hlast

theorem popped_le (h : WeakInv k s q) : s.popped.length ≤ s.pushed.length := by
  have heq := congrArg List.length h.session.pushed_eq
  rw [List.length_append] at heq
  exact heq ▸ Nat.le_add_right _ _

theorem popped_lt {v : α} {q' : List α} (h : WeakInv k s (v::q')) :
    s.popped.length < s.pushed.length := by
  have heq := congrArg List.length h.session.pushed_eq
  rw [List.length_append] at heq
  exact heq ▸ Nat.lt_add_of_pos_right (Nat.succ_pos _)

/-- The producer is as many writes ahead as there are slots in use. -/
theorem lengths (h : WeakInv k s q) :
    (s.mem.history .tail).length = (s.mem.history .head).length+s.toSession.used q := by
  have hpushed : s.pushed.length = s.popped.length+q.length := by
    have heq := congrArg List.length h.session.pushed_eq
    rwa [List.length_append] at heq
  have ht := h.tail_length
  have hh := h.head_length
  change _ = _+(s.consumer.cleared+(s.consumer.front α).length+q.length)
  omega

theorem setProducer (h : WeakInv k s q) {pc : ProducerPc α} (hb : pc.back = s.producer.back)
    (hpc : pc.Fits (2^k) (s.mem.latest .tail) (s.toSession.used q))
    (hroom : s.pushed.length+1+pc.claimed ≤ s.mem.view .producer (.inr .head)+2^k) :
    WeakInv k { s with producer := pc } q :=
  { h with
    session := h.session.setProducer hb hpc
    room := hroom
    produced := by
      have hp := h.produced
      rwa [← hb] at hp }

theorem setConsumer (h : WeakInv k s q) {pc : ConsumerPc}
    (hf : pc.front α = s.consumer.front α) (hc : pc.cleared = s.consumer.cleared)
    (hpc : pc.Fits (2^k) (s.mem.latest .head) q)
    (hahead : s.popped.length+pc.found ≤ s.mem.view .consumer (.inr .tail)) :
    WeakInv k { s with consumer := pc } q :=
  { h with
    session := h.session.setConsumer hf hc hpc
    head_length := by
      have hh := h.head_length
      rwa [← hf, ← hc] at hh
    ahead := hahead }

/-- A thread that loads an index of the other only comes to know more. -/
lemma learn (h : WeakInv k s q) {u : SpscThread} {v : View SpscThread SpscIndex}
    (hle : s.mem.view u ≤ v) (hsound : (s.mem.learn u v).Sound SpscIndex.writer) :
    WeakInv k { s with mem := s.mem.learn u v } q :=
  { h with
    sound := hsound
    room := h.room.trans (Nat.add_le_add_right ((RaMemory.adds_learn hle).le .producer _) _)
    ahead := h.ahead.trans ((RaMemory.adds_learn hle).le .consumer _) }

/-- The producer knows that the object which was in its slot is gone. -/
lemma construct_races (h : WeakInv k s q) {v : α} {tail next : ℕ}
    (hp : s.producer = .construct v tail next) : s.mem.races .producer tail = false := by
  have hfits := h.session.producing.fits
  have hroom := h.room
  rw [show s.toSession.producer = _ from hp] at hfits
  rw [hp] at hroom
  obtain ⟨rfl,-,-⟩ := hfits
  apply RaMemory.races_eq_false
  intro u hu n hn
  cases u with
  | producer => exact absurd rfl hu
  | consumer =>
    refine h.consumed.known h.sound (fun j hj hslot => ?_) hn
    have hmod : j ≡ s.pushed.length [MOD 2^k] := hslot.trans (h.latest_eq h.tail_length)
    have hturn := hmod.add_le_of_lt hj
    simp only [ProducerPc.claimed] at hroom
    omega

/-- The consumer knows that the object in its slot is complete. -/
theorem pop_races (h : WeakInv k s q) {head : ℕ} (hhead : head = s.mem.latest .head)
    (hknown : (s.mem.history .head).length ≤ s.mem.view .consumer (.inr .tail)) :
    s.mem.races .consumer head = false := by
  have hlengths := h.lengths
  have htail := h.tail_length
  have hfree : s.toSession.used q+s.producer.back.length < 2^k := h.session.producing.room
  obtain ⟨m,hm⟩ : ∃ m, (s.mem.history .head).length = m+1 :=
    ⟨_,(h.sound.own .head).symm⟩
  apply RaMemory.races_eq_false
  intro u hu n hn
  cases u with
  | consumer => exact absurd rfl hu
  | producer =>
    refine h.produced.known h.sound (fun j hj hslot => ?_) hn
    by_contra hlt
    have hmod : m ≡ j [MOD 2^k] := by
      have heq := h.latest_eq hm
      rw [← hhead] at heq
      exact heq.symm.trans hslot.symm
    have hturn := hmod.add_le_of_lt (by omega)
    omega

/-- What an acquiring load gives: one of the values stored so far, and all that was released
with it. -/
theorem acquires (h : WeakInv k s q) {u : SpscThread} {x : SpscIndex} {n value : ℕ}
    {mem : RaMemory SpscThread SpscIndex ℕ} (hl : s.mem.load u x n true = some (value,mem)) :
    WeakInv k { s with mem := mem } q ∧ value = n % 2^k ∧ s.mem.view u (.inr x) ≤ n ∧
      n < (s.mem.history x).length ∧
      ∃ v, RaMemory.Sound.Acquired SpscIndex.writer s.mem mem u x n v := by
  obtain ⟨hle,-⟩ := RaMemory.load_eq_some.mp hl
  obtain ⟨hsound,v,w,hacquired,hw,rfl⟩ := h.sound.load_acquire hl
  obtain ⟨hlt,-⟩ := List.getElem?_eq_some_iff.mp hw
  refine ⟨?_,h.counts x n w hw,hle,hlt,v,hacquired⟩
  obtain ⟨rfl,hv,-,-⟩ := hacquired
  exact h.learn hv hsound

theorem loadHead (h : WeakInv k s q) {v : α} {tail next n head : ℕ}
    {mem : RaMemory SpscThread SpscIndex ℕ} (hp : s.producer = .loadHead v tail next)
    (hl : s.mem.load .producer .head n true = some (head,mem)) :
    WeakInv k (if next = head then { s with mem := mem, producer := .idle (some false) }
      else { s with mem := mem, producer := .construct v tail next }) q := by
  have hfits := h.session.producing.fits
  have hroom := h.room
  rw [show s.toSession.producer = _ from hp] at hfits
  rw [hp] at hroom
  obtain ⟨rfl,rfl⟩ := hfits
  obtain ⟨h',rfl,hle,hlt,u,rfl,-,hat,-⟩ := h.acquires hl
  simp only [ProducerPc.claimed, Nat.add_zero] at hroom
  split_ifs with hfull
  · refine h'.setProducer (by simp only [hp]; rfl) trivial ?_
    simp only [RaMemory.learn_view_self, hat, ProducerPc.claimed, Nat.add_zero]
    omega
  · have hlengths := h.lengths
    have htail := h.tail_length
    -- at most a full turn ahead of the value that was read, and not a full turn
    have hne : s.pushed.length+1 ≠ n+2^k := by
      intro heq
      apply hfull
      change (s.mem.latest .tail+1) % 2^k = n % 2^k
      rw [h.latest_eq htail, Nat.mod_add_mod, heq, Nat.add_mod_right]
    refine h'.setProducer (by simp only [hp]; rfl) ⟨rfl,rfl,?_⟩ ?_
    · change s.toSession.used q+1 < 2^k
      omega
    · simp only [RaMemory.learn_view_self, hat, ProducerPc.claimed]
      omega

theorem loadTail (h : WeakInv k s q) {n head tail : ℕ}
    {mem : RaMemory SpscThread SpscIndex ℕ} (hc : s.consumer = .loadTail head)
    (hl : s.mem.load .consumer .tail n true = some (tail,mem)) :
    WeakInv k (if head = tail then { s with mem := mem, consumer := .idle (some false) }
      else { s with mem := mem, consumer := .move head }) q := by
  have hfits := h.session.consumer_fits
  have hhead := h.head_length
  have hahead := h.ahead
  rw [show s.toSession.consumer = _ from hc] at hfits
  rw [hc] at hhead hahead
  obtain rfl : head = s.mem.latest .head := hfits
  obtain ⟨h',rfl,hle,hlt,u,rfl,-,hat,-⟩ := h.acquires hl
  simp only [ConsumerPc.found, ConsumerPc.cleared, ConsumerPc.front, List.length_nil,
    Nat.add_zero] at hahead hhead
  split_ifs with hempty
  · refine h'.setConsumer (by simp only [hc]; rfl) (by simp only [hc]; rfl) trivial ?_
    simp only [RaMemory.learn_view_self, hat, ConsumerPc.found, Nat.add_zero]
    omega
  · have hlengths := h.lengths
    have hne : s.popped.length ≠ n := by
      rintro rfl
      exact hempty (h.latest_eq hhead)
    have hused : s.toSession.used q = q.length := by
      change s.consumer.cleared+(s.consumer.front α).length+q.length = _
      simp [hc]
    refine h'.setConsumer (by simp only [hc]; rfl) (by simp only [hc]; rfl) ⟨rfl,?_⟩ ?_
    · rintro rfl
      rw [List.length_nil] at hused
      omega
    · simp only [RaMemory.learn_view_self, hat, ConsumerPc.found]
      omega

lemma construct (h : WeakInv k s q) {v : α} {tail next : ℕ}
    (hp : s.producer = .construct v tail next) :
    WeakInv k { s.setSlot .producer tail (some (.value v)) with producer := .storeTail v next } q := by
  have hfits := h.session.producing.fits
  have hroom := h.room
  have hproduced := h.produced
  have hslot := h.latest_eq h.tail_length
  rw [show s.toSession.producer = _ from hp] at hfits
  rw [hp] at hroom hproduced
  obtain ⟨htail,-,-⟩ := hfits
  replace hslot : tail = s.pushed.length % 2^k := htail.trans hslot
  exact
    { session := h.session.construct hp
      sound := h.sound.access _ _
      counts := h.counts
      tail_length := h.tail_length
      head_length := h.head_length
      room := by simpa [WeakSession.setSlot, WeakSession.touch, RaMemory.access] using hroom
      ahead := by simpa [WeakSession.setSlot, WeakSession.touch, RaMemory.access] using h.ahead
      produced := by
        rw [hslot]
        exact hproduced.access_self (Nat.le_succ _) (Nat.lt_succ_self _) h.tail_length.le
      consumed := h.consumed.access_of_ne (by decide) _
      raced_eq := by
        change (s.raced || _) = false
        rw [h.raced_eq, h.construct_races hp]
        rfl }

lemma storeTail (h : WeakInv k s q) {v : α} {next : ℕ} (hp : s.producer = .storeTail v next) :
    WeakInv k { s with
      mem := s.mem.store .producer .tail next true
      producer := .idle (some true)
      pushed := s.pushed ++ [v] } (q ++ [v]) := by
  have hfits := h.session.producing.fits
  have hroom := h.room
  have hproduced := h.produced
  rw [show s.toSession.producer = _ from hp] at hfits
  rw [hp] at hroom hproduced
  have hnext : next = (s.pushed.length+1) % 2^k := by
    have heq : next = (s.mem.latest .tail+1) % 2^k := hfits
    rwa [h.latest_eq h.tail_length, Nat.mod_add_mod] at heq
  have hsession := h.session.storeTail hp
  exact
    { session := by
        simpa [WeakSession.toSession] using hsession
      sound := h.sound.store .tail next
      counts := by
        intro x n w hw
        obtain hold | ⟨-,rfl,hvalue,-⟩ := RaMemory.store_getElem? hw
        · exact h.counts x n w hold
        · rw [hvalue, h.tail_length, hnext]
      tail_length := by
        simpa [RaMemory.store] using h.tail_length
      head_length := by
        simpa [RaMemory.store] using h.head_length
      room := by
        simpa [RaMemory.store] using hroom
      ahead := by
        simpa [RaMemory.store, RaMemory.learn] using h.ahead
      produced := by
        rw [List.length_append]
        exact hproduced.store_self h.sound next
      consumed := by
        refine (h.consumed.store_of_ne _ (by decide) _ _).mono ?_
        rw [List.length_append]
        exact Nat.le_add_right _ _
      raced_eq := h.raced_eq }

theorem moves (h : WeakInv k s q) {head : ℕ} (hc : s.consumer = .move head) :
    ∃ v q', s.storage_[head]? = some (some (.value v)) ∧
      WeakInv k { s.setSlot .consumer head (some .movedFrom) with
        consumer := .destroy head
        popped := s.popped ++ [v] } q' := by
  obtain ⟨v,q',rfl,hslot,hsession⟩ := h.session.moves hc
  have hfits := h.session.consumer_fits
  have hhead := h.head_length
  have hahead := h.ahead
  rw [show s.toSession.consumer = _ from hc] at hfits
  rw [hc] at hhead hahead
  obtain ⟨hlatest,-⟩ := hfits
  simp only [ConsumerPc.found, ConsumerPc.cleared, ConsumerPc.front, List.length_nil,
    Nat.add_zero] at hahead hhead
  have hindex : head = s.popped.length % 2^k := hlatest.trans (h.latest_eq hhead)
  refine ⟨v,q',hslot,?_⟩
  exact
    { session := hsession
      sound := h.sound.access _ _
      counts := h.counts
      tail_length := h.tail_length
      head_length := by
        simpa [WeakSession.setSlot, WeakSession.touch, RaMemory.access, RaMemory.learn] using hhead
      room := by simpa [WeakSession.setSlot, WeakSession.touch, RaMemory.access] using h.room
      ahead := by simpa [WeakSession.setSlot, WeakSession.touch, RaMemory.access] using hahead
      produced := h.produced.access_of_ne (by decide) _
      consumed := by
        rw [hindex]
        exact h.consumed.access_self (le_refl _) h.popped_lt hhead.le
      raced_eq := by
        change (s.raced || _) = false
        rw [h.raced_eq, h.pop_races hlatest (by omega)]
        rfl }

lemma destroys (h : WeakInv k s q) {head : ℕ} (hc : s.consumer = .destroy head) :
    WeakInv k { s.setSlot .consumer head none with
      consumer := .storeHead ((head+1) &&& s.mask_) } q := by
  have hfits := h.session.consumer_fits
  have hhead := h.head_length
  have hahead := h.ahead
  rw [show s.toSession.consumer = _ from hc] at hfits
  rw [hc] at hhead hahead
  have hlatest : head = s.mem.latest .head := hfits
  simp only [ConsumerPc.found, ConsumerPc.cleared, ConsumerPc.front, List.length_singleton,
    Nat.add_zero] at hahead hhead
  obtain ⟨j,hj⟩ : ∃ j, s.popped.length = j+1 := by
    obtain ⟨m,hm⟩ : ∃ m, (s.mem.history .head).length = m+1 := ⟨_,(h.sound.own .head).symm⟩
    exact ⟨m,by omega⟩
  have hlt : j < s.popped.length := by omega
  have hindex : head = j % 2^k := hlatest.trans (h.latest_eq (by omega))
  exact
    { session := (h.session.destroys hc).2
      sound := h.sound.access _ _
      counts := h.counts
      tail_length := h.tail_length
      head_length := by
        simpa [WeakSession.setSlot, WeakSession.touch, RaMemory.access, RaMemory.learn] using hhead
      room := by simpa [WeakSession.setSlot, WeakSession.touch, RaMemory.access] using h.room
      ahead := by simpa [WeakSession.setSlot, WeakSession.touch, RaMemory.access] using hahead
      produced := h.produced.access_of_ne (by decide) _
      consumed := by
        rw [hindex]
        exact h.consumed.access_self (le_refl _) (hlt.trans_le h.popped_le) (by omega)
      raced_eq := by
        change (s.raced || _) = false
        rw [h.raced_eq, h.pop_races hlatest (by omega)]
        rfl }

lemma storeHead (h : WeakInv k s q) {next : ℕ} (hc : s.consumer = .storeHead next) :
    WeakInv k { s with
      mem := s.mem.store .consumer .head next true
      consumer := .idle (some true) } q := by
  have hfits := h.session.consumer_fits
  have hhead := h.head_length
  have hahead := h.ahead
  rw [show s.toSession.consumer = _ from hc] at hfits
  rw [hc] at hhead hahead
  simp only [ConsumerPc.found, ConsumerPc.cleared, ConsumerPc.front, List.length_nil,
    Nat.add_zero] at hahead hhead
  have hnext : next = s.popped.length % 2^k := by
    obtain ⟨m,hm⟩ : ∃ m, (s.mem.history .head).length = m+1 := ⟨_,(h.sound.own .head).symm⟩
    have heq : next = (s.mem.latest .head+1) % 2^k := hfits
    rw [h.latest_eq hm, Nat.mod_add_mod] at heq
    rw [heq]
    congr 1
    omega
  have hsession := h.session.storeHead hc
  exact
    { session := by
        simpa [WeakSession.toSession] using hsession
      sound := h.sound.store .head next
      counts := by
        intro x n w hw
        obtain hold | ⟨-,rfl,hvalue,-⟩ := RaMemory.store_getElem? hw
        · exact h.counts x n w hold
        · rw [hvalue, hnext]
          congr 1
          omega
      tail_length := by
        simpa [RaMemory.store] using h.tail_length
      head_length := by
        simpa [RaMemory.store] using hhead
      room := by
        simpa [RaMemory.store, RaMemory.learn] using h.room
      ahead := by
        simpa [RaMemory.store] using hahead
      produced := h.produced.store_of_ne _ (by decide) _ _
      consumed := h.consumed.store_self h.sound next
      raced_eq := h.raced_eq }

theorem produce (h : WeakInv k s q) {n : ℕ} (hs : s.produce .source n = some t) :
    ∃ q', WeakInv k t q' := by
  rw [WeakSession.produce] at hs
  cases hp : s.producer with
  | idle ret => simp only [hp, reduceCtorEq] at hs
  | loadTail v =>
    simp only [hp, Option.map_eq_some_iff] at hs
    obtain ⟨⟨tail,mem⟩,hl,rfl⟩ := hs
    obtain ⟨rfl,-,rfl⟩ := h.sound.load_own (t := .producer) rfl hl
    have hroom := h.room
    rw [hp] at hroom
    exact ⟨q,h.setProducer (by rw [hp]; rfl) ⟨rfl,next_eq h.session.mask_eq⟩ hroom⟩
  | loadHead v tail next =>
    simp only [hp, Option.map_eq_some_iff] at hs
    obtain ⟨⟨head,mem⟩,hl,rfl⟩ := hs
    exact ⟨q,h.loadHead hp hl⟩
  | construct v tail next =>
    simp only [hp, Option.some.injEq] at hs
    subst hs
    exact ⟨q,h.construct hp⟩
  | storeTail v next =>
    simp only [hp, Option.some.injEq] at hs
    subst hs
    exact ⟨q ++ [v],h.storeTail hp⟩

theorem consume (h : WeakInv k s q) {n : ℕ} (hs : s.consume .source n = some t) :
    ∃ q', WeakInv k t q' := by
  rw [WeakSession.consume] at hs
  cases hc : s.consumer with
  | idle ret => simp only [hc, reduceCtorEq] at hs
  | loadHead =>
    simp only [hc, Option.map_eq_some_iff] at hs
    obtain ⟨⟨head,mem⟩,hl,rfl⟩ := hs
    obtain ⟨rfl,-,rfl⟩ := h.sound.load_own (t := .consumer) rfl hl
    have hahead := h.ahead
    rw [hc] at hahead
    exact ⟨q,h.setConsumer (by rw [hc]; rfl) (by rw [hc]; rfl) rfl hahead⟩
  | loadTail head =>
    simp only [hc, Option.map_eq_some_iff] at hs
    obtain ⟨⟨tail,mem⟩,hl,rfl⟩ := hs
    exact ⟨q,h.loadTail hc hl⟩
  | move head =>
    obtain ⟨v,q',hslot,h'⟩ := h.moves hc
    simp only [hc, hslot, Option.some.injEq] at hs
    subst hs
    exact ⟨q',h'⟩
  | destroy head =>
    simp only [hc, Option.some.injEq] at hs
    subst hs
    exact ⟨q,h.destroys hc⟩
  | storeHead next =>
    simp only [hc, Option.some.injEq] at hs
    subst hs
    exact ⟨q,h.storeHead hc⟩

end WeakInv
end Astlog
