import Astlog.SpscRing.WeakMemory

/-! What `peek`, `empty` and `size` tell the thread that asks, and what stays true of it
whatever both threads do then. Only the consumer may peek. -/
namespace Astlog
open Foundation

variable {α : Type}

/-- The newest write to an index that a thread knows of. -/
def WeakSession.known (s : WeakSession α) (t : SpscThread) (x : SpscIndex) : ℕ :=
  s.mem.view t (.inr x)

/-- A state that comes later in a run. -/
structure Later (s t : WeakSession α) : Prop where
  known_le : s.mem.view ≤ t.mem.view
  pushed_prefix : s.pushed <+: t.pushed
  popped_prefix : s.popped <+: t.popped

/-- A step of thread `u` in a call. -/
structure CallStep (u : SpscThread) (s t : WeakSession α) : Prop where
  calling : s.calling u = true
  query_eq : t.query = s.query
  others : ∀ w, w ≠ u → t.calling w = s.calling w
  adds : RaMemory.Adds u s.mem t.mem
  later : Later s t

theorem ProducerPc.inCall_eq_false {pc : ProducerPc α} :
    pc.inCall = false ↔ ∃ ret, pc = .idle ret := by
  cases pc <;> simp [ProducerPc.inCall]

theorem ConsumerPc.inCall_eq_false {pc : ConsumerPc} :
    pc.inCall = false ↔ ∃ ret, pc = .idle ret := by
  cases pc <;> simp [ConsumerPc.inCall]

theorem WeakSession.inCall_eq_false {s : WeakSession α} {t : SpscThread} :
    s.inCall t = false ↔ s.calling t = false ∧ (s.query t).inCall = false :=
  Bool.or_eq_false_iff

namespace Later
variable {s t u : WeakSession α}

/-- Nothing was learned, pushed or popped. -/
lemma of_eq (hmem : t.mem = s.mem) (hpushed : t.pushed = s.pushed)
    (hpopped : t.popped = s.popped) : Later s t := by
  refine ⟨?_,?_,?_⟩
  · rw [hmem]
  · rw [hpushed]
  · rw [hpopped]

lemma trans (h : Later s t) (h' : Later t u) : Later s u :=
  ⟨h.known_le.trans h'.known_le,h.pushed_prefix.trans h'.pushed_prefix,
    h.popped_prefix.trans h'.popped_prefix⟩

end Later

namespace WeakInv
variable {k : ℕ} {s t : WeakSession α} {q : List α}

lemma calling_of_consumer_eq (h : t.consumer = s.consumer) (w : SpscThread)
    (hw : w ≠ .producer) : t.calling w = s.calling w := by
  cases w with
  | producer => exact absurd rfl hw
  | consumer => exact congrArg ConsumerPc.inCall h

lemma calling_of_producer_eq (h : t.producer = s.producer) (w : SpscThread)
    (hw : w ≠ .consumer) : t.calling w = s.calling w := by
  cases w with
  | producer => exact congrArg ProducerPc.inCall h
  | consumer => exact absurd rfl hw

lemma store_adds (h : WeakInv k s q) (u : SpscThread) (x : SpscIndex) (value : ℕ) :
    RaMemory.Adds u s.mem (s.mem.store u x value true) :=
  RaMemory.adds_store (h.sound.knows u x).lt.le value true

theorem produce_callStep (h : WeakInv k s q) {n : ℕ} (hs : s.produce .source n = some t) :
    CallStep .producer s t := by
  rw [WeakSession.produce] at hs
  cases hp : s.producer with
  | idle ret => simp only [hp, reduceCtorEq] at hs
  | loadTail v =>
    simp only [hp, Option.map_eq_some_iff] at hs
    obtain ⟨⟨tail,mem⟩,hl,rfl⟩ := hs
    have hadds := RaMemory.adds_load hl
    exact ⟨by simp [WeakSession.calling, hp, ProducerPc.inCall],rfl,calling_of_consumer_eq rfl,
      hadds,hadds.le,List.prefix_refl _,List.prefix_refl _⟩
  | loadHead v tail next =>
    simp only [hp, Option.map_eq_some_iff] at hs
    obtain ⟨⟨head,mem⟩,hl,rfl⟩ := hs
    have hadds := RaMemory.adds_load hl
    exact ⟨by simp [WeakSession.calling, hp, ProducerPc.inCall],by split_ifs <;> rfl,
      calling_of_consumer_eq (by split_ifs <;> rfl),by split_ifs <;> exact hadds,
      by split_ifs <;> exact ⟨hadds.le,List.prefix_refl _,List.prefix_refl _⟩⟩
  | construct v tail next =>
    simp only [hp, Option.some.injEq] at hs
    subst hs
    have hadds := RaMemory.adds_access s.mem .producer tail
    exact ⟨by simp [WeakSession.calling, hp, ProducerPc.inCall],rfl,calling_of_consumer_eq rfl,
      hadds,hadds.le,List.prefix_refl _,List.prefix_refl _⟩
  | storeTail v next =>
    simp only [hp, Option.some.injEq] at hs
    subst hs
    have hadds := h.store_adds .producer .tail next
    exact ⟨by simp [WeakSession.calling, hp, ProducerPc.inCall],rfl,calling_of_consumer_eq rfl,
      hadds,hadds.le,List.prefix_append _ _,List.prefix_refl _⟩

theorem consume_callStep (h : WeakInv k s q) {n : ℕ} (hs : s.consume .source n = some t) :
    CallStep .consumer s t := by
  rw [WeakSession.consume] at hs
  cases hc : s.consumer with
  | idle ret => simp only [hc, reduceCtorEq] at hs
  | loadHead =>
    simp only [hc, Option.map_eq_some_iff] at hs
    obtain ⟨⟨head,mem⟩,hl,rfl⟩ := hs
    have hadds := RaMemory.adds_load hl
    exact ⟨by simp [WeakSession.calling, hc, ConsumerPc.inCall],rfl,calling_of_producer_eq rfl,
      hadds,hadds.le,List.prefix_refl _,List.prefix_refl _⟩
  | loadTail head =>
    simp only [hc, Option.map_eq_some_iff] at hs
    obtain ⟨⟨tail,mem⟩,hl,rfl⟩ := hs
    have hadds := RaMemory.adds_load hl
    exact ⟨by simp [WeakSession.calling, hc, ConsumerPc.inCall],by split_ifs <;> rfl,
      calling_of_producer_eq (by split_ifs <;> rfl),by split_ifs <;> exact hadds,
      by split_ifs <;> exact ⟨hadds.le,List.prefix_refl _,List.prefix_refl _⟩⟩
  | move head =>
    obtain ⟨v,q',hslot,-⟩ := h.moves hc
    simp only [hc, hslot, Option.some.injEq] at hs
    subst hs
    have hadds := RaMemory.adds_access s.mem .consumer head
    exact ⟨by simp [WeakSession.calling, hc, ConsumerPc.inCall],rfl,calling_of_producer_eq rfl,
      hadds,hadds.le,List.prefix_refl _,List.prefix_append _ _⟩
  | destroy head =>
    simp only [hc, Option.some.injEq] at hs
    subst hs
    have hadds := RaMemory.adds_access s.mem .consumer head
    exact ⟨by simp [WeakSession.calling, hc, ConsumerPc.inCall],rfl,calling_of_producer_eq rfl,
      hadds,hadds.le,List.prefix_refl _,List.prefix_refl _⟩
  | storeHead next =>
    simp only [hc, Option.some.injEq] at hs
    subst hs
    have hadds := h.store_adds .consumer .head next
    exact ⟨by simp [WeakSession.calling, hc, ConsumerPc.inCall],rfl,calling_of_producer_eq rfl,
      hadds,hadds.le,List.prefix_refl _,List.prefix_refl _⟩

/-- What either thread knows of the two indices is consistent: at most `capacity()` values. -/
lemma known_le (h : WeakInv k s q) (u : SpscThread) :
    s.known u .head ≤ s.known u .tail ∧ s.known u .tail < s.known u .head+2^k := by
  have hlengths := h.lengths
  have htail := h.tail_length
  have hhead := h.head_length
  have hpopped := h.popped_le
  have hfree : s.toSession.used q+s.producer.back.length < 2^k := h.session.producing.room
  cases u with
  | producer =>
    have hown : s.known .producer .tail+1 = _ := h.sound.own .tail
    have hlt : s.known .producer .head < _ := (h.sound.knows .producer .head).lt
    have hroom : _ ≤ s.known .producer .head+2^k := h.room
    omega
  | consumer =>
    have hown : s.known .consumer .head+1 = _ := h.sound.own .head
    have hlt : s.known .consumer .tail < _ := (h.sound.knows .consumer .tail).lt
    have hahead : _ ≤ s.known .consumer .tail := h.ahead
    omega

lemma setQuery (h : WeakInv k s q) (f : SpscThread → QueryPc α) :
    WeakInv k { s with query := f } q := { h with }

/-- The consumer, in no call, knows of a value that waits: it is in the slot at `head_`. -/
theorem front_cell (h : WeakInv k s q) {head : ℕ} (hidle : s.consumer.inCall = false)
    (hhead : head = s.known .consumer .head % 2^k)
    (hlt : s.known .consumer .head < s.known .consumer .tail) :
    s.known .consumer .head = s.popped.length ∧ head = s.mem.latest .head ∧
      ∃ v q', q = v::q' ∧ s.storage_[head]? = some (some (.value v)) := by
  have hlengths := h.lengths
  have hlength := h.head_length
  have hown : s.known .consumer .head+1 = _ := h.sound.own .head
  have htail : s.known .consumer .tail < _ := (h.sound.knows .consumer .tail).lt
  have hholds := h.session.holds
  have hlatest : head = s.mem.latest .head := hhead.trans (h.latest_eq hown.symm).symm
  cases hc : s.consumer with
  | idle ret =>
    simp only [hc, ConsumerPc.cleared, ConsumerPc.front, List.length_nil] at hlength
    have hused : s.toSession.used q = q.length := by
      change s.consumer.cleared+(s.consumer.front α).length+q.length = _
      simp [hc]
    obtain ⟨v,q',rfl⟩ : ∃ v q', q = v::q' := by
      apply List.exists_cons_of_length_pos
      omega
    have hmod : s.toSession.head_ % 2^k = head := by
      rw [Nat.mod_eq_of_lt h.session.head_lt, hlatest]
      rfl
    simp only [SpscSession.objects, show s.toSession.consumer = _ from hc, ConsumerPc.front,
      ConsumerPc.cleared, List.nil_append, List.map_cons, List.cons_append, Nat.add_zero,
      hmod] at hholds
    exact ⟨by omega,hlatest,v,q',rfl,hholds.head_cell⟩
  | loadHead | loadTail | move | destroy | storeHead => simp [hc, ConsumerPc.inCall] at hidle

/-- The consumer copies from the slot at `head_`. -/
lemma copies (h : WeakInv k s q) {head : ℕ} (hidle : s.consumer.inCall = false)
    (hhead : head = s.known .consumer .head % 2^k)
    (hlt : s.known .consumer .head < s.known .consumer .tail) :
    WeakInv k (s.touch .consumer head) q := by
  obtain ⟨hknown,hlatest,v,q',rfl,-⟩ := h.front_cell hidle hhead hlt
  have hown : s.known .consumer .head+1 = _ := h.sound.own .head
  exact
    { session := h.session
      sound := h.sound.access _ _
      counts := h.counts
      tail_length := h.tail_length
      head_length := h.head_length
      room := by simpa [WeakSession.touch, RaMemory.access] using h.room
      ahead := by simpa [WeakSession.touch, RaMemory.access] using h.ahead
      produced := h.produced.access_of_ne (by decide) _
      consumed := by
        rw [hhead, hknown]
        refine h.consumed.access_self (le_refl _) h.popped_lt ?_
        omega
      raced_eq := by
        have hraces := h.pop_races hlatest (hown ▸ hlt)
        change (s.raced || _) = false
        rw [h.raced_eq, hraces]
        rfl }

end WeakInv

/-- The thread that asks knows of `stored` values. -/
def SpscAnswer.Tells (stored : ℕ) : SpscAnswer α → Prop
  | .count n => n = stored
  | .empty e => e = decide (stored = 0)
  | .out ok _ => ok = decide (0 < stored)
  | _ => True

/-- Only the consumer may copy from a slot. -/
def SpscQuery.Permitted (t : SpscThread) (c : SpscQuery) : Prop := c = .peek → t = .consumer

/-- The locals of a query by `t` agree with the newest writes `head` and `tail` that it knows. -/
def QueryPc.Fits (k : ℕ) (t : SpscThread) (head tail : ℕ) : QueryPc α → Prop
  | .idle _ => True
  | .loadHead c => c.Permitted t
  | .loadTail c h => c.Permitted t ∧ h = head % 2^k
  | .copy h => t = .consumer ∧ h = head % 2^k ∧ head < tail

/-- The loads of a query tell how many values its thread knows to be stored. -/
lemma SpscQuery.next_spec {k head tail : ℕ} {t : SpscThread} {c : SpscQuery}
    (hc : c.Permitted t) (hle : head ≤ tail) (hlt : tail < head+2^k) :
    ((c.next (2^k) (head % 2^k) (tail % 2^k) : QueryPc α)).Fits k t head tail ∧
      ∀ a : SpscAnswer α, c.next (2^k) (head % 2^k) (tail % 2^k) = .idle (some a) →
        a.Tells (tail-head) := by
  obtain ⟨m,rfl⟩ : ∃ m, tail = head+m := ⟨tail-head,by omega⟩
  have hpos := Nat.two_pow_pos k
  have hmod := Nat.mod_lt head hpos
  have hindex : (head+m) % 2^k = if head % 2^k+m < 2^k then head % 2^k+m else head % 2^k+m-2^k := by
    rw [← ring_index hmod (by omega), Nat.mod_add_mod]
  have hempty : head % 2^k = (head+m) % 2^k ↔ m = 0 := by
    rw [hindex]
    split_ifs <;> omega
  have hstored : head+m-head = m := Nat.add_sub_cancel_left head m
  rw [hstored]
  cases c with
  | peek =>
    rw [next]
    split_ifs with h
    · refine ⟨trivial,fun a ha => ?_⟩
      cases ha
      simp [SpscAnswer.Tells, hempty.mp h]
    · have hm : m ≠ 0 := h ∘ hempty.mpr
      exact ⟨⟨hc rfl,rfl,by omega⟩,nofun⟩
  | empty =>
    refine ⟨trivial,fun a ha => ?_⟩
    cases ha
    exact decide_eq_decide.mpr hempty
  | size =>
    refine ⟨trivial,fun a ha => ?_⟩
    cases ha
    rw [SpscAnswer.Tells, hindex]
    split_ifs <;> omega

/-- The state between calls and queries: a thread is in one of them at a time. -/
structure QueryInv (k : ℕ) (s : WeakSession α) (q : List α) : Prop where
  weak : WeakInv k s q
  alone : ∀ t, (s.query t).inCall = true → s.calling t = false
  fits : ∀ t, (s.query t).Fits k t (s.known t .head) (s.known t .tail)

namespace QueryInv
variable {k : ℕ} {s t : WeakSession α} {q : List α}

theorem init (k : ℕ) : QueryInv k (WeakSession.init α k) [] :=
  ⟨WeakInv.init k,nofun,fun _ => trivial⟩

lemma query_idle (h : QueryInv k s q) {u : SpscThread} (hu : s.calling u = true) :
    (s.query u).inCall = false := by
  by_contra hquery
  rw [Bool.not_eq_false] at hquery
  rw [h.alone u hquery] at hu
  cases hu

lemma fits_of_idle {head tail : ℕ} {u : SpscThread} {pc : QueryPc α} (h : pc.inCall = false) :
    pc.Fits k u head tail := by
  cases pc with
  | idle a => trivial
  | loadHead | loadTail | copy => cases h

/-- A step of a thread that is in no query. -/
lemma of_others (h : QueryInv k s q) {u : SpscThread} {q' : List α} (ht : WeakInv k t q')
    (hidle : (s.query u).inCall = false) (hquery : t.query = s.query)
    (hothers : ∀ w, w ≠ u → t.calling w = s.calling w) (hadds : RaMemory.Adds u s.mem t.mem) :
    QueryInv k t q' := by
  refine ⟨ht,fun w hw => ?_,fun w => ?_⟩
  · rw [hquery] at hw
    by_cases hwu : w = u
    · rw [hwu, hidle] at hw
      cases hw
    · rw [hothers w hwu]
      exact h.alone w hw
  · rw [hquery]
    by_cases hwu : w = u
    · rw [hwu]
      exact fits_of_idle hidle
    · simp only [WeakSession.known, hadds.others w hwu]
      exact h.fits w

/-- A step of a call leaves the queries as they are. -/
lemma of_callStep (h : QueryInv k s q) {u : SpscThread} {q' : List α} (ht : WeakInv k t q')
    (hs : CallStep u s t) : QueryInv k t q' :=
  h.of_others ht (h.query_idle hs.calling) hs.query_eq hs.others hs.adds

lemma adds_observe {u : SpscThread} {n : ℕ} (hs : s.observe u n = some t) :
    RaMemory.Adds u s.mem t.mem ∧ t.pushed = s.pushed ∧ t.popped = s.popped ∧
      t.calling = s.calling ∧ ∃ pc, t.query = Function.update s.query u pc := by
  unfold WeakSession.observe at hs
  split at hs
  · cases hs
  · obtain ⟨⟨head,mem⟩,hl,rfl⟩ := Option.map_eq_some_iff.mp hs
    exact ⟨RaMemory.adds_load hl,rfl,rfl,rfl,_,rfl⟩
  · obtain ⟨⟨tail,mem⟩,hl,rfl⟩ := Option.map_eq_some_iff.mp hs
    exact ⟨RaMemory.adds_load hl,rfl,rfl,rfl,_,rfl⟩
  · split at hs
    · cases hs
      exact ⟨RaMemory.adds_access _ _ _,rfl,rfl,rfl,_,rfl⟩
    · cases hs

/-- A load of `tail_` leaves what its thread knows of `head_`. -/
lemma known_head_of_load (h : WeakInv k s q) {u : SpscThread} {n value : ℕ}
    {mem : RaMemory SpscThread SpscIndex ℕ} (hl : s.mem.load u .tail n true = some (value,mem)) :
    mem.view u (.inr .head) = s.known u .head := by
  cases u with
  | producer =>
    obtain ⟨-,-,rfl⟩ := h.sound.load_own (t := .producer) rfl hl
    rfl
  | consumer =>
    obtain ⟨-,-,-,-,v,rfl,-,-,hown⟩ := h.acquires hl
    rw [RaMemory.learn_view_self]
    exact hown .head rfl

/-- One step of a query by `u`, with what holds of its locals and of its answer after it. -/
lemma observe_self (h : QueryInv k s q) {u : SpscThread} {n : ℕ}
    (hs : s.observe u n = some t) : WeakInv k t q ∧ (s.query u).inCall = true ∧
      (t.query u).Fits k u (t.known u .head) (t.known u .tail) ∧
      ∀ a, t.query u = .idle (some a) → a.Tells (t.known u .tail-t.known u .head) := by
  have hfits := h.fits u
  unfold WeakSession.observe at hs
  split at hs
  · cases hs
  · next c hquery =>
    obtain ⟨⟨head,mem⟩,hl,rfl⟩ := Option.map_eq_some_iff.mp hs
    rw [hquery] at hfits
    obtain ⟨h',hvalue,-,-,v,rfl,-,hat,-⟩ := h.weak.acquires hl
    refine ⟨h'.setQuery _,by rw [hquery]; rfl,?_,fun a ha => ?_⟩
    · simp only [Function.update_self, WeakSession.known, RaMemory.learn_view_self, hat]
      exact ⟨hfits,hvalue⟩
    · simp only [Function.update_self, reduceCtorEq] at ha
  · next c head hquery =>
    obtain ⟨⟨tail,mem⟩,hl,rfl⟩ := Option.map_eq_some_iff.mp hs
    rw [hquery] at hfits
    obtain ⟨hpermitted,rfl⟩ := hfits
    have hkept := known_head_of_load h.weak hl
    obtain ⟨h',rfl,-,-,v,hmem,-,hat,-⟩ := h.weak.acquires hl
    have htail : mem.view u (.inr .tail) = n := by rw [hmem, RaMemory.learn_view_self, hat]
    obtain ⟨hle,hlt⟩ := h'.known_le u
    have hspec := SpscQuery.next_spec (α := α) hpermitted hle hlt
    simp only [WeakSession.known, hkept, htail] at hspec
    refine ⟨h'.setQuery _,by rw [hquery]; rfl,?_⟩
    simp only [Function.update_self, WeakSession.known, hkept, htail,
      show s.capacity_ = 2^k from h.weak.session.capacity_eq]
    exact hspec
  · next head hquery =>
    rw [hquery] at hfits
    obtain ⟨rfl,hhead,hlt⟩ := hfits
    have halone := h.alone .consumer (by rw [hquery]; rfl)
    split at hs
    · next v hslot =>
      cases hs
      refine ⟨(h.weak.copies halone hhead hlt).setQuery _,by rw [hquery]; rfl,?_,fun a ha => ?_⟩
      · simp only [Function.update_self]
        trivial
      · simp only [Function.update_self, QueryPc.idle.injEq, Option.some.injEq] at ha
        subst ha
        have hpos : 0 < s.known .consumer .tail-s.known .consumer .head := Nat.sub_pos_of_lt hlt
        simpa [SpscAnswer.Tells, WeakSession.known, WeakSession.touch, RaMemory.access] using hpos
    · cases hs

lemma observe (h : QueryInv k s q) {u : SpscThread} {n : ℕ} (hs : s.observe u n = some t) :
    QueryInv k t q := by
  obtain ⟨hweak,hquery,hfits,-⟩ := h.observe_self hs
  obtain ⟨hadds,-,-,hcalling,pc,hupdate⟩ := adds_observe hs
  refine ⟨hweak,fun w hw => ?_,fun w => ?_⟩
  · rw [hcalling]
    by_cases hwu : w = u
    · rw [hwu]
      exact h.alone u hquery
    · rw [hupdate, Function.update_of_ne hwu] at hw
      exact h.alone w hw
  · by_cases hwu : w = u
    · rw [hwu]
      exact hfits
    · rw [hupdate, Function.update_of_ne hwu]
      simp only [WeakSession.known, hadds.others w hwu]
      exact h.fits w

end QueryInv

/-- A query that would race with a pop. -/
def WeakAction.peeksAside : WeakAction α → Bool
  | .ask .producer .peek => true
  | _ => false

/-- The steps of a program in which only the consumer peeks. -/
def WeakSession.sourceStep : WeakSession α → WeakAction α → Option (WeakSession α) :=
  restrict (fun _ a => !a.peeksAside) (WeakSession.step .source)

namespace QueryInv
variable {k : ℕ} {s t : WeakSession α} {q : List α}

theorem step (h : QueryInv k s q) {a : WeakAction α} (hs : s.sourceStep a = some t) :
    (∃ q', QueryInv k t q') ∧ Later s t := by
  obtain ⟨hok,hs⟩ := restrict_eq_some.mp hs
  cases a with
  | call c =>
    rw [WeakSession.step] at hs
    split_ifs at hs with hcall
    obtain ⟨hcalling,hidle⟩ := WeakSession.inCall_eq_false.mp (Bool.not_eq_true _ ▸ hcall)
    obtain ⟨ret,hp⟩ := ProducerPc.inCall_eq_false.mp hcalling
    cases hs
    have hroom := h.weak.room
    rw [hp] at hroom
    have hweak := (h.weak.setProducer (by rw [hp]; rfl) trivial hroom :
      WeakInv k { s with producer := .loadTail c.value } q)
    exact ⟨⟨q,h.of_others hweak hidle rfl (WeakInv.calling_of_consumer_eq rfl)
      (RaMemory.Adds.refl _ _)⟩,Later.of_eq rfl rfl rfl⟩
  | callPop =>
    rw [WeakSession.step] at hs
    split_ifs at hs with hcall
    obtain ⟨hcalling,hidle⟩ := WeakSession.inCall_eq_false.mp (Bool.not_eq_true _ ▸ hcall)
    obtain ⟨ret,hc⟩ := ConsumerPc.inCall_eq_false.mp hcalling
    cases hs
    have hahead := h.weak.ahead
    rw [hc] at hahead
    have hweak := (h.weak.setConsumer (by rw [hc]; rfl) (by rw [hc]; rfl)
      trivial hahead : WeakInv k { s with consumer := .loadHead } q)
    exact ⟨⟨q,h.of_others hweak hidle rfl (WeakInv.calling_of_producer_eq rfl)
      (RaMemory.Adds.refl _ _)⟩,Later.of_eq rfl rfl rfl⟩
  | ask u c =>
    rw [WeakSession.step] at hs
    split_ifs at hs with hcall
    obtain ⟨hcalling,-⟩ := WeakSession.inCall_eq_false.mp (Bool.not_eq_true _ ▸ hcall)
    cases hs
    refine ⟨⟨q,h.weak.setQuery _,fun w hw => ?_,fun w => ?_⟩,Later.of_eq rfl rfl rfl⟩
    · by_cases hwu : w = u
      · rw [hwu]
        exact hcalling
      · simp only [Function.update_of_ne hwu] at hw
        exact h.alone w hw
    · by_cases hwu : w = u
      · subst hwu
        simp only [Function.update_self]
        intro hpeek
        cases w with
        | producer => simp [hpeek, WeakAction.peeksAside] at hok
        | consumer => rfl
      · simp only [Function.update_of_ne hwu]
        exact h.fits w
  | produce n =>
    obtain ⟨q',hq'⟩ := h.weak.produce hs
    have hstep := h.weak.produce_callStep hs
    exact ⟨⟨q',h.of_callStep hq' hstep⟩,hstep.later⟩
  | consume n =>
    obtain ⟨q',hq'⟩ := h.weak.consume hs
    have hstep := h.weak.consume_callStep hs
    exact ⟨⟨q',h.of_callStep hq' hstep⟩,hstep.later⟩
  | observe u n =>
    obtain ⟨hadds,hpushed,hpopped,-⟩ := adds_observe hs
    refine ⟨⟨q,h.observe hs⟩,hadds.le,?_,?_⟩
    · rw [hpushed]
    · rw [hpopped]

theorem run {as : List (WeakAction α)}
    (h : run WeakSession.sourceStep (WeakSession.init α k) as = some s) :
    ∃ q, QueryInv k s q := by
  refine run_invariant (I := fun s => ∃ q, QueryInv k s q) ?_ h ⟨[],QueryInv.init k⟩
  rintro s a t ⟨q,hq⟩ hs
  exact (hq.step hs).1

/-- What comes after a reachable state. -/
lemma later_run (h : QueryInv k s q) {as : List (WeakAction α)}
    (hs : Foundation.run WeakSession.sourceStep s as = some t) :
    (∃ q', QueryInv k t q') ∧ Later s t := by
  refine run_invariant (I := fun t => (∃ q', QueryInv k t q') ∧ Later s t) ?_ hs
    ⟨⟨q,h⟩,Later.of_eq rfl rfl rfl⟩
  rintro u a v ⟨⟨q',hq'⟩,hlater⟩ hv
  obtain ⟨hinv,hnext⟩ := hq'.step hv
  exact ⟨hinv,hlater.trans hnext⟩

end QueryInv
namespace WeakInv
variable {k : ℕ} {s t : WeakSession α} {q : List α}

/-- A push that is refused was full in the eyes of the producer. -/
lemma full_of_refused (h : WeakInv k s q) {n : ℕ} (hs : s.produce .source n = some t)
    (ht : t.producer = .idle (some false)) :
    s.pushed.length+1 = t.known .producer .head+2^k := by
  have hfits := h.session.producing.fits
  rw [WeakSession.produce] at hs
  cases hp : s.producer with
  | idle ret => simp only [hp, reduceCtorEq] at hs
  | loadTail v =>
    simp only [hp, Option.map_eq_some_iff] at hs
    obtain ⟨⟨tail,mem⟩,-,rfl⟩ := hs
    cases ht
  | loadHead v tail next =>
    rw [show s.toSession.producer = _ from hp] at hfits
    obtain ⟨rfl,rfl⟩ := hfits
    simp only [hp, Option.map_eq_some_iff] at hs
    obtain ⟨⟨head,mem⟩,hl,rfl⟩ := hs
    obtain ⟨-,rfl,hle,hlt,v',rfl,-,hat,-⟩ := h.acquires hl
    split_ifs at ht ⊢ with hfull
    have hroom : s.pushed.length+1+s.producer.claimed ≤ s.mem.view .producer (.inr .head)+2^k :=
      h.room
    have hlengths := h.lengths
    have htail := h.tail_length
    have hmod : n ≡ s.pushed.length+1 [MOD 2^k] := by
      change (s.mem.latest .tail+1) % 2^k = n % 2^k at hfull
      rw [h.latest_eq htail, Nat.mod_add_mod] at hfull
      exact hfull.symm
    have hturn := hmod.add_le_of_lt (by omega)
    simp only [WeakSession.known, RaMemory.learn_view_self, hat]
    omega
  | construct v tail next =>
    simp only [hp, Option.some.injEq] at hs
    subst hs
    cases ht
  | storeTail v next =>
    simp only [hp, Option.some.injEq] at hs
    subst hs
    cases ht

/-- A pop that is refused was empty in the eyes of the consumer. -/
lemma empty_of_refused (h : WeakInv k s q) {n : ℕ} (hs : s.consume .source n = some t)
    (ht : t.consumer = .idle (some false)) :
    s.popped.length = t.known .consumer .tail := by
  have hfits := h.session.consumer_fits
  have hhead := h.head_length
  have hahead := h.ahead
  rw [WeakSession.consume] at hs
  cases hc : s.consumer with
  | idle ret => simp only [hc, reduceCtorEq] at hs
  | loadHead =>
    simp only [hc, Option.map_eq_some_iff] at hs
    obtain ⟨⟨head,mem⟩,-,rfl⟩ := hs
    cases ht
  | loadTail head =>
    rw [show s.toSession.consumer = _ from hc] at hfits
    obtain rfl : head = s.mem.latest .head := hfits
    simp only [hc, Option.map_eq_some_iff] at hs
    obtain ⟨⟨tail,mem⟩,hl,rfl⟩ := hs
    obtain ⟨-,rfl,hle,hlt,v',rfl,-,hat,-⟩ := h.acquires hl
    split_ifs at ht ⊢ with hempty
    simp only [hc, ConsumerPc.cleared, ConsumerPc.front, ConsumerPc.found, List.length_nil,
      Nat.add_zero] at hhead hahead
    have hlengths := h.lengths
    have hfree : s.toSession.used q+s.producer.back.length < 2^k := h.session.producing.room
    have hmod : s.popped.length ≡ n [MOD 2^k] := by
      rw [h.latest_eq hhead] at hempty
      exact hempty
    simp only [WeakSession.known, RaMemory.learn_view_self, hat]
    by_contra hne
    have hturn := hmod.add_le_of_lt (by omega)
    omega
  | move head =>
    obtain ⟨v,q',hslot,-⟩ := h.moves hc
    simp only [hc, hslot, Option.some.injEq] at hs
    subst hs
    cases ht
  | destroy head =>
    simp only [hc, Option.some.injEq] at hs
    subst hs
    cases ht
  | storeHead next =>
    simp only [hc, Option.some.injEq] at hs
    subst hs
    cases ht

end WeakInv

/-- What `peek` copied is the next value to be popped. -/
lemma QueryInv.observe_peeks {k : ℕ} {s t : WeakSession α} {q : List α} (h : QueryInv k s q)
    {u : SpscThread} {n : ℕ} {v : α} (hs : s.observe u n = some t)
    (ht : t.query u = .idle (some (.out true (some v)))) :
    t.pushed[t.popped.length]? = some v := by
  have hfits := h.fits u
  unfold WeakSession.observe at hs
  split at hs
  · cases hs
  · obtain ⟨⟨head,mem⟩,-,rfl⟩ := Option.map_eq_some_iff.mp hs
    simp only [Function.update_self, reduceCtorEq] at ht
  · next c head hquery =>
    obtain ⟨⟨tail,mem⟩,-,rfl⟩ := Option.map_eq_some_iff.mp hs
    simp only [Function.update_self] at ht
    cases c with
    | peek =>
      rw [SpscQuery.next] at ht
      split_ifs at ht
      simp at ht
    | empty | size => simp [SpscQuery.next] at ht
  · next head hquery =>
    rw [hquery] at hfits
    obtain ⟨rfl,hhead,hlt⟩ := hfits
    have halone := h.alone .consumer (by rw [hquery]; rfl)
    obtain ⟨-,-,w,q',rfl,hslot⟩ := h.weak.front_cell halone hhead hlt
    simp only [hslot, Option.some.injEq] at hs
    subst hs
    simp only [Function.update_self, QueryPc.idle.injEq, Option.some.injEq, SpscAnswer.out.injEq,
      true_and] at ht
    have hpushed : s.pushed = s.popped ++ w::q' := h.weak.session.pushed_eq
    simp [WeakSession.touch, hpushed, ht]

namespace WeakSession

/-- What a thread has pushed or popped. -/
def moved (s : WeakSession α) : SpscThread → ℕ
  | .producer => s.pushed.length
  | .consumer => s.popped.length

/-- The last push or pop of the thread returned false. -/
def refused (s : WeakSession α) : SpscThread → Prop
  | .producer => s.producer = .idle (some false)
  | .consumer => s.consumer = .idle (some false)

/-- What the thread can push or pop where `stored` values are in the queue. -/
def spare (s : WeakSession α) (stored : ℕ) : SpscThread → ℕ
  | .producer => s.capacity_-1-stored
  | .consumer => stored

end WeakSession

/-- The next step of a push or a pop. -/
def SpscThread.turn (n : ℕ) : SpscThread → WeakAction α
  | .producer => .produce n
  | .consumer => .consume n

/-- What the answer `a` to thread `u` is worth from then on: the thread is not refused before
it has moved as many values as it was told that it can, and the next value to be popped is the one
that it was shown. -/
structure WeakSession.Promises (t : WeakSession α) (u : SpscThread) (a : SpscAnswer α) : Prop where
  unrefused : ∃ stored, a.Tells stored ∧ ∀ bs n v w, run sourceStep t bs = some v →
    v.sourceStep (u.turn n) = some w → w.refused u → t.moved u+t.spare stored u ≤ v.moved u
  shown : ∀ x, a = .out true (some x) → ∀ bs v, run sourceStep t bs = some v →
    t.popped.length < v.popped.length → v.popped[t.popped.length]? = some x

/-- What a thread knows when it is refused. -/
lemma WeakInv.known_of_refused {k : ℕ} {s t : WeakSession α} {q : List α} (h : WeakInv k s q)
    {u : SpscThread} {n : ℕ} (hs : s.sourceStep (u.turn n) = some t) (ht : t.refused u) :
    match u with
    | .producer => s.moved u+1 = t.known u .head+2^k
    | .consumer => s.moved u = t.known u .tail := by
  obtain ⟨-,hs⟩ := restrict_eq_some.mp hs
  cases u with
  | producer => exact h.full_of_refused hs ht
  | consumer => exact h.empty_of_refused hs ht

/-- A thread in no call has pushed or popped as often as it has stored its index. -/
lemma WeakInv.moved_eq {k : ℕ} {s : WeakSession α} {q : List α} (h : WeakInv k s q)
    {u : SpscThread} (hu : s.calling u = false) :
    match u with
    | .producer => s.moved u = s.known u .tail
    | .consumer => s.moved u = s.known u .head := by
  cases u with
  | producer =>
    have htail := h.tail_length
    have hown : s.known .producer .tail+1 = _ := h.sound.own .tail
    change s.pushed.length = _
    omega
  | consumer =>
    obtain ⟨ret,hc⟩ := ConsumerPc.inCall_eq_false.mp hu
    have hhead := h.head_length
    have hown : s.known .consumer .head+1 = _ := h.sound.own .head
    simp only [hc, ConsumerPc.cleared, ConsumerPc.front, List.length_nil] at hhead
    change s.popped.length = _
    omega

theorem WeakSession.promises_run {k : ℕ} {as : List (WeakAction α)} {s t : WeakSession α}
    {u : SpscThread} {n : ℕ} {a : SpscAnswer α}
    (h : run sourceStep (WeakSession.init α k) as = some s)
    (hs : s.sourceStep (.observe u n) = some t) (ha : t.query u = .idle (some a)) :
    t.Promises u a := by
  obtain ⟨q,hq⟩ := QueryInv.run h
  obtain ⟨⟨q',ht⟩,-⟩ := hq.step hs
  obtain ⟨-,hobserve⟩ := restrict_eq_some.mp hs
  obtain ⟨-,hquery,-,htells⟩ := hq.observe_self hobserve
  obtain ⟨-,-,-,hcalling,-⟩ := QueryInv.adds_observe hobserve
  have hidle : t.calling u = false := by
    rw [hcalling]
    exact hq.alone u hquery
  have hmoved := ht.weak.moved_eq hidle
  obtain ⟨hle,hlt⟩ := ht.weak.known_le u
  have hcapacity : t.capacity_ = 2^k := ht.weak.session.capacity_eq
  refine ⟨⟨_,htells a ha,fun bs n' v w hv hw hrefused => ?_⟩,?_⟩
  · obtain ⟨⟨q₁,hq₁⟩,hlater⟩ := ht.later_run hv
    obtain ⟨-,hnext⟩ := hq₁.step hw
    have hrefusal := hq₁.weak.known_of_refused hw hrefused
    have hmono := fun x => (hlater.known_le.trans hnext.known_le) u (.inr x)
    cases u with
    | producer =>
      have hhead : t.known .producer .head ≤ w.known .producer .head := hmono .head
      simp only [spare, hcapacity] at hmoved hrefusal ⊢
      omega
    | consumer =>
      have htail : t.known .consumer .tail ≤ w.known .consumer .tail := hmono .tail
      simp only [spare] at hmoved hrefusal ⊢
      omega
  · rintro x rfl bs v hv hpopped
    have hshown := hq.observe_peeks hobserve ha
    obtain ⟨⟨q₁,hq₁⟩,hlater⟩ := ht.later_run hv
    have hfifo : v.popped <+: v.pushed := ⟨q₁,hq₁.weak.session.pushed_eq.symm⟩
    rw [List.getElem?_eq_getElem hpopped, hfifo.getElem hpopped, ← hshown]
    obtain ⟨hlt,hget⟩ := List.getElem?_eq_some_iff.mp hshown
    rw [hshown, ← hget, hlater.pushed_prefix.getElem hlt]

/-- Two slots: a value has been pushed, and the consumer asks for the size. -/
def askSize : List (WeakAction ℕ) :=
  [.call (.tryPush 5),.produce 0,.produce 0,.produce 0,.produce 0,.ask .consumer .size,
    .observe .consumer 0]

theorem WeakSession.promises_size :
    ∃ t : WeakSession ℕ, run WeakSession.sourceStep (WeakSession.init ℕ 1)
      (askSize ++ [.observe .consumer 1]) = some t ∧ t.Promises .consumer (.count 1) := by
  have hs : run WeakSession.sourceStep (WeakSession.init ℕ 1) askSize = some _ := rfl
  exact ⟨_,rfl,WeakSession.promises_run (n := 1) hs rfl rfl⟩

end Astlog
