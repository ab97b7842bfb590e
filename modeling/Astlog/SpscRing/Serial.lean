import Astlog.SpscRing.Construction
import Astlog.SpscRing.Fifo
import Astlog.Foundation.RawStorage

/-! `SPSCQueue` called by one thread at a time: a queue of bounded length, each object in
whose slots is destroyed once. -/
namespace Astlog
open Foundation

/-- A call on the queue. -/
inductive SpscCall (α : Type)
  | push (c : PushCall α)
  | tryPop
  | peek
  | empty
  | size
  | capacity
  | clear
  deriving DecidableEq

/-- What a call returns, with what it assigns to its argument `out`. -/
inductive SpscAnswer (α : Type)
  | pushed (ok : Bool)
  | out (ok : Bool) (v : Option α)
  | empty (e : Bool)
  | count (n : ℕ)
  | done
  /-- A loop has not ended within the rounds it was given. -/
  | unfinished
  deriving DecidableEq

variable {α : Type}

/-- A queue of at most `n` values, oldest first. -/
def boundedQueue (n : ℕ) (xs : List α) : SpscCall α → List α × SpscAnswer α
  | .push c => if xs.length < n then (xs ++ [c.value],.pushed true) else (xs,.pushed false)
  | .tryPop => (xs.tail,.out (!xs.isEmpty) xs.head?)
  | .peek => (xs,.out (!xs.isEmpty) xs.head?)
  | .empty => (xs,.empty xs.isEmpty)
  | .size => (xs,.count xs.length)
  | .capacity => (xs,.count n)
  | .clear => ([],.done)

namespace SPSCQueue

/-- `try_push` and `try_emplace`, which have the same body. -/
def tryPush (q : SPSCQueue α) (v : α) : SPSCQueue α × Bool :=
  if (q.tail_+1) &&& q.mask_ = q.head_ then (q,false)
  else
    ({ q with
        storage_ := q.storage_.set q.tail_ (some (.value v))
        tail_ := (q.tail_+1) &&& q.mask_ },true)

/-- The value that is copied or moved out of a slot, if there is one. -/
def valueAt (q : SPSCQueue α) (idx : ℕ) : Option α :=
  match q.storage_[idx]? with
  | some (some (.value v)) => some v
  | _ => none

/-- The front slot is moved from and destroyed, and `head_` steps past it. -/
def dropFront (q : SPSCQueue α) : SPSCQueue α :=
  { q with
    storage_ := (q.storage_.set q.head_ (some .movedFrom)).set q.head_ none
    head_ := (q.head_+1) &&& q.mask_ }

def tryPop (q : SPSCQueue α) : SPSCQueue α × Bool × Option α :=
  if q.head_ = q.tail_ then (q,false,none) else (q.dropFront,true,q.valueAt q.head_)

def peek (q : SPSCQueue α) : Bool × Option α :=
  if q.head_ = q.tail_ then (false,none) else (true,q.valueAt q.head_)

def empty (q : SPSCQueue α) : Bool := q.head_ = q.tail_

def size (q : SPSCQueue α) : ℕ :=
  if q.tail_ ≥ q.head_ then q.tail_-q.head_ else (q.capacity_-q.head_)+q.tail_

/-- What happens in the slots during `try_push`. -/
def pushEvents (q : SPSCQueue α) (v : α) : List (SlotEvent (SlotObject α)) :=
  if (q.tail_+1) &&& q.mask_ = q.head_ then [] else [.construct q.tail_ (.value v)]

def popEvents (q : SPSCQueue α) : List (SlotEvent (SlotObject α)) :=
  if q.head_ = q.tail_ then [] else [.assign q.head_ .movedFrom,.destroy q.head_]

/-- `while (try_pop(tmp)) {}`, if it ends within `fuel` rounds, with what happens in the slots. -/
def clear : ℕ → SPSCQueue α → Option (SPSCQueue α × List (SlotEvent (SlotObject α)))
  | 0, _ => none
  | fuel+1, q =>
    if q.tryPop.2.1 then (clear fuel q.tryPop.1).map fun (q',es) => (q',q.popEvents ++ es)
    else some (q,[])

/-- The loop of the destructor from index `h` on, if it ends within `fuel` rounds. -/
def destroyFrom (q : SPSCQueue α) : ℕ → ℕ → Option (List (SlotEvent (SlotObject α)))
  | 0, _ => none
  | fuel+1, h =>
    if h = q.tail_ then some []
    else (q.destroyFrom fuel ((h+1) &&& q.mask_)).map (.destroy h::·)

/-- `clear` gets as many rounds as there are slots. -/
def call (q : SPSCQueue α) : SpscCall α → SPSCQueue α × SpscAnswer α
  | .push c => ((q.tryPush c.value).1,.pushed (q.tryPush c.value).2)
  | .tryPop => (q.tryPop.1,.out q.tryPop.2.1 q.tryPop.2.2)
  | .peek => (q,.out q.peek.1 q.peek.2)
  | .empty => (q,.empty q.empty)
  | .size => (q,.count q.size)
  | .capacity => (q,.count q.capacity)
  | .clear =>
    match q.clear q.capacity_ with
    | some (q',_) => (q',.done)
    | none => (q,.unfinished)

/-- What happens in the slots during a call. -/
def events (q : SPSCQueue α) : SpscCall α → List (SlotEvent (SlotObject α))
  | .push c => q.pushEvents c.value
  | .tryPop => q.popEvents
  | .clear =>
    match q.clear q.capacity_ with
    | some (_,es) => es
    | none => []
  | _ => []

/-- What happens in the slots during the life of a queue: the calls, then the destructor,
whose loop gets as many rounds as there are slots. -/
def lifetime (q : SPSCQueue α) (cs : List (SpscCall α)) :
    Option (List (SlotEvent (SlotObject α))) :=
  let last := afterCalls call q cs
  (last.destroyFrom last.capacity_ last.head_).map (emitted call events q cs ++ ·)

/-- A queue of `2^k` slots that holds exactly `xs`. -/
structure Holds (k : ℕ) (q : SPSCQueue α) (xs : List α) : Prop where
  capacity_eq : q.capacity_ = 2^k
  mask_eq : q.mask_ = 2^k-1
  ring : RingHolds (2^k) q.storage_ q.head_ q.tail_ (xs.map .value)

lemma holds_construct (k : ℕ) : Holds k (construct α k) [] :=
  ⟨rfl,rfl,RingHolds.nil (Nat.two_pow_pos k)⟩

namespace Holds
variable {k : ℕ} {q : SPSCQueue α} {xs : List α}

lemma fits (h : Holds k q xs) : xs.length < 2^k := by
  have hf := h.ring.fits
  rwa [List.length_map] at hf

lemma lt_capacity (h : Holds k q xs) : xs.length < q.capacity_ := by
  rw [h.capacity_eq]
  exact h.fits

lemma empty_iff (h : Holds k q xs) : q.head_ = q.tail_ ↔ xs = [] :=
  h.ring.head_eq_tail_iff.trans List.map_eq_nil_iff

lemma head_ne_tail {x : α} (h : Holds k q (x::xs)) : q.head_ ≠ q.tail_ :=
  RingHolds.head_ne_tail h.ring

lemma full_iff (h : Holds k q xs) : (q.tail_+1) &&& q.mask_ = q.head_ ↔ xs.length = 2^k-1 := by
  have hf := h.fits
  rw [next_eq h.mask_eq, h.ring.next_tail_eq_head_iff, List.length_map]
  omega

lemma size_eq (h : Holds k q xs) : q.size = xs.length := by
  have hl := h.ring.length_eq
  rw [List.length_map] at hl
  rw [size, h.capacity_eq]
  exact hl

lemma valueAt_head {x : α} (h : Holds k q (x::xs)) : q.valueAt q.head_ = some x := by
  rw [valueAt, h.ring.head_cell]

lemma dropFront {x : α} (h : Holds k q (x::xs)) : Holds k q.dropFront xs where
  capacity_eq := h.capacity_eq
  mask_eq := h.mask_eq
  ring := by
    have hr := h.ring.pop
    rw [SPSCQueue.dropFront, List.set_set, next_eq h.mask_eq]
    exact hr

lemma dropFront_replays {x : α} (h : Holds k q (x::xs)) :
    Replays q.storage_ [.assign q.head_ .movedFrom,.destroy q.head_] q.dropFront.storage_ :=
  (Replays.assign h.ring.head_cell .movedFrom).append
    (Replays.destroy (h.ring.replace .movedFrom).head_cell)

/-- A push succeeds exactly when there is room, and otherwise changes nothing. -/
lemma tryPush (h : Holds k q xs) (v : α) :
    q.tryPush v = (q,false) ∧ xs.length = 2^k-1 ∧ q.pushEvents v = [] ∨
    xs.length < 2^k-1 ∧ (q.tryPush v).2 = true ∧ Holds k (q.tryPush v).1 (xs ++ [v]) ∧
      Replays q.storage_ (q.pushEvents v) (q.tryPush v).1.storage_ := by
  have hfull := h.full_iff
  have hfits := h.fits
  unfold SPSCQueue.tryPush pushEvents
  by_cases hl : xs.length = 2^k-1
  · left
    rw [if_pos (hfull.mpr hl), if_pos (hfull.mpr hl)]
    exact ⟨rfl,hl,rfl⟩
  · right
    rw [if_neg (fun hf => hl (hfull.mp hf)), if_neg (fun hf => hl (hfull.mp hf))]
    refine ⟨by omega,rfl,⟨h.capacity_eq,h.mask_eq,?_⟩,Replays.construct h.ring.tail_vacant _⟩
    have hpush := h.ring.push (by rw [List.length_map]; omega) (.value v)
    rw [next_eq h.mask_eq, List.map_append]
    exact hpush

lemma tryPop (h : Holds k q xs) : Holds k q.tryPop.1 xs.tail ∧
    q.tryPop.2 = (!xs.isEmpty,xs.head?) ∧ Replays q.storage_ q.popEvents q.tryPop.1.storage_ := by
  have hempty := h.empty_iff
  unfold SPSCQueue.tryPop popEvents
  cases xs with
  | nil =>
    rw [if_pos (hempty.mpr rfl), if_pos (hempty.mpr rfl)]
    exact ⟨h,rfl,Replays.nil _⟩
  | cons x xs =>
    rw [if_neg h.head_ne_tail, if_neg h.head_ne_tail]
    exact ⟨h.dropFront,by rw [h.valueAt_head]; rfl,h.dropFront_replays⟩

lemma peek_eq (h : Holds k q xs) : q.peek = (!xs.isEmpty,xs.head?) := by
  have hempty := h.empty_iff
  unfold SPSCQueue.peek
  cases xs with
  | nil => rw [if_pos (hempty.mpr rfl)]; rfl
  | cons x xs =>
    rw [if_neg h.head_ne_tail, h.valueAt_head]
    rfl

/-- The loop of `clear` ends, after one round for each value, and leaves the queue empty. -/
lemma clear (h : Holds k q xs) {fuel : ℕ} (hfuel : xs.length < fuel) :
    ∃ q' es, q.clear fuel = some (q',es) ∧ Holds k q' [] ∧
      Replays q.storage_ es q'.storage_ := by
  induction fuel generalizing q xs with
  | zero => omega
  | succ fuel ih =>
    obtain ⟨hpop,hout,hreplays⟩ := h.tryPop
    unfold SPSCQueue.clear
    rw [hout]
    cases xs with
    | nil => exact ⟨q,[],rfl,h,Replays.nil _⟩
    | cons x xs =>
      obtain ⟨q',es,hes,hq',hrest⟩ := ih hpop (by simpa using hfuel)
      exact ⟨q',q.popEvents ++ es,by simp [hes],hq',hreplays.append hrest⟩

/-- The loop of the destructor ends, and leaves every slot raw. -/
lemma destroyFrom {slots : List (Option (SlotObject α))} {i fuel : ℕ} {os : List (SlotObject α)}
    (hmask : q.mask_ = 2^k-1) (h : RingHolds (2^k) slots i q.tail_ os) (hfuel : os.length < fuel) :
    ∃ es, q.destroyFrom fuel i = some es ∧ Replays slots es (List.replicate (2^k) none) := by
  induction fuel generalizing slots i os with
  | zero => omega
  | succ fuel ih =>
    have hempty := h.head_eq_tail_iff
    unfold SPSCQueue.destroyFrom
    cases os with
    | nil =>
      rw [if_pos (hempty.mpr rfl), ← h.slots_eq_of_nil]
      exact ⟨[],rfl,Replays.nil _⟩
    | cons o os =>
      obtain ⟨es,hes,hreplays⟩ := ih h.pop (by simpa using hfuel)
      rw [if_neg h.head_ne_tail, next_eq hmask, hes]
      exact ⟨.destroy i::es,rfl,(Replays.destroy h.head_cell).append hreplays⟩

/-- Each call answers as the bounded queue, and acts like it. -/
lemma call (h : Holds k q xs) (c : SpscCall α) :
    Holds k (q.call c).1 (boundedQueue (2^k-1) xs c).1 ∧
      (q.call c).2 = (boundedQueue (2^k-1) xs c).2 := by
  cases c with
  | push c =>
    rw [SPSCQueue.call, boundedQueue]
    obtain ⟨hq,hl,-⟩ | ⟨hl,hok,hq,-⟩ := h.tryPush c.value
    · rw [hq, if_neg (by omega)]
      exact ⟨h,rfl⟩
    · rw [hok, if_pos hl]
      exact ⟨hq,rfl⟩
  | tryPop =>
    obtain ⟨hpop,hout,-⟩ := h.tryPop
    refine ⟨hpop,?_⟩
    simp only [SPSCQueue.call, boundedQueue, hout]
  | peek => exact ⟨h,by simp only [SPSCQueue.call, boundedQueue, h.peek_eq]⟩
  | empty =>
    refine ⟨h,congrArg SpscAnswer.empty ?_⟩
    rw [Bool.eq_iff_iff, SPSCQueue.empty, decide_eq_true_eq, h.empty_iff, List.isEmpty_iff]
  | size => exact ⟨h,congrArg SpscAnswer.count h.size_eq⟩
  | capacity =>
    refine ⟨h,congrArg SpscAnswer.count ?_⟩
    rw [SPSCQueue.capacity, h.capacity_eq]
  | clear =>
    obtain ⟨q',es,hes,hq',-⟩ := h.clear h.lt_capacity
    simp only [SPSCQueue.call, hes]
    exact ⟨hq',rfl⟩

/-- What happens in the slots during a call is defined, and is all that the call changes. -/
lemma replays (h : Holds k q xs) (c : SpscCall α) :
    Replays q.storage_ (q.events c) (q.call c).1.storage_ := by
  cases c with
  | push c =>
    obtain ⟨hq,-,hes⟩ | ⟨-,-,-,hreplays⟩ := h.tryPush c.value
    · simp only [SPSCQueue.events, SPSCQueue.call, hq, hes]
      exact Replays.nil _
    · exact hreplays
  | tryPop => exact h.tryPop.2.2
  | peek | empty | size | capacity => exact Replays.nil _
  | clear =>
    obtain ⟨q',es,hes,-,hreplays⟩ := h.clear h.lt_capacity
    simp only [SPSCQueue.events, SPSCQueue.call, hes]
    exact hreplays

end Holds

lemma holds_afterCalls (k : ℕ) (cs : List (SpscCall α)) :
    Holds k (afterCalls call (construct α k) cs) (afterCalls (boundedQueue (2^k-1)) [] cs) ∧
      answers call (construct α k) cs = answers (boundedQueue (2^k-1)) [] cs :=
  answers_eq_of_simulation (fun _ _ c h => h.call c) (holds_construct k) cs

lemma calls_replay (k : ℕ) (cs : List (SpscCall α)) :
    Replays (List.replicate (2^k) none) (emitted call events (construct α k) cs)
      (afterCalls call (construct α k) cs).storage_ :=
  Replays.emitted (I := fun q => ∃ xs, Holds k q xs) (fun _ c ⟨_,h⟩ => ⟨_,(h.call c).1⟩)
    (fun _ c ⟨_,h⟩ => h.replays c) ⟨[],holds_construct k⟩ cs

lemma lifetime_replays (k : ℕ) (cs : List (SpscCall α)) :
    ∃ es, lifetime (construct α k) cs = some es ∧
      Replays (List.replicate (2^k) (none : Option (SlotObject α))) es
        (List.replicate (2^k) none) := by
  have hlast := (holds_afterCalls k cs).1
  obtain ⟨es,hes,hdestroy⟩ := Holds.destroyFrom hlast.mask_eq hlast.ring hlast.ring.fits
  rw [← hlast.capacity_eq] at hes
  exact ⟨_,by rw [lifetime, hes]; rfl,(calls_replay k cs).append hdestroy⟩

end SPSCQueue

namespace SpscSession

/-- A push that the other thread does not interrupt is the push on the queue alone. -/
theorem run_tryPush {s : SpscSession α} {ret : Option Bool} (hp : s.producer = .idle ret)
    (c : PushCall α) : ∃ n t, run step s (.call c::List.replicate n .produce) = some t ∧
      t.toSPSCQueue = (s.tryPush c.value).1 ∧
      t.producer = .idle (some (s.tryPush c.value).2) := by
  by_cases hfull : (s.tail_+1) &&& s.mask_ = s.head_
  · refine ⟨2,{ s with producer := .idle (some false) },?_,?_,?_⟩
    · simp [run, step, produce, hp, hfull]
    · rw [SPSCQueue.tryPush, if_pos hfull]
    · rw [SPSCQueue.tryPush, if_pos hfull]
  · refine ⟨4,{ s with
      storage_ := s.storage_.set s.tail_ (some (.value c.value))
      tail_ := (s.tail_+1) &&& s.mask_
      producer := .idle (some true)
      pushed := s.pushed ++ [c.value] },?_,?_,?_⟩
    · simp [run, step, produce, hp, hfull]
    · rw [SPSCQueue.tryPush, if_neg hfull]
    · rw [SPSCQueue.tryPush, if_neg hfull]

/-- The same of a pop, which moves out what it returns. -/
theorem run_tryPop {s : SpscSession α} {ret : Option Bool} {k : ℕ} {xs : List α}
    (hc : s.consumer = .idle ret) (h : SPSCQueue.Holds k s.toSPSCQueue xs) :
    ∃ n t, run step s (.callPop::List.replicate n .consume) = some t ∧
      t.toSPSCQueue = s.tryPop.1 ∧ t.consumer = .idle (some s.tryPop.2.1) ∧
      t.popped = s.popped ++ s.tryPop.2.2.toList := by
  have hempty := h.empty_iff
  cases xs with
  | nil =>
    have heq := hempty.mpr rfl
    refine ⟨2,{ s with consumer := .idle (some false) },?_,?_⟩
    · simp [run, step, consume, hc, heq]
    · simp [SPSCQueue.tryPop, heq]
  | cons x xs =>
    have hne := h.head_ne_tail
    refine ⟨5,{ s with
      toSPSCQueue := s.dropFront
      consumer := .idle (some true)
      popped := s.popped ++ [x] },?_,?_⟩
    · simp [run, step, consume, hc, hne, h.ring.head_cell, SPSCQueue.dropFront]
    · simp [SPSCQueue.tryPop, hne, h.valueAt_head]

end SpscSession

/-- The queue made for `c` values answers as one whose bound is `capacity()`, the least
`2^k-1` that is large enough, and the objects in its slots are those that its calls
constructed and have not destroyed. From its construction to its destruction no slot is
misused, and each object is destroyed exactly once. -/
structure BoundedFifo (α : Type) (c : ℕ) (cs : List (SpscCall α)) (q : SPSCQueue α) : Prop where
  constructed : SPSCQueue.ofCapacity α 64 c = some q
  capacity_least : IsLeast {n | c ≤ n ∧ ∃ k, n = 2^k-1} q.capacity
  answers_eq : answers SPSCQueue.call q cs = answers (boundedQueue q.capacity) [] cs
  objects : ∃ s, run RawStorage.step (RawStorage.raw (SlotObject α) q.capacity_)
      (emitted SPSCQueue.call SPSCQueue.events q cs) = some s ∧
    s.values = (afterCalls SPSCQueue.call q cs).storage_
  lifetimes : ∃ es s, q.lifetime cs = some es ∧
    run RawStorage.step (RawStorage.raw (SlotObject α) q.capacity_) es = some s ∧
    s.live = [] ∧ s.destroyed.Perm (List.range s.constructed)

lemma SPSCQueue.capacity_construct_least (α : Type) (c : ℕ) :
    IsLeast {n | c ≤ n ∧ ∃ k, n = 2^k-1} (construct α (Nat.clog 2 (c+1))).capacity := by
  have hle := Nat.le_pow_clog (b := 2) (by norm_num) (c+1)
  change IsLeast _ (2^Nat.clog 2 (c+1)-1)
  refine ⟨⟨by omega,_,rfl⟩,?_⟩
  rintro n ⟨hc,k,rfl⟩
  have hpos := Nat.two_pow_pos k
  have hclog : Nat.clog 2 (c+1) ≤ k := Nat.clog_le_of_le_pow (by omega)
  exact Nat.sub_le_sub_right (Nat.pow_le_pow_right (by norm_num) hclog) 1

/-- Every queue whose rounding does not overflow, and every sequence of calls on it. -/
theorem SPSCQueue.boundedFifo {c : ℕ} (hc : c < 2^63) (cs : List (SpscCall α)) :
    ∃ q, BoundedFifo α c cs q := by
  obtain ⟨es,hes,hreplays⟩ := lifetime_replays (Nat.clog 2 (c+1)) cs
  obtain ⟨s,hs⟩ := hreplays.balanced
  have hobjects := calls_replay (Nat.clog 2 (c+1)) cs (RawStorage.raw (SlotObject α) _)
    (RawStorage.values_raw _ _)
  exact ⟨construct α (Nat.clog 2 (c+1)),ofCapacity_eq hc (le_refl 64),
    capacity_construct_least α c,(holds_afterCalls _ cs).2,hobjects,es,s,hes,hs⟩

/-- Room for three: the fourth push is refused, and a push after a pop wraps. -/
theorem SPSCQueue.boundedFifo_two :
    ∃ q, BoundedFifo ℕ 2 [.push (.tryPush 5),.push (.tryPush 6),.push (.tryEmplace 7),
      .push (.tryPushMove 8),.tryPop,.push (.tryPush 9),.size,.peek,.clear,.empty] q :=
  SPSCQueue.boundedFifo (by norm_num) _

end Astlog
