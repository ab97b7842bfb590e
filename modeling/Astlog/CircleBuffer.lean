import Astlog.Foundation.Schedule
import Astlog.Foundation.Update
import Mathlib.Data.Multiset.Range
import Mathlib.Tactic

/-! `circleBuffer`, appended to by any number of threads. `append` loads `m_head`, exchanges
it with the loaded value plus one and stores the element in the slot that the value returned
by the exchange indexes; each of the three is a step. -/
namespace Astlog
open Foundation

/-- `circleBuffer<DataType, Size>`. -/
structure CircleBuffer (α : Type) where
  mHead : ℕ := 0
  mData : List α

/-- Where a thread is: in no `append`; past the load, with the value it gave; past the
exchange, with the value that one gave. -/
inductive AppendPc (α : Type)
  | idle
  | loaded (data : α) (head : ℕ)
  | exchanged (data : α) (old : ℕ)

/-- An `append` that has returned: its element, and what its exchange gave. -/
structure Appended (α : Type) where
  data : α
  old : ℕ

/-- The buffer and its threads. No step reads `completed`. -/
structure AppendSession (α : Type) extends CircleBuffer α where
  threads : List (AppendPc α)
  completed : List (Appended α) := []

/-- A step of an `append` by one of the threads, and with its first the element it is called with. -/
inductive AppendStep (α : Type)
  | load (thread : ℕ) (data : α)
  | exchange (thread : ℕ)
  | store (thread : ℕ)

variable {α : Type}

/-- The tickets of the exchanges whose `append` has yet to store. -/
def AppendPc.held : AppendPc α → List ℕ
  | exchanged _ old => [old]
  | _ => []

/-- What the thread has loaded, if it stands before its exchange, is below the bound. -/
def AppendPc.HeadLt (bound : ℕ) : AppendPc α → Prop
  | loaded _ head => head < bound
  | _ => True

lemma AppendPc.HeadLt.mono {bound bound' : ℕ} (hle : bound ≤ bound') {pc : AppendPc α}
    (h : pc.HeadLt bound) : pc.HeadLt bound' := by
  cases pc with
  | loaded data head => exact Nat.lt_of_lt_of_le h hle
  | idle => trivial
  | exchanged data old => trivial

/-- The slot the element was stored in. -/
def Appended.slot (Size : ℕ) (r : Appended α) : ℕ := r.old % Size

namespace AppendSession

/-- A step, in the arithmetic of `size_t`. -/
def step (Size : ℕ) (s : AppendSession α) : AppendStep α → Option (AppendSession α)
  | .load i data =>
    match s.threads[i]? with
    | some .idle => some { s with threads := s.threads.set i (.loaded data s.mHead) }
    | _ => none
  | .exchange i =>
    match s.threads[i]? with
    | some (.loaded data head) =>
      some { s with
        mHead := (head+1) % 2^64
        threads := s.threads.set i (.exchanged data s.mHead) }
    | _ => none
  | .store i =>
    match s.threads[i]? with
    | some (.exchanged data old) =>
      some { s with
        mData := s.mData.set (old % Size) data
        threads := s.threads.set i .idle
        completed := s.completed ++ [⟨data,old⟩] }
    | _ => none

/-- A new buffer of default-constructed elements, and `n` threads. -/
def init [Inhabited α] (Size n : ℕ) : AppendSession α where
  mData := List.replicate Size default
  threads := List.replicate n .idle

/-- No `append` is in progress. -/
def Quiescent (s : AppendSession α) : Prop := ∀ pc ∈ s.threads, pc = .idle

/-- The appends that have returned stored in slots of their own, each element is still in
its slot, and between appends the head counts them. -/
structure HandsOut (Size : ℕ) (s : AppendSession α) : Prop where
  distinct : (s.completed.map (Appended.slot Size)).Nodup
  kept : ∀ r ∈ s.completed, s.mData[r.slot Size]? = some r.data
  counted : s.Quiescent → s.mHead = s.completed.length

/-- An exchange is made only while the head is what its own `append` has loaded, and the
buffer has not gone round. -/
def inTurn (Size : ℕ) (s : AppendSession α) : AppendStep α → Bool
  | .exchange i =>
    match s.threads[i]? with
    | some (.loaded _ head) => head = s.mHead && s.mHead < Size
    | _ => true
  | _ => true

/-- What the exchanges have given so far. -/
def tickets (s : AppendSession α) : Multiset ℕ :=
  (s.completed.map Appended.old : Multiset ℕ) + s.threads.flatMap AppendPc.held

/-- The ticket that a step draws. -/
def drawn (s : AppendSession α) : AppendStep α → Multiset ℕ
  | .load _ _ => 0
  | .exchange _ => {s.mHead}
  | .store _ => 0

section
variable {Size : ℕ} {s t : AppendSession α}

/-- What a step can do. -/
lemma step_cases {a : AppendStep α} (h : s.step Size a = some t) :
    (∃ i data, a = .load i data ∧ s.threads[i]? = some .idle ∧
      t = { s with threads := s.threads.set i (.loaded data s.mHead) }) ∨
    (∃ i data head, a = .exchange i ∧ s.threads[i]? = some (.loaded data head) ∧
      t = { s with
        mHead := (head+1) % 2^64
        threads := s.threads.set i (.exchanged data s.mHead) }) ∨
    ∃ i data old, a = .store i ∧ s.threads[i]? = some (.exchanged data old) ∧
      t = { s with
        mData := s.mData.set (old % Size) data
        threads := s.threads.set i .idle
        completed := s.completed ++ [⟨data,old⟩] } := by
  cases a with
  | load i data =>
    rw [step] at h
    split at h
    · next hi => exact .inl ⟨i,data,rfl,hi,(Option.some.inj h).symm⟩
    · cases h
  | exchange i =>
    rw [step] at h
    split at h
    · next data head hi => exact .inr (.inl ⟨i,data,head,rfl,hi,(Option.some.inj h).symm⟩)
    · cases h
  | store i =>
    rw [step] at h
    split at h
    · next data old hi => exact .inr (.inr ⟨i,data,old,rfl,hi,(Option.some.inj h).symm⟩)
    · cases h

lemma tickets_step {a : AppendStep α} (h : s.step Size a = some t) :
    t.tickets = s.tickets + s.drawn a := by
  obtain ⟨i,data,rfl,hi,rfl⟩ | ⟨i,data,head,rfl,hi,rfl⟩ | ⟨i,data,old,rfl,hi,rfl⟩ := step_cases h
  · have hheld : (AppendPc.loaded data s.mHead).held = (AppendPc.idle : AppendPc α).held := rfl
    simp only [tickets, drawn]
    rw [flatMap_set_eq hi hheld, add_zero]
  · have hset := coe_flatMap_set hi AppendPc.held (.exchanged data s.mHead)
    simp only [AppendPc.held, Multiset.coe_nil, add_zero, Multiset.coe_singleton] at hset
    simp only [tickets, drawn]
    rw [hset, add_assoc]
  · have hset := coe_flatMap_set hi AppendPc.held .idle
    simp only [AppendPc.held, Multiset.coe_nil, add_zero, Multiset.coe_singleton] at hset
    simp only [tickets, drawn, List.map_append, List.map_cons, List.map_nil]
    rw [← hset, ← Multiset.coe_add, Multiset.coe_singleton]
    ac_rfl

/-- Where no append is in progress every ticket is that of one that has returned. -/
lemma tickets_of_quiescent (h : s.Quiescent) : s.tickets = s.completed.map Appended.old := by
  have hnone : s.threads.flatMap AppendPc.held = [] := by
    rw [List.flatMap_eq_nil_iff]
    intro pc hpc
    rw [h pc hpc]
    rfl
  rw [tickets, hnone, Multiset.coe_nil, add_zero]

/-- Where the tickets are the numbers below the head, the appends have drawn different ones. -/
lemma old_nodup (h : s.tickets = Multiset.range s.mHead) : (s.completed.map Appended.old).Nodup := by
  have hle : (s.completed.map Appended.old : Multiset ℕ) ≤ s.tickets := Multiset.le_add_right _ _
  rw [h] at hle
  exact Multiset.coe_nodup.mp (Multiset.nodup_of_le hle (Multiset.nodup_range s.mHead))

lemma old_lt (h : s.tickets = Multiset.range s.mHead) {r : Appended α} (hr : r ∈ s.completed) :
    r.old < s.mHead := by
  have hmem : r.old ∈ s.tickets :=
    Multiset.mem_add.mpr (.inl (Multiset.mem_coe.mpr (List.mem_map_of_mem hr)))
  rwa [h, Multiset.mem_range] at hmem

lemma slot_eq (h : s.tickets = Multiset.range s.mHead) (hle : s.mHead ≤ Size) {r : Appended α}
    (hr : r ∈ s.completed) : r.slot Size = r.old :=
  Nat.mod_eq_of_lt ((old_lt h hr).trans_le hle)

/-- While exchanges are made in turn the tickets are the numbers below the head. -/
structure Numbered (Size : ℕ) (s : AppendSession α) : Prop where
  tickets_eq : s.tickets = Multiset.range s.mHead
  head_le : s.mHead ≤ Size
  loaded_lt : ∀ pc ∈ s.threads, pc.HeadLt (s.mHead+1)
  length : s.mData.length = Size
  kept : ∀ r ∈ s.completed, s.mData[r.slot Size]? = some r.data

lemma Numbered.handsOut (h : s.Numbered Size) : s.HandsOut Size where
  distinct := by
    rw [List.map_congr_left fun r hr => slot_eq h.tickets_eq h.head_le hr]
    exact old_nodup h.tickets_eq
  kept := h.kept
  counted hq := by
    have hcard := congrArg Multiset.card h.tickets_eq
    rw [tickets_of_quiescent hq, Multiset.coe_card, List.length_map, Multiset.card_range] at hcard
    exact hcard.symm

lemma numbered_init [Inhabited α] (Size n : ℕ) : (init Size n : AppendSession α).Numbered Size where
  tickets_eq := by
    have hidle : (init Size n : AppendSession α).Quiescent := fun pc hpc => List.eq_of_mem_replicate hpc
    rw [tickets_of_quiescent hidle]
    rfl
  head_le := Nat.zero_le Size
  loaded_lt pc hpc := by
    rw [List.eq_of_mem_replicate hpc]
    trivial
  length := List.length_replicate
  kept r hr := by cases hr

lemma inTurn_exchange {i : ℕ} {data : α} {head : ℕ} (hi : s.threads[i]? = some (.loaded data head)) :
    s.inTurn Size (.exchange i) = true ↔ head = s.mHead ∧ s.mHead < Size := by
  simp [inTurn, hi]

lemma numbered_step (hSize : Size < 2^64) (h : s.Numbered Size) {a : AppendStep α}
    (ha : restrict (inTurn Size) (step Size) s a = some t) : t.Numbered Size := by
  obtain ⟨hok,hstep⟩ := restrict_eq_some.mp ha
  have htickets := tickets_step hstep
  obtain ⟨i,data,rfl,hi,rfl⟩ | ⟨i,data,head,rfl,hi,rfl⟩ | ⟨i,data,old,rfl,hi,rfl⟩ := step_cases hstep
  · refine ⟨?_,h.head_le,forall_mem_set h.loaded_lt (Nat.lt_succ_self _),h.length,h.kept⟩
    rw [htickets, drawn, add_zero, h.tickets_eq]
  · obtain ⟨rfl,hlt⟩ := (inTurn_exchange hi).mp hok
    have hnext : (s.mHead+1) % 2^64 = s.mHead+1 := Nat.mod_eq_of_lt (by omega)
    rw [hnext] at htickets ⊢
    refine ⟨?_,hlt,?_,h.length,h.kept⟩
    · rw [htickets, drawn, h.tickets_eq, Multiset.range_succ, add_comm, Multiset.singleton_add]
    · refine forall_mem_set (fun pc hpc => ?_) trivial
      exact (h.loaded_lt pc hpc).mono (Nat.le_succ _)
  · rw [drawn, add_zero, h.tickets_eq] at htickets
    refine ⟨htickets,h.head_le,forall_mem_set h.loaded_lt trivial,?_,?_⟩
    · rw [List.length_set, h.length]
    · -- nobody else has drawn the ticket, so nobody has stored in the slot
      have hold : old < s.mHead := old_lt htickets (List.mem_append_right _ List.mem_cons_self)
      have hnodup := old_nodup htickets
      rw [List.map_append, List.nodup_append] at hnodup
      rw [Nat.mod_eq_of_lt (hold.trans_le h.head_le)]
      intro r hr
      obtain hr | hr := List.mem_append.mp hr
      · have hne : r.old ≠ old := hnodup.2.2 _ (List.mem_map_of_mem hr) _ List.mem_cons_self
        have hkept := h.kept r hr
        rw [slot_eq h.tickets_eq h.head_le hr] at hkept ⊢
        rw [List.getElem?_set_ne hne.symm, hkept]
      · obtain rfl := List.mem_singleton.mp hr
        rw [Appended.slot, Nat.mod_eq_of_lt (hold.trans_le h.head_le)]
        exact List.getElem?_set_self (by rw [h.length]; exact hold.trans_le h.head_le)

/-- More tickets are drawn than the head can account for, or than there are slots. -/
def Spoilt (Size : ℕ) (s : AppendSession α) : Prop :=
  Size < s.tickets.card ∨
    s.mHead < s.tickets.card ∧ ∀ pc ∈ s.threads, pc.HeadLt s.tickets.card

/-- An exchange out of turn puts the head behind, or draws a ticket too many. -/
lemma spoilt_of_not_inTurn (h : s.Numbered Size) {a : AppendStep α}
    (hok : s.inTurn Size a = false) (ha : s.step Size a = some t) : t.Spoilt Size := by
  have htickets := tickets_step ha
  have hcard : s.tickets.card = s.mHead := by rw [h.tickets_eq, Multiset.card_range]
  obtain ⟨i,data,rfl,hi,rfl⟩ | ⟨i,data,head,rfl,hi,rfl⟩ | ⟨i,data,old,rfl,hi,rfl⟩ := step_cases ha
  · exact absurd hok (by simp [inTurn])
  · have hturn : ¬(head = s.mHead ∧ s.mHead < Size) := by
      rw [← inTurn_exchange hi, hok]
      exact Bool.false_ne_true
    have hhead : head < s.mHead+1 := h.loaded_lt _ (List.mem_of_getElem? hi)
    rw [Spoilt, htickets, drawn, Multiset.card_add, Multiset.card_singleton, hcard]
    by_cases hround : s.mHead < Size
    · have hstale : head ≠ s.mHead := fun he => hturn ⟨he,hround⟩
      have hmod : (head+1) % 2^64 ≤ head+1 := Nat.mod_le _ _
      right
      exact ⟨hmod.trans_lt (by omega),forall_mem_set h.loaded_lt trivial⟩
    · left
      omega
  · exact absurd hok (by simp [inTurn])

lemma spoilt_step (h : s.Spoilt Size) {a : AppendStep α} (ha : s.step Size a = some t) :
    t.Spoilt Size := by
  have hcard := congrArg Multiset.card (tickets_step ha)
  rw [Multiset.card_add] at hcard
  obtain hmany | ⟨hbehind,hloaded⟩ := h
  · left
    omega
  · right
    obtain ⟨i,data,rfl,hi,rfl⟩ | ⟨i,data,head,rfl,hi,rfl⟩ | ⟨i,data,old,rfl,hi,rfl⟩ := step_cases ha
    · rw [hcard]
      exact ⟨hbehind,forall_mem_set hloaded hbehind⟩
    · have hhead : head < s.tickets.card := hloaded _ (List.mem_of_getElem? hi)
      have hmod : (head+1) % 2^64 ≤ head+1 := Nat.mod_le _ _
      rw [hcard, drawn, Multiset.card_singleton]
      refine ⟨hmod.trans_lt (by omega),?_⟩
      refine forall_mem_set (fun pc hpc => ?_) trivial
      exact (hloaded pc hpc).mono (Nat.le_succ _)
    · rw [hcard]
      exact ⟨hbehind,forall_mem_set hloaded trivial⟩

/-- A spoilt buffer shows it once its appends have returned. -/
lemma not_handsOut_of_spoilt (h : s.Spoilt Size) (hle : s.completed.length ≤ Size)
    (hq : s.Quiescent) : ¬s.HandsOut Size := by
  intro hout
  have hcard := congrArg Multiset.card (tickets_of_quiescent hq)
  rw [Multiset.coe_card, List.length_map] at hcard
  have hcounted := hout.counted hq
  obtain hmany | ⟨hbehind,-⟩ := h <;> omega

/-- In a run whose exchanges are all made in turn the slots are handed out as they should
be, in every state; and where a run ends between appends, not more of them than there are
slots, in no other. -/
theorem handsOut_run [Inhabited α] {Size n : ℕ} (hSize : Size < 2^64) {as : List (AppendStep α)}
    {s : AppendSession α} (h : run (step Size) (init Size n) as = some s) :
    (run (restrict (inTurn Size) (step Size)) (init Size n) as = some s → s.HandsOut Size) ∧
    (s.completed.length ≤ Size → s.Quiescent → s.HandsOut Size →
      run (restrict (inTurn Size) (step Size)) (init Size n) as = some s) := by
  have hkeep : ∀ (u : AppendSession α) a v, u.Numbered Size →
      restrict (inTurn Size) (step Size) u a = some v → v.Numbered Size :=
    fun u a v hu ha => numbered_step hSize hu ha
  have hbreak : ∀ (u : AppendSession α) a v, u.Numbered Size → u.inTurn Size a = false →
      u.step Size a = some v → v.Spoilt Size :=
    fun u a v hu hok ha => spoilt_of_not_inTurn hu hok ha
  have hmark : ∀ (u : AppendSession α) a v, u.Spoilt Size → u.step Size a = some v → v.Spoilt Size :=
    fun u a v hu ha => spoilt_step hu ha
  constructor
  · intro hturn
    exact (run_invariant hkeep hturn (numbered_init Size n)).handsOut
  · intro hle hq hout
    obtain hturn | hspoilt := run_restrict_or hkeep hbreak hmark h (numbered_init Size n)
    · exact hturn
    · exact absurd hout (not_handsOut_of_spoilt hspoilt hle hq)

/-- One thread appends twice, then a second one starts. -/
def twoAppends : List (AppendStep ℕ) :=
  [.load 0 7,.exchange 0,.store 0,.load 0 8,.exchange 0,.store 0,.load 1 9]

theorem handsOut_twoAppends :
    ∃ s, run (step 128) (init 128 2) twoAppends = some s ∧ s.HandsOut 128 := by
  have heval : (run (restrict (inTurn 128) (step 128)) (init 128 2) twoAppends).isSome = true := by
    decide
  obtain ⟨s,hs⟩ := Option.isSome_iff_exists.mp heval
  have hrun := run_of_restrict hs
  exact ⟨s,hrun,(handsOut_run (by norm_num) hrun).1 hs⟩

/-- Two appends load the same head. The second one to exchange puts it back to 1, and the
next append stores over its element. -/
def lostIncrement : List (AppendStep ℕ) :=
  [.load 0 7,.load 1 8,.exchange 0,.exchange 1,.store 0,.store 1,.load 0 9,.exchange 0,.store 0]

theorem lostIncrement_overwrites : ¬∀ (Size n : ℕ) (as : List (AppendStep ℕ)) (s : AppendSession ℕ),
    0 < Size → Size < 2^64 → run (step Size) (init Size n) as = some s →
      s.completed.length ≤ Size → s.HandsOut Size := by
  intro h
  have heval : (run (step 128) (init 128 2) lostIncrement).map
      (fun s => s.completed.map (Appended.slot 128)) = some [0,1,1] := by decide
  obtain ⟨s,hs,hslots⟩ := Option.map_eq_some_iff.mp heval
  have hlen := congrArg List.length hslots
  rw [List.length_map] at hlen
  have hdistinct := (h 128 2 lostIncrement s (by norm_num) (by norm_num) hs (by rw [hlen]; decide)).distinct
  rw [hslots] at hdistinct
  revert hdistinct
  decide

end
end AppendSession
end Astlog
