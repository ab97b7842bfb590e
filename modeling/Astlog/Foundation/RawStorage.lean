import Astlog.Foundation.Calls
import Astlog.Foundation.Schedule
import Mathlib.Data.List.Perm.Basic
import Mathlib.Data.List.Range

/-! Uninitialised storage in which a program constructs and destroys objects by hand. The
objects are numbered as they are constructed, so that a run shows which were destroyed. -/
namespace Astlog.Foundation

variable {α : Type*}

/-- What a program does to the slot `i`. -/
inductive SlotEvent (α : Type*)
  | construct (i : ℕ) (x : α)
  | assign (i : ℕ) (x : α)
  | destroy (i : ℕ)
  deriving DecidableEq, Repr

/-- A slot holds no object, or one with its number and its value. -/
structure RawStorage (α : Type*) where
  slots : List (Option (ℕ × α))
  constructed : ℕ := 0
  destroyed : List ℕ := []
  deriving DecidableEq

namespace RawStorage

/-- Storage as it is allocated. -/
def raw (α : Type*) (N : ℕ) : RawStorage α where
  slots := List.replicate N none

/-- A construction needs a slot without a live object, the other two need a live one. -/
def step (s : RawStorage α) : SlotEvent α → Option (RawStorage α)
  | .construct i x =>
    match s.slots[i]? with
    | some none =>
      some { s with
        slots := s.slots.set i (some (s.constructed,x))
        constructed := s.constructed+1 }
    | _ => none
  | .assign i x =>
    match s.slots[i]? with
    | some (some (n,_)) => some { s with slots := s.slots.set i (some (n,x)) }
    | _ => none
  | .destroy i =>
    match s.slots[i]? with
    | some (some (n,_)) =>
      some { s with
        slots := s.slots.set i none
        destroyed := s.destroyed ++ [n] }
    | _ => none

/-- The slots without the numbers. -/
def values (s : RawStorage α) : List (Option α) := s.slots.map (Option.map Prod.snd)

/-- The numbers of the live objects. -/
def live (s : RawStorage α) : List ℕ := s.slots.filterMap (Option.map Prod.fst)

@[simp] theorem values_raw (α : Type*) (N : ℕ) :
    (raw α N).values = List.replicate N none := by
  simp [values, raw]

lemma live_eq_nil {s : RawStorage α} {N : ℕ} (h : s.values = List.replicate N none) :
    s.live = [] := by
  have hnone : ∀ o ∈ s.slots, o = none := by
    intro o ho
    have hmem : o.map Prod.snd ∈ s.values := List.mem_map_of_mem ho
    rw [h] at hmem
    exact Option.map_eq_none_iff.mp (List.eq_of_mem_replicate hmem)
  refine List.filterMap_eq_nil_iff.mpr fun o ho => ?_
  rw [hnone o ho]
  rfl

lemma filterMap_cons_eq {β γ : Type*} (f : β → Option γ) (x : β) (l : List β) :
    (x::l).filterMap f = (f x).toList ++ l.filterMap f := by
  cases h : f x <;> simp [h]

/-- Setting an element exchanges what it contributes. -/
lemma filterMap_set_perm {β γ : Type*} (f : β → Option γ) {l : List β} {i : ℕ} {x y : β}
    (h : l[i]? = some x) :
    ((l.set i y).filterMap f ++ (f x).toList).Perm (l.filterMap f ++ (f y).toList) := by
  induction l generalizing i with
  | nil => cases h
  | cons z l ih =>
    cases i with
    | zero =>
      cases h
      rw [List.set_cons_zero, filterMap_cons_eq, filterMap_cons_eq, List.append_assoc]
      exact List.perm_append_comm.trans (List.perm_append_comm.append_right _)
    | succ i =>
      rw [List.set_cons_succ, filterMap_cons_eq, filterMap_cons_eq, List.append_assoc,
        List.append_assoc]
      exact (ih h).append_left _

section
variable {slots : List (Option (ℕ × α))} {i n : ℕ} {x y : α}

lemma live_construct (h : slots[i]? = some none) (n : ℕ) (x : α) :
    ((slots.set i (some (n,x))).filterMap (Option.map Prod.fst)).Perm
      (slots.filterMap (Option.map Prod.fst) ++ [n]) := by
  have hset := filterMap_set_perm (y := some (n,x)) (Option.map Prod.fst) h
  simpa using hset

lemma live_assign (h : slots[i]? = some (some (n,y))) (x : α) :
    ((slots.set i (some (n,x))).filterMap (Option.map Prod.fst)).Perm
      (slots.filterMap (Option.map Prod.fst)) := by
  have hset := filterMap_set_perm (y := some (n,x)) (Option.map Prod.fst) h
  exact (List.perm_append_right_iff _).mp hset

lemma live_destroy (h : slots[i]? = some (some (n,y))) :
    ([n] ++ (slots.set i none).filterMap (Option.map Prod.fst)).Perm
      (slots.filterMap (Option.map Prod.fst)) := by
  have hset := filterMap_set_perm (y := none) (Option.map Prod.fst) h
  apply List.perm_append_comm.trans
  simpa using hset

end

/-- Every object is in exactly one place: among those destroyed or in a slot. -/
def Ledger (s : RawStorage α) : Prop := (s.destroyed ++ s.live).Perm (List.range s.constructed)

lemma ledger_raw (N : ℕ) : (raw α N).Ledger := by
  have hlive : (raw α N).live = [] := live_eq_nil (values_raw α N)
  rw [Ledger, hlive]
  exact List.Perm.refl _

lemma Ledger.step {s t : RawStorage α} {e : SlotEvent α} (h : s.Ledger)
    (hs : s.step e = some t) : t.Ledger := by
  unfold Ledger live at h ⊢
  cases e with
  | construct i x =>
    simp only [RawStorage.step] at hs
    split at hs
    · next hslot =>
      cases hs
      have hlive := (live_construct hslot s.constructed x).append_left s.destroyed
      rw [← List.append_assoc] at hlive
      rw [List.range_succ]
      exact hlive.trans (h.append_right _)
    · cases hs
  | assign i x =>
    simp only [RawStorage.step] at hs
    split at hs
    · next n y hslot =>
      cases hs
      exact ((live_assign hslot x).append_left _).trans h
    · cases hs
  | destroy i =>
    simp only [RawStorage.step] at hs
    split at hs
    · next n y hslot =>
      cases hs
      rw [List.append_assoc]
      exact ((live_destroy hslot).append_left _).trans h
    · cases hs

/-- When no object is left, each one has been destroyed exactly once. -/
lemma destroyed_perm {N M : ℕ} {es : List (SlotEvent α)} {s : RawStorage α}
    (h : run step (raw α N) es = some s) (hs : s.values = List.replicate M none) :
    s.destroyed.Perm (List.range s.constructed) := by
  have hledger : s.Ledger := run_invariant (fun _ _ _ => Ledger.step) h (ledger_raw N)
  rwa [Ledger, live_eq_nil hs, List.append_nil] at hledger

end RawStorage

/-- On storage with the values `vs` the events are all defined, and leave the values `vs'`. -/
def Replays (vs : List (Option α)) (es : List (SlotEvent α)) (vs' : List (Option α)) : Prop :=
  ∀ s : RawStorage α, s.values = vs → ∃ t, run RawStorage.step s es = some t ∧ t.values = vs'

namespace Replays
variable {vs vs' : List (Option α)} {i : ℕ}

theorem nil (vs : List (Option α)) : Replays vs [] vs := fun s hs => ⟨s,rfl,hs⟩

theorem append {vs'' : List (Option α)} {es es' : List (SlotEvent α)} (h : Replays vs es vs')
    (h' : Replays vs' es' vs'') : Replays vs (es ++ es') vs'' := by
  intro s hs
  obtain ⟨t,ht,hvs⟩ := h s hs
  obtain ⟨u,hu,hvs'⟩ := h' t hvs
  exact ⟨u,run_append_eq_some.mpr ⟨t,ht,hu⟩,hvs'⟩

/-- A slot without a value holds no object. -/
lemma slot_of_vacant {s : RawStorage α} (h : s.values[i]? = some none) :
    s.slots[i]? = some none := by
  rw [RawStorage.values, List.getElem?_map, Option.map_eq_some_iff] at h
  obtain ⟨o,ho,hnone⟩ := h
  rw [ho, Option.map_eq_none_iff.mp hnone]

lemma slot_of_value {s : RawStorage α} {x : α} (h : s.values[i]? = some (some x)) :
    ∃ n, s.slots[i]? = some (some (n,x)) := by
  rw [RawStorage.values, List.getElem?_map, Option.map_eq_some_iff] at h
  obtain ⟨o,ho,hsome⟩ := h
  obtain ⟨⟨n,y⟩,rfl,rfl⟩ := Option.map_eq_some_iff.mp hsome
  exact ⟨n,ho⟩

/-- One event, wherever its slot is as it has to be. -/
lemma single {e : SlotEvent α}
    (h : ∀ s : RawStorage α, s.values = vs → ∃ t, s.step e = some t ∧ t.values = vs') :
    Replays vs [e] vs' := by
  intro s hs
  obtain ⟨t,ht,hvs⟩ := h s hs
  exact ⟨t,run_cons_eq_some.mpr ⟨t,ht,rfl⟩,hvs⟩

theorem construct (h : vs[i]? = some none) (x : α) :
    Replays vs [.construct i x] (vs.set i (some x)) := by
  apply single
  rintro s rfl
  rw [RawStorage.step, slot_of_vacant h]
  exact ⟨_,rfl,by simp [RawStorage.values, List.map_set]⟩

theorem assign {x : α} (h : vs[i]? = some (some x)) (y : α) :
    Replays vs [.assign i y] (vs.set i (some y)) := by
  apply single
  rintro s rfl
  obtain ⟨n,hn⟩ := slot_of_value h
  rw [RawStorage.step, hn]
  exact ⟨_,rfl,by simp [RawStorage.values, List.map_set]⟩

theorem destroy {x : α} (h : vs[i]? = some (some x)) :
    Replays vs [.destroy i] (vs.set i none) := by
  apply single
  rintro s rfl
  obtain ⟨n,hn⟩ := slot_of_value h
  rw [RawStorage.step, hn]
  exact ⟨_,rfl,by simp [RawStorage.values, List.map_set]⟩

/-- If the events of each call replay, so do those of a sequence of calls. -/
theorem emitted {σ γ ρ : Type*} {call : σ → γ → σ × ρ} {events : σ → γ → List (SlotEvent α)}
    {storage : σ → List (Option α)} {I : σ → Prop} (hI : ∀ s c, I s → I (call s c).1)
    (hcall : ∀ s c, I s → Replays (storage s) (events s c) (storage (call s c).1)) {s : σ}
    (hs : I s) (cs : List γ) :
    Replays (storage s) (emitted call events s cs) (storage (afterCalls call s cs)) := by
  induction cs generalizing s with
  | nil => exact nil _
  | cons c cs ih => exact (hcall s c hs).append (ih (hI s c hs))

/-- Events that start and end with raw storage destroy every object exactly once. -/
theorem balanced {N : ℕ} {es : List (SlotEvent α)}
    (h : Replays (List.replicate N none) es (List.replicate N none)) :
    ∃ s, run RawStorage.step (RawStorage.raw α N) es = some s ∧
      s.live = [] ∧ s.destroyed.Perm (List.range s.constructed) := by
  obtain ⟨s,hs,hraw⟩ := h (RawStorage.raw α N) (RawStorage.values_raw α N)
  exact ⟨s,hs,RawStorage.live_eq_nil hraw,RawStorage.destroyed_perm hs hraw⟩

end Replays
end Astlog.Foundation
