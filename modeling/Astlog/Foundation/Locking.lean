import Astlog.Foundation.Schedule
import Mathlib.Logic.Function.Basic

/-! Threads that share memory and locks. Two of them race when both stand before an access of one
location and one of the accesses is a write. Where each location has a lock that goes with it, or
is accessed without regard to locks, some run leads to a race just if it shows when each thread
runs alone. -/
namespace Astlog.Foundation

/-- What a thread does from here on. What it reads may steer it. -/
inductive LockProg (L X : Type) (V : X → Type)
  | done
  | lock (l : L) (p : LockProg L X V)
  | unlock (l : L) (p : LockProg L X V)
  | read (x : X) (k : V x → LockProg L X V)
  | write (x : X) (f : V x → V x) (p : LockProg L X V)

namespace LockProg
variable {L X : Type} {V : X → Type}

/-- The access that comes next, and whether it is a write. -/
def standsBefore : LockProg L X V → Option (X × Bool)
  | read x _ => some (x,false)
  | write x _ _ => some (x,true)
  | _ => none

/-- The accesses of a thread that runs alone. -/
def solo [DecidableEq X] (m : ∀ x, V x) : LockProg L X V → List (X × Bool)
  | done => []
  | lock _ p => p.solo m
  | unlock _ p => p.solo m
  | read x k => (x,false)::(k (m x)).solo m
  | write x f p => (x,true)::p.solo (Function.update m x (f (m x)))

/-- How many steps that takes. -/
def steps [DecidableEq X] (m : ∀ x, V x) : LockProg L X V → ℕ
  | done => 0
  | lock _ p => p.steps m + 1
  | unlock _ p => p.steps m + 1
  | read x k => (k (m x)).steps m + 1
  | write x f p => p.steps (Function.update m x (f (m x))) + 1

/-- A thread that holds the lock `h`, if any, keeps to the rules: it has one lock at a time; it
writes a location under just the lock that guards it; it reads a guarded one under its lock, and is
not steered by what it finds there. -/
def Keeps (guard : X → Option L) : Option L → LockProg L X V → Prop
  | h, done => h = none
  | h, lock l p => h = none ∧ p.Keeps guard (some l)
  | h, unlock l p => h = some l ∧ p.Keeps guard none
  | h, read x k => (guard x = none ∨ h = guard x ∧ ∀ v w, k v = k w) ∧ ∀ v, (k v).Keeps guard h
  | h, write x _ p => h = guard x ∧ p.Keeps guard h

variable {guard : X → Option L} {h : Option L} {p : LockProg L X V}

/-- An access of a guarded location is made under its lock. -/
lemma Keeps.held {x : X} {w : Bool} (hp : p.Keeps guard h) (hx : p.standsBefore = some (x,w))
    {l : L} (hl : guard x = some l) : h = some l := by
  cases p with
  | done | lock l p | unlock l p => cases hx
  | read y k =>
    cases hx
    obtain hfree | ⟨hheld,-⟩ := hp.1
    · exact absurd (hfree.symm.trans hl) nofun
    · exact hheld.trans hl
  | write y f p =>
    cases hx
    exact hp.1.trans hl

lemma Keeps.eq_of_write {x : X} (hp : p.Keeps guard h) (hx : p.standsBefore = some (x,true)) :
    h = guard x := by
  cases p with
  | done | lock l p | unlock l p | read y k => cases hx
  | write y f p =>
    cases hx
    exact hp.1

variable [DecidableEq X]

lemma mem_solo_of_standsBefore {x : X} {w : Bool} (hx : p.standsBefore = some (x,w))
    (m : ∀ x, V x) : (x,w) ∈ p.solo m := by
  cases p with
  | done | lock l p | unlock l p => cases hx
  | read y k | write y f p =>
    cases hx
    simp [solo]

/-- Alone, it does the same from two memories that agree where it goes without a lock. -/
lemma Keeps.solo_congr {m m' : ∀ x, V x} (hp : p.Keeps guard h)
    (hm : ∀ x w, (x,w) ∈ p.solo m → guard x = none → m x = m' x) : p.solo m = p.solo m' := by
  induction p generalizing h m m' with
  | done => rfl
  | lock l p ih => exact ih hp.2 hm
  | unlock l p ih => exact ih hp.2 hm
  | read x k ih =>
    have hnext : k (m x) = k (m' x) := by
      obtain hfree | ⟨-,hsame⟩ := hp.1
      · rw [hm x false (by simp [solo]) hfree]
      · exact hsame _ _
    rw [solo, solo, ← hnext]
    congr 1
    apply ih _ (hp.2 _)
    intro y w hy
    exact hm y w (by simp [solo, hy])
  | write x f p ih =>
    rw [solo, solo]
    congr 1
    apply ih hp.2
    intro y w hy hfree
    by_cases hxy : y = x
    · subst hxy
      rw [Function.update_self, Function.update_self, hm y true (by simp [solo]) hfree]
    · rw [Function.update_of_ne hxy, Function.update_of_ne hxy]
      exact hm y w (by simp [solo, hy]) hfree

end LockProg

/-- The threads, who holds which lock, and the memory. -/
structure Locking (ι L X : Type) (V : X → Type) where
  held : L → Option ι
  memory : ∀ x, V x
  threads : ι → LockProg L X V

namespace Locking
variable {ι L X : Type} {V : X → Type}

/-- Nobody holds a lock yet. -/
def init (m : ∀ x, V x) (threads : ι → LockProg L X V) : Locking ι L X V := ⟨fun _ => none,m,threads⟩

/-- Two threads may access `x` at the same time, and one of them writes it. -/
def Races (s : Locking ι L X V) (x : X) : Prop :=
  ∃ i j, i ≠ j ∧ (s.threads i).standsBefore = some (x,true) ∧
    ∃ w, (s.threads j).standsBefore = some (x,w)

variable [DecidableEq ι] [DecidableEq L] [DecidableEq X]

/-- The next step of thread `i`. It waits for a lock that is held. -/
def step (s : Locking ι L X V) (i : ι) : Option (Locking ι L X V) :=
  match s.threads i with
  | .done => none
  | .lock l p =>
    if s.held l = none then
      some { s with held := Function.update s.held l (some i), threads := Function.update s.threads i p }
    else none
  | .unlock l p =>
    some { s with held := Function.update s.held l none, threads := Function.update s.threads i p }
  | .read x k => some { s with threads := Function.update s.threads i (k (s.memory x)) }
  | .write x f p =>
    some { s with
      memory := Function.update s.memory x (f (s.memory x))
      threads := Function.update s.threads i p }

end Locking

/-- The locks are held as `h` says. -/
def HeldAs {ι L : Type} (h : ι → Option L) (held : L → Option ι) : Prop :=
  ∀ l k, held l = some k ↔ h k = some l

section
variable {ι L : Type} [DecidableEq ι] [DecidableEq L] {h : ι → Option L} {held : L → Option ι} {i : ι}
  {l : L}

lemma HeldAs.lock (hs : HeldAs h held) (hi : h i = none) (hfree : held l = none) :
    HeldAs (Function.update h i (some l)) (Function.update held l (some i)) := by
  intro l' k
  by_cases hl : l' = l <;> by_cases hk : k = i
  · simp [hl, hk]
  · have hother : h k ≠ some l := fun hkl => nomatch hfree.symm.trans ((hs l k).mpr hkl)
    simp [hl, hk, Ne.symm hk, hother]
  · have hmine : held l' ≠ some i := fun hil => nomatch hi.symm.trans ((hs l' i).mp hil)
    simp [hl, hk, Ne.symm hl, hmine]
  · simp [hl, hk, hs l' k]

lemma HeldAs.unlock (hs : HeldAs h held) (hi : h i = some l) :
    HeldAs (Function.update h i none) (Function.update held l none) := by
  intro l' k
  by_cases hl : l' = l <;> by_cases hk : k = i
  · simp [hl, hk]
  · have hother : h k ≠ some l := fun hkl =>
      hk (Option.some.inj (((hs l k).mpr hkl).symm.trans ((hs l i).mpr hi)))
    simp [hl, hk, hother]
  · have hmine : held l' ≠ some i := fun hil =>
      hl (Option.some.inj (((hs l' i).mp hil).symm.trans hi))
    simp [hl, hk, hmine]
  · simp [hl, hk, hs l' k]

end

namespace Locking
variable {ι L X : Type} {V : X → Type} [DecidableEq ι] [DecidableEq L] [DecidableEq X]
  {guard : X → Option L} {s t : Locking ι L X V} {i : ι}

/-- What a step does. The thread has taken a step of what it does alone, and nothing but the location
that it was about to write has changed. -/
lemma step_spec {h : ι → Option L} (hs : HeldAs h s.held)
    (hp : (s.threads i).Keeps guard (h i)) (hst : s.step i = some t) :
    ∃ h' p, HeldAs (Function.update h i h') t.held ∧ t.threads = Function.update s.threads i p ∧
      p.Keeps guard h' ∧ p.steps t.memory < (s.threads i).steps s.memory ∧
      (s.threads i).solo s.memory = (s.threads i).standsBefore.toList ++ p.solo t.memory ∧
      ∀ x, (s.threads i).standsBefore ≠ some (x,true) → t.memory x = s.memory x := by
  cases hi : s.threads i with
  | done =>
    rw [step, hi] at hst
    cases hst
  | lock l p =>
    rw [hi] at hp
    rw [step, hi] at hst
    simp only [] at hst
    split_ifs at hst with hfree
    cases hst
    exact ⟨some l,p,hs.lock hp.1 hfree,rfl,hp.2,Nat.lt_succ_self _,rfl,fun _ _ => rfl⟩
  | unlock l p =>
    rw [hi] at hp
    rw [step, hi] at hst
    cases hst
    exact ⟨none,p,hs.unlock hp.1,rfl,hp.2,Nat.lt_succ_self _,rfl,fun _ _ => rfl⟩
  | read x k =>
    rw [hi] at hp
    rw [step, hi] at hst
    cases hst
    refine ⟨h i,_,?_,rfl,hp.2 _,Nat.lt_succ_self _,rfl,fun _ _ => rfl⟩
    rwa [Function.update_eq_self]
  | write x f p =>
    rw [hi] at hp
    rw [step, hi] at hst
    cases hst
    refine ⟨h i,_,?_,rfl,hp.2,Nat.lt_succ_self _,rfl,fun y hy => ?_⟩
    · rwa [Function.update_eq_self]
    · have hne : y ≠ x := by
        rintro rfl
        exact hy rfl
      exact Function.update_of_ne hne _ _

/-- Each thread is in the middle of what it does alone. -/
def OnTrack (guard : X → Option L) (alone : ι → List (X × Bool)) (s : Locking ι L X V) : Prop :=
  ∃ h, HeldAs h s.held ∧
    ∀ i, (s.threads i).Keeps guard (h i) ∧ (s.threads i).solo s.memory ⊆ alone i

/-- Two threads access an unguarded location, and one of them writes it. -/
def Clash (guard : X → Option L) (alone : ι → List (X × Bool)) (x : X) : Prop :=
  guard x = none ∧ ∃ i j, i ≠ j ∧ (x,true) ∈ alone i ∧ ∃ w, (x,w) ∈ alone j

variable {alone : ι → List (X × Bool)}

lemma OnTrack.step (hno : ∀ x, ¬Clash guard alone x) (hs : s.OnTrack guard alone)
    (hst : s.step i = some t) : t.OnTrack guard alone := by
  obtain ⟨h,hheld,hthreads⟩ := hs
  obtain ⟨h',p,hheld',ht,hkeeps,-,hsolo,hmem⟩ := step_spec hheld (hthreads i).1 hst
  refine ⟨Function.update h i h',hheld',fun j => ?_⟩
  rw [ht]
  by_cases hj : j = i
  · subst hj
    rw [Function.update_self, Function.update_self]
    refine ⟨hkeeps,List.Subset.trans ?_ (hthreads j).2⟩
    rw [hsolo]
    exact List.subset_append_right _ _
  · rw [Function.update_of_ne hj, Function.update_of_ne hj]
    have hsame : (s.threads j).solo s.memory = (s.threads j).solo t.memory := by
      apply (hthreads j).1.solo_congr
      intro x w hx hfree
      refine (hmem x fun hwrite => hno x ⟨hfree,i,j,Ne.symm hj,?_,w,(hthreads j).2 hx⟩).symm
      exact (hthreads i).2 (LockProg.mem_solo_of_standsBefore hwrite _)
    exact ⟨(hthreads j).1,hsame ▸ (hthreads j).2⟩

omit [DecidableEq ι] [DecidableEq L] in
/-- Those who race clash, for nobody is at a guarded location without its lock. -/
lemma OnTrack.clash {x : X} (hs : s.OnTrack guard alone) (hx : s.Races x) :
    Clash guard alone x := by
  obtain ⟨h,hheld,hthreads⟩ := hs
  obtain ⟨i,j,hij,hi,w,hj⟩ := hx
  refine ⟨?_,i,j,hij,(hthreads i).2 (LockProg.mem_solo_of_standsBefore hi _),w,
    (hthreads j).2 (LockProg.mem_solo_of_standsBefore hj _)⟩
  cases hl : guard x with
  | none => rfl
  | some l =>
    have hholds : s.held l = some i := (hheld l i).mpr ((hthreads i).1.held hi hl)
    have hholds' : s.held l = some j := (hheld l j).mpr ((hthreads j).1.held hj hl)
    exact absurd (Option.some.inj (hholds.symm.trans hholds')) hij

/-- Nobody but `i` holds a lock. -/
abbrev heldBy (i : ι) (h : Option L) : ι → Option L := Function.update (fun _ => none) i h

/-- It can take a step, unless it is done. -/
lemma exists_step {h : Option L} (hp : (s.threads i).Keeps guard h)
    (hs : HeldAs (heldBy i h) s.held) (hne : s.threads i ≠ .done) : ∃ t, s.step i = some t := by
  cases hi : s.threads i with
  | done => exact absurd hi hne
  | lock l p =>
    rw [hi] at hp
    have hfree : s.held l = none := by
      rw [Option.eq_none_iff_forall_ne_some]
      intro k hk
      have hkl := (hs l k).mp hk
      rw [hp.1, heldBy, Function.update_eq_self_iff.mpr rfl] at hkl
      cases hkl
    exact ⟨_,by rw [step, hi]; exact if_pos hfree⟩
  | unlock l p => exact ⟨_,by rw [step, hi]⟩
  | read x k => exact ⟨_,by rw [step, hi]⟩
  | write x f p => exact ⟨_,by rw [step, hi]⟩

/-- Left to run alone, a thread comes to the first access that is looked for, if such an access
shows in what it does alone. -/
lemma exists_run_to {P : X → Bool → Prop} {h : Option L} (hp : (s.threads i).Keeps guard h)
    (hs : HeldAs (heldBy i h) s.held) {x : X} {w : Bool} (hx : P x w)
    (hmem : (x,w) ∈ (s.threads i).solo s.memory) :
    ∃ as t, run step s as = some t ∧
      (∃ y v h', P y v ∧ (t.threads i).standsBefore = some (y,v) ∧
        (t.threads i).Keeps guard h' ∧ HeldAs (heldBy i h') t.held) ∧
      (∀ j, j ≠ i → t.threads j = s.threads j) ∧ ∀ y, P y true → t.memory y = s.memory y := by
  induction hn : (s.threads i).steps s.memory using Nat.strongRecOn generalizing s h with
  | _ n ih =>
    subst hn
    by_cases hat : ∃ y v, P y v ∧ (s.threads i).standsBefore = some (y,v)
    · obtain ⟨y,v,hy,hat⟩ := hat
      exact ⟨[],s,rfl,⟨y,v,h,hy,hat,hp,hs⟩,fun _ _ => rfl,fun _ _ => rfl⟩
    obtain ⟨t,hst⟩ := exists_step hp hs fun hdone => by simp [hdone, LockProg.solo] at hmem
    obtain ⟨h',p,hheld,ht,hkeeps,hlt,hsolo,hsame⟩ :=
      step_spec hs (show (s.threads i).Keeps guard (heldBy i h i) by rwa [heldBy, Function.update_self]) hst
    have hti : t.threads i = p := by rw [ht, Function.update_self]
    rw [heldBy, Function.update_idem] at hheld
    rw [hsolo, List.mem_append, Option.mem_toList] at hmem
    have hrest := hmem.resolve_left fun hfirst => hat ⟨x,w,hx,hfirst⟩
    obtain ⟨as,u,hrun,hu,huthreads,humem⟩ :=
      ih _ (hti ▸ hlt) (hti.symm ▸ hkeeps) hheld (hti.symm ▸ hrest) rfl
    refine ⟨i::as,u,run_cons_eq_some.mpr ⟨t,hst,hrun⟩,hu,fun j hj => ?_,fun y hy => ?_⟩
    · rw [huthreads j hj, ht, Function.update_of_ne hj]
    · rw [humem y hy]
      exact hsame y fun hwrite => hat ⟨y,true,hy,hwrite⟩

/-- Races show alone. Some run leads to a race just if two threads clash over an unguarded
location when each of them runs alone from the memory at the start. -/
theorem exists_races_iff {m : ∀ x, V x} {threads : ι → LockProg L X V}
    (hkeeps : ∀ i, (threads i).Keeps guard none) :
    (∃ as s x, run step (init m threads) as = some s ∧ s.Races x) ↔
      ∃ x, Clash guard (fun i => (threads i).solo m) x := by
  have hfree : HeldAs (fun _ => none) (init m threads).held := fun _ _ => ⟨nofun,nofun⟩
  have hnone (i : ι) : heldBy i none = fun _ : ι => (none : Option L) := Function.update_eq_self _ _
  constructor
  · rintro ⟨as,s,x,hrun,hrace⟩
    by_contra hno
    have hstart : (init m threads).OnTrack guard fun i => (threads i).solo m :=
      ⟨_,hfree,fun i => ⟨hkeeps i,List.Subset.refl _⟩⟩
    have hs := run_invariant (fun _ _ _ hs hst => hs.step (not_exists.mp hno) hst) hrun hstart
    exact hno ⟨x,hs.clash hrace⟩
  · rintro ⟨x,hguard,i,j,hij,hi,w,hj⟩
    -- thread `i` goes first, up to a write of anything that thread `j` accesses
    let P : X → Bool → Prop := fun y v =>
      v = true ∧ guard y = none ∧ ∃ w, (y,w) ∈ (threads j).solo m
    obtain ⟨as,s,hrun,⟨y,v,h,⟨rfl,hy,w',hj'⟩,hat,hkeeps',hheld⟩,hothers,hmem⟩ :=
      exists_run_to (P := P) (s := init m threads) (hkeeps i) ((hnone i).symm ▸ hfree)
        ⟨rfl,hguard,w,hj⟩ hi
    -- then it holds no lock, and thread `j` runs on as it would have done from the start
    have hrelease : h = none := (hkeeps'.eq_of_write hat).trans hy
    have hheld' : HeldAs (heldBy j none) s.held := by
      rw [hnone j, ← hnone i, ← hrelease]
      exact hheld
    have hsj : s.threads j = threads j := hothers j hij.symm
    have hsolo : (threads j).solo m = (threads j).solo s.memory := by
      apply (hkeeps j).solo_congr
      intro z v hz hfree
      exact (hmem z ⟨rfl,hfree,v,hz⟩).symm
    obtain ⟨bs,u,hrun',⟨z,v,-,rfl,hat',-⟩,hothers',-⟩ :=
      exists_run_to (P := fun z _ => z = y) (hsj.symm ▸ hkeeps j) hheld' rfl
        (show (y,w') ∈ (s.threads j).solo s.memory by rwa [hsj, ← hsolo])
    exact ⟨as ++ bs,u,z,run_append_eq_some.mpr ⟨s,hrun,hrun'⟩,i,j,hij,(hothers' i hij).symm ▸ hat,v,hat'⟩

end Locking
end Astlog.Foundation
