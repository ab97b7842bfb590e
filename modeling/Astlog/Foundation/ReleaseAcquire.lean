import Mathlib.Data.List.Basic
import Mathlib.Order.Lattice

/-! Release and acquire, where each location is written by one thread. A load returns any write
that the thread does not know to be overwritten; if it acquires, what the write released becomes
known. Plain data must not be accessed while an access by another thread is unknown. -/
namespace Astlog.Foundation

/-- How many accesses of each thread are known, and which write to each location is the newest
known. -/
abbrev View (τ ι : Type*) := τ ⊕ ι → ℕ

structure Write (τ ι : Type*) where
  value : ℕ
  released : View τ ι

/-- All writes to each location, oldest first, what each thread knows, and the accesses to plain
data, each with its place among those of its thread. -/
structure RaMemory (τ ι κ : Type*) where
  history : ι → List (Write τ ι)
  view : τ → View τ ι
  accesses : κ → List (τ × ℕ)

namespace RaMemory
variable {τ ι κ : Type*}

/-- Every location holds 0. -/
def init (τ ι κ : Type*) : RaMemory τ ι κ where
  history _ := [⟨0,fun _ => 0⟩]
  view _ _ := 0
  accesses _ := []

section
variable [DecidableEq τ] [DecidableEq ι] [DecidableEq κ]

/-- Thread `t` comes to know `v`. -/
def learn (m : RaMemory τ ι κ) (t : τ) (v : View τ ι) : RaMemory τ ι κ :=
  { m with view := Function.update m.view t v }

/-- Thread `t` loads the `n`-th write to `x`. -/
def load (m : RaMemory τ ι κ) (t : τ) (x : ι) (n : ℕ) (acquire : Bool) :
    Option (ℕ × RaMemory τ ι κ) :=
  if m.view t (.inr x) ≤ n then
    (m.history x)[n]?.map fun w =>
      (w.value,m.learn t
        (Function.update (m.view t) (.inr x) n ⊔ if acquire then w.released else fun _ => 0))
  else none

def store (m : RaMemory τ ι κ) (t : τ) (x : ι) (value : ℕ) (release : Bool) : RaMemory τ ι κ :=
  let seen := Function.update (m.view t) (.inr x) (m.history x).length
  { m.learn t seen with
    history := Function.update m.history x
      (m.history x ++ [⟨value,if release then seen else fun _ => 0⟩]) }

/-- Thread `t` accesses plain data. -/
def access (m : RaMemory τ ι κ) (t : τ) (c : κ) : RaMemory τ ι κ :=
  let n := m.view t (.inl t)+1
  { m.learn t (Function.update (m.view t) (.inl t) n) with
    accesses := Function.update m.accesses c (m.accesses c ++ [(t,n)]) }

/-- An access by another thread is not known to have happened before. -/
def races (m : RaMemory τ ι κ) (t : τ) (c : κ) : Bool :=
  (m.accesses c).any fun a => a.1 ≠ t && m.view t (.inl a.1) < a.2

end

/-- The newest value of a location. -/
def latest (m : RaMemory τ ι κ) (x : ι) : ℕ := ((m.history x).getLast?.map Write.value).getD 0

/-- What a thread does only adds to its own view. -/
structure Adds (t : τ) (m m' : RaMemory τ ι κ) : Prop where
  le : m.view ≤ m'.view
  others : ∀ u, u ≠ t → m'.view u = m.view u

theorem Adds.refl (t : τ) (m : RaMemory τ ι κ) : Adds t m m := ⟨le_refl _,fun _ _ => rfl⟩

section
variable [DecidableEq τ] {m : RaMemory τ ι κ} {t u : τ} {v : View τ ι}

@[simp] theorem learn_view_self : (m.learn t v).view t = v := Function.update_self ..

@[simp] theorem learn_view_of_ne (h : u ≠ t) : (m.learn t v).view u = m.view u :=
  Function.update_of_ne h ..

theorem adds_learn (hle : m.view t ≤ v) : Adds t m (m.learn t v) := by
  refine ⟨fun u => ?_,fun u hu => learn_view_of_ne hu⟩
  by_cases hu : u = t
  · subst hu
    rwa [learn_view_self]
  · rw [learn_view_of_ne hu]

theorem races_eq_false [DecidableEq κ] {c : κ}
    (h : ∀ u, u ≠ t → ∀ n, (u,n) ∈ m.accesses c → n ≤ m.view t (.inl u)) :
    m.races t c = false := by
  rw [races, List.any_eq_false]
  rintro ⟨u,n⟩ hmem hrace
  simp only [ne_eq, decide_not, Bool.and_eq_true, Bool.not_eq_true', decide_eq_false_iff_not,
    decide_eq_true_eq] at hrace
  have hle := h u hrace.1 n hmem
  omega

@[simp] theorem latest_store_self [DecidableEq ι] (m : RaMemory τ ι κ) (t : τ) (x : ι)
    (value : ℕ) (release : Bool) : (m.store t x value release).latest x = value := by
  simp [latest, store]

@[simp] theorem latest_store_of_ne [DecidableEq ι] (m : RaMemory τ ι κ) (t : τ) {x y : ι}
    (h : y ≠ x) (value : ℕ) (release : Bool) :
    (m.store t x value release).latest y = m.latest y := by
  simp [latest, store, h]

/-- After a store a write is an old one, or the new one. -/
theorem store_getElem? [DecidableEq ι] {x y : ι} {value n : ℕ} {release : Bool} {w : Write τ ι}
    (hw : ((m.store t x value release).history y)[n]? = some w) : (m.history y)[n]? = some w ∨
      y = x ∧ n = (m.history x).length ∧ w.value = value ∧
        (release = true → w.released = Function.update (m.view t) (.inr x) n) := by
  by_cases hy : y = x
  · subst hy
    simp only [store, Function.update_self, List.getElem?_append] at hw
    split_ifs at hw with hn hrelease
    · exact .inl hw
    · obtain ⟨hz,rfl⟩ := List.getElem?_eq_some_iff.mp hw
      obtain rfl : n = (m.history y).length := by
        rw [List.length_singleton] at hz
        omega
      refine .inr ⟨rfl,rfl,?_,fun _ => ?_⟩ <;> simp
    · obtain ⟨hz,rfl⟩ := List.getElem?_eq_some_iff.mp hw
      rw [List.length_singleton] at hz
      refine .inr ⟨rfl,by omega,?_,fun h => absurd h hrelease⟩
      simp
  · simp only [store, Function.update_of_ne hy] at hw
    exact .inl hw

theorem load_eq_some [DecidableEq ι] {x : ι} {n value : ℕ} {acquire : Bool}
    {m' : RaMemory τ ι κ} : m.load t x n acquire = some (value,m') ↔ m.view t (.inr x) ≤ n ∧
      ∃ w, (m.history x)[n]? = some w ∧ value = w.value ∧ m' = m.learn t
        (Function.update (m.view t) (.inr x) n ⊔ if acquire then w.released else fun _ => 0) := by
  by_cases hle : m.view t (.inr x) ≤ n
  · rw [load, if_pos hle, Option.map_eq_some_iff]
    constructor
    · rintro ⟨w,hw,heq⟩
      cases heq
      exact ⟨hle,w,hw,rfl,rfl⟩
    · rintro ⟨-,w,hw,rfl,rfl⟩
      exact ⟨w,hw,rfl⟩
  · rw [load, if_neg hle]
    exact ⟨nofun,fun h => absurd h.1 hle⟩

section
variable [DecidableEq ι]

theorem adds_load {x : ι} {n value : ℕ} {acquire : Bool} {m' : RaMemory τ ι κ}
    (hl : m.load t x n acquire = some (value,m')) : Adds t m m' := by
  obtain ⟨hle,w,-,-,rfl⟩ := load_eq_some.mp hl
  refine adds_learn (le_trans ?_ le_sup_left)
  rw [le_update_iff]
  exact ⟨hle,fun _ _ => le_refl _⟩

/-- The newest write can always be read. -/
theorem load_latest {x : ι} (h : m.view t (.inr x) < (m.history x).length) (acquire : Bool) :
    ∃ n v, m.load t x n acquire = some (m.latest x,m.learn t v) := by
  have hlast : (m.history x).getLast? = (m.history x)[(m.history x).length-1]? :=
    List.getLast?_eq_getElem?
  have hw := List.getElem?_eq_getElem (show (m.history x).length-1 < (m.history x).length by omega)
  refine ⟨(m.history x).length-1,_,load_eq_some.mpr ⟨by omega,_,hw,?_,rfl⟩⟩
  rw [latest, hlast, hw]
  rfl

theorem adds_store {x : ι} (h : m.view t (.inr x) ≤ (m.history x).length) (value : ℕ)
    (release : Bool) : Adds t m (m.store t x value release) := by
  have hadds : Adds t m (m.learn t (Function.update (m.view t) (.inr x) (m.history x).length)) := by
    apply adds_learn
    rw [le_update_iff]
    exact ⟨h,fun _ _ => le_refl _⟩
  exact ⟨hadds.le,hadds.others⟩

theorem adds_access [DecidableEq κ] (m : RaMemory τ ι κ) (t : τ) (c : κ) :
    Adds t m (m.access t c) := by
  have hadds : Adds t m (m.learn t (Function.update (m.view t) (.inl t) (m.view t (.inl t)+1))) := by
    apply adds_learn
    rw [le_update_iff]
    exact ⟨Nat.le_succ _,fun _ _ => le_refl _⟩
  exact ⟨hadds.le,hadds.others⟩

end

end

/-- A view that knows a write to `x` knows what the write released. -/
structure Knows (history : ι → List (Write τ ι)) (x : ι) (v : View τ ι) : Prop where
  lt : v (.inr x) < (history x).length
  released : ∀ w, (history x)[v (.inr x)]? = some w → w.released ≤ v

/-- All writes to a location are by its writer, with release, and all loads by other threads
have acquired. -/
structure Sound (writer : ι → τ) (m : RaMemory τ ι κ) : Prop where
  own : ∀ x, m.view (writer x) (.inr x)+1 = (m.history x).length
  knows : ∀ t x, Knows m.history x (m.view t)
  releases : ∀ y, ∀ w ∈ m.history y, ∀ x, Knows m.history x w.released
  index : ∀ x (n : ℕ) (w : Write τ ι), (m.history x)[n]? = some w → w.released (.inr x) = n
  increasing : ∀ x (i j : ℕ) (w w' : Write τ ι), i ≤ j → (m.history x)[i]? = some w →
    (m.history x)[j]? = some w' → w.released ≤ w'.released
  bounded : ∀ x, ∀ w ∈ m.history x, w.released ≤ m.view (writer x)
  counts : ∀ t u, m.view u (.inl t) ≤ m.view t (.inl t)
  recorded : ∀ t c n, (t,n) ∈ m.accesses c → n ≤ m.view t (.inl t)

namespace Knows
variable {history : ι → List (Write τ ι)} {x : ι} {u v : View τ ι}

lemma sup (hu : Knows history x u) (hv : Knows history x v) : Knows history x (u ⊔ v) := by
  rcases le_total (u (.inr x)) (v (.inr x)) with h | h
  · have heq : (u ⊔ v) (.inr x) = v (.inr x) := sup_eq_right.mpr h
    exact ⟨by rw [heq]; exact hv.lt,fun w hw => (hv.released w (by rwa [heq] at hw)).trans le_sup_right⟩
  · have heq : (u ⊔ v) (.inr x) = u (.inr x) := sup_eq_left.mpr h
    exact ⟨by rw [heq]; exact hu.lt,fun w hw => (hu.released w (by rwa [heq] at hw)).trans le_sup_left⟩

/-- Knowing more, but no other write to `x`. -/
lemma mono (hu : Knows history x u) (hle : u ≤ v) (heq : v (.inr x) = u (.inr x)) :
    Knows history x v :=
  ⟨by rw [heq]; exact hu.lt,fun w hw => (hu.released w (by rwa [heq] at hw)).trans hle⟩

/-- One more write changes nothing for a view that does not know it. -/
lemma append [DecidableEq ι] (hu : Knows history x u) (y : ι) (w : Write τ ι) :
    Knows (Function.update history y (history y ++ [w])) x u := by
  by_cases hxy : x = y
  · subst hxy
    constructor
    · rw [Function.update_self, List.length_append]
      exact hu.lt.trans_le (Nat.le_add_right _ _)
    · rw [Function.update_self, List.getElem?_append_left hu.lt]
      exact hu.released
  · constructor
    · rw [Function.update_of_ne hxy]
      exact hu.lt
    · rw [Function.update_of_ne hxy]
      exact hu.released

end Knows

namespace Sound
variable {writer : ι → τ} {m m' : RaMemory τ ι κ}

/-- Whoever knows a write knows what was released by it and by the writes before it. -/
lemma synchronizes (h : Sound writer m) {t : τ} {x : ι} {j : ℕ} {w : Write τ ι}
    (hw : (m.history x)[j]? = some w) (hj : j ≤ m.view t (.inr x)) : w.released ≤ m.view t := by
  obtain ⟨hlt,hreleased⟩ := h.knows t x
  have hlast := List.getElem?_eq_getElem hlt
  exact (h.increasing x j _ w _ hj hw hlast).trans (hreleased _ hlast)

theorem init (writer : ι → τ) : Sound writer (RaMemory.init τ ι κ) := by
  have hone : ∀ {n : ℕ} {w : Write τ ι}, [(⟨0,fun _ => 0⟩ : Write τ ι)][n]? = some w →
      n = 0 ∧ w = ⟨0,fun _ => 0⟩ := by
    intro n w hw
    cases n with
    | zero => exact ⟨rfl,(Option.some.inj hw).symm⟩
    | succ n => cases hw
  have hknows : ∀ x : ι, Knows (RaMemory.init τ ι κ).history x fun _ => 0 :=
    fun x => ⟨Nat.zero_lt_one,fun w hw => by rw [(hone hw).2]⟩
  refine ⟨fun _ => rfl,fun _ x => hknows x,fun y w hw x => ?_,fun x n w hw => ?_,
    fun x i j w w' _ hw hw' => ?_,fun x w hw => ?_,fun _ _ => le_refl _,nofun⟩
  · rw [List.mem_singleton.mp hw]
    exact hknows x
  · obtain ⟨rfl,rfl⟩ := hone hw
    rfl
  · rw [(hone hw).2, (hone hw').2]
  · rw [List.mem_singleton.mp hw]
    exact le_refl _

/-- Nobody knows more of a thread's accesses and writes than the thread. -/
lemma view_le_own (h : Sound writer m) (t : τ) {x : ι} (hx : writer x = t) (u : τ) :
    m.view u (.inr x) ≤ m.view t (.inr x) := by
  have hlt := (h.knows u x).lt
  have hown := h.own x
  rw [hx] at hown
  omega

section
variable [DecidableEq τ]

/-- A thread may come to know more, except of what it does itself. -/
lemma learn (h : Sound writer m) {t : τ} {v : View τ ι} (hle : m.view t ≤ v)
    (hown : ∀ x, writer x = t → v (.inr x) = m.view t (.inr x)) (hknows : ∀ x, Knows m.history x v)
    (hcounts : ∀ s, s ≠ t → v (.inl s) ≤ m.view s (.inl s)) : Sound writer (m.learn t v) where
  own x := by
    have heq : (m.learn t v).view (writer x) (.inr x) = m.view (writer x) (.inr x) := by
      by_cases hx : writer x = t
      · rw [hx, learn_view_self]
        exact hown x hx
      · rw [learn_view_of_ne hx]
    rw [heq]
    exact h.own x
  knows u x := by
    by_cases hu : u = t
    · rw [hu, learn_view_self]
      exact hknows x
    · rw [learn_view_of_ne hu]
      exact h.knows u x
  releases := h.releases
  index := h.index
  increasing := h.increasing
  bounded x w hw := (h.bounded x w hw).trans ((adds_learn hle).le _)
  counts s u := by
    by_cases hs : s = u
    · rw [hs]
    · by_cases hu : u = t
      · rw [hu, learn_view_self, learn_view_of_ne (hu ▸ hs)]
        exact hcounts s (hu ▸ hs)
      · rw [learn_view_of_ne hu]
        exact (h.counts s u).trans ((adds_learn hle).le s _)
  recorded s c n hn := (h.recorded s c n hn).trans ((adds_learn hle).le s _)

end

section
variable [DecidableEq τ] [DecidableEq ι] {t : τ} {x : ι} {n value : ℕ}

/-- A thread that loads what it wrote itself finds its last write, and learns nothing. -/
theorem load_own (h : Sound writer m) (hx : writer x = t) {acquire : Bool}
    (hl : m.load t x n acquire = some (value,m')) :
    value = m.latest x ∧ n = m.view t (.inr x) ∧ m' = m := by
  obtain ⟨hle,w,hw,rfl,rfl⟩ := load_eq_some.mp hl
  obtain ⟨hlt,-⟩ := List.getElem?_eq_some_iff.mp hw
  have hown := h.own x
  rw [hx] at hown
  obtain rfl : n = m.view t (.inr x) := by omega
  refine ⟨?_,rfl,?_⟩
  · rw [latest, List.getLast?_eq_getElem?, ← hown, Nat.add_sub_cancel, hw]
    rfl
  · have hreleased : (if acquire then w.released else fun _ => 0) ≤ m.view t := by
      split_ifs
      · exact (h.knows t x).released w hw
      · exact fun _ => Nat.zero_le _
    rw [Function.update_eq_self, sup_eq_left.mpr hreleased]
    simp [RaMemory.learn]

/-- After an acquiring load of the write `n` to `x`, the thread knows `v`. -/
structure Acquired (writer : ι → τ) (m m' : RaMemory τ ι κ) (t : τ) (x : ι) (n : ℕ)
    (v : View τ ι) : Prop where
  learn_eq : m' = m.learn t v
  le : m.view t ≤ v
  at_eq : v (.inr x) = n
  own : ∀ y, writer y = t → v (.inr y) = m.view t (.inr y)

theorem load_acquire (h : Sound writer m) (hl : m.load t x n true = some (value,m')) :
    Sound writer m' ∧
      ∃ v w, Acquired writer m m' t x n v ∧ (m.history x)[n]? = some w ∧ value = w.value := by
  by_cases hx : writer x = t
  · obtain ⟨-,rfl,rfl⟩ := h.load_own hx hl
    obtain ⟨-,w,hw,hvalue,-⟩ := load_eq_some.mp hl
    exact ⟨h,_,w,⟨by simp [RaMemory.learn],le_refl _,rfl,fun _ _ => rfl⟩,hw,hvalue⟩
  obtain ⟨hle,w,hw,rfl,rfl⟩ := load_eq_some.mp hl
  rw [if_pos rfl]
  have hupd : m.view t ≤ Function.update (m.view t) (.inr x) n := by
    rw [le_update_iff]
    exact ⟨hle,fun _ _ => le_refl _⟩
  have hmem := List.mem_of_getElem? hw
  have hindex := h.index x n w hw
  have hknows : ∀ y, Knows m.history y (Function.update (m.view t) (.inr x) n ⊔ w.released) := by
    intro y
    by_cases hy : y = x
    · subst hy
      refine (h.releases y w hmem y).mono le_sup_right ?_
      simp [hindex]
    · refine ((h.knows t y).mono hupd ?_).sup (h.releases x w hmem y)
      simp [hy]
  have hown : ∀ y, writer y = t →
      (Function.update (m.view t) (.inr x) n ⊔ w.released) (.inr y) = m.view t (.inr y) := by
    intro y hy
    have hyx : y ≠ x := fun heq => hx (heq ▸ hy)
    have hrel := (h.bounded x w hmem (.inr y)).trans (h.view_le_own t hy _)
    simpa [hyx] using hrel
  refine ⟨h.learn (hupd.trans le_sup_left) hown hknows fun s hs => ?_,_,w,
    ⟨rfl,hupd.trans le_sup_left,?_,hown⟩,hw,rfl⟩
  · have hrel := (h.bounded x w hmem (.inl s)).trans (h.counts s _)
    simpa using ⟨h.counts s t,hrel⟩
  · simp [hindex]

end

section
variable [DecidableEq τ] [DecidableEq ι]

/-- The writer of a location stores to it, with release. -/
theorem store (h : Sound writer m) (x : ι) (value : ℕ) :
    Sound writer (m.store (writer x) x value true) := by
  set seen := Function.update (m.view (writer x)) (.inr x) (m.history x).length with hseen
  have hown := h.own x
  have hle : m.view (writer x) ≤ seen := by
    rw [hseen, le_update_iff]
    exact ⟨by omega,fun _ _ => le_refl _⟩
  have hview : (m.store (writer x) x value true).view = (m.learn (writer x) seen).view := rfl
  have hmono : ∀ u, m.view u ≤ (m.store (writer x) x value true).view u := (adds_learn hle).le
  have hself : (m.store (writer x) x value true).view (writer x) = seen := learn_view_self
  have hcases : ∀ y (n : ℕ) (w : Write τ ι),
      ((m.store (writer x) x value true).history y)[n]? = some w →
        (m.history y)[n]? = some w ∨ y = x ∧ n = (m.history x).length ∧ w.released = seen := by
    intro y n w hw
    obtain hw | ⟨hy,rfl,-,hreleased⟩ := store_getElem? hw
    · exact .inl hw
    · exact .inr ⟨hy,rfl,hreleased rfl⟩
  have hmem : ∀ y, ∀ w ∈ (m.store (writer x) x value true).history y,
      w ∈ m.history y ∨ y = x ∧ w.released = seen := by
    intro y w hw
    obtain ⟨n,hn⟩ := List.getElem?_of_mem hw
    obtain hw | ⟨hy,-,hreleased⟩ := hcases y n w hn
    · exact .inl (List.mem_of_getElem? hw)
    · exact .inr ⟨hy,hreleased⟩
  have hseenKnows : ∀ y, Knows (m.store (writer x) x value true).history y seen := by
    intro y
    by_cases hy : y = x
    · subst hy
      constructor
      · simp [RaMemory.store, hseen]
      · intro w hw
        obtain hw | ⟨-,-,hw⟩ := hcases y _ w hw
        · simp [hseen] at hw
        · exact hw.le
    · refine ((h.knows (writer x) y).append x _).mono hle ?_
      simp [hseen, hy]
  constructor
  case own =>
    intro y
    by_cases hy : y = x
    · subst hy
      rw [hself]
      simp [RaMemory.store, hseen]
    · have heq : (m.store (writer x) x value true).view (writer y) (.inr y) =
          m.view (writer y) (.inr y) := by
        by_cases hw : writer y = writer x
        · rw [hw, hself]
          simp [hseen, hy]
        · rw [hview, learn_view_of_ne hw]
      rw [heq, h.own y]
      simp [RaMemory.store, hy]
  case knows =>
    intro u y
    by_cases hu : u = writer x
    · rw [hu, hself]
      exact hseenKnows y
    · rw [hview, learn_view_of_ne hu]
      exact (h.knows u y).append x _
  case releases =>
    intro y w hw z
    obtain hw | ⟨-,hreleased⟩ := hmem y w hw
    · exact (h.releases y w hw z).append x _
    · rw [hreleased]
      exact hseenKnows z
  case index =>
    intro y n w hw
    obtain hw | ⟨rfl,rfl,hreleased⟩ := hcases y n w hw
    · exact h.index y n w hw
    · rw [hreleased, hseen, Function.update_self]
  case increasing =>
    intro y i j w w' hij hw hw'
    obtain hold | ⟨rfl,rfl,hreleased⟩ := hcases y i w hw
    · obtain hold' | ⟨rfl,-,hreleased⟩ := hcases y j w' hw'
      · exact h.increasing y i j w w' hij hold hold'
      · rw [hreleased]
        exact (h.bounded y w (List.mem_of_getElem? hold)).trans hle
    · obtain hw' | ⟨-,-,hreleased'⟩ := hcases y j w' hw'
      · obtain ⟨hlt,-⟩ := List.getElem?_eq_some_iff.mp hw'
        omega
      · rw [hreleased, hreleased']
  case bounded =>
    intro y w hw
    obtain hw | ⟨rfl,hreleased⟩ := hmem y w hw
    · exact (h.bounded y w hw).trans (hmono _)
    · rw [hreleased, hself]
  case counts =>
    intro s u
    have hcount : ∀ a, (m.store (writer x) x value true).view a (.inl s) = m.view a (.inl s) := by
      intro a
      by_cases ha : a = writer x
      · rw [ha, hself]
        simp [hseen]
      · rw [hview, learn_view_of_ne ha]
    rw [hcount, hcount]
    exact h.counts s u
  case recorded =>
    intro s c n hn
    exact (h.recorded s c n hn).trans (hmono s _)

end

section
variable [DecidableEq τ] [DecidableEq ι] [DecidableEq κ]

theorem access (h : Sound writer m) (t : τ) (c : κ) : Sound writer (m.access t c) := by
  set seen := Function.update (m.view t) (.inl t) (m.view t (.inl t)+1) with hseen
  have hle : m.view t ≤ seen := by
    rw [hseen, le_update_iff]
    exact ⟨Nat.le_succ _,fun _ _ => le_refl _⟩
  have hlearn : Sound writer (m.learn t seen) := by
    refine h.learn hle (fun x _ => ?_) (fun x => (h.knows t x).mono hle ?_) fun s hs => ?_
    · simp [hseen]
    · simp [hseen]
    · simpa [hseen, hs] using h.counts s t
  refine { hlearn with recorded := fun s d n hn => ?_ }
  obtain hn | ⟨rfl,rfl⟩ : (s,n) ∈ m.accesses d ∨ s = t ∧ n = m.view t (.inl t)+1 := by
    by_cases hd : d = c
    · subst hd
      simpa [RaMemory.access] using hn
    · simp only [RaMemory.access, Function.update_of_ne hd] at hn
      exact .inl hn
  · exact (h.recorded s d n hn).trans ((adds_learn hle).le s _)
  · change _ ≤ (m.learn s seen).view s _
    rw [learn_view_self, hseen, Function.update_self]

end

end Sound

/-- Thread `t` accesses the slots of the items in turn; the write `j+1` to `x` hands over the
item `j`. What `t` did to an item is known to whoever knows the write that hands it over. -/
def HandsOver (slot : ℕ → κ) (m : RaMemory τ ι κ) (t : τ) (x : ι) (items : ℕ) : Prop :=
  ∀ c n, (t,n) ∈ m.accesses c → ∃ j < items, slot j = c ∧
    ∀ w, (m.history x)[j+1]? = some w → n ≤ w.released (.inl t)

namespace HandsOver
variable {slot : ℕ → κ} {writer : ι → τ} {m : RaMemory τ ι κ} {t : τ} {x : ι} {items : ℕ}

theorem init (slot : ℕ → κ) (t : τ) (x : ι) :
    HandsOver slot (RaMemory.init τ ι κ) t x 0 := nofun

theorem mono (h : HandsOver slot m t x items) {items' : ℕ} (hle : items ≤ items') :
    HandsOver slot m t x items' := by
  intro c n hn
  obtain ⟨j,hj,hrest⟩ := h c n hn
  exact ⟨j,hj.trans_le hle,hrest⟩

/-- Whoever knows that the items in a slot were handed over knows all accesses to it. -/
theorem known (h : HandsOver slot m t x items) (hm : Sound writer m) {u : τ} {c : κ}
    (hu : ∀ j < items, slot j = c → j+1 ≤ m.view u (.inr x)) {n : ℕ} (hn : (t,n) ∈ m.accesses c) :
    n ≤ m.view u (.inl t) := by
  obtain ⟨j,hj,hslot,hreleased⟩ := h c n hn
  have hle := hu j hj hslot
  have hw := List.getElem?_eq_getElem (hle.trans_lt (hm.knows u x).lt)
  exact (hreleased _ hw).trans (hm.synchronizes hw hle _)

variable [DecidableEq τ] [DecidableEq ι]

section
variable [DecidableEq κ]

/-- An access to the slot of an item that is not handed over yet. -/
theorem access_self (h : HandsOver slot m t x items) {items' j : ℕ} (hle : items ≤ items')
    (hj : j < items') (hnew : (m.history x).length ≤ j+1) :
    HandsOver slot (m.access t (slot j)) t x items' := by
  intro c n hn
  by_cases hc : c = slot j
  · subst hc
    have hcases : (t,n) ∈ m.accesses (slot j) ∨ n = m.view t (.inl t)+1 := by
      simpa [RaMemory.access] using hn
    obtain hn | - := hcases
    · exact h.mono hle _ n hn
    · refine ⟨j,hj,rfl,fun w hw => ?_⟩
      obtain ⟨hlt,-⟩ := List.getElem?_eq_some_iff.mp hw
      exact absurd hlt (by exact hnew.not_gt)
  · simp only [RaMemory.access, Function.update_of_ne hc] at hn
    exact h.mono hle c n hn

theorem access_of_ne (h : HandsOver slot m t x items) {u : τ} (hu : t ≠ u) (c : κ) :
    HandsOver slot (m.access u c) t x items := by
  intro d n hn
  by_cases hd : d = c
  · subst hd
    exact h d n (by simpa [RaMemory.access, hu] using hn)
  · simp only [RaMemory.access, Function.update_of_ne hd] at hn
    exact h d n hn

end

/-- What the thread stores hands over all that it did before. -/
theorem store_self (h : HandsOver slot m (writer x) x items) (hm : Sound writer m) (value : ℕ) :
    HandsOver slot (m.store (writer x) x value true) (writer x) x items := by
  intro c n hn
  obtain ⟨j,hj,hslot,hreleased⟩ := h c n hn
  refine ⟨j,hj,hslot,fun w hw => ?_⟩
  obtain hold | ⟨-,-,-,hnew⟩ := store_getElem? hw
  · exact hreleased w hold
  · rw [hnew rfl]
    exact hm.recorded (writer x) c n hn

theorem store_of_ne (h : HandsOver slot m t x items) (u : τ) {y : ι} (hy : x ≠ y) (value : ℕ)
    (release : Bool) : HandsOver slot (m.store u y value release) t x items := by
  intro c n hn
  obtain ⟨j,hj,hslot,hreleased⟩ := h c n hn
  refine ⟨j,hj,hslot,fun w hw => ?_⟩
  obtain hold | ⟨hxy,-⟩ := store_getElem? hw
  · exact hreleased w hold
  · exact absurd hxy hy

end HandsOver
end RaMemory
end Astlog.Foundation
