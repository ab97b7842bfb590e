import Mathlib.Algebra.GroupWithZero.Nat
import Mathlib.Data.List.Basic
import Mathlib.Data.List.Perm.Basic
import Mathlib.Data.Multiset.AddSub

/-! Replacing one entry of a list, where the list holds the states of several
threads and the entry is the one that moves; and the order of members of a sorted list. -/
namespace Astlog.Foundation

variable {α β : Type*} {xs : List α} {i : ℕ} {x : α}

theorem getElem?_set_of_some (h : xs[i]? = some x) (y : α) (k : ℕ) :
    (xs.set i y)[k]? = if k = i then some y else xs[k]? := by
  obtain ⟨hi,-⟩ := List.getElem?_eq_some_iff.mp h
  rw [List.getElem?_set]
  by_cases hk : k = i
  · simp [hk,hi]
  · rw [if_neg (Ne.symm hk), if_neg hk]

theorem mem_set_self_of_some (h : xs[i]? = some x) (y : α) : y ∈ xs.set i y :=
  List.mem_of_getElem? (show (xs.set i y)[i]? = some y by rw [getElem?_set_of_some h, if_pos rfl])

/-- An entry other than the one replaced is still there. -/
theorem mem_set_of_ne (h : xs[i]? = some x) {a : α} (ha : a ∈ xs) (hne : a ≠ x) (y : α) :
    a ∈ xs.set i y := by
  obtain ⟨k,hk⟩ := List.getElem?_of_mem ha
  have hki : k ≠ i := by
    rintro rfl
    exact hne (Option.some.inj (hk.symm.trans h))
  have hset : (xs.set i y)[k]? = some a := by rw [getElem?_set_of_some h, if_neg hki, hk]
  exact List.mem_of_getElem? hset

theorem mem_of_mem_set {a y : α} (h : a ∈ xs.set i y) (hne : a ≠ y) : a ∈ xs :=
  (List.mem_or_eq_of_mem_set h).resolve_right hne

/-- What holds of all entries and of the new one holds after the replacement. -/
theorem forall_mem_set {P : α → Prop} {y : α} (h : ∀ a ∈ xs, P a) (hy : P y) :
    ∀ a ∈ xs.set i y, P a := by
  intro a ha
  obtain ha | rfl := List.mem_or_eq_of_mem_set ha
  · exact h a ha
  · exact hy

/-- What the entries hold together changes by what the replaced entry held. -/
theorem flatMap_set_perm (h : xs[i]? = some x) (f : α → List β) (y : α) :
    ((xs.set i y).flatMap f ++ f x).Perm (xs.flatMap f ++ f y) := by
  induction xs generalizing i with
  | nil => simp at h
  | cons a xs ih =>
    cases i with
    | zero =>
      obtain rfl : a = x := by simpa using h
      simp only [List.set_cons_zero, List.flatMap_cons]
      have hswap : (f y ++ xs.flatMap f).Perm (xs.flatMap f ++ f y) := List.perm_append_comm
      rw [List.append_assoc (f a)]
      exact List.perm_append_comm.trans (hswap.append_left _)
    | succ i =>
      have hi := ih (show xs[i]? = some x by simpa using h)
      simp only [List.set_cons_succ, List.flatMap_cons, List.append_assoc]
      exact hi.append_left _

/-- The same as an equation. -/
theorem coe_flatMap_set (h : xs[i]? = some x) (f : α → List β) (y : α) :
    ((xs.set i y).flatMap f : Multiset β) + f x = xs.flatMap f + f y := by
  rw [Multiset.coe_add, Multiset.coe_add]
  exact Multiset.coe_eq_coe.mpr (flatMap_set_perm h f y)

theorem mem_of_mem_flatMap_set {f : α → List β} {y : α} {b : β} (h : b ∈ (xs.set i y).flatMap f) :
    b ∈ xs.flatMap f ∨ b ∈ f y := by
  obtain ⟨a,ha,hb⟩ := List.mem_flatMap.mp h
  obtain ha | rfl := List.mem_or_eq_of_mem_set ha
  · exact .inl (List.mem_flatMap.mpr ⟨a,ha,hb⟩)
  · exact .inr hb

/-- A replacement that holds the same changes nothing. -/
theorem flatMap_set_eq (h : xs[i]? = some x) {f : α → List β} {y : α} (hf : f y = f x) :
    (xs.set i y).flatMap f = xs.flatMap f := by
  induction xs generalizing i with
  | nil => rfl
  | cons a xs ih =>
    cases i with
    | zero =>
      obtain rfl : a = x := by simpa using h
      rw [List.set_cons_zero, List.flatMap_cons, List.flatMap_cons, hf]
    | succ i => rw [List.set_cons_succ, List.flatMap_cons, List.flatMap_cons, ih (by simpa using h)]

/-- Where no other entry holds anything, all that is held is what the new entry holds. -/
theorem flatMap_set_of_others_nil (h : xs[i]? = some x) {f : α → List β}
    (hf : ∀ j y, j ≠ i → xs[j]? = some y → f y = []) (y : α) : (xs.set i y).flatMap f = f y := by
  induction xs generalizing i with
  | nil => simp at h
  | cons a xs ih =>
    cases i with
    | zero =>
      have hrest : xs.flatMap f = [] := by
        rw [List.flatMap_eq_nil_iff]
        intro z hz
        obtain ⟨j,hj⟩ := List.getElem?_of_mem hz
        exact hf (j+1) z (Nat.succ_ne_zero j) hj
      rw [List.set_cons_zero, List.flatMap_cons, hrest, List.append_nil]
    | succ i =>
      have ha : f a = [] := hf 0 a (Nat.succ_ne_zero i).symm rfl
      rw [List.set_cons_succ, List.flatMap_cons, ha, List.nil_append]
      exact ih h fun j z hj hz => hf (j+1) z (fun he => hj (Nat.succ.inj he)) hz

/-- A replacement with the same image changes no image. -/
theorem map_set_eq (h : xs[i]? = some x) {f : α → β} {y : α} (hf : f y = f x) :
    (xs.set i y).map f = xs.map f := by
  apply List.ext_getElem?
  intro k
  rw [List.getElem?_map, List.getElem?_map, getElem?_set_of_some h]
  by_cases hk : k = i
  · rw [if_pos hk, hk, h, Option.map_some, Option.map_some, hf]
  · rw [if_neg hk]

/-- What the entries add up to changes by what the replaced entry counted. -/
theorem sum_map_set (h : xs[i]? = some x) (f : α → ℕ) (y : α) :
    ((xs.set i y).map f).sum+f x = (xs.map f).sum+f y := by
  induction xs generalizing i with
  | nil => simp at h
  | cons a xs ih =>
    cases i with
    | zero =>
      obtain rfl : a = x := by simpa using h
      simp only [List.set_cons_zero, List.map_cons, List.sum_cons]
      omega
    | succ i =>
      have hi := ih (show xs[i]? = some x by simpa using h)
      simp only [List.set_cons_succ, List.map_cons, List.sum_cons]
      omega

/-- In a list sorted by an asymmetric relation the smaller of two members comes first. -/
theorem pair_sublist_of_pairwise {R : α → α → Prop} (hR : ∀ x y, R x y → ¬R y x)
    (h : xs.Pairwise R) {a b : α} (ha : a ∈ xs) (hb : b ∈ xs) (hab : R a b) :
    [a,b].Sublist xs := by
  induction xs with
  | nil => cases ha
  | cons x xs ih =>
    obtain ⟨hx,hxs⟩ := List.pairwise_cons.mp h
    obtain rfl | hax := List.mem_cons.mp ha
    · have hne : b ≠ a := by
        rintro rfl
        exact hR _ _ hab hab
      have hb := (List.mem_cons.mp hb).resolve_left hne
      exact (List.singleton_sublist.mpr hb).cons_cons a
    · obtain rfl | hbx := List.mem_cons.mp hb
      · exact absurd (hx a hax) (hR _ _ hab)
      · exact (ih hxs hax hbx).cons x

/-- An increasing sequence below a bound starts at least its length below the bound. -/
theorem head_add_length_le {xs : List ℕ} (h : xs.Pairwise (· < ·)) {n x : ℕ}
    (hn : ∀ y ∈ xs, y < n) (hx : xs.head? = some x) : x+xs.length ≤ n := by
  induction xs generalizing x with
  | nil => cases hx
  | cons y ys ih =>
    obtain rfl : y = x := by simpa using hx
    obtain ⟨hy,hys⟩ := List.pairwise_cons.mp h
    cases ys with
    | nil =>
      have := hn y List.mem_cons_self
      simp only [List.length_singleton]
      omega
    | cons z zs =>
      have hz := ih hys (fun w hw => hn w (List.mem_cons_of_mem _ hw)) rfl
      have hyz := hy z List.mem_cons_self
      simp only [List.length_cons] at hz ⊢
      omega

end Astlog.Foundation
