import Astlog.Foundation.Update

/-! Interleavings of several lists: the next element is always the first of one of them. -/
namespace Astlog.Foundation

variable {α : Type*}

inductive Merge : List (List α) → List α → Prop
  | done {xss : List (List α)} (h : ∀ xs ∈ xss, xs = []) : Merge xss []
  | next {xss : List (List α)} {i : ℕ} {x : α} {xs order : List α} (h : xss[i]? = some (x::xs))
      (rest : Merge (xss.set i xs) order) : Merge xss (x::order)

/-- Nothing is lost or doubled. -/
theorem Merge.perm {xss : List (List α)} {order : List α} (h : Merge xss order) :
    order.Perm xss.flatten := by
  induction h with
  | done h => rw [List.flatten_eq_nil_iff.mpr h]
  | @next xss i x xs order h rest ih =>
    have hset := flatMap_set_perm h id xs
    simp only [List.flatMap_id, id] at hset
    have hcancel : ((xss.set i xs).flatten ++ [x] ++ xs).Perm (xss.flatten ++ xs) := by
      rwa [List.append_assoc]
    exact ((ih.cons x).trans (List.perm_append_singleton x _).symm).trans
      ((List.perm_append_right_iff xs).mp hcancel)

/-- One list has but one interleaving. -/
theorem Merge.eq_of_singleton {xs order : List α} (h : Merge [xs] order) : order = xs := by
  generalize hxss : [xs] = xss at h
  induction h generalizing xs with
  | done h =>
    subst hxss
    exact (h xs (List.mem_singleton_self xs)).symm
  | @next xss i y ys order hi rest ih =>
    subst hxss
    cases i with
    | zero =>
      obtain rfl : xs = y::ys := Option.some.inj hi
      rw [ih (List.set_cons_zero ..).symm]
    | succ i => cases hi

/-- An element put behind one of the lists may come last of all. -/
theorem Merge.snoc {xss : List (List α)} {order : List α} (h : Merge xss order) {i : ℕ} {xs : List α}
    (hi : xss[i]? = some xs) (x : α) : Merge (xss.set i (xs ++ [x])) (order ++ [x]) := by
  have hlt := (List.getElem?_eq_some_iff.mp hi).1
  induction h generalizing xs with
  | @done xss h =>
    have hxs : xs = [] := h xs (List.mem_of_getElem? hi)
    subst hxs
    refine .next (i := i) (List.getElem?_set_self hlt) (.done fun ys hys => ?_)
    rw [List.set_set] at hys
    obtain hys | rfl := List.mem_or_eq_of_mem_set hys
    · exact h ys hys
    · rfl
  | @next xss j y ys order hj rest ih =>
    by_cases hij : i = j
    · subst hij
      obtain rfl : xs = y::ys := Option.some.inj (hi.symm.trans hj)
      refine .next (i := i) (List.getElem?_set_self hlt) ?_
      have hat : (xss.set i ys)[i]? = some ys := List.getElem?_set_self hlt
      have hrest := ih hat (by rwa [List.length_set])
      rw [List.set_set] at hrest ⊢
      exact hrest
    · refine .next (i := j) (by rwa [List.getElem?_set_ne hij]) ?_
      have hat : (xss.set j ys)[i]? = some xs := by rwa [List.getElem?_set_ne (Ne.symm hij)]
      have hrest := ih hat (by rwa [List.length_set])
      rwa [List.set_comm _ _ (Ne.symm hij)] at hrest

lemma filter_lt_succ_perm (key : α → ℕ) (xs : List α) (n : ℕ) :
    (xs.filter (key · < n+1)).Perm (xs.filter (key · < n) ++ xs.filter (key · = n)) := by
  induction xs with
  | nil => exact .nil
  | cons x xs ih =>
    obtain hlt | heq | hgt := lt_trichotomy (key x) n
    · have hle : key x < n+1 := by omega
      have hne : key x ≠ n := by omega
      simp only [List.filter_cons, hlt, hle, hne, decide_true, decide_false, if_true,
        Bool.false_eq_true, if_false, List.cons_append]
      exact ih.cons x
    · simp only [List.filter_cons, heq, Nat.lt_succ_self, lt_irrefl, decide_true, decide_false,
        if_true, Bool.false_eq_true, if_false]
      exact (ih.cons x).trans List.perm_middle.symm
    · have hnle : ¬key x < n+1 := by omega
      have hnlt : ¬key x < n := by omega
      have hne : key x ≠ n := by omega
      simp only [List.filter_cons, hnle, hnlt, hne, decide_false, Bool.false_eq_true, if_false]
      exact ih

/-- Elements with a key below a bound, one key after the other. -/
theorem filter_lt_perm (key : α → ℕ) (xs : List α) (n : ℕ) :
    (xs.filter (key · < n)).Perm ((List.range n).flatMap fun i => xs.filter (key · = i)) := by
  induction n with
  | zero => simp
  | succ n ih =>
    rw [List.range_succ, List.flatMap_append]
    have h := (filter_lt_succ_perm key xs n).trans (ih.append_right _)
    simpa using h

/-- Elements sorted out by a key below a bound come out in their order. -/
theorem merge_of_key (key : α → ℕ) {n : ℕ} (xs : List α) (h : ∀ x ∈ xs, key x < n) :
    Merge ((List.range n).map fun i => xs.filter (key · = i)) xs := by
  induction xs with
  | nil =>
    refine .done fun ys hys => ?_
    obtain ⟨i,-,rfl⟩ := List.mem_map.mp hys
    rfl
  | cons x xs ih =>
    have hx := h x List.mem_cons_self
    have hxs := ih fun y hy => h y (List.mem_cons_of_mem x hy)
    have hat : ((List.range n).map fun i => (x::xs).filter (key · = i))[key x]? =
        some (x::xs.filter (key · = key x)) := by
      simp [List.getElem?_range hx]
    refine .next hat ?_
    convert hxs using 1
    refine List.ext_getElem? fun i => ?_
    rw [getElem?_set_of_some hat]
    by_cases hi : i = key x
    · subst hi
      simp [List.getElem?_range hx]
    · by_cases hin : i < n
      · simp [hi, List.getElem?_range hin, Ne.symm hi]
      · simp [hi, hin]

theorem Merge.filterMap {β : Type*} {xss : List (List α)} {order : List α} (h : Merge xss order)
    (f : α → Option β) : Merge (xss.map (List.filterMap f)) (order.filterMap f) := by
  induction h with
  | done h =>
    refine .done fun ys hys => ?_
    obtain ⟨xs,hxs,rfl⟩ := List.mem_map.mp hys
    rw [h xs hxs]
    rfl
  | @next xss i x xs order h rest ih =>
    cases hf : f x with
    | none =>
      rw [List.filterMap_cons_none hf]
      rwa [map_set_eq h (List.filterMap_cons_none hf).symm] at ih
    | some y =>
      rw [List.filterMap_cons_some hf]
      rw [List.map_set] at ih
      refine .next ?_ ih
      rw [List.getElem?_map, h, Option.map_some, List.filterMap_cons_some hf]

end Astlog.Foundation
