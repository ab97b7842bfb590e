import Astlog.ThreadPool.Step

/-! What becomes of the messages that the log calls of a thread bring: the pool accepts them in
order until it is stopped, and from then on refuses them. -/
namespace Astlog
open Foundation

namespace ThreadPool
variable {ν : Type} {s t : ThreadPool ν} {given : ℕ → List (AsyncMsg ν)}

/-- The accepted messages of poster `j`. -/
def acceptedOf (s : ThreadPool ν) (j : ℕ) : List (AsyncMsg ν) :=
  (s.accepted.filter (·.poster = j)).map Entry.msg

/-- What each poster was given to post: accepted first, then refused, then still to be posted. -/
structure PostedInOrder (given : ℕ → List (AsyncMsg ν)) (s : ThreadPool ν) : Prop where
  index : ∀ e ∈ s.accepted, e.poster < s.posters.length
  split : ∀ (j : ℕ) (p : Poster ν), s.posters[j]? = some p → ∃ refused,
    given j = s.acceptedOf j ++ refused ++ p.todo ∧ (s.mStop = false → refused = [])
  stop : s.dtor = .notStarted → s.mStop = false

/-- A step in which no message is accepted or refused. -/
lemma PostedInOrder.still (h : PostedInOrder given s) (hacc : t.accepted = s.accepted)
    (htodo : t.posters.map Poster.todo = s.posters.map Poster.todo) (hstop : t.mStop = false → s.mStop = false)
    (hdtor : t.dtor = .notStarted → t.mStop = false) : PostedInOrder given t := by
  have hlen : t.posters.length = s.posters.length := by
    simpa only [List.length_map] using congrArg List.length htodo
  refine ⟨?_,fun j p hp => ?_,hdtor⟩
  · rw [hacc, hlen]
    exact h.index
  · have hmap := congrArg (fun l => l[j]?) htodo
    simp only [List.getElem?_map, hp, Option.map_some] at hmap
    obtain ⟨q,hq,heq⟩ := Option.map_eq_some_iff.mp hmap.symm
    obtain ⟨refused,hgiven,hnone⟩ := h.split j q hq
    refine ⟨refused,?_,fun hs => hnone (hstop hs)⟩
    rw [hgiven, heq, acceptedOf, acceptedOf, hacc]

/-- The next message of poster `j` is accepted or refused. -/
lemma PostedInOrder.posted (h : PostedInOrder given s) {j : ℕ} {m : AsyncMsg ν} {ms : List (AsyncMsg ν)}
    {pc pc' : PosterPc} (hp : s.posters[j]? = some ⟨pc,m::ms⟩)
    (hposters : t.posters = s.posters.set j ⟨pc',ms⟩) (hmStop : t.mStop = s.mStop) (hdtor : t.dtor = s.dtor)
    (hacc : t.accepted = s.accepted ++ if s.mStop then [] else [s.entry j m]) :
    PostedInOrder given t := by
  obtain ⟨hj,-⟩ := List.getElem?_eq_some_iff.mp hp
  refine ⟨fun e he => ?_,fun i p hi => ?_,fun hd => ?_⟩
  · rw [hposters, List.length_set]
    rw [hacc, List.mem_append] at he
    rcases he with he | he
    · exact h.index e he
    · split at he
      · cases he
      · rw [List.mem_singleton.mp he]
        exact hj
  · have hof : t.acceptedOf i = s.acceptedOf i ++ if s.mStop then [] else if j = i then [m] else [] := by
      rw [acceptedOf, acceptedOf, hacc, List.filter_append, List.map_append]
      congr 1
      split
      · rfl
      · by_cases hji : j = i <;> simp [entry, hji]
    rw [hposters, getElem?_set_of_some hp] at hi
    rw [hof, hmStop]
    split_ifs at hi with hij
    · cases hi
      subst hij
      obtain ⟨refused,hgiven,hnone⟩ := h.split _ _ hp
      cases hs : s.mStop with
      | false =>
        rw [hnone hs, List.append_nil] at hgiven
        exact ⟨[],by rw [hgiven]; simp,fun _ => rfl⟩
      | true => exact ⟨refused ++ [m],by rw [hgiven]; simp,nofun⟩
    · obtain ⟨refused,hgiven,hnone⟩ := h.split i p hi
      refine ⟨refused,?_,hnone⟩
      rw [hgiven, if_neg (Ne.symm hij), ite_self, List.append_nil]
  · rw [hmStop]
    exact h.stop (hdtor ▸ hd)

/-- Another log call of poster `j`. -/
theorem PostedInOrder.call (h : PostedInOrder given s) {j : ℕ} (hp : s.posters[j]? = some ⟨.idle,[]⟩)
    (msgs : List (AsyncMsg ν)) :
    PostedInOrder (Function.update given j (given j ++ msgs)) (s.setPoster j ⟨.idle,msgs⟩) := by
  refine ⟨fun e he => ?_,fun i p hi => ?_,h.stop⟩
  · rw [setPoster_posters, List.length_set]
    exact h.index e he
  · simp only [setPoster, getElem?_set_of_some hp] at hi
    split_ifs at hi with hij
    · cases hi
      subst hij
      obtain ⟨refused,hgiven,hnone⟩ := h.split _ _ hp
      refine ⟨refused,?_,hnone⟩
      rw [Function.update_self, hgiven, List.append_nil]
      rfl
    · rw [Function.update_of_ne hij]
      exact h.split i p hi

theorem postedInOrder_step (h : PostedInOrder given s) {a : PoolAction ν} (ha : PoolStep s a t)
    (hcall : ∀ j msgs, a ≠ .call j msgs) : PostedInOrder given t := by
  cases ha with
  | call => exact absurd rfl (hcall _ _)
  | refuse hp hs => exact h.posted hp rfl rfl rfl (by rw [if_pos hs]; exact (List.append_nil _).symm)
  | push hp hs => exact h.posted hp rfl rfl rfl (by rw [hs]; rfl)
  | posterLock hp => exact h.still rfl (map_set_eq hp rfl) id h.stop
  | posterUnlock hp => exact h.still rfl (map_set_eq hp rfl) id h.stop
  | notifyWake hp => exact h.still rfl (map_set_eq hp rfl) id h.stop
  | notifyNone hp => exact h.still rfl (map_set_eq hp rfl) id h.stop
  | dtorLock => exact h.still rfl rfl id nofun
  | stop => exact h.still rfl rfl nofun nofun
  | dtorUnlock => exact h.still rfl rfl id nofun
  | notifyAll => exact h.still rfl rfl id nofun
  | join => exact h.still rfl rfl id nofun
  | _ => exact h.still rfl rfl id h.stop

theorem posters_length_step {a : PoolAction ν} (ha : PoolStep s a t) :
    t.posters.length = s.posters.length := by
  cases ha <;> first | rfl | exact List.length_set

theorem postedInOrder_init (num m : ℕ) : PostedInOrder (fun _ => []) (init ν num m) where
  index := nofun
  split j p hp := by
    obtain rfl := List.eq_of_mem_replicate (List.mem_of_getElem? hp)
    exact ⟨[],rfl,fun _ => rfl⟩
  stop _ := rfl

/-- Outside of log calls, what is accepted of a poster begins what it was given, and is all of it
before the pool is destroyed. -/
theorem PostedInOrder.rest (h : PostedInOrder given s) {j : ℕ} (hj : s.posters[j]? = some {}) :
    s.acceptedOf j <+: given j ∧ (s.dtor = .notStarted → s.acceptedOf j = given j) := by
  obtain ⟨refused,hgiven,hnone⟩ := h.split j _ hj
  rw [show (({} : Poster ν).todo) = [] from rfl, List.append_nil] at hgiven
  rw [hgiven]
  refine ⟨List.prefix_append _ _,fun hd => ?_⟩
  rw [hnone (h.stop hd), List.append_nil]

end ThreadPool
end Astlog
