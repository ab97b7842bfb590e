import Astlog.Pattern.FlagFormatter
import Astlog.Foundation.Calls

/-! `getLocalTime`, whose texts one thread keeps for a second. -/
namespace Astlog
open Foundation

/-- A `string_view`, and what stands in memory behind it: its `data()` is read as a C string. -/
structure FormatView where
  view : List Char
  behind : List Char
  terminated : nul ∈ view ++ behind

/-- What `strftime` reads at `format.data()`. -/
def FormatView.cString (format : FormatView) : List Char :=
  (format.view ++ format.behind).takeWhile (· ≠ nul)

/-- The `static thread_local` variables: the reading at the last miss and the 64 characters. -/
structure LocalTimeCache where
  cachedTime : ℤ
  buf : List Char
  deriving DecidableEq

/-- Before the first call, where the clock is read for `cachedTime` alone. -/
def LocalTimeCache.init (start : ℤ) : LocalTimeCache := ⟨start,List.replicate 64 nul⟩

/-- A call, with the reading of the clock assigned to `now`. -/
structure LocalTimeCall where
  format : FormatView
  now : ℤ

/-- The second that `to_time_t` gives. -/
def LocalTimeCall.second (c : LocalTimeCall) : ℤ := c.now.tdiv 1000000000

/-- The hit test. -/
def LocalTimeCache.hit (s : LocalTimeCache) (c : LocalTimeCall) : Bool :=
  c.now-s.cachedTime ≤ 1000000000 ∧ s.buf.head? ≠ some nul

/-- `getLocalTime`. A hit returns the whole array, a miss the text. Without a calendar time
`strftime` gets a null pointer, which is undefined. -/
def getLocalTime (libc : LibC) (s : LocalTimeCache) (c : LocalTimeCall) :
    LocalTimeCache × Option (List Char) :=
  if s.hit c then (s,some s.buf)
  else
    match libc.localtime c.second with
    | some tm =>
      let text := libc.strftime 64 c.format.cString tm
      (⟨c.now,InlineBuffer.copyAt s.buf 0 (text ++ [nul])⟩,some text)
    | none => (⟨c.now,s.buf⟩,none)

namespace LocalTimeCall

/-- The second of the call in the format of the call. -/
def rendering (libc : LibC) (c : LocalTimeCall) : Option (List Char) :=
  (libc.localtime c.second).map (libc.strftime 64 c.format.view)

/-- The same, with the format as it is read. -/
def readRendering (libc : LibC) (c : LocalTimeCall) : Option (List Char) :=
  (libc.localtime c.second).map (libc.strftime 64 c.format.cString)

/-- Every call returns the rendering of its own reading in its own format. -/
def AllRendered (libc : LibC) (start : ℤ) (cs : List LocalTimeCall) : Prop :=
  answers (getLocalTime libc) (.init start) cs = cs.map (rendering libc)

end LocalTimeCall

open LocalTimeCall

/-- What `strftime` leaves in an array of 64 characters: a C string that fits. -/
def LibC.Fits (libc : LibC) : Prop :=
  ∀ format tm, (libc.strftime 64 format tm).length < 64 ∧ nul ∉ libc.strftime 64 format tm

/-- The cache remembers the reading of the last call, and whether its text was empty. -/
structure LocalTimeCache.Remembers (memo : ℤ × Option (List Char)) (s : LocalTimeCache) : Prop where
  cachedTime_eq : s.cachedTime = memo.1
  buf_length : s.buf.length = 64
  blank_iff : s.buf.head? = some nul ↔ memo.2 = some []

lemma LocalTimeCache.remembers_init (start : ℤ) : (init start).Remembers (start,some []) :=
  ⟨rfl,rfl,iff_of_true rfl rfl⟩

section
variable {libc : LibC} {s : LocalTimeCache} {c : LocalTimeCall} {memo : ℤ × Option (List Char)}

lemma hit_iff (h : s.Remembers memo) (c : LocalTimeCall) :
    s.hit c = true ↔ ¬(1000000000 < c.now-memo.1 ∨ memo.2 = some []) := by
  rw [LocalTimeCache.hit, decide_eq_true_eq, h.cachedTime_eq, Ne, h.blank_iff, not_or, not_lt]

lemma getLocalTime_of_hit (hhit : s.hit c = true) :
    getLocalTime libc s c = (s,some s.buf) := if_pos hhit

lemma getLocalTime_of_miss (hhit : ¬s.hit c = true) {tm : libc.Tm}
    (htm : libc.localtime c.second = some tm) :
    getLocalTime libc s c =
      (⟨c.now,InlineBuffer.copyAt s.buf 0 (libc.strftime 64 c.format.cString tm ++ [nul])⟩,
        some (libc.strftime 64 c.format.cString tm)) := by
  rw [getLocalTime, if_neg hhit, htm]

/-- A hit never returns a rendering, which is shorter. -/
lemma getLocalTime_right_iff (hfits : libc.Fits) (h : s.Remembers memo)
    (hc : (libc.localtime c.second).isSome) :
    (getLocalTime libc s c).2 = c.rendering libc ↔
      (1000000000 < c.now-memo.1 ∨ memo.2 = some []) ∧
        c.readRendering libc = c.rendering libc := by
  obtain ⟨tm,htm⟩ := Option.isSome_iff_exists.mp hc
  have hhit := hit_iff h c
  unfold LocalTimeCall.rendering LocalTimeCall.readRendering
  rw [htm, Option.map_some, Option.map_some]
  by_cases hmiss : 1000000000 < c.now-memo.1 ∨ memo.2 = some []
  · rw [getLocalTime_of_miss (fun hh => hhit.mp hh hmiss) htm]
    exact (and_iff_right hmiss).symm
  · rw [getLocalTime_of_hit (hhit.mpr hmiss)]
    refine iff_of_false (fun heq => ?_) fun hand => hmiss hand.1
    have hshort := (hfits c.format.view tm).1
    rw [← Option.some.inj heq, h.buf_length] at hshort
    exact lt_irrefl _ hshort

lemma getLocalTime_remembers (hfits : libc.Fits) (h : s.Remembers memo)
    (hc : (libc.localtime c.second).isSome) (hright : (getLocalTime libc s c).2 = c.rendering libc) :
    (getLocalTime libc s c).1.Remembers (c.now,c.rendering libc) := by
  obtain ⟨tm,htm⟩ := Option.isSome_iff_exists.mp hc
  have hmiss := ((getLocalTime_right_iff hfits h hc).mp hright).1
  have hhit := hit_iff h c
  obtain ⟨hshort,hnul⟩ := hfits c.format.cString tm
  rw [getLocalTime_of_miss (fun hh => hhit.mp hh hmiss) htm] at hright ⊢
  rw [← hright]
  refine ⟨rfl,?_,?_⟩
  · rw [InlineBuffer.copyAt_length (by rw [h.buf_length]; simp; omega), h.buf_length]
  · cases htext : libc.strftime 64 c.format.cString tm with
    | nil => exact iff_of_true rfl rfl
    | cons d text =>
      rw [htext] at hnul
      have hd : d ≠ nul := fun heq => hnul (by simp [heq])
      exact iff_of_false (by simpa [InlineBuffer.copyAt] using hd) (by simp)

/-- The texts are right exactly when each call comes more than a second after the one
before it, unless that one's text was empty, and every format is rendered as it is read. -/
theorem allRendered_iff_apart (hfits : libc.Fits) (start : ℤ) {cs : List LocalTimeCall}
    (hcs : ∀ c ∈ cs, (libc.localtime c.second).isSome) :
    AllRendered libc start cs ↔ (∀ c ∈ cs, c.readRendering libc = c.rendering libc) ∧
      cs.IsChain fun a b => 1000000000 < b.now-a.now ∨ a.rendering libc = some [] := by
  have hcalls := answers_eq_map_iff (I := LocalTimeCache.Remembers)
    (fun c : LocalTimeCall => (c.now,c.rendering libc))
    (fun memo c => (1000000000 < c.now-memo.1 ∨ memo.2 = some []) ∧
      c.readRendering libc = c.rendering libc)
    (fun _ _ _ hc h => getLocalTime_right_iff hfits h hc)
    (fun _ _ _ hc h hright => getLocalTime_remembers hfits h hc hright)
    (LocalTimeCache.remembers_init start) hcs
  rw [AllRendered, hcalls, ← head_and_isChain_iff]
  exact and_congr_left fun _ => forall₂_congr fun c _ => and_iff_right (Or.inr rfl)

end

/-- The first minute of the epoch, in universal time and behind its date. -/
def firstMinute (date : List Char) : LibC where
  Tm := Fin 60
  localtime second := some ⟨(second % 60).toNat,by omega⟩
  strftime _ _ tm := date ++ [Nat.digitChar (tm.val/10),Nat.digitChar (tm.val%10)]

/-- The library that renders the default format, in that minute. -/
def defaultLibC : LibC := firstMinute "1970-01-01  00:00:".toList

lemma defaultLibC_fits : defaultLibC.Fits := by
  intro format tm
  refine ⟨show 20 < 64 by norm_num,?_⟩
  have hdigits : ∀ tm : Fin 60, nul ∉ "1970-01-01  00:00:".toList ++
      [Nat.digitChar (tm.val/10),Nat.digitChar (tm.val%10)] := by decide +kernel
  exact hdigits tm

/-- A call in the default format, so many nanoseconds after the epoch. -/
def defaultCall (now : ℤ) : LocalTimeCall where
  format := ⟨"%Y-%m-%d  %H:%M:%S".toList,[nul],by decide⟩
  now := now

/-- Two calls that are two seconds apart. -/
theorem allRendered_apart :
    AllRendered defaultLibC 0 [defaultCall 3000000000,defaultCall 5000000000] :=
  (allRendered_iff_apart defaultLibC_fits 0 (fun _ _ => rfl)).mpr (by decide +kernel)

/-- The second of two calls in a row returns the whole array. -/
theorem hit_not_rendered : ¬∀ (libc : LibC) (start : ℤ) (cs : List LocalTimeCall), libc.Fits →
    (∀ second, (libc.localtime second).isSome) → AllRendered libc start cs := by
  intro h
  have hrow := h defaultLibC 0 [defaultCall 3000000000,defaultCall 3000000001] defaultLibC_fits
    fun _ => rfl
  revert hrow
  unfold AllRendered
  decide +kernel

end Astlog
