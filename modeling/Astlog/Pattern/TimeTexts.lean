import Astlog.LocalTime
import Astlog.Pattern.Rendering

/-! The texts of the time fields that one thread writes through objects of one padder type,
which share a cache. -/
namespace Astlog
open Foundation

/-- A call of `format` of some `timeFormatter` object. -/
structure TimeCall where
  padInfo : PaddingInfo
  timeFormat : List Char
  msg : LogMsg (List Char)
  dest : FormatterBuf

namespace TimeCall

/-- The call: the caches it leaves, and the text that it appends between its paddings. -/
def perform (env : FormatEnv) (k : Padder) (caches : ThreadCaches) (c : TimeCall) :
    ThreadCaches × List Char :=
  let f : FlagFormatter Empty := .time k c.padInfo c.timeFormat
  let st : FormatState := { msg := c.msg, dest := c.dest, caches := caches }
  ((f.format noCustom env st).caches,(f.fieldText env st).text)

/-- The second of the message in the format of the object, if it has a calendar time. -/
def rendering (libc : LibC) (c : TimeCall) : Option (List Char) :=
  (libc.localtime c.msg.second).map (libc.strftime 32 c.timeFormat)

/-- Every call appends the rendering of its own message. -/
def AllRendered (env : FormatEnv) (k : Padder) (cs : List TimeCall) : Prop :=
  (answers (perform env k) {} cs).map some = cs.map (rendering env.libc)

end TimeCall

open TimeCall

/-- The cache holds this text for this second. -/
structure TimeCache.Shows (c : TimeCache) (second : ℤ) (text : List Char) : Prop where
  lastTime_eq : c.lastTime = second*1000000000
  cachedTime_eq : c.cachedTime = text

section
variable {env : FormatEnv} {k : Padder} {caches : ThreadCaches} {c : TimeCall}

lemma perform_text : (c.perform env k caches).2 =
    ((caches.get k).refresh env.libc c.timeFormat c.msg.mTimeStamp).cachedTime := rfl

lemma perform_get : (c.perform env k caches).1.get k =
    (caches.get k).refresh env.libc c.timeFormat c.msg.mTimeStamp :=
  ThreadCaches.get_set_self _ _ _

/-- In the second of the cache its text stands, in any other that of the object's format. -/
lemma perform_cases {second : ℤ} {text : List Char} (h : (caches.get k).Shows second text)
    (hc : (env.libc.localtime c.msg.second).isSome) :
    ((c.perform env k caches).1.get k).Shows c.msg.second (c.perform env k caches).2 ∧
      (c.msg.second = second ∧ (c.perform env k caches).2 = text ∨
        c.msg.second ≠ second ∧ some (c.perform env k caches).2 = c.rendering env.libc) := by
  obtain ⟨tm,htm⟩ := Option.isSome_iff_exists.mp hc
  rw [perform_get, perform_text, TimeCall.rendering, htm]
  by_cases hs : c.msg.second = second
  · have hkeep : (caches.get k).refresh env.libc c.timeFormat c.msg.mTimeStamp = caches.get k := by
      refine if_neg (not_not.mpr ?_)
      rw [h.lastTime_eq, ← hs, LogMsg.second]
    rw [hkeep]
    exact ⟨⟨by rw [h.lastTime_eq, hs],rfl⟩,Or.inl ⟨hs,h.cachedTime_eq⟩⟩
  · have hnew : (caches.get k).refresh env.libc c.timeFormat c.msg.mTimeStamp =
        ⟨c.msg.second*1000000000,env.libc.strftime 32 c.timeFormat tm⟩ := by
      have hne : c.msg.mTimeStamp.tdiv 1000000000*1000000000 ≠ (caches.get k).lastTime := by
        rw [h.lastTime_eq, ← LogMsg.second]
        omega
      have htm' : env.libc.localtime (c.msg.mTimeStamp.tdiv 1000000000) = some tm := htm
      simp only [TimeCache.refresh, htm', if_pos hne]
      rfl
    rw [hnew]
    exact ⟨⟨rfl,rfl⟩,Or.inr ⟨hs,rfl⟩⟩

lemma rendering_isSome (hc : (env.libc.localtime c.msg.second).isSome) :
    ∃ text, c.rendering env.libc = some text := by
  obtain ⟨tm,htm⟩ := Option.isSome_iff_exists.mp hc
  exact ⟨_,by rw [TimeCall.rendering, htm]; rfl⟩

/-- The cache shows the second and the text that are remembered of the last call. -/
def Remembers (k : Padder) (memo : ℤ × Option (List Char)) (caches : ThreadCaches) : Prop :=
  ∃ text, memo.2 = some text ∧ (caches.get k).Shows memo.1 text

lemma remembers_init (k : Padder) : Remembers k (0,some []) {} := by
  refine ⟨[],rfl,?_⟩
  cases k <;> exact ⟨rfl,rfl⟩

lemma perform_right_iff {memo : ℤ × Option (List Char)} (h : Remembers k memo caches)
    (hc : (env.libc.localtime c.msg.second).isSome) :
    (c.perform env k caches).2 = (c.rendering env.libc).getD [] ↔
      (c.msg.second = memo.1 → c.rendering env.libc = memo.2) := by
  obtain ⟨old,hold,hshows⟩ := h
  obtain ⟨text,htext⟩ := rendering_isSome hc
  rw [htext, hold, Option.getD_some]
  obtain ⟨-,⟨hsame,hkept⟩ | ⟨hother,hfresh⟩⟩ := perform_cases hshows hc
  · rw [hkept, Option.some.injEq]
    exact ⟨fun heq _ => heq.symm,fun heq => (heq hsame).symm⟩
  · rw [htext] at hfresh
    exact iff_of_true (Option.some.inj hfresh) fun hsame => absurd hsame hother

lemma perform_remembers {memo : ℤ × Option (List Char)} (h : Remembers k memo caches)
    (hc : (env.libc.localtime c.msg.second).isSome)
    (hright : (c.perform env k caches).2 = (c.rendering env.libc).getD []) :
    Remembers k (c.msg.second,c.rendering env.libc) (c.perform env k caches).1 := by
  obtain ⟨old,hold,hshows⟩ := h
  obtain ⟨text,htext⟩ := rendering_isSome hc
  have hnext := (perform_cases hshows hc).1
  rw [hright, htext, Option.getD_some] at hnext
  exact ⟨text,htext,hnext⟩

/-- The texts are right exactly when the first message is not of the second zero, unless
that is rendered as nothing, and whenever two calls in a row are of the same second, the two
formats render it alike. -/
theorem allRendered_iff (env : FormatEnv) (k : Padder) {cs : List TimeCall}
    (hcs : ∀ c ∈ cs, (env.libc.localtime c.msg.second).isSome) :
    AllRendered env k cs ↔
      (∀ c ∈ cs.head?, c.msg.second = 0 → c.rendering env.libc = some []) ∧
        cs.IsChain fun a b => b.msg.second = a.msg.second →
          b.rendering env.libc = a.rendering env.libc := by
  have hright : cs.map (rendering env.libc) =
      (cs.map fun c => (c.rendering env.libc).getD []).map some := by
    rw [List.map_map]
    refine List.map_congr_left fun c hc => ?_
    obtain ⟨text,htext⟩ := rendering_isSome (hcs c hc)
    simp [htext]
  rw [AllRendered, hright, List.map_inj_right fun _ _ => Option.some.inj]
  exact answers_eq_map_iff (I := Remembers k) (fun c : TimeCall => (c.msg.second,c.rendering env.libc))
    (fun memo c => c.msg.second = memo.1 → c.rendering env.libc = memo.2)
    (fun _ _ _ hc h => perform_right_iff h hc)
    (fun _ _ _ hc h hright => perform_remembers h hc hright) (remembers_init k) hcs

end

/-- The library that renders the default format, in the first minute of the epoch. -/
def firstMinuteEnv : FormatEnv := ⟨firstMinute "[1970-01-01] 00:00:".toList,0,fun _ => 0⟩

/-- A call in the default format, for a message of the second. -/
def timeCall (second : ℤ) : TimeCall :=
  { padInfo := {}
    timeFormat := defaultTimeFormat
    msg := { firstSecondMsg with mTimeStamp := second*1000000000 }
    dest := .empty recordCapacity }

/-- Back and forth between two seconds, with a repetition. -/
theorem allRendered_back : AllRendered firstMinuteEnv .scopedPadder
    [timeCall 5,timeCall 4,timeCall 4,timeCall 5] :=
  (allRendered_iff firstMinuteEnv .scopedPadder (fun _ _ => rfl)).mpr (by decide +kernel)

/-- The first text of a thread is empty if its message is of the second zero. -/
theorem secondZero_not_rendered : ¬∀ (env : FormatEnv) (k : Padder) (cs : List TimeCall),
    (∀ second, (env.libc.localtime second).isSome) →
    (∀ timeFormat tm, (env.libc.strftime 32 timeFormat tm).length < 32) →
    (∀ c ∈ cs, 0 ≤ c.msg.mTimeStamp) → AllRendered env k cs := by
  intro h
  have hfits : ∀ timeFormat tm, (firstMinuteEnv.libc.strftime 32 timeFormat tm).length < 32 := by
    intro timeFormat tm
    change 21 < 32
    norm_num
  have hzero := h firstMinuteEnv .scopedPadder [timeCall 0] (fun _ => rfl) hfits (by decide +kernel)
  revert hzero
  unfold AllRendered
  decide +kernel

end Astlog
