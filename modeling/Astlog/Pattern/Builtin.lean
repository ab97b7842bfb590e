import Astlog.Pattern.Fields

/-! Patterns of built-in flags: what they compile to, and what formatting with them leaves
in the caches of the thread. -/
namespace Astlog

/-- The formatter of a pattern, with no custom handlers. -/
def builtinFormatter (pattern : List Char) : PatternFormatter Empty :=
  PatternFormatter.construct noCustom pattern fun _ => none

/-- The formatter of a flag that no custom handler takes. -/
abbrev builtinFlag (k : Padder) (flag : Char) (padding : PaddingInfo) : FlagFormatter Empty :=
  handleFlag noCustom (fun _ => none) k flag padding

/-- Its formatters show user characters or come from a flag of the pattern. The two blanks
that stand in for an empty pattern are user characters. -/
theorem mem_builtin {pattern : List Char} {f : FlagFormatter Empty}
    (hf : f ∈ (builtinFormatter pattern).mFormatters) :
    (∃ text, f = userCharsFormatter text) ∨
    ∃ padding flag, .field padding flag ∈ itemsOf pattern ∧
      f = builtinFlag (padderOf padding) flag padding := by
  by_cases hp : pattern = []
  · subst hp
    have hblanks : (builtinFormatter []).mFormatters = [userCharsFormatter "  ".toList] := rfl
    rw [hblanks, List.mem_singleton] at hf
    exact .inl ⟨_,hf⟩
  · simp only [builtinFormatter, PatternFormatter.construct, hp, if_false] at hf
    rw [compilePattern_eq] at hf
    obtain ⟨item,hitem,rfl⟩ := List.mem_map.mp hf
    cases item with
    | literal text => exact .inl ⟨text,rfl⟩
    | field padding flag => exact .inr ⟨padding,flag,hitem,rfl⟩

/-- The clock is read for `%e` only, and the time cache for `%d` only. -/
lemma flags_of_mem_builtin {pattern : List Char} {f : FlagFormatter Empty}
    (hf : f ∈ (builtinFormatter pattern).mFormatters) :
    (f.readsClock = true → 'e' ∈ flagsOf pattern) ∧ (f.readsTime = true → 'd' ∈ flagsOf pattern) := by
  obtain ⟨text,rfl⟩ | ⟨padding,flag,hitem,rfl⟩ := mem_builtin hf
  · exact ⟨fun h => absurd h Bool.false_ne_true,fun h => absurd h Bool.false_ne_true⟩
  · have hflag : flag ∈ flagsOf pattern := List.mem_filterMap.mpr ⟨_,hitem,rfl⟩
    simp only [builtinFlag, handleFlag]
    split
    case h_6 => exact ⟨fun _ => hflag,fun h => absurd h Bool.false_ne_true⟩
    case h_7 => exact ⟨fun h => absurd h Bool.false_ne_true,fun _ => hflag⟩
    all_goals exact ⟨fun h => absurd h Bool.false_ne_true,fun h => absurd h Bool.false_ne_true⟩

theorem readsClock_of_mem_builtin {pattern : List Char} (he : 'e' ∉ flagsOf pattern)
    {f : FlagFormatter Empty} (hf : f ∈ (builtinFormatter pattern).mFormatters) :
    f.readsClock = false := Bool.eq_false_iff.mpr (mt (flags_of_mem_builtin hf).1 he)

theorem readsTime_of_mem_builtin {pattern : List Char} (hd : 'd' ∉ flagsOf pattern)
    {f : FlagFormatter Empty} (hf : f ∈ (builtinFormatter pattern).mFormatters) :
    f.readsTime = false := Bool.eq_false_iff.mpr (mt (flags_of_mem_builtin hf).2 hd)

namespace FlagFormatter

/-- No flag of a pattern can ask for another time format. -/
def DefaultTime : FlagFormatter Empty → Prop
  | time _ _ timeFormat => timeFormat = defaultTimeFormat
  | _ => True

end FlagFormatter

theorem defaultTime_of_mem_builtin {pattern : List Char} {f : FlagFormatter Empty}
    (hf : f ∈ (builtinFormatter pattern).mFormatters) : f.DefaultTime := by
  obtain ⟨text,rfl⟩ | ⟨padding,flag,-,rfl⟩ := mem_builtin hf
  · trivial
  · simp only [builtinFlag, handleFlag]
    split <;> trivial

/-- One call of `format` on a thread. -/
structure FormatCall where
  pattern : List Char
  msg : LogMsg (List Char)
  now : ℕ → ℤ

/-- The call, into an empty buffer. -/
def FormatCall.run (env : FormatEnv) (caches : ThreadCaches) (c : FormatCall) : FormatState :=
  (builtinFormatter c.pattern).format noCustom { env with now := c.now }
    { msg := c.msg, dest := .empty recordCapacity, caches := caches }

/-- The caches of a thread that has made the calls of the history. -/
def cachesAfter (env : FormatEnv) (history : List FormatCall) : ThreadCaches :=
  history.foldl (fun caches c => (c.run env caches).caches) {}

/-- What holds of the cached text and of every text from `strftime` holds after a refresh. -/
theorem TimeCache.refresh_cachedTime {libc : LibC} {timeFormat : List Char} {R : List Char → Prop}
    (hR : ∀ tm, R (libc.strftime 32 timeFormat tm)) {c : TimeCache} (hc : R c.cachedTime) (t : ℤ) :
    R (c.refresh libc timeFormat t).cachedTime := by
  simp only [refresh]
  split
  · split
    · exact hR _
    · exact hc
  · exact hc

@[simp] theorem ThreadCaches.get_set_self (c : ThreadCaches) (k : Padder) (t : TimeCache) :
    (c.set k t).get k = t := by cases k <;> rfl

lemma ThreadCaches.get_set_of_ne (c : ThreadCaches) {k k' : Padder} (t : TimeCache) (h : k' ≠ k) :
    (c.set k t).get k' = c.get k' := by
  cases k <;> cases k' <;> first | rfl | exact absurd rfl h

section
variable {env : FormatEnv} {P : TimeCache → Prop}

@[simp] theorem format_mTimeStamp (f : FlagFormatter Empty) (st : FormatState) :
    (f.format noCustom env st).msg.mTimeStamp = st.msg.mTimeStamp := by
  cases f with
  | location k p mode =>
    simp only [FlagFormatter.format]
    split <;> rfl
  | custom c => exact c.elim
  | _ => rfl

theorem format_caches_invariant {st : FormatState}
    (hP : ∀ c, P c → P (c.refresh env.libc defaultTimeFormat st.msg.mTimeStamp))
    {f : FlagFormatter Empty} (hf : f.DefaultTime) (h : ∀ k, P (st.caches.get k)) (k : Padder) :
    P ((f.format noCustom env st).caches.get k) := by
  cases f with
  | time k' p timeFormat =>
    obtain rfl : timeFormat = defaultTimeFormat := hf
    by_cases hk : k = k'
    · subst hk
      simp only [FlagFormatter.format, ThreadCaches.get_set_self]
      exact hP _ (h k)
    · simp only [FlagFormatter.format, ThreadCaches.get_set_of_ne _ _ hk]
      exact h k
  | location k' p mode =>
    simp only [FlagFormatter.format]
    split
    · exact h k
    · exact h k
  | custom c => exact c.elim
  | _ => exact h k

lemma formatAll_caches_invariant {fs : List (FlagFormatter Empty)} {st : FormatState}
    (hP : ∀ c, P c → P (c.refresh env.libc defaultTimeFormat st.msg.mTimeStamp))
    (hfs : ∀ f ∈ fs, f.DefaultTime) (h : ∀ k, P (st.caches.get k)) (k : Padder) :
    P ((formatAll env fs st).caches.get k) := by
  induction fs generalizing st with
  | nil => exact h k
  | cons f fs ih =>
    refine ih ?_ (fun g hg => hfs g (List.mem_cons_of_mem _ hg))
      (format_caches_invariant hP (hfs f List.mem_cons_self) h)
    rw [format_mTimeStamp]
    exact hP

/-- What holds of a new cache, and still holds after each refresh, holds of a thread's
caches after any history. -/
theorem cachesAfter_invariant (h0 : P {})
    (hP : ∀ c t, P c → P (c.refresh env.libc defaultTimeFormat t)) (history : List FormatCall)
    (k : Padder) : P ((cachesAfter env history).get k) := by
  have hstart : ∀ k, P (ThreadCaches.get {} k) := by
    intro k
    cases k <;> exact h0
  suffices hall : ∀ caches : ThreadCaches, (∀ k, P (caches.get k)) →
      P ((history.foldl (fun caches c => (c.run env caches).caches) caches).get k) from hall {} hstart
  induction history with
  | nil => exact fun caches h => h k
  | cons c history ih =>
    intro caches h
    refine ih _ fun k' => ?_
    exact @formatAll_caches_invariant { env with now := c.now } P _
      { msg := c.msg, dest := .empty recordCapacity, caches := caches } (fun d hd => hP d _ hd)
      (fun f hf => defaultTime_of_mem_builtin hf) h k'

end
end Astlog
