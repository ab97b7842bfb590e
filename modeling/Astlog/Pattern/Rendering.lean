import Astlog.Pattern.Appending
import Astlog.Pattern.TextFields

/-! Whether the text of a record depends on the record alone, or also on the clock when it
is rendered and on what the thread has rendered before. -/
namespace Astlog

/-- The second that the time field shows. -/
def LogMsg.second (msg : LogMsg (List Char)) : ℤ := msg.mTimeStamp.tdiv 1000000000

/-- Any two renderings of the message give the same text. -/
def RecordOnly (env : FormatEnv) (pattern : List Char) (msg : LogMsg (List Char)) : Prop :=
  ∀ (now now' : ℕ → ℤ) (history history' : List FormatCall),
    (FormatCall.run env (cachesAfter env history) ⟨pattern,msg,now⟩).dest.view =
      (FormatCall.run env (cachesAfter env history') ⟨pattern,msg,now'⟩).dest.view

/-- The pattern does not ask for the elapsed time, and if it asks for the time, the message
is not of the second a new cache is for, and its second has a calendar time. -/
def Settled (env : FormatEnv) (pattern : List Char) (msg : LogMsg (List Char)) : Prop :=
  'e' ∉ flagsOf pattern ∧
    ('d' ∈ flagsOf pattern → msg.second ≠ 0 ∧ (env.libc.localtime msg.second).isSome)

/-- What the pattern asks for comes out: one of the elapsed times is not cut to nothing, or,
if there are none, no time is cut. -/
def Displayed (pattern : List Char) : Prop :=
  if 'e' ∈ flagsOf pattern then
    ∃ padding, .field padding 'e' ∈ itemsOf pattern ∧ (padding.mTruncate = true → 0 < padding.mWidth)
  else ∀ padding, .field padding 'd' ∈ itemsOf pattern → padding.mTruncate = false

namespace FieldText
variable {b b' : FormatterBuf} {x : FieldText}

/-- Two texts of the same length show, whatever follows each. -/
lemma view_foldl_put_ne (hb : b.Wf) (hcut : x.cut = none) {text text' : List Char}
    (hlen : text.length = text'.length) (hne : text ≠ text') (xs xs' : List FieldText) :
    (({ x with text := text }::xs).foldl put b).view ≠
      (({ x with text := text' }::xs').foldl put b).view := by
  obtain ⟨s,s',hput⟩ := exists_view_put_of_uncut hcut
  have hpre := view_prefix_foldl_put (put_wf hb { x with text := text }) xs
  have hpre' := view_prefix_foldl_put (put_wf hb { x with text := text' }) xs'
  rw [hput _ hb] at hpre hpre'
  intro heq
  rw [List.foldl_cons, List.foldl_cons] at heq
  rw [heq] at hpre
  have hsame := (List.prefix_of_prefix_length_le hpre hpre' (by simp [hlen])).eq_of_length
    (by simp [hlen])
  refine hne ?_
  simpa using hsame

/-- A field that is cut is narrower than its text. -/
theorem lt_length_of_cut {w : ℕ} (hcut : x.cut = some w) (hsize : x.wrappedSize = x.text.length)
    (hw : x.padInfo.mWidth ≤ maxWidth) : w < x.text.length := by
  rw [cut] at hcut
  split_ifs at hcut with h
  cases hcut
  obtain ⟨-,hneg,-⟩ := h
  by_contra hlt
  have hmax : maxWidth = 64 := rfl
  rw [remained, toInt32_of_small (by omega) (by omega)] at hneg
  omega

lemma truncate_of_cut {w : ℕ} (hcut : x.cut = some w) :
    x.padInfo.mTruncate = true ∧ w = x.padInfo.mWidth := by
  rw [cut] at hcut
  split_ifs at hcut with h
  cases hcut
  exact ⟨h.2.2,rfl⟩

lemma length_put_of_cut (hb : b.Wf) {w : ℕ} (hcut : x.cut = some w) :
    (put b x).view.length = b.view.length +
      if w+b.view.length < recordCapacity then w else x.text.length := by
  rw [put_of_cut hcut, pieces_of_cut hcut, List.foldl_cons, List.foldl_nil, InlineBuffer.view_length hb]
  split_ifs with hin
  · rw [InlineBuffer.view_length (InlineBuffer.erase_wf (InlineBuffer.append_wf hb _) _),
      InlineBuffer.erase_mSize _ hin, Nat.add_comm]
  · rw [InlineBuffer.erase_of_le _ (not_lt.mp hin), InlineBuffer.view_append hb, List.length_append,
      InlineBuffer.view_length hb]

/-- The same field in two buffers, one of them longer. -/
lemma length_put_le (hb : b.Wf) (hb' : b'.Wf) (hcut : ∀ w, x.cut = some w → w < x.text.length)
    {n : ℕ} (h : b.view.length+n ≤ b'.view.length) :
    (put b x).view.length+n ≤ (put b' x).view.length := by
  cases hx : x.cut with
  | none =>
    obtain ⟨s,s',hput⟩ := exists_view_put_of_uncut hx
    have hview : (put b x).view = b.view ++ (s ++ x.text ++ s') := hput x.text hb
    have hview' : (put b' x).view = b'.view ++ (s ++ x.text ++ s') := hput x.text hb'
    rw [hview, hview']
    simp only [List.length_append]
    omega
  | some w =>
    have hw := hcut w hx
    rw [length_put_of_cut hb hx, length_put_of_cut hb' hx]
    split_ifs <;> omega

/-- An uncut field in two buffers, with a longer text in the longer one. -/
lemma length_put_lt (hb : b.Wf) (hb' : b'.Wf) (hcut : x.cut = none) {text : List Char}
    (htext : x.text.length < text.length) {n : ℕ} (h : b.view.length+n ≤ b'.view.length) :
    (put b x).view.length+(n+1) ≤ (put b' { x with text := text }).view.length := by
  obtain ⟨s,s',hput⟩ := exists_view_put_of_uncut hcut
  have hview : (put b x).view = b.view ++ (s ++ x.text ++ s') := hput x.text hb
  rw [hview, hput text hb']
  simp only [List.length_append]
  omega

end FieldText

namespace FlagFormatter

/-- An elapsed time in milliseconds, not cut to nothing. -/
def ShowsElapsed : FlagFormatter Empty → Prop
  | timeElapsed _ p unit =>
    unit = defaultUnit ∧ p.mWidth ≤ maxWidth ∧ (p.mTruncate = true → 0 < p.mWidth)
  | _ => False

/-- A formatter of a pattern that cuts no time. -/
def KeepsTime : FlagFormatter Empty → Prop
  | time _ p timeFormat => timeFormat = defaultTimeFormat ∧ p.mTruncate = false
  | name _ p | level _ p | milliseconds _ p | timeElapsed _ p _ | threadId _ p | location _ p _
  | msg _ p | str _ p _ => p.mWidth ≤ maxWidth
  | _ => True

/-- Every text but the time is declared with its own size, and cut only if it is longer. -/
lemma KeepsTime.lt_length_of_cut {f : FlagFormatter Empty} (hf : f.KeepsTime)
    (htime : f.readsTime = false) (env : FormatEnv) (st : FormatState) {w : ℕ} (hcut : (f.fieldText env st).cut = some w) :
    w < (f.fieldText env st).text.length := by
  have hnothing : FieldText.nothing.cut = none := rfl
  cases f with
  | time => cases htime
  | custom h => exact h.elim
  | colorStart => cases hcut
  | colorStop => cases hcut
  | location k p mode =>
    simp only [fieldText] at hcut ⊢
    split_ifs at hcut ⊢
    · cases hnothing.symm.trans hcut
    · exact FieldText.lt_length_of_cut hcut rfl hf
  | timeElapsed k p unit => exact FieldText.lt_length_of_cut hcut (countDigit_eq _) hf
  | threadId k p => exact FieldText.lt_length_of_cut hcut (countDigit_eq _) hf
  | milliseconds k p => exact FieldText.lt_length_of_cut hcut (millisecondsText_length _).symm hf
  | _ => exact FieldText.lt_length_of_cut hcut rfl hf

theorem format_clockReads (f : FlagFormatter Empty) (env : FormatEnv) (st : FormatState) :
    (f.format noCustom env st).clockReads = st.clockReads+if f.readsClock then 1 else 0 := by
  cases f with
  | location k p mode =>
    simp only [format]
    split <;> rfl
  | custom h => exact h.elim
  | _ => rfl

/-- Of the clock, a formatter knows the next reading. -/
lemma format_now_eq (f : FlagFormatter Empty) (env : FormatEnv) (st : FormatState)
    {now now' : ℕ → ℤ} (h : f.readsClock = true → now st.clockReads = now' st.clockReads) :
    f.format noCustom { env with now := now } st =
      f.format noCustom { env with now := now' } st := by
  cases f with
  | timeElapsed k p unit => simp only [format, h rfl]
  | custom c => exact c.elim
  | _ => rfl

end FlagFormatter

lemma keepsTime_of_mem_builtin {pattern : List Char}
    (h : ∀ padding, .field padding 'd' ∈ itemsOf pattern → padding.mTruncate = false)
    {f : FlagFormatter Empty} (hf : f ∈ (builtinFormatter pattern).mFormatters) : f.KeepsTime := by
  obtain ⟨text,rfl⟩ | ⟨padding,flag,hitem,rfl⟩ := mem_builtin hf
  · exact Nat.zero_le _
  · have hw : padding.mWidth ≤ maxWidth := width_of_mem_itemsLoop hitem
    simp only [builtinFlag, handleFlag]
    split
    case h_7 => exact ⟨rfl,h padding hitem⟩
    all_goals first | exact hw | trivial

section
variable {env : FormatEnv} {now : ℕ → ℤ} {a b : FormatState} {fs : List (FlagFormatter Empty)}
  {P Q : TimeCache → Prop}

/-- Two renderings of a message have the same fields if none of them shows the elapsed time
and the caches give the same time. -/
lemma SameMessage.fieldsOf_eq (h : SameMessage a b) {text : List Char}
    (hP : ∀ c, P c → P (c.refresh env.libc defaultTimeFormat a.msg.mTimeStamp))
    (ha : ∀ k, P (a.caches.get k)) (hb : ∀ k, P (b.caches.get k))
    (hfs : ∀ f ∈ fs, f.readsClock = false ∧ f.DefaultTime ∧ (f.readsTime = true →
      ∀ c, P c → (c.refresh env.libc defaultTimeFormat a.msg.mTimeStamp).cachedTime = text)) :
    fieldsOf { env with now := now } b fs = fieldsOf env a fs := by
  induction fs generalizing a b with
  | nil => rfl
  | cons f fs ih =>
    obtain ⟨hclock,hdefault,htext⟩ := hfs f List.mem_cons_self
    have htime := h.mTimeStamp
    have hfield : f.fieldText { env with now := now } b = f.fieldText env a := by
      cases f with
      | time k p timeFormat =>
        obtain rfl : timeFormat = defaultTimeFormat := hdefault
        simp only [FlagFormatter.fieldText, htime, htext rfl _ (ha k), htext rfl _ (hb k)]
      | _ => exact h.fieldText_eq hclock rfl
    rw [fieldsOf, fieldsOf, hfield]
    congr 1
    apply ih (h.format f)
    · rwa [format_mTimeStamp]
    · exact format_caches_invariant hP hdefault ha
    · exact @format_caches_invariant { env with now := now } P _ (by rwa [htime]) f hdefault hb
    · intro g hg
      rw [format_mTimeStamp]
      exact hfs g (List.mem_cons_of_mem _ hg)

/-- A millisecond more on the clock shows, whatever follows the field. -/
lemma FlagFormatter.ShowsElapsed.view_ne {f : FlagFormatter Empty} (hf : f.ShowsElapsed)
    (ha : a.dest.Wf) {now₁ now₂ : ℕ → ℤ} (h1 : now₁ a.clockReads = env.timeStart+1000000)
    (h2 : now₂ a.clockReads = env.timeStart+2000000) (fs : List (FlagFormatter Empty)) :
    (formatAll { env with now := now₁ } (f::fs) a).dest.view ≠
      (formatAll { env with now := now₂ } (f::fs) a).dest.view := by
  cases f with
  | timeElapsed k p unit =>
    obtain ⟨rfl,hw,hpos⟩ := hf
    have hcut : (⟨k,1,p,['1']⟩ : FieldText).cut = none := by
      cases hx : (⟨k,1,p,['1']⟩ : FieldText).cut with
      | none => rfl
      | some w =>
        have hlt : w < 1 := FieldText.lt_length_of_cut hx rfl hw
        obtain ⟨ht,rfl⟩ := FieldText.truncate_of_cut hx
        exact absurd (hpos ht) (Nat.lt_one_iff.mp hlt).not_gt
    have hone : elapsedCount defaultUnit 1000000 = 1 := by decide
    have htwo : elapsedCount defaultUnit 2000000 = 2 := by decide
    rw [formatAll_dest, formatAll_dest, fieldsOf, fieldsOf]
    simp only [FlagFormatter.fieldText, h1, h2, add_sub_cancel_left, hone, htwo]
    exact FieldText.view_foldl_put_ne ha hcut (by decide) (by decide) _ _
  | _ => exact hf.elim

/-- Two clocks that first differ when an elapsed time is shown. -/
lemma exists_elapsed_shows (h : ∃ f ∈ fs, f.ShowsElapsed) (now : ℕ → ℤ) (ha : a.dest.Wf) :
    ∃ now₁ now₂ : ℕ → ℤ, (∀ n < a.clockReads, now₁ n = now n ∧ now₂ n = now n) ∧
      (formatAll { env with now := now₁ } fs a).dest.view ≠
        (formatAll { env with now := now₂ } fs a).dest.view := by
  induction fs generalizing a with
  | nil =>
    obtain ⟨f,hf,-⟩ := h
    cases hf
  | cons f fs ih =>
    by_cases hshows : f.ShowsElapsed
    · refine ⟨fun n => if n < a.clockReads then now n else env.timeStart+1000000,
        fun n => if n < a.clockReads then now n else env.timeStart+2000000,
        fun n hn => ⟨if_pos hn,if_pos hn⟩,?_⟩
      exact hshows.view_ne ha (if_neg (lt_irrefl _)) (if_neg (lt_irrefl _)) fs
    · have hrest : ∃ g ∈ fs, g.ShowsElapsed := by
        obtain ⟨g,hg,hgshows⟩ := h
        obtain rfl | hmem := List.mem_cons.mp hg
        · exact absurd hgshows hshows
        · exact ⟨g,hmem,hgshows⟩
      obtain ⟨now₁,now₂,hagree,hne⟩ := @ih (f.format noCustom { env with now := now } a) hrest
        (by rw [f.format_dest]; exact FieldText.put_wf ha _)
      rw [f.format_clockReads] at hagree
      have hnext : f.readsClock = true → now₁ a.clockReads = now a.clockReads ∧
          now₂ a.clockReads = now a.clockReads := fun hclock =>
        hagree _ (by simp [hclock])
      refine ⟨now₁,now₂,fun n hn => hagree n (by omega),?_⟩
      change (formatAll _ fs (f.format noCustom { env with now := now₁ } a)).dest.view ≠
        (formatAll _ fs (f.format noCustom { env with now := now₂ } a)).dest.view
      rw [f.format_now_eq env a fun hclock => (hnext hclock).1,
        f.format_now_eq env a fun hclock => (hnext hclock).2]
      exact hne

/-- A field is no longer where the cache has no time to show, and a time field is shorter. -/
lemma SameMessage.time_lengthens_step (h : SameMessage a b) (ha : a.dest.Wf) (hb : b.dest.Wf)
    (hempty : ∀ k, ((a.caches.get k).refresh env.libc defaultTimeFormat
      a.msg.mTimeStamp).cachedTime = [])
    (hfull : ∀ k, ((b.caches.get k).refresh env.libc defaultTimeFormat
      a.msg.mTimeStamp).cachedTime ≠ [])
    {f : FlagFormatter Empty} (hkeeps : f.KeepsTime) (hclock : f.readsClock = false) {n : ℕ}
    (hlen : a.dest.view.length+n ≤ b.dest.view.length) :
    (f.format noCustom env a).dest.view.length+(n+if f.readsTime then 1 else 0) ≤
      (f.format noCustom { env with now := now } b).dest.view.length := by
  rw [f.format_dest, f.format_dest]
  cases hread : f.readsTime with
  | false =>
    rw [h.fieldText_eq hclock hread]
    exact FieldText.length_put_le ha hb (fun w => hkeeps.lt_length_of_cut hread env a) hlen
  | true =>
    cases f with
    | time k p timeFormat =>
      obtain ⟨rfl,ht⟩ := hkeeps
      have hcut : (⟨k,32,p,[]⟩ : FieldText).cut = none := by
        rw [FieldText.cut, if_neg (by simp [ht])]
      simp only [FlagFormatter.fieldText, h.mTimeStamp, hempty]
      exact FieldText.length_put_lt ha hb hcut (List.length_pos_of_ne_nil (hfull k)) hlen
    | _ => cases hread

/-- Without a time in the caches the text is shorter, by a character at least for each time
field. -/
lemma SameMessage.time_lengthens (h : SameMessage a b) (ha : a.dest.Wf) (hb : b.dest.Wf)
    (hP : ∀ c, P c → P (c.refresh env.libc defaultTimeFormat a.msg.mTimeStamp))
    (hPtext : ∀ c, P c → c.cachedTime = []) (hPa : ∀ k, P (a.caches.get k))
    (hQ : ∀ c, Q c → Q (c.refresh env.libc defaultTimeFormat a.msg.mTimeStamp))
    (hQtext : ∀ c, Q c → c.cachedTime ≠ []) (hQb : ∀ k, Q (b.caches.get k))
    (hfs : ∀ f ∈ fs, f.KeepsTime ∧ f.DefaultTime ∧ f.readsClock = false) {n : ℕ}
    (hlen : a.dest.view.length+n ≤ b.dest.view.length) :
    (formatAll env fs a).dest.view.length+(n+fs.countP FlagFormatter.readsTime) ≤
      (formatAll { env with now := now } fs b).dest.view.length := by
  induction fs generalizing a b n with
  | nil => exact hlen
  | cons f fs ih =>
    obtain ⟨hkeeps,hdefault,hclock⟩ := hfs f List.mem_cons_self
    have htime := h.mTimeStamp
    have hstep := @SameMessage.time_lengthens_step env now a b h ha hb
      (fun k => hPtext _ (hP _ (hPa k))) (fun k => hQtext _ (hQ _ (hQb k))) f hkeeps hclock n hlen
    have hrest := ih (h.format f) (by rw [f.format_dest]; exact FieldText.put_wf ha _)
      (by rw [f.format_dest]; exact FieldText.put_wf hb _) (by rwa [format_mTimeStamp])
      (format_caches_invariant hP hdefault hPa) (by rwa [format_mTimeStamp])
      (@format_caches_invariant { env with now := now } Q _ (by rwa [htime]) f hdefault hQb)
      (fun g hg => hfs g (List.mem_cons_of_mem _ hg)) hstep
    rw [List.countP_cons]
    change (formatAll env fs (f.format noCustom env a)).dest.view.length+_ ≤
      (formatAll { env with now := now } fs (f.format noCustom { env with now := now } b)).dest.view.length
    omega

end

namespace TimeCache
variable {libc : LibC} {timeFormat : List Char} {second : ℤ} {c : TimeCache}

/-- A cache that is for this second holds the text of this second. -/
def Current (second : ℤ) (text : List Char) (c : TimeCache) : Prop :=
  c.lastTime = second*1000000000 → c.cachedTime = text

lemma Current.refresh {tm : libc.Tm} (htm : libc.localtime second = some tm)
    (h : c.Current second (libc.strftime 32 timeFormat tm)) (t : ℤ) :
    (c.refresh libc timeFormat t).Current second (libc.strftime 32 timeFormat tm) := by
  simp only [TimeCache.refresh]
  split
  · intro hlast
    have hsecond : t.tdiv 1000000000 = second := by
      change t.tdiv 1000000000*1000000000 = _ at hlast
      omega
    simp only [hsecond, htm]
  · exact h

lemma Current.cachedTime_refresh {tm : libc.Tm} (htm : libc.localtime second = some tm)
    (h : c.Current second (libc.strftime 32 timeFormat tm)) {t : ℤ}
    (ht : t.tdiv 1000000000 = second) :
    (c.refresh libc timeFormat t).cachedTime = libc.strftime 32 timeFormat tm := by
  apply h.refresh htm t
  simp only [TimeCache.refresh, ht]
  split
  · rfl
  · next heq => exact (not_ne_iff.mp heq).symm

/-- The cache has no text, and a message of this second does not give it one. -/
def Blank (libc : LibC) (second : ℤ) (c : TimeCache) : Prop :=
  c.cachedTime = [] ∧ (c.lastTime ≠ second*1000000000 → libc.localtime second = none)

lemma Blank.refresh (h : c.Blank libc second) {t : ℤ} (ht : t.tdiv 1000000000 = second) :
    (c.refresh libc timeFormat t).Blank libc second := by
  obtain ⟨hempty,hlast⟩ := h
  simp only [TimeCache.refresh, ht]
  split
  · next hne =>
    have hnone := hlast (Ne.symm hne)
    exact ⟨by simp only [hnone, hempty],fun _ => hnone⟩
  · exact ⟨hempty,hlast⟩

end TimeCache

/-- A field of the pattern has its formatter among the compiled ones. -/
lemma mem_builtin_of_mem_itemsOf {pattern : List Char} {padding : PaddingInfo} {flag : Char}
    (h : .field padding flag ∈ itemsOf pattern) :
    builtinFlag (padderOf padding) flag padding ∈ (builtinFormatter pattern).mFormatters := by
  have hne : pattern ≠ [] := by
    rintro rfl
    cases h
  simp only [builtinFormatter, PatternFormatter.construct, hne, if_false]
  rw [compilePattern_eq]
  exact List.mem_map.mpr ⟨_,h,rfl⟩

lemma exists_of_mem_flagsOf {pattern : List Char} {flag : Char} (h : flag ∈ flagsOf pattern) :
    ∃ padding, .field padding flag ∈ itemsOf pattern := by
  obtain ⟨item,hitem,hflag⟩ := List.mem_filterMap.mp h
  cases item with
  | literal text => cases hflag
  | field padding flag' =>
    cases hflag
    exact ⟨padding,hitem⟩

section
variable {env : FormatEnv} {pattern : List Char} {msg : LogMsg (List Char)}

lemma run_dest (caches : ThreadCaches) (now : ℕ → ℤ) :
    (FormatCall.run env caches ⟨pattern,msg,now⟩).dest =
      (formatAll { env with now := now } (builtinFormatter pattern).mFormatters
        { msg := msg, dest := .empty recordCapacity, caches := caches }).dest := rfl

lemma recordOnly_of_settled (h : Settled env pattern msg) : RecordOnly env pattern msg := by
  obtain ⟨he,hd⟩ := h
  intro now now' history history'
  have hsame : SameMessage { msg := msg, dest := .empty recordCapacity, caches := cachesAfter env history }
      { msg := msg, dest := .empty recordCapacity, caches := cachesAfter env history' } :=
    ⟨msg.mColorRangeStart,msg.mColorRangeStop,rfl⟩
  rw [run_dest, run_dest, formatAll_dest, formatAll_dest]
  congr 2
  symm
  by_cases htime : 'd' ∈ flagsOf pattern
  · obtain ⟨hsecond,hlocal⟩ := hd htime
    obtain ⟨tm,htm⟩ := Option.isSome_iff_exists.mp hlocal
    have hnew : ({} : TimeCache).Current msg.second (env.libc.strftime 32 defaultTimeFormat tm) :=
      fun hlast => absurd hlast.symm (by simpa using hsecond)
    have hinv := fun h => cachesAfter_invariant hnew (fun c t hc => hc.refresh htm t) h
    exact @SameMessage.fieldsOf_eq { env with now := now } now' _ _ _ _ hsame _
      (fun c hc => hc.refresh htm _) (hinv history) (hinv history') fun f hf =>
        ⟨readsClock_of_mem_builtin he hf,defaultTime_of_mem_builtin hf,fun _ c hc =>
          hc.cachedTime_refresh htm rfl⟩
  · refine @SameMessage.fieldsOf_eq { env with now := now } now' _ _ _ (fun _ => True) hsame []
      (fun _ _ => trivial) (fun _ => trivial) (fun _ => trivial) fun f hf =>
        ⟨readsClock_of_mem_builtin he hf,defaultTime_of_mem_builtin hf,fun hread => ?_⟩
    rw [readsTime_of_mem_builtin htime hf] at hread
    cases hread

lemma not_recordOnly_of_elapsed {padding : PaddingInfo} (hitem : .field padding 'e' ∈ itemsOf pattern)
    (hpos : padding.mTruncate = true → 0 < padding.mWidth) : ¬RecordOnly env pattern msg := by
  intro h
  have hshows : ∃ f ∈ (builtinFormatter pattern).mFormatters, f.ShowsElapsed :=
    ⟨_,mem_builtin_of_mem_itemsOf hitem,rfl,width_of_mem_itemsLoop hitem,hpos⟩
  obtain ⟨now₁,now₂,-,hne⟩ := @exists_elapsed_shows env
    { msg := msg, dest := .empty recordCapacity, caches := {} } _ hshows env.now
    (InlineBuffer.empty_wf recordCapacity)
  exact hne (h now₁ now₂ [] [])

/-- A thread that has rendered the time with both kinds of padder. -/
def timedHistory : List FormatCall := [⟨"%d%1d".toList,firstSecondMsg,fun _ => 0⟩]

lemma cachedTime_timedHistory (hlocal : (env.libc.localtime 1).isSome)
    (hstrftime : ∀ tm, env.libc.strftime 32 defaultTimeFormat tm ≠ []) (k : Padder) :
    ((cachesAfter env timedHistory).get k).cachedTime ≠ [] := by
  obtain ⟨tm,htm⟩ := Option.isSome_iff_exists.mp hlocal
  have hformatters : (builtinFormatter "%d%1d".toList).mFormatters =
      [.time .nullScopedPadder {} defaultTimeFormat,
        .time .scopedPadder (.of 1 .center false) defaultTimeFormat] := rfl
  have hcache : ((cachesAfter env timedHistory).get k) =
      ({} : TimeCache).refresh env.libc defaultTimeFormat 1000000000 := by
    rw [cachesAfter, timedHistory, List.foldl_cons, List.foldl_nil, FormatCall.run,
      PatternFormatter.format, hformatters]
    cases k <;> rfl
  have hrefresh : ({} : TimeCache).refresh env.libc defaultTimeFormat 1000000000 =
      ⟨1000000000,env.libc.strftime 32 defaultTimeFormat tm⟩ := by
    simp [TimeCache.refresh, htm]
  rw [hcache, hrefresh]
  exact hstrftime tm

lemma not_recordOnly_of_time (hlocal : (env.libc.localtime 1).isSome)
    (hstrftime : ∀ tm, env.libc.strftime 32 defaultTimeFormat tm ≠ [])
    (he : 'e' ∉ flagsOf pattern) (hd : 'd' ∈ flagsOf pattern)
    (huncut : ∀ padding, .field padding 'd' ∈ itemsOf pattern → padding.mTruncate = false)
    (hsecond : msg.second ≠ 0 → env.libc.localtime msg.second = none) :
    ¬RecordOnly env pattern msg := by
  intro h
  have hview := h (fun _ => 0) (fun _ => 0) [] timedHistory
  have hnew : ∀ k, (ThreadCaches.get {} k).Blank env.libc msg.second := by
    have hblank : ({} : TimeCache).Blank env.libc msg.second := by
      refine ⟨rfl,fun hlast => hsecond fun hzero => ?_⟩
      simp [hzero] at hlast
    intro k
    cases k <;> exact hblank
  have hlen : (FormatCall.run env (cachesAfter env []) ⟨pattern,msg,fun _ => 0⟩).dest.view.length +
      (0+(builtinFormatter pattern).mFormatters.countP FlagFormatter.readsTime) ≤
      (FormatCall.run env (cachesAfter env timedHistory) ⟨pattern,msg,fun _ => 0⟩).dest.view.length :=
    @SameMessage.time_lengthens { env with now := fun _ => 0 } (fun _ => 0)
      { msg := msg, dest := .empty recordCapacity, caches := {} }
      { msg := msg, dest := .empty recordCapacity, caches := cachesAfter env timedHistory }
      (builtinFormatter pattern).mFormatters (·.Blank env.libc msg.second) (·.cachedTime ≠ [])
      ⟨msg.mColorRangeStart,msg.mColorRangeStop,rfl⟩ (InlineBuffer.empty_wf recordCapacity)
      (InlineBuffer.empty_wf recordCapacity) (fun _ hc => hc.refresh rfl) (fun _ hc => hc.1) hnew
      (fun _ hc => TimeCache.refresh_cachedTime (R := (· ≠ [])) hstrftime hc _) (fun _ hc => hc)
      (cachedTime_timedHistory hlocal hstrftime)
      (fun f hf => ⟨keepsTime_of_mem_builtin huncut hf,defaultTime_of_mem_builtin hf,
        readsClock_of_mem_builtin he hf⟩) 0 le_rfl
  have hcount : 0 < (builtinFormatter pattern).mFormatters.countP FlagFormatter.readsTime := by
    obtain ⟨padding,hitem⟩ := exists_of_mem_flagsOf hd
    exact List.countP_pos_iff.mpr ⟨_,mem_builtin_of_mem_itemsOf hitem,rfl⟩
  rw [hview] at hlen
  omega

/-- A message is rendered the same by every thread and at every time if the pattern is
settled for it, and only then if the pattern displays what it asks for. -/
theorem recordOnly_iff (hlocal : (env.libc.localtime 1).isSome)
    (hstrftime : ∀ tm, env.libc.strftime 32 defaultTimeFormat tm ≠ []) (pattern : List Char)
    (msg : LogMsg (List Char)) :
    (Settled env pattern msg → RecordOnly env pattern msg) ∧
      (Displayed pattern → (RecordOnly env pattern msg ↔ Settled env pattern msg)) := by
  refine ⟨recordOnly_of_settled,fun hdisplayed => ⟨fun h => ?_,recordOnly_of_settled⟩⟩
  unfold Displayed at hdisplayed
  split_ifs at hdisplayed with he
  · obtain ⟨padding,hitem,hpos⟩ := hdisplayed
    exact absurd h (not_recordOnly_of_elapsed hitem hpos)
  · refine ⟨he,fun hd => ?_⟩
    by_contra hunsettled
    refine not_recordOnly_of_time hlocal hstrftime he hd hdisplayed ?_ h
    intro hne
    by_contra hnone
    exact hunsettled ⟨hne,Option.isSome_iff_ne_none.mpr hnone⟩

end

lemma firstSecondEnv_strftime_ne (tm : firstSecondEnv.libc.Tm) :
    firstSecondEnv.libc.strftime 32 defaultTimeFormat tm ≠ [] := by
  change "[1970-01-01] 00:00:01".toList ≠ []
  decide

/-- The time, the milliseconds and the text of a message of the first second. -/
theorem recordOnly_firstSecond : RecordOnly firstSecondEnv "%d%m [%>8l] %v".toList firstSecondMsg :=
  (@recordOnly_iff firstSecondEnv rfl firstSecondEnv_strftime_ne _ _).1
    ⟨by decide +kernel,fun _ => ⟨by decide,rfl⟩⟩

/-- The elapsed time is that of the rendering. -/
theorem elapsed_not_recordOnly : ¬∀ env : FormatEnv, (env.libc.localtime 1).isSome →
    (∀ tm, env.libc.strftime 32 defaultTimeFormat tm ≠ []) →
    ∀ (pattern : List Char) (msg : LogMsg (List Char)), RecordOnly env pattern msg := by
  intro h
  have hview := h firstSecondEnv rfl firstSecondEnv_strftime_ne "[%e] %v".toList firstSecondMsg
    (fun _ => 1000000) (fun _ => 2000000) [] []
  revert hview
  decide +kernel

end Astlog
