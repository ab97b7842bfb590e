import Astlog.Pattern.Builtin
import Astlog.Pattern.Width

/-! The fields that print text: what size each formatter declares to its padder, and which
of them come out as wide as the pad spec says. -/
namespace Astlog

/-- A text in a field: blanks on the given side up to the width, or its first characters
if it is longer and to be cut. -/
def pad (width : ℕ) (side : PadSide) (truncate : Bool) (x : List Char) : List Char :=
  if x.length < width then
    match side with
    | .left => blanks (width-x.length) ++ x
    | .right => x ++ blanks (width-x.length)
    | .center => blanks ((width-x.length)/2) ++ x ++ blanks ((width-x.length+1)/2)
  else if truncate then x.take width else x

/-- A text that fills its field gets no blanks. -/
lemma pad_of_ge {width : ℕ} {side : PadSide} {truncate : Bool} {x : List Char}
    (h : width ≤ x.length) : pad width side truncate x = if truncate then x.take width else x :=
  if_neg (not_lt.mpr h)

lemma le_length_pad (width : ℕ) (side : PadSide) (truncate : Bool) (x : List Char) :
    width ≤ (pad width side truncate x).length := by
  unfold pad
  split
  · cases side <;> simp <;> omega
  · split
    · rw [List.length_take]
      omega
    · omega

/-- The loop counts the digits four at a time. -/
theorem countDigitLoop_eq (fuel t count : ℕ) (h : t < 10000^fuel) :
    countDigitLoop fuel t count + 1 = count + (toDecimal t).length := by
  have hstep : ∀ n, 10 ≤ n → (toDecimal n).length = (toDecimal (n/10)).length + 1 := by
    intro n hn
    rw [toDecimal, Nat.toDigits_of_base_le (by norm_num) hn, List.length_append]
    rfl
  have hone : ∀ n, n < 10 → (toDecimal n).length = 1 := by
    intro n hn
    rw [toDecimal, Nat.toDigits_of_lt_base hn]
    rfl
  induction fuel generalizing t count with
  | zero =>
    obtain rfl : t = 0 := Nat.lt_one_iff.mp h
    rfl
  | succ fuel ih =>
    rw [countDigitLoop]
    split_ifs with h1 h2 h3 h4
    · rw [hone t h1]
    · rw [hstep t (by omega), hone (t/10) (by omega)]
    · rw [hstep t (by omega), hstep (t/10) (by omega), hone (t/10/10) (by omega)]
    · rw [hstep t (by omega), hstep (t/10) (by omega), hstep (t/10/10) (by omega),
        hone (t/10/10/10) (by omega)]
    · have hdiv : t/10/10/10/10 = t/10000 := by omega
      have hnext : t/10000 < 10000^fuel := by
        rw [Nat.div_lt_iff_lt_mul (by norm_num), ← pow_succ]
        exact h
      rw [ih (t/10000) (count+4) hnext, hstep t (by omega), hstep (t/10) (by omega),
        hstep (t/10/10) (by omega), hstep (t/10/10/10) (by omega), hdiv]
      omega

/-- The size declared for a number is that of its decimal text. -/
theorem countDigit_eq (t : ℕ) : countDigit t = (toDecimal t).length := by
  have h := countDigitLoop_eq (t+1) t 1 ((Nat.lt_succ_self t).trans (Nat.lt_pow_self (by norm_num)))
  unfold countDigit
  omega

/-- The millisecond field is always a point and three digits. -/
theorem millisecondsText_length (timeStamp : ℤ) : (millisecondsText timeStamp).length = 4 := by
  have h : (toDecimal (toUInt64 (timeStamp.tdiv 1000000) % 1000)).length ≤ 3 :=
    Nat.toDigits_length 10 _ 3 (by norm_num) (Nat.mod_lt _ (by norm_num))
  simp only [millisecondsText, List.length_append, List.length_cons, List.length_replicate]
  omega

section
open Padder
variable {b : FormatterBuf} {width : ℕ} {side : PadSide} {truncate : Bool}

/-- A text that is not too long stands between the blanks that the padder writes. -/
lemma pad_of_le (hside : side ≠ .center) {x : List Char} (hle : x.length ≤ width)
    (truncate : Bool) : pad width side truncate x =
      blanks (leadingPad side (width-x.length)) ++
        (x ++ blanks (trailingPad side (width-x.length))) := by
  unfold pad
  obtain hlt | rfl := Nat.lt_or_eq_of_le hle
  · rw [if_pos hlt]
    cases side with
    | left => simp [leadingPad, trailingPad]
    | right => simp [leadingPad, trailingPad]
    | center => exact absurd rfl hside
  · cases side with
    | left => simp [leadingPad, trailingPad]
    | right => simp [leadingPad, trailingPad]
    | center => exact absurd rfl hside

/-- A text declared at its size stands in its field as it should, unless it is to be cut and
the padder does not see that it is too long. -/
lemma view_appendPadded_pad_iff (hb : b.Wf) (hw : width ≤ 64) (hside : side ≠ .center)
    (x : List Char) (hline : b.view.length + (pad width side truncate x).length < recordCapacity) :
    (scopedPadder.appendPadded x.length (.of width side truncate) x b).view =
        b.view ++ pad width side truncate x ↔
      (truncate = true → width < x.length → toInt32 (width-x.length) < 0) := by
  obtain hle | hlt := le_or_gt x.length width
  · refine iff_of_true ?_ fun _ hlt => absurd hlt (not_lt.mpr hle)
    rw [view_appendPadded_of_le hb hw side truncate hle, List.append_assoc, List.append_assoc,
      pad_of_le hside hle truncate]
  · rw [pad_of_ge hlt.le] at hline ⊢
    cases truncate with
    | false =>
      have hlong : x.length < 256 := by
        simp only [Bool.false_eq_true, if_false, recordCapacity] at hline
        omega
      have hneg : toInt32 ((width : ℤ)-x.length) < 0 := by
        rw [toInt32_of_small (by omega) (by omega)]
        omega
      exact iff_of_true (view_appendPadded_of_neg hb _ _ side x hneg) fun ht => absurd ht Bool.false_ne_true
    | true =>
      have hin : b.view.length+width < recordCapacity := by
        simpa [List.length_take_of_le hlt.le] using hline
      rw [if_pos rfl, view_truncated_iff hb side hlt]
      exact ⟨fun h _ _ => h.1,fun h => ⟨h rfl hlt,hin⟩⟩

/-- A text as the destructor leaves it that takes it for one longer than the width. -/
def InlineBuffer.leftOf (b : FormatterBuf) (width : ℕ) (truncate : Bool) (text : List Char) :
    List Char :=
  if truncate then (text ++ b.behind (b.mSize+text.length) (width-text.length)).take width else text

/-- It is the padded text exactly where there is nothing to add, or what the buffer holds behind
the text stands in for the blanks. -/
lemma InlineBuffer.leftOf_eq_pad_iff (b : FormatterBuf) (x : List Char) :
    b.leftOf width truncate x = pad width side truncate x ↔
      width ≤ x.length ∨ truncate = true ∧ b.leftOf width true x = pad width side true x := by
  by_cases hle : width ≤ x.length
  · refine iff_of_true ?_ (.inl hle)
    rw [leftOf, pad_of_ge hle, List.take_append_of_le_length hle]
  · rw [or_iff_right hle]
    cases truncate with
    | true => rw [and_iff_right rfl]
    | false =>
      refine iff_of_false (fun heq => hle ?_) fun h => Bool.false_ne_true h.1
      have hwidth := le_length_pad width side false x
      rw [← heq] at hwidth
      exact hwidth

/-- A text that is shorter than the 32 characters it is declared with. -/
lemma view_appendPadded_declared_iff (hb : b.Wf) (hside : side ≠ .center) {text : List Char}
    (htext : text.length < 32) (x : List Char)
    (hline : b.view.length + (pad width side truncate x).length < recordCapacity) :
    (scopedPadder.appendPadded 32 (.of width side truncate) text b).view =
        b.view ++ pad width side truncate x ↔
      width < 32 ∧ b.leftOf width truncate text = pad width side truncate x := by
  have hwidth := le_length_pad width side truncate x
  have hsmall : toInt32 ((width : ℤ)-(32 : ℕ)) = width-(32 : ℕ) := by
    have hcap : recordCapacity = 256 := rfl
    exact toInt32_of_small (by omega) (by omega)
  by_cases hlt : width < 32
  · have hneg : toInt32 ((width : ℤ)-(32 : ℕ)) < 0 := by omega
    rw [and_iff_right hlt]
    cases truncate with
    | false =>
      rw [view_appendPadded_of_neg hb _ _ side text hneg]
      exact List.append_right_inj b.view
    | true =>
      have hin : width+b.mSize < recordCapacity := by
        rw [← InlineBuffer.view_length hb]
        omega
      rw [appendPadded_truncate _ _ side text hneg, InlineBuffer.view_erase_append hb text hin]
      exact List.append_right_inj b.view
  · -- the padder adds the blanks that 32 characters would leave room for
    refine iff_of_false ?_ fun hc => hlt hc.1
    have hr : toInt32 ((width : ℤ)-(32 : ℕ)) = (width-32 : ℕ) := by omega
    have hsum : leadingPad side (width-32) + trailingPad side (width-32) = width-32 :=
      (leadingPad_add_trailingPad side _).mpr fun hc => absurd hc hside
    rw [view_appendPadded_of_nonneg hb _ _ side truncate text hr]
    intro hview
    have hlen := congrArg List.length hview
    simp only [List.length_append, blanks_length] at hlen
    omega

end

section
variable (env : FormatEnv) (st : FormatState) (flag : Char) (width : ℕ) (side : PadSide)
  (truncate : Bool)

/-- What a formatter adds to the buffer. -/
def contribution (f : FlagFormatter Empty) : List Char :=
  (f.format noCustom env st).dest.view.drop st.dest.view.length

/-- What the flag adds without a pad spec. -/
def unpaddedText : List Char := contribution env st (builtinFlag .nullScopedPadder flag {})

/-- The padded formatter adds the text of the unpadded one, padded. -/
def ObeysPad : Prop :=
  ((builtinFlag .scopedPadder flag (.of width side truncate)).format noCustom env st).dest.view =
    st.dest.view ++ pad width side truncate (unpaddedText env st flag)

/-- The time as the padded formatters of the thread print it, from their own cache. -/
def paddedTime : List Char :=
  (st.caches.padded.refresh env.libc defaultTimeFormat st.msg.mTimeStamp).cachedTime

/-- The time is declared with the size of its cache, a missing location is not declared at
all, and every other text with its own size. -/
def PadFits : Prop :=
  if flag = 'd' then
    width < 32 ∧ st.dest.leftOf width truncate (paddedTime env st) =
      pad width side truncate (unpaddedText env st flag)
  else if flag = 's' ∧ st.msg.mLoc.line = 0 then width = 0
  else truncate = true → width < (unpaddedText env st flag).length →
    toInt32 (width-(unpaddedText env st flag).length) < 0

variable {env st flag}

/-- Where the caches of the padded and the unpadded formatters hold the same time, it is padded
when it fills the field. -/
theorem padFits_time_iff {x : List Char} (hpadded : paddedTime env st = x)
    (hunpadded : unpaddedText env st 'd' = x) :
    PadFits env st 'd' width side truncate ↔ width < 32 ∧ (width ≤ x.length ∨
      truncate = true ∧ st.dest.leftOf width true x = pad width side true x) := by
  rw [PadFits, if_pos rfl, hpadded, hunpadded, InlineBuffer.leftOf_eq_pad_iff]

lemma contribution_of_fieldText (hb : st.dest.Wf) {f : FlagFormatter Empty} {n : ℕ}
    {padInfo : PaddingInfo} {text : List Char}
    (hf : f.fieldText env st = ⟨.nullScopedPadder,n,padInfo,text⟩) :
    contribution env st f = text := by
  rw [contribution, f.format_dest, hf]
  change (InlineBuffer.append st.dest text).view.drop _ = text
  rw [InlineBuffer.view_append hb, List.drop_left]

/-- Of a text flag, but for the time and a missing location: its text, and the text's size. -/
lemma exists_fieldText (hstart : flag ≠ '^') (hstop : flag ≠ '$') (htime : flag ≠ 'd')
    (hloc : ¬(flag = 's' ∧ st.msg.mLoc.line = 0)) : ∃ text, ∀ k padInfo,
      (builtinFlag k flag padInfo).fieldText env st = ⟨k,text.length,padInfo,text⟩ := by
  simp only [builtinFlag, handleFlag]
  split
  · exact ⟨_,fun _ _ => rfl⟩
  · exact ⟨_,fun _ _ => rfl⟩
  · exact ⟨_,fun k p => by rw [FlagFormatter.fieldText, countDigit_eq]⟩
  · exact ⟨_,fun _ _ => rfl⟩
  · exact ⟨_,fun k p => by rw [FlagFormatter.fieldText, millisecondsText_length]⟩
  · exact ⟨_,fun k p => by rw [FlagFormatter.fieldText, countDigit_eq]⟩
  · exact absurd rfl htime
  · exact absurd rfl hstart
  · exact absurd rfl hstop
  · have hline : st.msg.mLoc.line ≠ 0 := fun h => hloc ⟨rfl,h⟩
    exact ⟨_,fun k p => by rw [FlagFormatter.fieldText, if_neg hline]⟩
  · exact ⟨_,fun _ _ => rfl⟩

/-- The cached text fits its array. -/
lemma paddedTime_length_lt
    (hstrftime : ∀ format tm, (env.libc.strftime 32 format tm).length < 32)
    (history : List FormatCall) (hcaches : st.caches = cachesAfter env history) :
    (paddedTime env st).length < 32 := by
  have hrefresh : ∀ (c : TimeCache) (t : ℤ), c.cachedTime.length < 32 →
      (c.refresh env.libc defaultTimeFormat t).cachedTime.length < 32 := fun c t hc =>
    TimeCache.refresh_cachedTime (R := fun text => text.length < 32) (hstrftime _) hc t
  refine hrefresh _ _ ?_
  rw [hcaches]
  exact cachesAfter_invariant (P := fun c => c.cachedTime.length < 32) (by norm_num) hrefresh history
    .scopedPadder

end

theorem obeysPad_iff {env : FormatEnv}
    (hstrftime : ∀ format tm, (env.libc.strftime 32 format tm).length < 32)
    (history : List FormatCall) (ops : List BufOp) {st : FormatState}
    (hdest : st.dest = writtenBuf ops) (hcaches : st.caches = cachesAfter env history)
    {flag : Char} (hstart : flag ≠ '^') (hstop : flag ≠ '$') {width : ℕ} (hw : width ≤ 64)
    {side : PadSide} (hside : side ≠ .center) (truncate : Bool)
    (hline : st.dest.view.length +
      (pad width side truncate (unpaddedText env st flag)).length < recordCapacity) :
    ObeysPad env st flag width side truncate ↔ PadFits env st flag width side truncate := by
  have hb : st.dest.Wf := hdest ▸ writtenBuf_wf ops
  rw [ObeysPad, FlagFormatter.format_dest]
  by_cases htime : flag = 'd'
  · subst htime
    rw [PadFits, if_pos rfl]
    exact view_appendPadded_declared_iff hb hside (paddedTime_length_lt hstrftime history hcaches) _
      hline
  rw [PadFits, if_neg htime]
  by_cases hloc : flag = 's' ∧ st.msg.mLoc.line = 0
  · rw [if_pos hloc]
    obtain ⟨rfl,h0⟩ := hloc
    have hnothing : ∀ k p, (builtinFlag k 's' p).fieldText env st = .nothing := fun k p => if_pos h0
    have htext : unpaddedText env st 's' = [] := contribution_of_fieldText hb (hnothing _ _)
    rw [hnothing, htext]
    change st.dest.view = st.dest.view ++ pad width side truncate [] ↔ width = 0
    rw [List.self_eq_append_right]
    constructor
    · intro hpad
      have hwidth := le_length_pad width side truncate []
      rw [hpad] at hwidth
      exact Nat.le_zero.mp hwidth
    · rintro rfl
      cases truncate <;> rfl
  · rw [if_neg hloc]
    obtain ⟨text,htext⟩ := @exists_fieldText env st flag hstart hstop htime hloc
    have hx : unpaddedText env st flag = text := contribution_of_fieldText hb (htext _ _)
    rw [htext, hx]
    rw [hx] at hline
    exact view_appendPadded_pad_iff hb hw hside text hline

/-- A system whose calendar knows the first second after the epoch. -/
def firstSecondEnv : FormatEnv :=
  ⟨⟨Unit,fun _ => some (),fun _ _ _ => "[1970-01-01] 00:00:01".toList⟩,0,fun _ => 0⟩

lemma firstSecondEnv_strftime (format : List Char) (tm : firstSecondEnv.libc.Tm) :
    (firstSecondEnv.libc.strftime 32 format tm).length < 32 := by
  change "[1970-01-01] 00:00:01".toList.length < 32
  decide

/-- A message of that second, without a location. -/
def firstSecondMsg : LogMsg (List Char) :=
  { mLevel := .info, mTimeStamp := 1000000000, mLoggerName := "root".toList, mThreadId := 1
    mLoc := ⟨0,[],[]⟩, mPayload := "hi".toList }

theorem obeysPad_name : ObeysPad firstSecondEnv
    { msg := firstSecondMsg, dest := writtenBuf [.append "> ".toList] } 'n' 8 .right false :=
  (obeysPad_iff firstSecondEnv_strftime [] [.append "> ".toList] rfl rfl (by decide) (by decide)
    (by norm_num) (by decide) false (by decide +kernel)).mpr fun h => nomatch h

/-- A time of 21 characters is not padded to 30. -/
theorem time_not_padded : ¬∀ (env : FormatEnv),
    (∀ format tm, (env.libc.strftime 32 format tm).length < 32) →
    ∀ (history : List FormatCall) (ops : List BufOp) (msg : LogMsg (List Char)) (reads : ℕ)
      (flag : Char), flag ≠ '^' → flag ≠ '$' → ∀ (width : ℕ), width ≤ 64 →
    ∀ (side : PadSide), side ≠ .center → ∀ (truncate : Bool) (st : FormatState),
      st = ⟨msg,writtenBuf ops,cachesAfter env history,reads⟩ →
      st.dest.view.length + (pad width side truncate (unpaddedText env st flag)).length <
        recordCapacity → ObeysPad env st flag width side truncate := by
  intro h
  have hpad := h firstSecondEnv firstSecondEnv_strftime [] [] firstSecondMsg 0 'd' (by decide)
    (by decide) 30 (by norm_num) .right (by decide) false _ rfl (by decide +kernel)
  unfold ObeysPad at hpad
  revert hpad
  decide +kernel

end Astlog
