import Astlog.Pattern.Items
import Astlog.MemBuf.Shifted

/-! A pattern's output as a list of fields whose texts are known before anything is
written: only the padders look at the buffer. -/
namespace Astlog

/-- What a formatter passes to its padder, and the text it appends inside its scope. -/
structure FieldText where
  padder : Padder
  wrappedSize : ℕ
  padInfo : PaddingInfo
  text : List Char
  deriving DecidableEq

namespace FieldText

def put (dest : FormatterBuf) (x : FieldText) : FormatterBuf :=
  x.padder.appendPadded x.wrappedSize x.padInfo x.text dest

/-- The field of a formatter that appends nothing. -/
def nothing : FieldText := ⟨.nullScopedPadder,0,{},[]⟩

/-- The padding still to be written, as the padder stores it. -/
def remained (x : FieldText) : ℤ := toInt32 (x.padInfo.mWidth - x.wrappedSize)

/-- The width to which the destructor cuts the field, if it does. -/
def cut (x : FieldText) : Option ℕ :=
  if x.padder = .scopedPadder ∧ x.remained < 0 ∧ x.padInfo.mTruncate then some x.padInfo.mWidth
  else none

/-- The appends of the field, in order. -/
def pieces (x : FieldText) : List (List Char) :=
  match x.padder with
  | .nullScopedPadder => [x.text]
  | .scopedPadder =>
    if x.remained < 0 then [x.text]
    else if x.remained = 0 then [x.text,[]]
    else
      match x.padInfo.mSide with
      | .left => [spaces.take x.remained.toNat,x.text,[]]
      | .center =>
        let halfPad := (x.remained+1)/2
        [spaces.take halfPad.toNat,x.text,spaces.take (halfPad+x.remained%2).toNat]
      | .right => [x.text,spaces.take x.remained.toNat]

theorem cut_of_nonneg {x : FieldText} (h : 0 ≤ x.remained) : x.cut = none := by
  rw [cut, if_neg]
  exact fun hc => absurd hc.2.1 (not_lt.mpr h)

lemma put_scoped (x : FieldText) (dest : FormatterBuf) (hk : x.padder = .scopedPadder) :
    put dest x =
      let p := ScopedPadder.construct x.wrappedSize x.padInfo dest
      p.1.destruct (p.2.append x.text) := by
  rw [put, hk]
  rfl

/-- The constructor leaves the buffer alone when the text fills the width. -/
lemma construct_of_nonpos (x : FieldText) (dest : FormatterBuf) (h : x.remained ≤ 0) :
    ScopedPadder.construct x.wrappedSize x.padInfo dest = (⟨x.padInfo,dest.mSize,x.remained⟩,dest) :=
  if_pos h

lemma construct_of_pos (x : FieldText) (dest : FormatterBuf) (h : 0 < x.remained) :
    ScopedPadder.construct x.wrappedSize x.padInfo dest =
      match x.padInfo.mSide with
      | .left => (⟨x.padInfo,dest.mSize,0⟩,padIt x.remained dest)
      | .center => (⟨x.padInfo,dest.mSize,(x.remained+1)/2+x.remained%2⟩,padIt ((x.remained+1)/2) dest)
      | .right => (⟨x.padInfo,dest.mSize,x.remained⟩,dest) :=
  if_neg (not_le.mpr h)

/-- A field is its appends, followed by an erase if it is cut. -/
theorem put_eq (dest : FormatterBuf) (x : FieldText) : put dest x =
    match x.cut with
    | none => x.pieces.foldl InlineBuffer.append dest
    | some w => (x.pieces.foldl InlineBuffer.append dest).erase (w+dest.mSize) := by
  cases hk : x.padder with
  | nullScopedPadder =>
    rw [put, cut, pieces, hk, if_neg (fun h => nomatch h.1)]
    rfl
  | scopedPadder =>
    rw [put_scoped x dest hk]
    obtain hr | hr | hr := lt_trichotomy x.remained 0
    · rw [construct_of_nonpos x dest hr.le, cut, pieces, hk]
      cases ht : x.padInfo.mTruncate <;> simp [ScopedPadder.destruct, hr, not_le.mpr hr, ht]
    · rw [construct_of_nonpos x dest hr.le, cut_of_nonneg hr.ge, pieces, hk]
      simp [ScopedPadder.destruct, hr, padIt]
    · have hhalf : 0 ≤ (x.remained+1)/2+x.remained%2 := by omega
      rw [construct_of_pos x dest hr, cut_of_nonneg hr.le, pieces, hk]
      simp only [not_lt.mpr hr.le, hr.ne', if_false]
      cases x.padInfo.mSide
      · simp [ScopedPadder.destruct, padIt]
      · simp [ScopedPadder.destruct, padIt, hr.le]
      · simp [ScopedPadder.destruct, padIt, hhalf]

theorem put_of_not_cut {x : FieldText} (hx : x.cut = none) (dest : FormatterBuf) :
    put dest x = x.pieces.foldl InlineBuffer.append dest := by
  rw [put_eq, hx]

theorem put_of_cut {x : FieldText} {w : ℕ} (hx : x.cut = some w) (dest : FormatterBuf) :
    put dest x = (x.pieces.foldl InlineBuffer.append dest).erase (w+dest.mSize) := by
  rw [put_eq, hx]

theorem pieces_of_neg {x : FieldText} (h : x.remained < 0) : x.pieces = [x.text] := by
  unfold pieces
  cases x.padder with
  | nullScopedPadder => rfl
  | scopedPadder => exact if_pos h

/-- A field that is cut has no blanks. -/
theorem pieces_of_cut {x : FieldText} {w : ℕ} (hx : x.cut = some w) : x.pieces = [x.text] := by
  apply pieces_of_neg
  by_contra hr
  rw [cut_of_nonneg (not_lt.mp hr)] at hx
  cases hx

theorem put_wf {dest : FormatterBuf} (h : dest.Wf) (x : FieldText) : (put dest x).Wf := by
  have happ : ∀ (ds : List (List Char)) {b : FormatterBuf}, b.Wf →
      (ds.foldl InlineBuffer.append b).Wf := by
    intro ds
    induction ds with
    | nil => exact fun hb => hb
    | cons d ds ih => exact fun hb => ih (InlineBuffer.append_wf hb d)
  rw [put_eq]
  cases x.cut with
  | none => exact happ x.pieces h
  | some w => exact InlineBuffer.erase_wf (happ x.pieces h) _

theorem foldl_put_wf {dest : FormatterBuf} (h : dest.Wf) (xs : List FieldText) :
    (xs.foldl put dest).Wf := by
  induction xs generalizing dest with
  | nil => exact h
  | cons x xs ih => exact ih (put_wf h x)

end FieldText

namespace FlagFormatter

/-- The field of a formatter. It reads neither the buffer nor the two places in it that
the colour formatters note down in the message. -/
def fieldText (env : FormatEnv) (st : FormatState) : FlagFormatter Empty → FieldText
  | name k p => ⟨k,st.msg.mLoggerName.length,p,st.msg.mLoggerName⟩
  | level k p => ⟨k,st.msg.mLevel.toStr.length,p,st.msg.mLevel.toStr⟩
  | time k p timeFormat =>
    ⟨k,32,p,((st.caches.get k).refresh env.libc timeFormat st.msg.mTimeStamp).cachedTime⟩
  | milliseconds k p => ⟨k,4,p,millisecondsText st.msg.mTimeStamp⟩
  | timeElapsed k p unit =>
    let t := elapsedCount unit (env.now st.clockReads - env.timeStart)
    ⟨k,countDigit t,p,toDecimal t⟩
  | threadId k p => ⟨k,countDigit st.msg.mThreadId,p,toDecimal st.msg.mThreadId⟩
  | location k p mode =>
    if st.msg.mLoc.line = 0 then .nothing
    else ⟨k,(locationText mode st.msg.mLoc).length,p,locationText mode st.msg.mLoc⟩
  | msg k p => ⟨k,st.msg.mPayload.length,p,st.msg.mPayload⟩
  | str k p text => ⟨k,text.length,p,text⟩
  | colorStart _ => .nothing
  | colorStop _ => .nothing

/-- The formatter of `%e`, the only one that reads the clock. -/
def readsClock : FlagFormatter Empty → Bool
  | timeElapsed _ _ _ => true
  | _ => false

/-- The formatter of `%d`, the only one that reads a cache. -/
def readsTime : FlagFormatter Empty → Bool
  | time _ _ _ => true
  | _ => false

theorem format_dest (env : FormatEnv) (f : FlagFormatter Empty) (st : FormatState) :
    (f.format noCustom env st).dest = (f.fieldText env st).put st.dest := by
  cases f with
  | location k p mode =>
    unfold format fieldText
    by_cases h : st.msg.mLoc.line = 0
    · simp only [h, if_true]
      rfl
    · simp only [h, if_false]
      rfl
  | custom h => exact h.elim
  | _ => rfl

end FlagFormatter

/-- The messages are equal but for the colour range noted down in them. -/
def SameMessage (a b : FormatState) : Prop :=
  ∃ i j, b.msg = { a.msg with mColorRangeStart := i, mColorRangeStop := j }

/-- Two states that differ at most in the buffer, in the colour range noted down, and in
how often the clock was read. -/
structure SameContext (a b : FormatState) : Prop where
  msg : ∃ i j, b.msg = { a.msg with mColorRangeStart := i, mColorRangeStop := j }
  caches : b.caches = a.caches

section
variable {env : FormatEnv} {now : ℕ → ℤ} {a b : FormatState}

theorem SameMessage.mTimeStamp (h : SameMessage a b) : b.msg.mTimeStamp = a.msg.mTimeStamp := by
  obtain ⟨i,j,hmsg⟩ := h
  rw [hmsg]

/-- A field with neither the clock nor the time in it is the message's. -/
theorem SameMessage.fieldText_eq (h : SameMessage a b) {f : FlagFormatter Empty}
    (hclock : f.readsClock = false) (htime : f.readsTime = false) :
    f.fieldText { env with now := now } b = f.fieldText env a := by
  obtain ⟨i,j,hmsg⟩ := h
  cases f with
  | timeElapsed => cases hclock
  | time => cases htime
  | custom h => exact h.elim
  | _ => simp only [FlagFormatter.fieldText, hmsg]

theorem SameMessage.format (h : SameMessage a b) (f : FlagFormatter Empty) :
    SameMessage (f.format noCustom env a) (f.format noCustom { env with now := now } b) := by
  obtain ⟨i,j,hmsg⟩ := h
  cases f with
  | custom h => exact h.elim
  | location k p mode =>
    have hline : b.msg.mLoc.line = a.msg.mLoc.line := by rw [hmsg]
    simp only [FlagFormatter.format, hline]
    split
    · exact ⟨i,j,hmsg⟩
    · exact ⟨i,j,hmsg⟩
  | colorStart => exact ⟨b.dest.size,j,by simp only [FlagFormatter.format, hmsg]⟩
  | colorStop => exact ⟨i,b.dest.size,by simp only [FlagFormatter.format, hmsg]⟩
  | _ => exact ⟨i,j,hmsg⟩

/-- The field does not depend on what was written before. -/
lemma SameContext.fieldText_eq (h : SameContext a b) {f : FlagFormatter Empty}
    (hf : f.readsClock = false) : f.fieldText { env with now := now } b = f.fieldText env a := by
  cases f with
  | time k p timeFormat =>
    simp only [FlagFormatter.fieldText, h.caches, SameMessage.mTimeStamp h.msg]
  | _ => exact SameMessage.fieldText_eq h.msg hf rfl

lemma SameContext.format (h : SameContext a b) (f : FlagFormatter Empty) :
    SameContext (f.format noCustom env a) (f.format noCustom { env with now := now } b) := by
  refine ⟨SameMessage.format h.msg f,?_⟩
  have hmsg : SameMessage a b := h.msg
  cases f with
  | custom h => exact h.elim
  | time k p timeFormat => simp only [FlagFormatter.format, h.caches, hmsg.mTimeStamp]
  | location k p mode =>
    obtain ⟨i,j,hloc⟩ := hmsg
    have hline : b.msg.mLoc.line = a.msg.mLoc.line := by rw [hloc]
    simp only [FlagFormatter.format, hline]
    split
    · exact h.caches
    · exact h.caches
  | _ => exact h.caches

/-- The fields of a list of formatters, in order. -/
def fieldsOf (env : FormatEnv) : FormatState → List (FlagFormatter Empty) → List FieldText
  | _, [] => []
  | st, f::fs => f.fieldText env st::fieldsOf env (f.format noCustom env st) fs

/-- The loop of `patternFormatter::format`. -/
def formatAll (env : FormatEnv) (fs : List (FlagFormatter Empty)) (st : FormatState) : FormatState :=
  fs.foldl (fun st f => f.format noCustom env st) st

theorem formatAll_dest (fs : List (FlagFormatter Empty)) (st : FormatState) :
    (formatAll env fs st).dest = (fieldsOf env st fs).foldl FieldText.put st.dest := by
  induction fs generalizing st with
  | nil => rfl
  | cons f fs ih =>
    rw [fieldsOf, List.foldl_cons, ← f.format_dest]
    exact ih _

theorem fieldsOf_congr (h : SameContext a b) {fs : List (FlagFormatter Empty)}
    (hfs : ∀ f ∈ fs, f.readsClock = false) :
    fieldsOf { env with now := now } b fs = fieldsOf env a fs := by
  induction fs generalizing a b with
  | nil => rfl
  | cons f fs ih =>
    rw [fieldsOf, fieldsOf, h.fieldText_eq (hfs f List.mem_cons_self),
      ih (h.format f) fun g hg => hfs g (List.mem_cons_of_mem _ hg)]

theorem fieldsOf_take (fs : List (FlagFormatter Empty)) (st : FormatState) (n : ℕ) :
    fieldsOf env st (fs.take n) = (fieldsOf env st fs).take n := by
  induction fs generalizing st n with
  | nil => simp [fieldsOf]
  | cons f fs ih =>
    cases n with
    | zero => rfl
    | succ n => rw [List.take_succ_cons, fieldsOf, fieldsOf, List.take_succ_cons, ih]

end
end Astlog
