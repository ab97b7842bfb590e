import Astlog.Pattern.Builtin
import Astlog.Pattern.Width

/-! Formatting appends: what a buffer showed before a call, it shows in front afterwards. -/
namespace Astlog

namespace FieldText
variable {b : FormatterBuf} {x : FieldText}

/-- A field is written behind what is there. -/
lemma exists_view_put (hb : b.Wf) (x : FieldText) : ∃ s, (put b x).view = b.view ++ s := by
  cases hcut : x.cut with
  | none =>
    rw [put_of_not_cut hcut]
    exact ⟨_,InlineBuffer.view_appends hb x.pieces⟩
  | some w =>
    rw [put_of_cut hcut, pieces_of_cut hcut, List.foldl_cons, List.foldl_nil]
    by_cases hin : w+b.mSize < recordCapacity
    · exact ⟨_,InlineBuffer.view_erase_append hb x.text hin⟩
    · rw [InlineBuffer.erase_of_le _ (not_lt.mp hin)]
      exact ⟨_,InlineBuffer.view_append hb x.text⟩

theorem view_prefix_foldl_put (hb : b.Wf) (xs : List FieldText) :
    b.view <+: (xs.foldl put b).view := by
  induction xs generalizing b with
  | nil => exact List.prefix_rfl
  | cons x xs ih =>
    obtain ⟨s,hs⟩ := exists_view_put hb x
    have hrest := ih (put_wf hb x)
    rw [hs] at hrest
    exact (List.prefix_append _ _).trans hrest

/-- The text of a field stands between blanks that do not depend on it. -/
lemma exists_pieces (x : FieldText) :
    ∃ ds ds', ∀ text, ({ x with text := text } : FieldText).pieces = ds ++ text::ds' := by
  obtain ⟨k,n,p,-⟩ := x
  cases k with
  | nullScopedPadder => exact ⟨[],[],fun _ => rfl⟩
  | scopedPadder =>
    by_cases hneg : toInt32 (p.mWidth-n) < 0
    · exact ⟨[],[],fun _ => if_pos hneg⟩
    · by_cases hzero : toInt32 (p.mWidth-n) = 0
      · exact ⟨[],[[]],fun _ => (if_neg hneg).trans (if_pos hzero)⟩
      · cases hside : p.mSide with
        | left => exact ⟨[_],[[]],fun _ => by simp only [pieces, remained, hneg, hzero, hside]; rfl⟩
        | right => exact ⟨[],[_],fun _ => by simp only [pieces, remained, hneg, hzero, hside]; rfl⟩
        | center => exact ⟨[_],[_],fun _ => by simp only [pieces, remained, hneg, hzero, hside]; rfl⟩

/-- What an uncut field adds, whatever its text and wherever it stands. -/
theorem exists_view_put_of_uncut (hcut : x.cut = none) : ∃ s s', ∀ (text : List Char)
    {b : FormatterBuf}, b.Wf →
      (put b { x with text := text }).view = b.view ++ (s ++ text ++ s') := by
  obtain ⟨ds,ds',hpieces⟩ := x.exists_pieces
  refine ⟨ds.flatten,ds'.flatten,fun text b hb => ?_⟩
  have hcut' : ({ x with text := text } : FieldText).cut = none := hcut
  rw [put_of_not_cut hcut', InlineBuffer.view_appends hb, hpieces]
  simp

end FieldText

/-- What is done to a record buffer. The caches are those of the thread that formats. -/
inductive RecordCall
  | buffer (op : BufOp)
  | format (c : FormatCall) (caches : ThreadCaches)

/-- `format` into a buffer that may have been written to before. -/
def FormatCall.runInto (env : FormatEnv) (caches : ThreadCaches) (dest : FormatterBuf)
    (c : FormatCall) : FormatState :=
  (builtinFormatter c.pattern).format noCustom { env with now := c.now }
    { msg := c.msg, dest := dest, caches := caches }

def RecordCall.perform (env : FormatEnv) (dest : FormatterBuf) : RecordCall → FormatterBuf
  | buffer op => dest.apply op
  | format c caches => (c.runInto env caches dest).dest

/-- The buffer after a sequence of calls on an empty one. -/
def recordBuf (env : FormatEnv) (calls : List RecordCall) : FormatterBuf :=
  calls.foldl (RecordCall.perform env) (.empty recordCapacity)

section
variable {env : FormatEnv} {dest : FormatterBuf}

lemma runInto_dest (caches : ThreadCaches) (c : FormatCall) :
    ∃ xs : List FieldText, (c.runInto env caches dest).dest = xs.foldl FieldText.put dest :=
  ⟨_,formatAll_dest _ _⟩

lemma perform_wf (h : dest.Wf) (call : RecordCall) : (call.perform env dest).Wf := by
  cases call with
  | buffer op => exact InlineBuffer.apply_wf h op
  | format c caches =>
    obtain ⟨xs,hxs⟩ := runInto_dest caches c
    rw [RecordCall.perform, hxs]
    exact FieldText.foldl_put_wf h xs

lemma recordBuf_wf (env : FormatEnv) (calls : List RecordCall) : (recordBuf env calls).Wf := by
  induction calls using List.reverseRecOn with
  | nil => exact InlineBuffer.empty_wf _
  | append_singleton calls call ih =>
    rw [recordBuf, List.foldl_append]
    exact perform_wf ih call

end

/-- Whatever was done to the buffer before, and whichever thread formats. -/
theorem view_prefix_runInto (env : FormatEnv) (calls : List RecordCall) (caches : ThreadCaches)
    (c : FormatCall) :
    (recordBuf env calls).view <+: (c.runInto env caches (recordBuf env calls)).dest.view := by
  obtain ⟨xs,hxs⟩ := runInto_dest caches c
  rw [hxs]
  exact FieldText.view_prefix_foldl_put (recordBuf_wf env calls) xs

end Astlog
