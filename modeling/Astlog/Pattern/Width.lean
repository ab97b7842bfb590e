import Astlog.MemBuf.PlainString
import Astlog.Pattern.Fields

/-! The width of a padded field: what the padder leaves in the buffer, for any text and
any declared size, and when that is the text in a field of the requested width. -/
namespace Astlog

/-- `n` blanks. -/
def blanks (n : ℕ) : List Char := List.replicate n ' '

@[simp] theorem blanks_length (n : ℕ) : (blanks n).length = n := List.length_replicate

@[simp] theorem blanks_zero : blanks 0 = [] := rfl

/-- The padder has no more than 64 blanks to copy. -/
lemma spaces_take (n : ℕ) : spaces.take n = blanks (min n 64) := List.take_replicate

theorem toInt32_of_small {x : ℤ} (h : -2^31 ≤ x) (h' : x < 2^31) : toInt32 x = x :=
  Int.bmod_eq_of_le (by norm_num; omega) (by norm_num; omega)

namespace InlineBuffer
variable {N : ℕ} {b : InlineBuffer N}

/-- The `k` characters from position `n` on that an erase past the end makes visible:
what the array holds there, or the zeros a vector grows by. -/
def behind (b : InlineBuffer N) (n k : ℕ) : List Char :=
  if b.mOverflow = [] then (b.mInline.drop n).take k else List.replicate k nul

/-- A text is appended and the buffer cut or extended to `w` characters from where it began. -/
theorem view_erase_append (hb : b.Wf) (text : List Char) {w : ℕ} (h : w+b.mSize < N) :
    ((b.append text).erase (w+b.mSize)).view =
      b.view ++ (text ++ b.behind (b.mSize+text.length) (w-text.length)).take w := by
  have hsize := append_mSize hb text
  by_cases hw : w ≤ text.length
  · rw [view_erase_of_le (append_wf hb text) h (by omega), view_append hb, ← view_length hb,
      Nat.add_comm, List.take_length_add_append, List.take_append_of_le_length hw]
  · rw [view_erase h, behind, Nat.add_comm w]
    obtain ⟨rfl,he⟩ | ⟨ho,-,ho',hi,-⟩ | ⟨hne,-,h0,h1,-⟩ := b.append_cases text
    · rw [he]
      by_cases ho : b.mOverflow = []
      · simp [ho, view_of_inline ho, List.take_add, List.take_take]
      · simp [ho, view_of_overflow hb ho, resize, hb.overflow_eq ho]
    · rw [if_pos ho', if_pos ho, hi, view_of_inline ho, copyAt, List.append_assoc, List.take_append]
      have hl : (b.mInline.take b.mSize).length = b.mSize :=
        List.length_take_of_le (by rw [b.inline_length]; exact hb.inline_le ho)
      rw [hl, List.take_of_length_le (by omega), Nat.add_sub_cancel_left, List.take_append,
        List.take_append, List.take_take, min_eq_left le_rfl]
    · by_cases ho : b.mOverflow = []
      · have := (h0 ho).1
        omega
      · have hne' : b.mOverflow ++ text ≠ [] := List.append_ne_nil_of_left_ne_nil ho text
        rw [h1 ho, if_neg hne', if_neg ho, view_of_overflow hb ho, resize]
        have hl := hb.overflow_eq ho
        rw [List.take_of_length_le (by rw [List.length_append]; omega), List.append_assoc,
          List.take_of_length_le (by simp; omega), List.length_append, hl, Nat.add_sub_add_left]

theorem view_appends (hb : b.Wf) (ds : List (List Char)) :
    (ds.foldl append b).view = b.view ++ ds.flatten := by
  induction ds generalizing b with
  | nil => simp
  | cons d ds ih =>
    rw [List.foldl_cons, ih (append_wf hb d), view_append hb, List.flatten_cons, List.append_assoc]

end InlineBuffer

/-- The blanks that go before and behind the text when `r` of them are missing. -/
def leadingPad : PadSide → ℕ → ℕ
  | .left, r => r
  | .center, r => (r+1)/2
  | .right, _ => 0

def trailingPad : PadSide → ℕ → ℕ
  | .left, _ => 0
  | .center, r => (r+1)/2+r%2
  | .right, r => r

/-- Neither side asks for more than there are as long as no more than 64 are missing. -/
theorem pads_le (side : PadSide) {r : ℕ} (h : r ≤ 64) : leadingPad side r ≤ 64 ∧ trailingPad side r ≤ 64 := by
  cases side with
  | left => exact ⟨h,Nat.zero_le _⟩
  | right => exact ⟨Nat.zero_le _,h⟩
  | center =>
    simp only [leadingPad, trailingPad]
    omega

namespace Padder
variable {b : FormatterBuf}

/-- `put` under the padder's own arguments. -/
lemma appendPadded_eq (declared width : ℕ) (side : PadSide) (truncate : Bool) (text : List Char) :
    scopedPadder.appendPadded declared (.of width side truncate) text b =
      FieldText.put b ⟨.scopedPadder,declared,.of width side truncate,text⟩ := rfl

/-- The text is no longer than the width, going by the declared size. -/
theorem view_appendPadded_of_nonneg (hb : b.Wf) (declared width : ℕ) (side : PadSide)
    (truncate : Bool) (text : List Char) {r : ℕ} (h : toInt32 (width-declared) = r) :
    (scopedPadder.appendPadded declared (.of width side truncate) text b).view =
      b.view ++ blanks (min (leadingPad side r) 64) ++ text ++
        blanks (min (trailingPad side r) 64) := by
  set x : FieldText := ⟨.scopedPadder,declared,.of width side truncate,text⟩ with hx
  have hr : x.remained = r := h
  have hcut : x.cut = none := FieldText.cut_of_nonneg (by rw [hr]; omega)
  rw [appendPadded_eq, FieldText.put_eq, ← hx, hcut]
  simp only [InlineBuffer.view_appends hb, FieldText.pieces, hr, not_lt.mpr (Int.natCast_nonneg r)]
  have hhalf : ((r+1)/2 : ℤ).toNat = (r+1)/2 := by omega
  have hrest : ((r+1)/2+r%2 : ℤ).toNat = (r+1)/2+r%2 := by omega
  obtain rfl | hpos := Nat.eq_zero_or_pos r
  · cases side <;> simp [hx, leadingPad, trailingPad]
  · cases side <;> simp [hx, PaddingInfo.of, leadingPad, trailingPad, spaces_take, hhalf, hrest,
      hpos.ne']

/-- The text is longer and is not cut. -/
theorem view_appendPadded_of_neg (hb : b.Wf) (declared width : ℕ) (side : PadSide)
    (text : List Char) (h : toInt32 (width-declared) < 0) :
    (scopedPadder.appendPadded declared (.of width side false) text b).view = b.view ++ text := by
  set x : FieldText := ⟨.scopedPadder,declared,.of width side false,text⟩ with hx
  have hcut : x.cut = none := if_neg fun hc => Bool.noConfusion hc.2.2
  have hpieces : x.pieces = [text] := FieldText.pieces_of_neg h
  rw [appendPadded_eq, FieldText.put_eq, ← hx, hcut, hpieces]
  exact InlineBuffer.view_append hb text

/-- The text is longer and is cut. -/
theorem appendPadded_truncate (declared width : ℕ) (side : PadSide) (text : List Char)
    (h : toInt32 (width-declared) < 0) :
    scopedPadder.appendPadded declared (.of width side true) text b =
      (b.append text).erase (width+b.mSize) := by
  set x : FieldText := ⟨.scopedPadder,declared,.of width side true,text⟩ with hx
  have hcut : x.cut = some width := if_pos ⟨rfl,h,rfl⟩
  have hpieces : x.pieces = [text] := FieldText.pieces_of_neg h
  rw [appendPadded_eq, FieldText.put_eq, ← hx, hcut, hpieces]
  rfl

end Padder

/-- The buffer holds `p` and behind it the text in a field of the given width, with the
blanks where the side puts them; a longer text that is not to be cut stands alone. -/
structure PadsTo (width : ℕ) (side : PadSide) (truncate : Bool) (p text view : List Char) : Prop where
  filled : text.length ≤ width → ∃ a b, view = p ++ blanks a ++ text ++ blanks b ∧
    a+text.length+b = width ∧
      match side with
      | .left => a = width-text.length
      | .right => b = width-text.length
      | .center => a ≤ b+1 ∧ b ≤ a+1
  longer : width < text.length → truncate = false → view = p ++ text

section
open Padder
variable {b : FormatterBuf} {width : ℕ} {text : List Char}

/-- A text that is no longer than the width, between all the blanks its side asks for. -/
theorem view_appendPadded_of_le (hb : b.Wf) (hw : width ≤ 64) (side : PadSide) (truncate : Bool)
    (h : text.length ≤ width) :
    (scopedPadder.appendPadded text.length (.of width side truncate) text b).view =
      b.view ++ blanks (leadingPad side (width-text.length)) ++ text ++
        blanks (trailingPad side (width-text.length)) := by
  have hr : toInt32 ((width : ℤ)-text.length) = (width-text.length : ℕ) := by
    rw [toInt32_of_small (by omega) (by omega), Nat.cast_sub h]
  obtain ⟨hlead,htrail⟩ := pads_le side (show width-text.length ≤ 64 by omega)
  rw [view_appendPadded_of_nonneg hb _ _ _ _ _ hr, min_eq_left hlead, min_eq_left htrail]

/-- The blanks on both sides add up, unless an odd number of them is to be halved: then
the rounding up and the remainder are both counted. -/
theorem leadingPad_add_trailingPad (side : PadSide) (r : ℕ) :
    leadingPad side r + trailingPad side r = r ↔ (side = .center → Even r) := by
  cases side with
  | left => simp [leadingPad, trailingPad]
  | right => simp [leadingPad, trailingPad]
  | center =>
    simp only [leadingPad, trailingPad, Nat.even_iff, true_imp_iff]
    omega

lemma view_appendPadded_eq_append_iff (hb : b.Wf) (side : PadSide) :
    (scopedPadder.appendPadded text.length (.of width side false) text b).view = b.view ++ text ↔
      toInt32 (width-text.length) ≤ 0 := by
  obtain hneg | hnonneg := lt_or_ge (toInt32 ((width : ℤ)-text.length)) 0
  · exact iff_of_true (view_appendPadded_of_neg hb _ _ side text hneg) hneg.le
  · obtain ⟨r,hr⟩ := Int.eq_ofNat_of_zero_le hnonneg
    rw [view_appendPadded_of_nonneg hb _ _ side false text hr, hr]
    constructor
    · intro hview
      have hlen := congrArg List.length hview
      simp only [List.length_append, blanks_length] at hlen
      have hboth : leadingPad side r = 0 ∧ trailingPad side r = 0 := by omega
      cases side <;> simp only [leadingPad, trailingPad] at hboth <;> omega
    · intro hle
      obtain rfl : r = 0 := by omega
      cases side <;> simp [leadingPad, trailingPad]

/-- The cut is made, and where it belongs, as long as it lies inside the inline array. -/
theorem view_truncated_iff (hb : b.Wf) (side : PadSide) (h : width < text.length) :
    (scopedPadder.appendPadded text.length (.of width side true) text b).view =
        b.view ++ text.take width ↔
      toInt32 (width-text.length) < 0 ∧ b.view.length+width < recordCapacity := by
  have hcut : (text.take width).length = width := List.length_take_of_le h.le
  obtain hneg | hnonneg := lt_or_ge (toInt32 ((width : ℤ)-text.length)) 0
  · rw [appendPadded_truncate _ _ side text hneg, InlineBuffer.view_length hb]
    by_cases hin : width+b.mSize < recordCapacity
    · refine iff_of_true ?_ ⟨hneg,by omega⟩
      rw [InlineBuffer.view_erase_append hb text hin, List.take_append_of_le_length h.le]
    · refine iff_of_false ?_ fun hc => hin (by omega)
      rw [InlineBuffer.erase_of_le _ (not_lt.mp hin), InlineBuffer.view_append hb]
      intro hview
      have hlen := congrArg List.length (List.append_cancel_left hview)
      omega
  · -- the padder takes the text for one that is not too long
    refine iff_of_false ?_ fun hc => absurd hc.1 (not_lt.mpr hnonneg)
    obtain ⟨r,hr⟩ := Int.eq_ofNat_of_zero_le hnonneg
    rw [view_appendPadded_of_nonneg hb _ _ side true text hr]
    intro hview
    have hlen := congrArg List.length hview
    simp only [List.length_append, blanks_length, hcut] at hlen
    omega

end

/-- A record buffer after any calls. -/
def writtenBuf (ops : List BufOp) : FormatterBuf := InlineBuffer.applyAll (.empty recordCapacity) ops

theorem writtenBuf_wf (ops : List BufOp) : (writtenBuf ops).Wf :=
  InlineBuffer.applyAll_wf (InlineBuffer.empty_wf recordCapacity) ops

@[simp] lemma writtenBuf_append (d : List Char) : (writtenBuf [.append d]).view = d := by
  have hview := InlineBuffer.view_append (InlineBuffer.empty_wf recordCapacity) d
  rwa [InlineBuffer.empty_view, List.nil_append] at hview

open Padder in
theorem padsTo_iff (ops : List BufOp) {width : ℕ} (hw : width ≤ 64) (side : PadSide)
    (truncate : Bool) (text : List Char) :
    PadsTo width side truncate (writtenBuf ops).view text
        (scopedPadder.appendPadded text.length (.of width side truncate) text (writtenBuf ops)).view ↔
      (text.length ≤ width → side = .center → Even (width-text.length)) ∧
      (width < text.length → truncate = false → toInt32 (width-text.length) ≤ 0) := by
  have hb := writtenBuf_wf ops
  constructor
  · rintro ⟨hfilled,hlonger⟩
    refine ⟨fun hle => ?_,fun hlt ht => ?_⟩
    · obtain ⟨a,c,hview,hsum,-⟩ := hfilled hle
      rw [← leadingPad_add_trailingPad]
      have hlen := congrArg List.length hview
      rw [view_appendPadded_of_le hb hw side truncate hle] at hlen
      simp only [List.length_append, blanks_length] at hlen
      omega
    · subst ht
      exact (view_appendPadded_eq_append_iff hb side).mp (hlonger hlt rfl)
  · rintro ⟨heven,hwrap⟩
    refine ⟨fun hle => ?_,fun hlt ht => ?_⟩
    · have hsum := (leadingPad_add_trailingPad side (width-text.length)).mpr (heven hle)
      refine ⟨_,_,view_appendPadded_of_le hb hw side truncate hle,by omega,?_⟩
      cases side with
      | left => rfl
      | right => rfl
      | center =>
        simp only [leadingPad, trailingPad]
        omega
    · subst ht
      exact (view_appendPadded_eq_append_iff hb side).mpr (hwrap hlt rfl)

/-- Two characters centred in a field of four. -/
theorem padsTo_centered_even :
    PadsTo 4 .center false (writtenBuf []).view "ab".toList
      (Padder.scopedPadder.appendPadded 2 (.of 4 .center false) "ab".toList (writtenBuf [])).view :=
  (padsTo_iff [] (by norm_num) .center false "ab".toList).mpr
    ⟨fun _ _ => by decide,fun h _ => by simp at h⟩

/-- A text of two characters centred in a field of five takes seven. -/
theorem centered_odd_too_wide : ¬∀ (ops : List BufOp) (width : ℕ) (side : PadSide)
    (truncate : Bool) (text : List Char), width ≤ 64 →
      PadsTo width side truncate (writtenBuf ops).view text
        (Padder.scopedPadder.appendPadded text.length (.of width side truncate) text
          (writtenBuf ops)).view := by
  intro h
  obtain ⟨a,b,hview,hsum,-⟩ := (h [] 5 .center false "ab".toList (by norm_num)).filled (by decide)
  have hlen := congrArg List.length hview
  have hseven : (Padder.scopedPadder.appendPadded "ab".toList.length (.of 5 .center false)
      "ab".toList (writtenBuf [])).view.length = 7 := by decide
  have hnone : (writtenBuf []).view.length = 0 := by decide
  rw [hseven, List.length_append, List.length_append, List.length_append, hnone, blanks_length,
    blanks_length] at hlen
  omega

theorem truncated_iff (ops : List BufOp) {width : ℕ} (side : PadSide) {text : List Char}
    (h : width < text.length) :
    (Padder.scopedPadder.appendPadded text.length (.of width side true) text (writtenBuf ops)).view =
        (writtenBuf ops).view ++ text.take width ↔
      toInt32 (width-text.length) < 0 ∧ (writtenBuf ops).view.length+width < recordCapacity :=
  view_truncated_iff (writtenBuf_wf ops) side h

/-- Four characters of six, behind two. -/
theorem truncated_behind_two :
    (Padder.scopedPadder.appendPadded "abcdef".toList.length (.of 4 .left true) "abcdef".toList
      (writtenBuf [.append "> ".toList])).view =
        (writtenBuf [.append "> ".toList]).view ++ "abcdef".toList.take 4 :=
  (truncated_iff [.append "> ".toList] .left (by decide)).mpr ⟨by decide,by decide⟩

/-- Behind 250 characters a text of eight is not cut to six. -/
theorem truncated_nowhere_beyond_inline : ¬∀ (ops : List BufOp) (width : ℕ) (side : PadSide)
    (text : List Char), width ≤ 64 → width < text.length →
      (Padder.scopedPadder.appendPadded text.length (.of width side true) text
        (writtenBuf ops)).view = (writtenBuf ops).view ++ text.take width := by
  intro h
  set ops : List BufOp := [.append (List.replicate 250 'a')] with hops
  have hview := h ops 6 .left "01234567".toList (by norm_num) (by decide)
  have hsize : (writtenBuf ops).view.length = 250 := by
    rw [hops, writtenBuf_append, List.length_replicate]
  have hin := ((view_truncated_iff (writtenBuf_wf ops) .left (by decide)).mp hview).2
  rw [hsize, recordCapacity] at hin
  omega

end Astlog
