import Astlog.Pattern.Width

/-! The counts that a padder passes to `pad_it`, for any size that the content is declared with. -/
namespace Astlog
namespace ScopedPadder

/-- The calls of `pad_it` that the constructor makes. -/
def constructCounts (wrappedSize : ℕ) (padInfo : PaddingInfo) : List ℤ :=
  let remained := toInt32 (padInfo.mWidth - wrappedSize)
  if remained ≤ 0 then []
  else
    match padInfo.mSide with
    | .left => [remained]
    -- at 2^31-1 the sum overflows an `int`; whatever it gives is far from the 64 blanks
    | .center => [(remained+1)/2]
    | .right => []

/-- The calls of `pad_it` that the destructor makes. -/
def destructCounts (p : ScopedPadder) : List ℤ :=
  if 0 ≤ p.mRemainedPadding then [p.mRemainedPadding] else []

/-- What the constructor appends are these calls. -/
lemma construct_snd (wrappedSize : ℕ) (padInfo : PaddingInfo) (dest : FormatterBuf) :
    (construct wrappedSize padInfo dest).2 =
      (constructCounts wrappedSize padInfo).foldl (fun buf count => padIt count buf) dest := by
  simp only [construct, constructCounts]
  split_ifs
  · rfl
  · cases padInfo.mSide <;> rfl

/-- So are what the destructor appends, if it does not cut. -/
lemma destruct_eq (p : ScopedPadder) (dest : FormatterBuf) : p.destruct dest =
    if p.mRemainedPadding < 0 ∧ p.mPadInfo.mTruncate = true then
      dest.erase (p.mPadInfo.mWidth+p.mTruncate)
    else p.destructCounts.foldl (fun buf count => padIt count buf) dest := by
  simp only [destruct, destructCounts]
  by_cases h : 0 ≤ p.mRemainedPadding
  · rw [if_pos h, if_pos h, if_neg fun hc => absurd hc.1 (not_lt.mpr h)]
    rfl
  · rw [if_neg h, if_neg h]
    simp [not_le.mp h]

/-- A padder does to the buffer what its calls of `pad_it` do, around the text, and then cuts
or does not. -/
theorem appendPadded_eq_calls (wrappedSize : ℕ) (padInfo : PaddingInfo) (text : List Char)
    (dest : FormatterBuf) : Padder.scopedPadder.appendPadded wrappedSize padInfo text dest =
      let p := (construct wrappedSize padInfo dest).1
      let buf := ((constructCounts wrappedSize padInfo).foldl (fun buf count => padIt count buf)
        dest).append text
      if p.mRemainedPadding < 0 ∧ p.mPadInfo.mTruncate = true then
        buf.erase (p.mPadInfo.mWidth+p.mTruncate)
      else p.destructCounts.foldl (fun buf count => padIt count buf) buf := by
  simp only [Padder.appendPadded]
  rw [construct_snd, destruct_eq]

/-- All calls of `pad_it` in the life of a padder. -/
def padCounts (wrappedSize : ℕ) (padInfo : PaddingInfo) (dest : FormatterBuf) : List ℤ :=
  constructCounts wrappedSize padInfo ++ (construct wrappedSize padInfo dest).1.destructCounts

section
variable {wrappedSize : ℕ} (padInfo : PaddingInfo)

lemma padCounts_of_nonpos (dest : FormatterBuf) (h : toInt32 (padInfo.mWidth - wrappedSize) ≤ 0) :
    padCounts wrappedSize padInfo dest =
      if toInt32 (padInfo.mWidth - wrappedSize) = 0 then [0] else [] := by
  simp only [padCounts, constructCounts, construct, destructCounts, h, if_true, List.nil_append]
  split_ifs with h1 h2
  · rw [h2]
  · omega
  · omega
  · rfl

lemma padCounts_of_pos (dest : FormatterBuf) {r : ℕ} (hr : 0 < r)
    (h : toInt32 (padInfo.mWidth - wrappedSize) = r) :
    padCounts wrappedSize padInfo dest =
      match padInfo.mSide with
      | .left => [(r : ℤ),0]
      | .center => [(leadingPad .center r : ℤ),(trailingPad .center r : ℤ)]
      | .right => [(r : ℤ)] := by
  have hpos : ¬(r : ℤ) ≤ 0 := by omega
  simp only [padCounts, constructCounts, construct, destructCounts, h, hpos, if_false]
  cases padInfo.mSide with
  | left => rfl
  | right => simp
  | center =>
    have hnonneg : (0 : ℤ) ≤ ((r : ℤ)+1)/2+(r : ℤ)%2 := by omega
    simp only [hnonneg, if_true, leadingPad, trailingPad, List.singleton_append]
    push_cast
    rfl

/-- A padder that pads asks for the blanks of its two sides. -/
lemma mem_padCounts (dest : FormatterBuf) {r : ℕ} (hr : 0 < r)
    (h : toInt32 (padInfo.mWidth - wrappedSize) = r) {count : ℤ}
    (hcount : count ∈ padCounts wrappedSize padInfo dest) :
    count = leadingPad padInfo.mSide r ∨ count = trailingPad padInfo.mSide r := by
  rw [padCounts_of_pos padInfo dest hr h] at hcount
  cases hside : padInfo.mSide <;> simp_all [leadingPad, trailingPad]

lemma padCounts_sum (dest : FormatterBuf) {r : ℕ} (hr : 0 < r)
    (h : toInt32 (padInfo.mWidth - wrappedSize) = r) :
    (padCounts wrappedSize padInfo dest).sum =
      leadingPad padInfo.mSide r + trailingPad padInfo.mSide r := by
  rw [padCounts_of_pos padInfo dest hr h]
  cases padInfo.mSide <;> simp [leadingPad, trailingPad]

end

/-- No call asks for more blanks than there are, and none asks for any when the content is
longer than the width. -/
structure WithinBlanks (wrappedSize : ℕ) (padInfo : PaddingInfo) (dest : FormatterBuf) : Prop where
  available : ∀ count ∈ padCounts wrappedSize padInfo dest, 0 ≤ count ∧ count ≤ spaces.length
  longer : padInfo.mWidth < wrappedSize → (padCounts wrappedSize padInfo dest).sum = 0

end ScopedPadder

open ScopedPadder

/-- The padder takes a content that is `d` longer for one that is not shorter. -/
lemma toInt32_neg_nonpos_iff {d : ℕ} : toInt32 (-d) ≤ 0 ↔ d % 2^32 ≤ 2^31 := by
  unfold toInt32
  rw [Int.bmod_def]
  omega

section
variable {width wrappedSize : ℕ} {side : PadSide} {truncate : Bool} {dest : FormatterBuf}

lemma withinBlanks_of_nonpos (h : toInt32 (width-wrappedSize) ≤ 0) :
    WithinBlanks wrappedSize (.of width side truncate) dest := by
  have hcounts : padCounts wrappedSize (.of width side truncate) dest =
      if toInt32 (width-wrappedSize) = 0 then [0] else [] := padCounts_of_nonpos _ dest h
  constructor
  · intro count hcount
    rw [hcounts] at hcount
    split_ifs at hcount
    · obtain rfl := List.mem_singleton.mp hcount
      exact ⟨le_rfl,Int.natCast_nonneg _⟩
    · cases hcount
  · intro hlonger
    rw [hcounts]
    split_ifs <;> rfl

lemma withinBlanks_of_lt (hw : width ≤ 64) (h : wrappedSize < width) :
    WithinBlanks wrappedSize (.of width side truncate) dest := by
  have hr : toInt32 ((width : ℤ)-wrappedSize) = (width-wrappedSize : ℕ) := by
    rw [toInt32_of_small (by omega) (by omega), Nat.cast_sub h.le]
  obtain ⟨hlead,htrail⟩ := pads_le side (show width-wrappedSize ≤ 64 by omega)
  have hspaces : (spaces.length : ℤ) = 64 := rfl
  constructor
  · intro count hcount
    rw [hspaces]
    obtain rfl | rfl := mem_padCounts (.of width side truncate) dest (Nat.sub_pos_of_lt h) hr hcount
    · exact ⟨Int.natCast_nonneg _,Int.ofNat_le.mpr hlead⟩
    · exact ⟨Int.natCast_nonneg _,Int.ofNat_le.mpr htrail⟩
  · intro hlonger
    exact absurd hlonger (not_lt.mpr h.le)

/-- A padder that pads has asked for at least one blank. -/
lemma padCounts_sum_pos (h : 0 < toInt32 (width-wrappedSize)) :
    0 < (padCounts wrappedSize (.of width side truncate) dest).sum := by
  obtain ⟨r,hr⟩ := Int.eq_ofNat_of_zero_le h.le
  have hpos : 0 < r := by omega
  have hsum : (padCounts wrappedSize (.of width side truncate) dest).sum =
      leadingPad side r + trailingPad side r := padCounts_sum _ dest hpos hr
  rw [hsum]
  cases side <;> simp only [leadingPad, trailingPad] <;> omega

end

theorem withinBlanks_iff {width : ℕ} (hw : width ≤ 64) (side : PadSide) (truncate : Bool)
    (wrappedSize : ℕ) (dest : FormatterBuf) :
    WithinBlanks wrappedSize (.of width side truncate) dest ↔
      wrappedSize ≤ width ∨ (wrappedSize-width) % 2^32 ≤ 2^31 := by
  obtain hlt | hle := lt_or_ge wrappedSize width
  · exact iff_of_true (withinBlanks_of_lt hw hlt) (.inl hlt.le)
  · have hdiff : ((width : ℤ)-wrappedSize) = -((wrappedSize-width : ℕ) : ℤ) := by omega
    constructor
    · intro h
      obtain rfl | hlong := Nat.eq_or_lt_of_le hle
      · exact .inl le_rfl
      · refine .inr (toInt32_neg_nonpos_iff.mp ?_)
        by_contra hpos
        rw [not_le, ← hdiff] at hpos
        exact (padCounts_sum_pos hpos).ne' (h.longer hlong)
    · intro h
      apply withinBlanks_of_nonpos
      rw [hdiff, toInt32_neg_nonpos_iff]
      omega

/-- Two blanks before a name of six characters. -/
theorem withinBlanks_name :
    WithinBlanks "logger".toList.length (.of 8 .left true) (writtenBuf []) :=
  (withinBlanks_iff (by norm_num) .left true "logger".toList.length (writtenBuf [])).mpr
    (.inl (by decide))

/-- A message of 2^31 + 9 characters asks a padder of width 8 for 2^31 - 1 blanks. -/
theorem blanks_for_long_message : ¬∀ (width : ℕ), width ≤ 64 → ∀ (side : PadSide) (truncate : Bool)
    (wrappedSize : ℕ), wrappedSize < 2^64 → ∀ dest : FormatterBuf,
      WithinBlanks wrappedSize (.of width side truncate) dest := by
  intro h
  have hsafe := h 8 (by norm_num) .left false (2^31+9) (by norm_num) (.empty recordCapacity)
  have hsum : (padCounts (2^31+9) (.of 8 .left false) (.empty recordCapacity)).sum = 2^31-1 := by
    decide
  have hzero := hsafe.longer (by norm_num [PaddingInfo.of])
  rw [hsum] at hzero
  norm_num at hzero

end Astlog
