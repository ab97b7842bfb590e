import Astlog.Pattern.Items

/-! The pad spec as it is written in a pattern, and what `handlePadspec` makes of it. -/
namespace Astlog

/-- The side character. -/
def PadSide.char : PadSide → Char
  | left => '<'
  | center => '^'
  | right => '>'

/-- Digits accumulate to their value, modulo 64-bit wrap-around. -/
lemma readWidth_digits (w : ℕ) (hw : w < 2^64) (ds it : List Char)
    (hd : ∀ c ∈ ds, c.isDigit = true) (hit : ∀ c ∈ it.head?, c.isDigit = false) :
    readWidth w (ds ++ it) = (Nat.ofDigitChars 10 ds w % 2^64,it) := by
  induction ds generalizing w with
  | nil =>
    rw [List.nil_append, Nat.ofDigitChars_nil, Nat.mod_eq_of_lt hw]
    cases it with
    | nil => rfl
    | cons c it =>
      have hc := hit c rfl
      simp [readWidth, hc]
  | cons c ds ih =>
    have hc := hd c (by simp)
    have hlt : (w*10+digitValue c) % 2^64 < 2^64 := Nat.mod_lt _ (by norm_num)
    rw [List.cons_append, readWidth, if_pos hc, ih _ hlt (fun c h => hd c (by simp [h])),
      Nat.ofDigitChars_cons, Nat.mul_comm 10 w]
    refine Prod.ext ?_ rfl
    change Nat.ofDigitChars 10 ds ((w*10+digitValue c) % 2^64) % 2^64 =
      Nat.ofDigitChars 10 ds (w*10+digitValue c) % 2^64
    rw [Nat.ofDigitChars_eq_ofDigitChars_zero,
      @Nat.ofDigitChars_eq_ofDigitChars_zero ds (w*10+_),
      Nat.add_mod, Nat.mul_mod, Nat.mod_mod, ← Nat.mul_mod, ← Nat.add_mod]

lemma toNat_le_of_digit {c : Char} (hc : c.isDigit = true) : c.toNat ≤ '9'.toNat := by
  simp only [Char.isDigit, Bool.and_eq_true, decide_eq_true_eq] at hc
  exact hc.2

lemma digitValue_lt {c : Char} (hc : c.isDigit = true) : digitValue c < 2^64 :=
  (Nat.sub_le _ _).trans_lt ((toNat_le_of_digit hc).trans_lt (by decide))

/-- A character that is no side is left alone. -/
theorem readSide_of_ne {c : Char} (hc : ∀ side : PadSide, c ≠ side.char) (it : List Char) :
    readSide (c::it) = (.center,c::it) := by
  have hl := hc .left
  have hm := hc .center
  have hr := hc .right
  unfold readSide
  split <;> simp_all [PadSide.char]

lemma ne_char_of_digit {c : Char} (hc : c.isDigit = true) (side : PadSide) : c ≠ side.char := by
  rintro rfl
  cases side <;> exact absurd hc (by decide)

lemma readSide_of_digit {c : Char} (hc : c.isDigit = true) (it : List Char) :
    readSide (c::it) = (.center,c::it) := readSide_of_ne (ne_char_of_digit hc) it

theorem readSide_char (side : PadSide) (it : List Char) : readSide (side.char::it) = (side,it) := by
  cases side <;> rfl

theorem readTruncate_of_ne {it : List Char} (h : ∀ c ∈ it.head?, c ≠ '!') :
    readTruncate it = (false,it) := by
  cases it with
  | nil => rfl
  | cons c it =>
    have hc := h c rfl
    simp [readTruncate, hc]

/-- A pad spec as written: optional side, optional digits, and after digits optional `!`. -/
structure PadText where
  side : Option PadSide
  digits : List Char
  truncate : Bool
  all_digits : ∀ c ∈ digits, c.isDigit = true
  truncate_after : digits = [] → truncate = false

namespace PadText

def write (s : PadText) : List Char :=
  s.side.toList.map PadSide.char ++ (s.digits ++ if s.truncate then ['!'] else [])

/-- The digits as a natural number. -/
def value (s : PadText) : ℕ := Nat.ofDigitChars 10 s.digits 0

/-- The padding that `handlePadspec` makes of it. -/
def padding (s : PadText) : PaddingInfo :=
  if s.digits = [] then {}
  else .of (min (s.value % 2^64) maxWidth) (s.side.getD .center) s.truncate

/-- The character is none that continues the spec. -/
structure Stops (s : PadText) (c : Char) : Prop where
  no_side : s.side = none → s.digits = [] → ∀ side : PadSide, c ≠ side.char
  no_digit : s.truncate = false → c.isDigit = false
  no_bang : s.digits ≠ [] → s.truncate = false → c ≠ '!'

variable {s : PadText} {rest : List Char}

/-- A character behind `^`, such as a small letter, ends every spec. -/
theorem stops_of_lt {c : Char} (hc : '^'.toNat < c.toNat) : s.Stops c where
  no_side _ _ side := by
    rintro rfl
    cases side <;> exact absurd hc (by decide)
  no_digit _ := by
    rw [Bool.eq_false_iff]
    intro hd
    exact absurd (hc.trans_le (toNat_le_of_digit hd)) (by decide)
  no_bang _ _ := by
    rintro rfl
    exact absurd hc (by decide)

lemma readSide_write (h : ∀ c ∈ rest.head?, s.Stops c) :
    readSide (s.write ++ rest) =
      (s.side.getD .center,s.digits ++ ((if s.truncate then ['!'] else []) ++ rest)) := by
  unfold write
  cases hs : s.side with
  | some side =>
    change readSide (side.char::_ ++ rest) = _
    rw [List.cons_append, readSide_char]
    simp
  | none =>
    cases hd : s.digits with
    | cons c ds =>
      have hc : c.isDigit = true := s.all_digits c (by simp [hd])
      have hread := readSide_of_digit hc (ds ++ ((if s.truncate then ['!'] else []) ++ rest))
      simpa using hread
    | nil =>
      rw [s.truncate_after hd]
      cases rest with
      | nil => rfl
      | cons c rest => exact readSide_of_ne ((h c rfl).no_side hs hd) rest

lemma readTruncate_write (hd : s.digits ≠ []) (h : ∀ c ∈ rest.head?, s.Stops c) :
    readTruncate ((if s.truncate then ['!'] else []) ++ rest) = (s.truncate,rest) := by
  cases ht : s.truncate with
  | true => rfl
  | false => exact readTruncate_of_ne fun x hx => (h x hx).no_bang hd ht

/-- The digits are read after the first one, which is where the accumulation starts. -/
lemma readWidth_write {c : Char} {ds : List Char} (hd : s.digits = c::ds)
    (h : ∀ c ∈ rest.head?, s.Stops c) :
    readWidth (digitValue c) (ds ++ ((if s.truncate then ['!'] else []) ++ rest)) =
      (s.value % 2^64,(if s.truncate then ['!'] else []) ++ rest) := by
  have hall := s.all_digits
  rw [hd] at hall
  have hvalue : Nat.ofDigitChars 10 ds (digitValue c) = s.value := by
    rw [value, hd, Nat.ofDigitChars_cons, Nat.mul_zero, Nat.zero_add]
    rfl
  rw [← hvalue]
  apply readWidth_digits _ (digitValue_lt (hall c (by simp)))
  · exact fun x hx => hall x (by simp [hx])
  · cases ht : s.truncate with
    | true => simp
    | false => exact fun x hx => (h x hx).no_digit ht

lemma write_append_ne_nil {c : Char} {ds : List Char} (hd : s.digits = c::ds) :
    s.write ++ rest ≠ [] := by
  simp [write, hd]

/-- The spec is read to its end and no further. -/
theorem handlePadspec_write (h : ∀ c ∈ rest.head?, s.Stops c) :
    handlePadspec (s.write ++ rest) = (s.padding,rest) := by
  have hside := readSide_write h
  unfold handlePadspec
  cases hd : s.digits with
  | nil =>
    rw [hd, s.truncate_after hd] at hside
    rw [padding, if_pos hd]
    split_ifs with hempty
    · rw [hempty, (List.append_eq_nil_iff.mp hempty).2]
    · rw [hside]
      cases rest with
      | nil => rfl
      | cons c rest =>
        have hc := (h c rfl).no_digit (s.truncate_after hd)
        simp [hc]
  | cons c ds =>
    have hne : s.digits ≠ [] := by simp [hd]
    have hc : c.isDigit = true := s.all_digits c (by simp [hd])
    rw [if_neg (write_append_ne_nil hd), hside, padding, if_neg hne]
    simp only [hd, List.cons_append, hc, if_true, readWidth_write hd h, readTruncate_write hne h]

/-- The padding with the width that was asked for, up to the greatest there is. -/
def saturated (s : PadText) : PaddingInfo :=
  .of (min s.value maxWidth) (s.side.getD .center) s.truncate

/-- The side and the marker are those written; the width saturates unless it wraps around
to less than the greatest one. -/
theorem saturates_iff (hdigits : s.digits ≠ []) (h : ∀ c ∈ rest.head?, s.Stops c) :
    (handlePadspec (s.write ++ rest)).1 = s.saturated ↔
      s.value < 2^64 ∨ maxWidth ≤ s.value % 2^64 := by
  have hmin : min (s.value % 2^64) maxWidth = min s.value maxWidth ↔
      s.value < 2^64 ∨ maxWidth ≤ s.value % 2^64 := by
    unfold maxWidth
    omega
  rw [handlePadspec_write h, padding, if_neg hdigits, saturated, ← hmin]
  constructor
  · exact congrArg PaddingInfo.mWidth
  · intro hwidth
    rw [hwidth]

/-- The pad spec of `%<007!v`. -/
def leadingZeros : PadText where
  side := some .left
  digits := "007".toList
  truncate := true
  all_digits := List.all_eq_true.mp (by decide)
  truncate_after := by decide

theorem saturates_leadingZeros :
    (handlePadspec (leadingZeros.write ++ "v".toList)).1 = leadingZeros.saturated :=
  (@saturates_iff leadingZeros "v".toList (by decide)
    (by rintro c ⟨⟩; exact stops_of_lt (by decide))).mpr (by decide)

/-- A width of `2^64`. -/
def wrappingWidth : PadText where
  side := none
  digits := "18446744073709551616".toList
  truncate := false
  all_digits := List.all_eq_true.mp (by decide)
  truncate_after := fun _ => rfl

/-- It wraps around to none. -/
theorem not_saturates : ¬∀ (s : PadText) (rest : List Char), s.digits ≠ [] →
    (∀ c ∈ rest.head?, s.Stops c) → (handlePadspec (s.write ++ rest)).1 = s.saturated := by
  intro h
  have hv := h wrappingWidth "v".toList (by decide) (by rintro c ⟨⟩; exact stops_of_lt (by decide))
  revert hv
  decide

end PadText
end Astlog
