import Astlog.Pattern.Slices

/-! `compilePattern` and `handlePadspec` with the iterator that they share: an index into the
pattern, which may be neither dereferenced nor incremented at the end. -/
namespace Astlog

inductive CursorFault
  | dereferencedEnd
  | incrementedEnd
  /-- A loop has not ended within the rounds it was given. -/
  | unfinished
  deriving DecidableEq

/-- `*it`. -/
def deref (pattern : List Char) (it : ℕ) : Except CursorFault Char :=
  match pattern[it]? with
  | some c => .ok c
  | none => .error .dereferencedEnd

/-- `++it`. -/
def increment (pattern : List Char) (it : ℕ) : Except CursorFault ℕ :=
  if it < pattern.length then .ok (it+1) else .error .incrementedEnd

section
variable (pattern : List Char)

/-- The `switch` on the side character. -/
def readSideAt (it : ℕ) : Except CursorFault (PadSide × ℕ) := do
  match ← deref pattern it with
  | '<' => return (.left,← increment pattern it)
  | '^' => return (.center,← increment pattern it)
  | '>' => return (.right,← increment pattern it)
  | _ => return (.center,it)

/-- The loop over the digits after the first. -/
def readWidthAt : ℕ → ℕ → ℕ → Except CursorFault (ℕ × ℕ)
  | 0, _, _ => .error .unfinished
  | fuel+1, width, it => do
    if it = pattern.length then return (width,it)
    else if (← deref pattern it).isDigit then
      let digit := digitValue (← deref pattern it)
      readWidthAt fuel ((width*10+digit) % 2^64) (← increment pattern it)
    else return (width,it)

def readTruncateAt (it : ℕ) : Except CursorFault (Bool × ℕ) := do
  if it = pattern.length then return (false,it)
  else if (← deref pattern it) = '!' then return (true,← increment pattern it)
  else return (false,it)

def handlePadspecAt (it : ℕ) : Except CursorFault (PaddingInfo × ℕ) := do
  if it = pattern.length then return ({},it)
  else
    let (side,it) ← readSideAt pattern it
    if it = pattern.length then return ({},it)
    else if !(← deref pattern it).isDigit then return ({},it)
    else
      let width := digitValue (← deref pattern it)
      let (width,it) ← readWidthAt pattern (pattern.length+1) width (← increment pattern it)
      let (truncate,it) ← readTruncateAt pattern it
      return (.of (min width maxWidth) side truncate,it)

variable {κ : Type} (ops : CustomOps κ) (handlers : Char → Option κ)

/-- The loop of `compilePattern`. -/
def compileLoopAt : ℕ → ℕ → Option (List Char) → List (FlagFormatter κ) →
    Except CursorFault (List (FlagFormatter κ))
  | 0, _, _, _ => .error .unfinished
  | fuel+1, it, userChars, formatters => do
    if it = pattern.length then return pushUserChars userChars formatters
    else if (← deref pattern it) = '%' then
      let formatters := pushUserChars userChars formatters
      let (padding,it) ← handlePadspecAt pattern (← increment pattern it)
      if it = pattern.length then return formatters
      else
        let flag ← deref pattern it
        let formatters := formatters ++ [handleFlag ops handlers (padderOf padding) flag padding]
        compileLoopAt fuel (← increment pattern it) none formatters
    else
      let c ← deref pattern it
      compileLoopAt fuel (← increment pattern it) (some (userChars.getD [] ++ [c])) formatters

/-- `compilePattern`: a round for each character is enough, and one to find the end. -/
def compilePatternAt : Except CursorFault (List (FlagFormatter κ)) :=
  compileLoopAt pattern ops handlers (pattern.length+1) 0 none []

end

@[simp] lemma ok_bind {ε β γ : Type} (b : β) (f : β → Except ε γ) :
    (Except.ok b >>= f) = f b := rfl

/-- The iterator stands in front of this text. -/
structure PointsTo (pattern : List Char) (it : ℕ) (rest : List Char) : Prop where
  le_length : it ≤ pattern.length
  drop_eq : pattern.drop it = rest

namespace PointsTo
variable {pattern : List Char} {it : ℕ} {c : Char} {rest : List Char}

lemma eq_end_iff (h : PointsTo pattern it rest) : it = pattern.length ↔ rest = [] := by
  rw [← h.drop_eq, List.drop_eq_nil_iff]
  exact ⟨fun he => he.ge,fun hle => le_antisymm h.le_length hle⟩

lemma ne_end (h : PointsTo pattern it (c::rest)) : it ≠ pattern.length := by
  intro he
  cases h.eq_end_iff.mp he

lemma deref_eq (h : PointsTo pattern it (c::rest)) : deref pattern it = .ok c := by
  have hget : pattern[it]? = some c := by
    rw [← List.head?_drop, h.drop_eq]
    rfl
  rw [deref, hget]

lemma increment_eq (h : PointsTo pattern it (c::rest)) : increment pattern it = .ok (it+1) :=
  if_pos (lt_of_le_of_ne h.le_length h.ne_end)

lemma next (h : PointsTo pattern it (c::rest)) : PointsTo pattern (it+1) rest where
  le_length := lt_of_le_of_ne h.le_length h.ne_end
  drop_eq := by
    rw [← List.drop_drop, h.drop_eq]
    rfl

lemma length_le (h : PointsTo pattern it rest) : rest.length ≤ pattern.length := by
  rw [← h.drop_eq, List.length_drop]
  exact Nat.sub_le _ _

lemma readSideAt (h : PointsTo pattern it (c::rest)) :
    ∃ it', Astlog.readSideAt pattern it = .ok ((readSide (c::rest)).1,it') ∧
      PointsTo pattern it' (readSide (c::rest)).2 := by
  unfold Astlog.readSideAt
  rw [h.deref_eq, ok_bind]
  by_cases hside : ∃ side : PadSide, c = side.char
  · obtain ⟨side,rfl⟩ := hside
    rw [readSide_char]
    refine ⟨it+1,?_,h.next⟩
    cases side <;> rw [h.increment_eq] <;> rfl
  · rw [readSide_of_ne (fun side hc => hside ⟨side,hc⟩)]
    refine ⟨it,?_,h⟩
    split
    · exact absurd ⟨.left,rfl⟩ hside
    · exact absurd ⟨.center,rfl⟩ hside
    · exact absurd ⟨.right,rfl⟩ hside
    · rfl

lemma readWidthAt (h : PointsTo pattern it rest) {fuel : ℕ} (hfuel : rest.length < fuel)
    (width : ℕ) : ∃ it', Astlog.readWidthAt pattern fuel width it =
        .ok ((readWidth width rest).1,it') ∧ PointsTo pattern it' (readWidth width rest).2 := by
  induction fuel generalizing it rest width with
  | zero => omega
  | succ fuel ih =>
    unfold Astlog.readWidthAt
    cases rest with
    | nil =>
      rw [if_pos (h.eq_end_iff.mpr rfl)]
      exact ⟨it,rfl,h⟩
    | cons c rest =>
      rw [if_neg h.ne_end, h.deref_eq, ok_bind, readWidth]
      by_cases hc : c.isDigit
      · rw [if_pos hc, if_pos hc, h.increment_eq]
        exact ih h.next (by simpa using hfuel) _
      · rw [if_neg hc, if_neg hc]
        exact ⟨it,rfl,h⟩

lemma readTruncateAt (h : PointsTo pattern it rest) :
    ∃ it', Astlog.readTruncateAt pattern it = .ok ((readTruncate rest).1,it') ∧
      PointsTo pattern it' (readTruncate rest).2 := by
  unfold Astlog.readTruncateAt
  cases rest with
  | nil =>
    rw [if_pos (h.eq_end_iff.mpr rfl)]
    exact ⟨it,rfl,h⟩
  | cons c rest =>
    rw [if_neg h.ne_end, h.deref_eq, ok_bind]
    by_cases hc : c = '!'
    · subst hc
      rw [if_pos rfl, h.increment_eq]
      exact ⟨it+1,rfl,h.next⟩
    · rw [if_neg hc, readTruncate_of_ne (by simpa using hc)]
      exact ⟨it,rfl,h⟩

/-- The shared iterator goes where the text of the spec ends. -/
lemma handlePadspecAt (h : PointsTo pattern it rest) :
    ∃ it', Astlog.handlePadspecAt pattern it = .ok ((handlePadspec rest).1,it') ∧
      PointsTo pattern it' (handlePadspec rest).2 := by
  unfold Astlog.handlePadspecAt handlePadspec
  cases rest with
  | nil =>
    rw [if_pos (h.eq_end_iff.mpr rfl), if_pos rfl]
    exact ⟨it,rfl,h⟩
  | cons c rest =>
    obtain ⟨it₁,hside,h₁⟩ := h.readSideAt
    rw [if_neg h.ne_end, if_neg (List.cons_ne_nil c rest), hside, ok_bind]
    rcases hs : readSide (c::rest) with ⟨side,_ | ⟨d,rest₁⟩⟩
    · rw [hs] at h₁
      simp only
      rw [if_pos (h₁.eq_end_iff.mpr rfl)]
      exact ⟨it₁,rfl,h₁⟩
    · rw [hs] at h₁
      simp only
      rw [if_neg h₁.ne_end, h₁.deref_eq, ok_bind]
      by_cases hd : d.isDigit
      · have hlength := h₁.next.length_le
        obtain ⟨it₂,hwidth,h₂⟩ := h₁.next.readWidthAt (Nat.lt_succ_of_le hlength) (digitValue d)
        obtain ⟨it₃,htruncate,h₃⟩ := h₂.readTruncateAt
        rw [if_neg (by simp [hd]), if_pos hd, ok_bind, h₁.increment_eq, ok_bind, hwidth, ok_bind]
        simp only
        rw [htruncate]
        exact ⟨it₃,rfl,h₃⟩
      · rw [if_pos (by simp [hd]), if_neg hd]
        exact ⟨it₁,rfl,h₁⟩

variable {κ : Type} (ops : CustomOps κ) (handlers : Char → Option κ)

/-- From an iterator on, the loop pushes what the items of the text in front of it
translate to. -/
lemma compileLoopAt (h : PointsTo pattern it rest) {fuel : ℕ} (hfuel : rest.length < fuel)
    (userChars : Option (List Char)) (formatters : List (FlagFormatter κ)) :
    Astlog.compileLoopAt pattern ops handlers fuel it userChars formatters =
      .ok (formatters ++ (itemsFrom userChars rest).map (PatternItem.formatter ops handlers)) := by
  induction fuel generalizing it rest userChars formatters with
  | zero => omega
  | succ fuel ih =>
    unfold Astlog.compileLoopAt
    cases rest with
    | nil =>
      rw [if_pos (h.eq_end_iff.mpr rfl), pushUserChars_eq ops handlers]
      rfl
    | cons c rest =>
      rw [if_neg h.ne_end, h.deref_eq, ok_bind, h.increment_eq]
      by_cases hc : c = '%'
      · subst hc
        obtain ⟨it₁,hspec,h₁⟩ := h.next.handlePadspecAt
        have hlength := handlePadspec_length rest
        rw [if_pos rfl, ok_bind, hspec, ok_bind, itemsFrom_percent, pushUserChars_eq ops handlers]
        rcases hs : handlePadspec rest with ⟨padding,_ | ⟨flag,rest₁⟩⟩
        · rw [hs] at h₁
          simp only
          rw [if_pos (h₁.eq_end_iff.mpr rfl), List.append_nil]
          rfl
        · rw [hs] at h₁ hlength
          simp only [List.length_cons] at hlength hfuel
          simp only
          rw [if_neg h₁.ne_end, h₁.deref_eq, ok_bind, h₁.increment_eq, ok_bind,
            ih h₁.next (by omega)]
          simp [PatternItem.formatter]
      · rw [if_neg hc, ok_bind, ok_bind, ih h.next (by simpa using hfuel), itemsFrom_char _ hc]

end PointsTo

section
variable {κ : Type} (ops : CustomOps κ) (handlers : Char → Option κ)

/-- No iterator is misused, the loops end, and the list is the one compiled from the text. -/
lemma compilePatternAt_eq (pattern : List Char) :
    compilePatternAt pattern ops handlers = .ok (compilePattern ops handlers pattern) := by
  have hstart : PointsTo pattern 0 pattern := ⟨Nat.zero_le _,rfl⟩
  rw [compilePatternAt, hstart.compileLoopAt ops handlers (Nat.lt_succ_self _), compilePattern_eq]
  rfl

/-- Every pattern is cut into slices that cover it, and compiles to what they stand for. -/
theorem compilePatternAt_slices (pattern : List Char) : ∃ slices, Greedy slices ∧
    sliceText slices = pattern ∧
    compilePatternAt pattern ops handlers =
      .ok (slices.filterMap (Slice.formatter ops handlers)) := by
  obtain ⟨slices,hgreedy,htext,hitems⟩ := exists_slices pattern
  refine ⟨slices,hgreedy,htext,?_⟩
  rw [compilePatternAt_eq, compilePattern_eq, hitems, List.map_filterMap]
  congr 2
  funext s
  exact (s.formatter_eq ops handlers).symm

end
end Astlog
