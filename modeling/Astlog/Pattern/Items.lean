import Astlog.Pattern.Compile

/-! The items a pattern text consists of, as the pattern language sees them: literal
text and fields. Compilation is the item-by-item translation of this list. -/
namespace Astlog

inductive PatternItem
  | literal (text : List Char)
  | field (padding : PaddingInfo) (flag : Char)
  deriving DecidableEq, Repr

/-- The items of the text from an iterator on, with the literal text read so far. -/
def itemsLoop : ℕ → List Char → Option (List Char) → List PatternItem
  | 0, _, pending => pending.toList.map .literal
  | _+1, [], pending => pending.toList.map .literal
  | fuel+1, c::it, pending =>
    if c = '%' then
      pending.toList.map .literal ++
        match handlePadspec it with
        | (_,[]) => []
        | (padding,flag::it) => .field padding flag :: itemsLoop fuel it none
    else itemsLoop fuel it (some (pending.getD [] ++ [c]))

def itemsFrom (pending : Option (List Char)) (it : List Char) : List PatternItem :=
  itemsLoop it.length it pending

def itemsOf (pattern : List Char) : List PatternItem := itemsFrom none pattern

/-- The formatter an item compiles to. -/
def PatternItem.formatter {κ : Type} (ops : CustomOps κ) (handlers : Char → Option κ) :
    PatternItem → FlagFormatter κ
  | literal text => userCharsFormatter text
  | field padding flag => handleFlag ops handlers (padderOf padding) flag padding

/-- The flags a pattern asks for. -/
def flagsOf (pattern : List Char) : List Char :=
  (itemsOf pattern).filterMap fun
    | .literal _ => none
    | .field _ flag => some flag

lemma readWidth_length (w : ℕ) (it : List Char) : (readWidth w it).2.length ≤ it.length := by
  induction it generalizing w with
  | nil => exact le_rfl
  | cons c it ih =>
    rw [readWidth]
    split
    · exact (ih _).trans (Nat.le_succ _)
    · exact le_rfl

lemma readSide_length (it : List Char) : (readSide it).2.length ≤ it.length := by
  unfold readSide
  split <;> simp

lemma readTruncate_length (it : List Char) : (readTruncate it).2.length ≤ it.length := by
  unfold readTruncate
  split <;> simp

/-- The iterator never moves back, so the text that remains gets no longer. -/
theorem handlePadspec_length (it : List Char) : (handlePadspec it).2.length ≤ it.length := by
  have hs := readSide_length it
  unfold handlePadspec
  split_ifs
  · exact le_rfl
  · rcases hr : readSide it with ⟨side,_ | ⟨c,rest⟩⟩
    · exact Nat.zero_le _
    · rw [hr, List.length_cons] at hs
      by_cases hc : c.isDigit
      · have hw := readWidth_length (digitValue c) rest
        have ht := readTruncate_length (readWidth (digitValue c) rest).2
        simp only [hc, if_true]
        omega
      · simpa [hc] using hs

/-- No pad spec asks for more than the padder has blanks. -/
lemma handlePadspec_width (it : List Char) : (handlePadspec it).1.mWidth ≤ maxWidth := by
  unfold handlePadspec
  split_ifs
  · exact Nat.zero_le _
  · split
    · exact Nat.zero_le _
    · split_ifs
      · exact Nat.min_le_right _ _
      · exact Nat.zero_le _

theorem width_of_mem_itemsLoop {fuel : ℕ} {it : List Char} {pending : Option (List Char)}
    {padding : PaddingInfo} {flag : Char} (h : .field padding flag ∈ itemsLoop fuel it pending) :
    padding.mWidth ≤ maxWidth := by
  have hpending : .field padding flag ∉ pending.toList.map PatternItem.literal := by simp
  induction fuel generalizing it pending with
  | zero => exact absurd h hpending
  | succ fuel ih =>
    cases it with
    | nil => exact absurd h hpending
    | cons c it =>
      rw [itemsLoop] at h
      split at h
      · have hwidth := handlePadspec_width it
        obtain hlit | hfield := List.mem_append.mp h
        · exact absurd hlit hpending
        · split at hfield
          · cases hfield
          · next hspec =>
            rw [hspec] at hwidth
            obtain heq | hrest := List.mem_cons.mp hfield
            · cases heq
              exact hwidth
            · exact ih hrest (by simp)
      · exact ih h (by simp)

/-- Any fuel from the length of the text on gives the same items. -/
lemma itemsLoop_fuel (fuel : ℕ) (it : List Char) (pending : Option (List Char))
    (h : it.length ≤ fuel) : itemsLoop fuel it pending = itemsFrom pending it := by
  induction hn : it.length using Nat.strong_induction_on generalizing fuel it pending with
  | _ n ih =>
    cases it with
    | nil => cases fuel <;> rfl
    | cons c it =>
      obtain ⟨k,rfl⟩ : ∃ k, fuel = k+1 := ⟨fuel-1,by simp only [List.length_cons] at h; omega⟩
      simp only [List.length_cons] at h hn
      have hp := handlePadspec_length it
      rw [itemsFrom, List.length_cons, itemsLoop, itemsLoop]
      split
      · rcases hs : handlePadspec it with ⟨padding,_ | ⟨flag,rest⟩⟩
        · rfl
        · rw [hs, List.length_cons] at hp
          simp only [ih rest.length (by omega) k rest none (by omega) rfl,
            ih rest.length (by omega) it.length rest none (by omega) rfl]
      · rw [ih it.length (by omega) k it _ (by omega) rfl]
        rfl

@[simp] theorem itemsFrom_nil (pending : Option (List Char)) :
    itemsFrom pending [] = pending.toList.map .literal := rfl

theorem itemsFrom_char (pending : Option (List Char)) {c : Char} (hc : c ≠ '%') (it : List Char) :
    itemsFrom pending (c::it) = itemsFrom (some (pending.getD [] ++ [c])) it := by
  rw [itemsFrom, List.length_cons, itemsLoop, if_neg hc, itemsLoop_fuel _ _ _ le_rfl]

theorem itemsFrom_percent (pending : Option (List Char)) (it : List Char) :
    itemsFrom pending ('%'::it) = pending.toList.map .literal ++
      match handlePadspec it with
      | (_,[]) => []
      | (padding,flag::it) => .field padding flag :: itemsFrom none it := by
  have hp := handlePadspec_length it
  rw [itemsFrom, List.length_cons, itemsLoop, if_pos rfl]
  rcases hs : handlePadspec it with ⟨padding,_ | ⟨flag,rest⟩⟩
  · rfl
  · rw [hs, List.length_cons] at hp
    simp only [itemsLoop_fuel _ rest none (show rest.length ≤ it.length by omega)]

/-- A run of literal characters joins the pending text. -/
theorem itemsFrom_text (pending : Option (List Char)) (text it : List Char) (ht : '%' ∉ text)
    (hne : text ≠ []) :
    itemsFrom pending (text ++ it) = itemsFrom (some (pending.getD [] ++ text)) it := by
  induction text generalizing pending with
  | nil => exact (hne rfl).elim
  | cons c text ih =>
    have hc : c ≠ '%' := fun h => ht (by simp [h])
    rw [List.cons_append, itemsFrom_char _ hc]
    by_cases h : text = []
    · simp [h]
    · rw [ih _ (fun hm => ht (List.mem_cons_of_mem _ hm)) h]
      simp

section
variable {κ : Type} (ops : CustomOps κ) (handlers : Char → Option κ)

theorem pushUserChars_eq (pending : Option (List Char)) (fs : List (FlagFormatter κ)) :
    pushUserChars pending fs =
      fs ++ (pending.toList.map .literal).map (PatternItem.formatter ops handlers) := by
  cases pending <;> simp [pushUserChars, PatternItem.formatter]

lemma compileLoop_eq (fuel : ℕ) (it : List Char) (pending : Option (List Char))
    (fs : List (FlagFormatter κ)) :
    compileLoop ops handlers fuel it pending fs =
      fs ++ (itemsLoop fuel it pending).map (PatternItem.formatter ops handlers) := by
  induction fuel generalizing it pending fs with
  | zero => exact pushUserChars_eq ops handlers pending fs
  | succ fuel ih =>
    cases it with
    | nil => exact pushUserChars_eq ops handlers pending fs
    | cons c it =>
      rw [compileLoop, itemsLoop]
      split
      · rw [pushUserChars_eq ops handlers]
        rcases handlePadspec it with ⟨padding,_ | ⟨flag,rest⟩⟩
        · simp
        · simp [ih, PatternItem.formatter]
      · exact ih _ _ _

/-- Compiling a pattern translates its items in order. -/
theorem compilePattern_eq (pattern : List Char) :
    compilePattern ops handlers pattern =
      (itemsOf pattern).map (PatternItem.formatter ops handlers) := by
  rw [compilePattern, compileLoop_eq, List.nil_append]
  rfl

end
end Astlog
