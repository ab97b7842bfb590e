import Astlog.Pattern.Print

/-! A pattern text cut into runs of literal characters and specs. -/
namespace Astlog

/-- A part of a pattern text. Only the end of the text can take a spec's flag away. -/
inductive Slice
  | literal (text : List Char)
  | spec (pad : PadText) (flag : Option Char)

namespace Slice

def text : Slice → List Char
  | literal t => t
  | spec pad flag => '%'::(pad.write ++ flag.toList)

def item : Slice → Option PatternItem
  | literal t => some (.literal t)
  | spec pad (some flag) => some (.field pad.padding flag)
  | spec _ none => none

/-- What a slice compiles to. -/
def formatter {κ : Type} (ops : CustomOps κ) (handlers : Char → Option κ) :
    Slice → Option (FlagFormatter κ)
  | literal t => some (.str .nullScopedPadder {} t)
  | spec pad (some flag) => some (handleFlag ops handlers (padderOf pad.padding) flag pad.padding)
  | spec _ none => none

theorem formatter_eq {κ : Type} (ops : CustomOps κ) (handlers : Char → Option κ) (s : Slice) :
    s.formatter ops handlers = s.item.map (PatternItem.formatter ops handlers) := by
  cases s with
  | literal t => rfl
  | spec pad flag => cases flag <;> rfl

end Slice

/-- The slices one after another. -/
def sliceText (slices : List Slice) : List Char := slices.flatMap Slice.text

/-- Every literal is a maximal run, every spec goes as far as it can, and only the last one
may lack its flag. -/
def Greedy : List Slice → Prop
  | [] => True
  | .literal t::slices => t ≠ [] ∧ '%' ∉ t ∧ AtField (sliceText slices) ∧ Greedy slices
  | .spec pad (some flag)::slices => pad.Stops flag ∧ Greedy slices
  | .spec _ none::slices => slices = []

/-- A text begins with a run of characters of a kind, and then with none of it. -/
lemma exists_run (p : Char → Bool) (it : List Char) : ∃ text rest, it = text ++ rest ∧
    (∀ c ∈ text, p c = true) ∧ ∀ c ∈ rest.head?, p c = false := by
  refine ⟨it.takeWhile p,it.dropWhile p,List.takeWhile_append_dropWhile.symm,
    List.all_eq_true.mp List.all_takeWhile,?_⟩
  intro c hc
  have hnot := List.head?_dropWhile_not p it
  rw [hc] at hnot
  exact hnot

lemma exists_side (it : List Char) : ∃ (side : Option PadSide) (rest : List Char),
    it = side.toList.map PadSide.char ++ rest ∧
      (side = none → ∀ c ∈ rest.head?, ∀ side : PadSide, c ≠ side.char) := by
  by_cases h : ∃ (side : PadSide) (rest : List Char), it = side.char::rest
  · obtain ⟨side,rest,rfl⟩ := h
    exact ⟨some side,rest,rfl,fun hnone => by cases hnone⟩
  · refine ⟨none,it,rfl,?_⟩
    rintro - c hc side rfl
    obtain ⟨rest,rfl⟩ := List.head?_eq_some_iff.mp hc
    exact h ⟨side,rest,rfl⟩

/-- Every text begins with a spec that goes as far as it can. -/
theorem PadText.exists_write (it : List Char) :
    ∃ (s : PadText) (rest : List Char), it = s.write ++ rest ∧ ∀ c ∈ rest.head?, s.Stops c := by
  obtain ⟨side,it,rfl,hside⟩ := exists_side it
  obtain ⟨digits,rest,rfl,hdigits,hrest⟩ := exists_run Char.isDigit it
  by_cases hbang : digits ≠ [] ∧ ∃ rest', rest = '!'::rest'
  · obtain ⟨hne,rest',rfl⟩ := hbang
    refine ⟨⟨side,digits,true,hdigits,fun h => absurd h hne⟩,rest',by simp [write],?_⟩
    exact fun c hc => ⟨fun _ h => absurd h hne,fun h => absurd h (by simp),
      fun _ h => absurd h (by simp)⟩
  · refine ⟨⟨side,digits,false,hdigits,fun _ => rfl⟩,rest,by simp [write],?_⟩
    refine fun c hc => ⟨?_,fun _ => hrest c hc,?_⟩
    · rintro hnone rfl
      exact hside hnone c hc
    · rintro hne - rfl
      exact hbang ⟨hne,List.head?_eq_some_iff.mp hc⟩

/-- A text that does not begin with a spec begins with a maximal run of literal characters. -/
theorem exists_literal {c : Char} (hc : c ≠ '%') (it : List Char) :
    ∃ text rest, c::it = text ++ rest ∧ text ≠ [] ∧ '%' ∉ text ∧ AtField rest := by
  obtain ⟨text,rest,hsplit,htext,hrest⟩ := exists_run (· != '%') (c::it)
  refine ⟨text,rest,hsplit,?_,fun hm => by simpa using htext '%' hm,?_⟩
  · rintro rfl
    rw [List.nil_append] at hsplit
    have hbad := hrest c (by rw [← hsplit]; rfl)
    exact hc (by simpa using hbad)
  · cases rest with
    | nil => exact Or.inl rfl
    | cons d rest =>
      have hd : d = '%' := by simpa using hrest d rfl
      exact Or.inr ⟨rest,by rw [hd]⟩

/-- Every text has its slices, and they are what the items are read from. -/
theorem exists_slices (pattern : List Char) : ∃ slices, Greedy slices ∧
    sliceText slices = pattern ∧ itemsOf pattern = slices.filterMap Slice.item := by
  induction hn : pattern.length using Nat.strong_induction_on generalizing pattern with
  | _ n ih =>
    subst hn
    cases pattern with
    | nil => exact ⟨[],trivial,rfl,rfl⟩
    | cons c it =>
      by_cases hc : c = '%'
      · subst hc
        obtain ⟨s,rest,rfl,hstops⟩ := PadText.exists_write it
        have hitems := itemsFrom_percent none (s.write ++ rest)
        rw [PadText.handlePadspec_write hstops] at hitems
        cases rest with
        | nil => exact ⟨[.spec s none],rfl,by simp [sliceText, Slice.text],hitems⟩
        | cons flag rest =>
          obtain ⟨slices,hgreedy,rfl,hrest⟩ := ih rest.length (by simp; omega) rest rfl
          refine ⟨.spec s (some flag)::slices,⟨hstops flag rfl,hgreedy⟩,
            by simp [sliceText, Slice.text],?_⟩
          exact hitems.trans (congrArg (PatternItem.field s.padding flag::·) hrest)
      · obtain ⟨text,rest,hsplit,hne,hpercent,hat⟩ := exists_literal hc it
        have hlen : rest.length < (c::it).length := by
          have hpos := List.length_pos_iff.mpr hne
          rw [hsplit, List.length_append]
          omega
        obtain ⟨slices,hgreedy,rfl,hitems⟩ := ih rest.length hlen rest rfl
        refine ⟨.literal text::slices,⟨hne,hpercent,hat,hgreedy⟩,hsplit.symm,?_⟩
        rw [hsplit, itemsOf, itemsFrom_text none text _ hpercent hne, itemsFrom_atField _ hat]
        exact congrArg (PatternItem.literal text::·) hitems

end Astlog
