import Astlog.Pattern.PadSpec

/-! Printing a list of items as a pattern and compiling it back. -/
namespace Astlog

/-- The built-in flags. -/
inductive Flag
  | n | l | t | v | m | e | d | caret | dollar | s
  deriving DecidableEq, Repr

namespace Flag

def char : Flag → Char
  | n => 'n'
  | l => 'l'
  | t => 't'
  | v => 'v'
  | m => 'm'
  | e => 'e'
  | d => 'd'
  | caret => '^'
  | dollar => '$'
  | s => 's'

/-- The formatter class of a flag. -/
def formatter {κ : Type} (k : Padder) (padding : PaddingInfo) : Flag → FlagFormatter κ
  | n => .name k padding
  | l => .level k padding
  | t => .threadId k padding
  | v => .msg k padding
  | m => .milliseconds k padding
  | e => .timeElapsed k padding defaultUnit
  | d => .time k padding defaultTimeFormat
  | caret => .colorStart padding
  | dollar => .colorStop padding
  | s => .location k padding defaultMode

end Flag

/-- A pad spec as written: optional side, width at most 64, optional `!`. -/
structure FieldSpec where
  side : Option PadSide
  width : Fin (maxWidth+1)
  truncate : Bool
  deriving DecidableEq

/-- Literal text that can stand in a pattern. -/
structure LiteralText where
  text : List Char
  nonempty : text ≠ []
  no_percent : '%' ∉ text
  deriving DecidableEq

inductive LayoutItem
  | literal (t : LiteralText)
  | field (flag : Flag) (spec : Option FieldSpec)
  deriving DecidableEq

def FieldSpec.print (s : FieldSpec) : List Char :=
  s.side.toList.map PadSide.char ++ (toDecimal s.width ++ if s.truncate then ['!'] else [])

/-- The padding a spec stands for. -/
def FieldSpec.padding (s : FieldSpec) : PaddingInfo :=
  .of s.width (s.side.getD .center) s.truncate

namespace LayoutItem

def print : LayoutItem → List Char
  | literal t => t.text
  | field flag none => ['%',flag.char]
  | field flag (some s) => '%' :: (s.print ++ [flag.char])

/-- The formatter the item stands for. -/
def formatter {κ : Type} : LayoutItem → FlagFormatter κ
  | literal t => .str .nullScopedPadder {} t.text
  | field flag none => flag.formatter .nullScopedPadder {}
  | field flag (some s) => flag.formatter .scopedPadder s.padding

def isLiteral : LayoutItem → Bool
  | literal _ => true
  | field _ _ => false

/-- A colour-range field with no pad spec, printed `%^`. -/
def bareCaret : LayoutItem := field .caret none

def item : LayoutItem → PatternItem
  | literal t => .literal t.text
  | field flag none => .field {} flag.char
  | field flag (some s) => .field s.padding flag.char

end LayoutItem

/-- Two literals never stand next to each other. -/
def Separated (items : List LayoutItem) : Prop :=
  items.IsChain fun a b => ¬(a.isLiteral ∧ b.isLiteral)

/-- A list of items that a pattern can spell. -/
structure Layout where
  items : List LayoutItem
  separated : Separated items

def printItems (items : List LayoutItem) : List Char := items.flatMap LayoutItem.print

def Layout.print (l : Layout) : List Char := printItems l.items

@[simp] theorem printItems_nil : printItems [] = [] := rfl

@[simp] lemma printItems_cons (i : LayoutItem) (is : List LayoutItem) :
    printItems (i::is) = i.print ++ printItems is := rfl

@[simp] lemma printItems_append (is js : List LayoutItem) :
    printItems (is ++ js) = printItems is ++ printItems js := List.flatMap_append

lemma Separated.tail {i : LayoutItem} {is : List LayoutItem} (h : Separated (i::is)) :
    Separated is := List.IsChain.of_cons h

/-- The formatters of the items are those their pattern items translate to. -/
lemma formatter_item {κ : Type} (ops : CustomOps κ) (i : LayoutItem) :
    i.item.formatter ops (fun _ => none) = i.formatter := by
  cases i with
  | literal t => rfl
  | field flag spec =>
    cases spec with
    | none => cases flag <;> rfl
    | some s => cases flag <;> rfl

lemma Flag.char_not_digit (f : Flag) : f.char.isDigit = false := by cases f <;> rfl

lemma Flag.char_ne_bang (f : Flag) : f.char ≠ '!' := by cases f <;> decide

/-- The characters of a spec. -/
def FieldSpec.padText (s : FieldSpec) : PadText where
  side := s.side
  digits := toDecimal s.width
  truncate := s.truncate
  all_digits _ hc := Nat.isDigit_of_mem_toDigits (by norm_num) le_rfl hc
  truncate_after h := absurd h Nat.toDigits_ne_nil

lemma FieldSpec.padding_padText (s : FieldSpec) : s.padText.padding = s.padding := by
  have hle : s.width.val ≤ maxWidth := Nat.lt_succ_iff.mp s.width.isLt
  have hvalue : s.padText.value = s.width.val := Nat.ofDigitChars_ten_toDigits
  have hlt : s.width.val < 2^64 := hle.trans_lt (by decide)
  have hdigits : s.padText.digits ≠ [] := Nat.toDigits_ne_nil
  rw [PadText.padding, if_neg hdigits, hvalue, Nat.mod_eq_of_lt hlt, Nat.min_eq_left hle]
  rfl

/-- A flag after digits ends the spec. -/
lemma FieldSpec.stops (s : FieldSpec) (f : Flag) : s.padText.Stops f.char where
  no_side _ h := absurd h Nat.toDigits_ne_nil
  no_digit _ := f.char_not_digit
  no_bang _ _ := f.char_ne_bang

/-- A spec is read back as the padding it stands for. -/
lemma handlePadspec_print (s : FieldSpec) (f : Flag) (it : List Char) :
    handlePadspec (s.print ++ f.char::it) = (s.padding,f.char::it) := by
  rw [← s.padding_padText]
  exact PadText.handlePadspec_write (s := s.padText) (by rintro c ⟨⟩; exact s.stops f)

/-- Without a spec the flag is read as it stands, unless it is the caret: that is a side. -/
lemma handlePadspec_bare (f : Flag) (hf : f ≠ .caret) (it : List Char) :
    handlePadspec (f.char::it) = ({},f.char::it) := by
  cases f <;> first | rfl | exact (hf rfl).elim

/-- The text ends here, or a field begins. -/
def AtField (it : List Char) : Prop := it = [] ∨ ∃ rest, it = '%'::rest

lemma LayoutItem.print_field_atField (flag : Flag) (spec : Option FieldSpec) (it : List Char) :
    AtField ((LayoutItem.field flag spec).print ++ it) := by
  right
  cases spec with
  | none => exact ⟨_,rfl⟩
  | some s => exact ⟨_,rfl⟩

/-- What follows a literal in a separated list is a field or the end. -/
lemma Separated.atField {t : LiteralText} {is : List LayoutItem}
    (h : Separated (.literal t::is)) {rest : List Char} (hrest : AtField rest) :
    AtField (printItems is ++ rest) := by
  cases is with
  | nil => exact hrest
  | cons i is =>
    cases i with
    | literal u => exact absurd (List.isChain_cons_cons.mp h).1 (by simp [LayoutItem.isLiteral])
    | field flag spec =>
      rw [printItems_cons, List.append_assoc]
      exact LayoutItem.print_field_atField flag spec _

theorem itemsFrom_atField (text : List Char) {it : List Char} (h : AtField it) :
    itemsFrom (some text) it = .literal text :: itemsFrom none it := by
  obtain rfl | ⟨rest,rfl⟩ := h
  · rfl
  · rw [itemsFrom_percent, itemsFrom_percent]
    rfl

lemma itemsFrom_field (flag : Flag) (spec : Option FieldSpec)
    (h : LayoutItem.field flag spec ≠ .bareCaret) (it : List Char) :
    itemsFrom none ((LayoutItem.field flag spec).print ++ it) =
      (LayoutItem.field flag spec).item :: itemsFrom none it := by
  cases spec with
  | none =>
    have hf : flag ≠ .caret := by
      rintro rfl
      exact h rfl
    change itemsFrom none ('%'::(flag.char::it)) = _
    rw [itemsFrom_percent, handlePadspec_bare flag hf]
    rfl
  | some s =>
    have hp : (LayoutItem.field flag (some s)).print ++ it = '%'::(s.print ++ flag.char::it) := by
      simp [LayoutItem.print]
    rw [hp, itemsFrom_percent, handlePadspec_print]
    rfl

/-- Items without a bare caret are read back one by one, whatever field follows them. -/
lemma itemsFrom_print (is : List LayoutItem) (hs : Separated is) (hc : .bareCaret ∉ is)
    {rest : List Char} (hrest : AtField rest) :
    itemsFrom none (printItems is ++ rest) = is.map LayoutItem.item ++ itemsFrom none rest := by
  induction is with
  | nil => rfl
  | cons i is ih =>
    have hnext := ih hs.tail (fun h => hc (List.mem_cons_of_mem _ h))
    rw [printItems_cons, List.append_assoc, List.map_cons, List.cons_append, ← hnext]
    cases i with
    | literal t =>
      rw [LayoutItem.print, itemsFrom_text none t.text _ t.no_percent t.nonempty]
      exact itemsFrom_atField _ (hs.atField hrest)
    | field flag spec => exact itemsFrom_field flag spec (fun h => hc (by simp [← h])) _

section
variable {κ : Type} (ops : CustomOps κ)

lemma handleFlag_eq_colorStart {k : Padder} {flag : Char} {p q : PaddingInfo}
    (h : handleFlag ops (fun _ => none) k flag p = .colorStart q) : flag = '^' ∧ p = q := by
  unfold handleFlag at h
  simp only at h
  split at h <;> simp_all

lemma handleFlag_eq_str {k k' : Padder} {flag : Char} {p q : PaddingInfo} {text : List Char}
    (h : handleFlag ops (fun _ => none) k flag p = .str k' q text) : text = unknownText := by
  unfold handleFlag at h
  simp only at h
  split at h <;> simp_all

/-- Translate without custom handlers. -/
abbrev builtin (item : PatternItem) : FlagFormatter κ := item.formatter ops fun _ => none

/-- The text after a literal `^` that was taken for a flag does not begin with that literal. -/
lemma literal_not_read (u : List Char) (t : LiteralText) (ht : t.text = '^'::u)
    (is : List LayoutItem) (hs : Separated (.literal t::is)) (fs : List (FlagFormatter κ)) :
    (itemsFrom none (u ++ printItems is)).map (builtin ops) ≠
      .str .nullScopedPadder {} t.text :: fs := by
  intro h
  have hf : AtField (printItems is) := by
    have := hs.atField (show AtField [] from .inl rfl)
    rwa [List.append_nil] at this
  by_cases hu : u = []
  · rw [hu, List.nil_append] at h
    obtain he | ⟨rest,he⟩ := hf
    · simp [he] at h
    · rw [he, itemsFrom_percent] at h
      rcases hr : handlePadspec rest with ⟨p,_ | ⟨flag,it⟩⟩
      · simp [hr] at h
      · rw [hr] at h
        have hh := handleFlag_eq_str ops (List.cons.inj h).1
        rw [ht, hu] at hh
        exact absurd hh (by decide)
  · have hp : '%' ∉ u := fun hm => t.no_percent (by simp [ht, hm])
    rw [itemsFrom_text none u _ hp hu, itemsFrom_atField _ hf] at h
    have hh := (List.cons.inj h).1
    simp [PatternItem.formatter, userCharsFormatter, ht] at hh

/-- A bare caret never compiles to its own formatter followed by those of the rest. -/
lemma bareCaret_misread (is : List LayoutItem) (hs : Separated (.bareCaret::is)) :
    (itemsFrom none (LayoutItem.bareCaret.print ++ printItems is)).map (builtin ops) ≠
      .colorStart {} :: is.map LayoutItem.formatter := by
  intro h
  change (itemsFrom none ('%' :: '^' :: printItems is)).map _ = _ at h
  rw [itemsFrom_percent] at h
  cases hp : printItems is with
  | nil =>
    rw [hp] at h
    simp [handlePadspec, readSide] at h
  | cons c r =>
    rw [hp] at h
    by_cases hc : c.isDigit = true
    · -- the digits after the caret make it a side, and the padding is enabled
      simp only [handlePadspec, readSide, hc, reduceCtorEq, if_false, if_true] at h
      rcases hr : readTruncate (readWidth (digitValue c) r).2 with ⟨b,_ | ⟨flag,it⟩⟩
      · simp [hr] at h
      · rw [hr] at h
        have hh := (handleFlag_eq_colorStart ops (List.cons.inj h).1).2
        simp [PaddingInfo.of] at hh
    · -- otherwise the next character is taken for the flag, so it is a literal caret
      simp only [handlePadspec, readSide, hc, reduceCtorEq, if_false] at h
      obtain ⟨hflag,htail⟩ := List.cons.inj h
      obtain ⟨rfl,-⟩ := handleFlag_eq_colorStart ops hflag
      cases is with
      | nil => simp at hp
      | cons i is =>
        cases i with
        | field flag spec => cases spec <;> simp [LayoutItem.print] at hp
        | literal t =>
          cases ht : t.text with
          | nil => exact t.nonempty ht
          | cons d u =>
            rw [printItems_cons, LayoutItem.print, ht, List.cons_append] at hp
            obtain ⟨rfl,rfl⟩ := List.cons.inj hp
            exact literal_not_read ops u t ht is hs.tail _ htail

/-- Compilation undoes printing exactly for the layouts without a bare `%^`. -/
theorem compile_print_iff (layout : Layout) :
    compilePattern ops (fun _ => none) layout.print = layout.items.map LayoutItem.formatter ↔
      .bareCaret ∉ layout.items := by
  have hmap : ∀ is : List LayoutItem,
      (is.map LayoutItem.item).map (builtin ops) = is.map LayoutItem.formatter := by
    intro is
    rw [List.map_map]
    exact List.map_congr_left fun i _ => formatter_item ops i
  rw [compilePattern_eq]
  constructor
  · intro h hmem
    obtain ⟨pre,post,hsplit,hpre⟩ := List.eq_append_cons_of_mem hmem
    have hs := layout.separated
    rw [hsplit] at hs
    have hfield : AtField (LayoutItem.bareCaret.print ++ printItems post) := .inr ⟨_,rfl⟩
    rw [Layout.print, hsplit, printItems_append, printItems_cons, itemsOf,
      itemsFrom_print pre (List.isChain_append.mp hs).1 hpre hfield, List.map_append, hmap,
      List.map_append] at h
    exact bareCaret_misread ops post (List.isChain_append.mp hs).2.1 (List.append_cancel_left h)
  · intro hc
    have hr := itemsFrom_print layout.items layout.separated hc (show AtField [] from .inl rfl)
    rw [List.append_nil, itemsFrom_nil, Option.toList_none, List.map_nil, List.append_nil] at hr
    rw [itemsOf, Layout.print, hr, hmap]

end

/-- `%^` alone: the colour-range start, printed without a pad spec. -/
def caretLayout : Layout := ⟨[.bareCaret],List.isChain_singleton _⟩

/-- The caret is taken for a side and nothing is compiled. -/
theorem caretLayout_misread :
    ¬∀ layout : Layout, compilePattern noCustom (fun _ => none) layout.print =
      layout.items.map LayoutItem.formatter := by
  intro h
  have hc := h caretLayout
  revert hc
  decide

end Astlog
