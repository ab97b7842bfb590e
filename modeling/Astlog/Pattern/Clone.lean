import Astlog.Pattern.Items

/-! What `clone` keeps of a formatter's history. The clone is compiled from the pattern
of the constructor and the handlers of the moment; the original prints what it last
compiled. -/
namespace Astlog

/-- The calls that change a pattern formatter. -/
inductive FormatterOp (κ : Type)
  | addFlag (flag : Char) (handler : κ)
  | setPattern (pattern : List Char)
  deriving DecidableEq

variable {κ : Type} (ops : CustomOps κ)

namespace PatternFormatter

def apply (p : PatternFormatter κ) : FormatterOp κ → PatternFormatter κ
  | .addFlag flag handler => p.addFlag flag handler
  | .setPattern pattern => p.setPattern ops pattern

def applyAll (p : PatternFormatter κ) (history : List (FormatterOp κ)) : PatternFormatter κ :=
  history.foldl (apply ops) p

/-- The clone appends the same bytes to every buffer. -/
def CloneAppendsSame (p : PatternFormatter κ) : Prop :=
  ∀ env st, ((p.clone ops).format ops env st).dest.view = (p.format ops env st).dest.view

end PatternFormatter

/-- After this call the compiled list is what the formatter's own pattern compiles to:
`setPattern` must install a pattern of the same items, and `add_flag` must neither follow
a foreign pattern nor name a flag of the own one. -/
def keepsOwn (own : List Char) (current : Bool) : FormatterOp κ → Bool
  | .addFlag flag _ => current && decide (flag ∉ flagsOf own)
  | .setPattern pattern => decide (itemsOf pattern = itemsOf own)

def ownPatternCompiled (own : List Char) (history : List (FormatterOp κ)) : Bool :=
  history.foldl (keepsOwn own) true

lemma mem_flagsOf {pattern : List Char} {padding : PaddingInfo} {flag : Char}
    (h : .field padding flag ∈ itemsOf pattern) : flag ∈ flagsOf pattern :=
  List.mem_filterMap.mpr ⟨_,h,rfl⟩

/-- A handler for a flag the pattern does not use changes nothing. -/
lemma compilePattern_update (handlers : Char → Option κ) {pattern : List Char} {flag : Char}
    (h : flag ∉ flagsOf pattern) (handler : κ) :
    compilePattern ops (Function.update handlers flag (some handler)) pattern =
      compilePattern ops handlers pattern := by
  rw [compilePattern_eq, compilePattern_eq]
  apply List.map_congr_left
  intro item hitem
  cases item with
  | literal text => rfl
  | field padding f =>
    have hne : f ≠ flag := fun he => h (he ▸ mem_flagsOf hitem)
    simp only [PatternItem.formatter, handleFlag, Function.update_of_ne hne]

lemma compilePattern_congr (handlers : Char → Option κ) {p q : List Char}
    (h : itemsOf p = itemsOf q) : compilePattern ops handlers p = compilePattern ops handlers q := by
  rw [compilePattern_eq, compilePattern_eq, h]

/-- The compiled list of a formatter is the compilation of its own pattern. -/
def CompiledOwn (p : PatternFormatter κ) : Prop :=
  p.mFormatters = compilePattern ops p.mCustomHandlers p.mPattern

lemma apply_mPattern (p : PatternFormatter κ) (op : FormatterOp κ) :
    (p.apply ops op).mPattern = p.mPattern := by cases op <;> rfl

/-- One call keeps the list compiled from the own pattern when the condition says so. -/
lemma apply_compiledOwn (p : PatternFormatter κ) (op : FormatterOp κ) {current : Bool}
    (hp : current = true → CompiledOwn ops p) (h : keepsOwn p.mPattern current op = true) :
    CompiledOwn ops (p.apply ops op) := by
  cases op with
  | addFlag flag handler =>
    simp only [keepsOwn, Bool.and_eq_true, decide_eq_true_eq] at h
    have hc := hp h.1
    change p.mFormatters = compilePattern ops (Function.update p.mCustomHandlers flag _) p.mPattern
    rw [compilePattern_update ops _ h.2]
    exact hc
  | setPattern pattern =>
    simp only [keepsOwn, decide_eq_true_eq] at h
    exact compilePattern_congr ops _ h

lemma applyAll_compiledOwn (p : PatternFormatter κ) (history : List (FormatterOp κ))
    (current : Bool) (hp : current = true → CompiledOwn ops p)
    (h : history.foldl (keepsOwn p.mPattern) current = true) :
    CompiledOwn ops (p.applyAll ops history) ∧ (p.applyAll ops history).mPattern = p.mPattern := by
  induction history generalizing p current with
  | nil => exact ⟨hp h,rfl⟩
  | cons op history ih =>
    rw [List.foldl_cons, ← apply_mPattern ops p op] at h
    have hk : keepsOwn (p.apply ops op).mPattern current op = true →
        CompiledOwn ops (p.apply ops op) := by
      rw [apply_mPattern]
      exact apply_compiledOwn ops p op hp
    obtain ⟨hc,hm⟩ := ih _ _ hk h
    exact ⟨hc,hm.trans (apply_mPattern ops p op)⟩

lemma construct_mPattern_ne (pattern : List Char) (handlers : Char → Option κ) :
    (PatternFormatter.construct ops pattern handlers).mPattern ≠ [] := by
  change (if pattern = [] then "  ".toList else pattern) ≠ []
  split_ifs with h
  · decide
  · exact h

section
variable (hclone : ∀ env h padInfo st, ops.format env (ops.clone h) padInfo st =
  ops.format env h padInfo st)
include hclone

/-- Cloned handlers compile to formatters that act the same. -/
lemma format_cloned (handlers : Char → Option κ) (item : PatternItem) (env : FormatEnv)
    (st : FormatState) :
    (item.formatter ops fun f => (handlers f).map ops.clone).format ops env st =
      (item.formatter ops handlers).format ops env st := by
  cases item with
  | literal text => rfl
  | field padding flag =>
    cases h : handlers flag with
    | none => simp only [PatternItem.formatter, handleFlag, h, Option.map_none]
    | some handler =>
      simp only [PatternItem.formatter, handleFlag, h, Option.map_some, FlagFormatter.format, hclone]

lemma format_clone (p : PatternFormatter κ) (hp : CompiledOwn ops p) (hne : p.mPattern ≠ [])
    (env : FormatEnv) (st : FormatState) :
    (p.clone ops).format ops env st = p.format ops env st := by
  have hm : (p.clone ops).mFormatters = (itemsOf p.mPattern).map
      (PatternItem.formatter ops fun f => (p.mCustomHandlers f).map ops.clone) := by
    rw [← compilePattern_eq]
    simp only [PatternFormatter.clone, PatternFormatter.construct, hne, if_false]
  rw [PatternFormatter.format, PatternFormatter.format, hm, hp, compilePattern_eq, List.foldl_map,
    List.foldl_map]
  simp only [format_cloned ops hclone]

/-- A clone appends what its original appends, after every history at whose end the
formatter's own pattern is the one compiled. -/
theorem cloneAppendsSame_of_ownPatternCompiled (pattern : List Char) (handlers : Char → Option κ)
    (history : List (FormatterOp κ))
    (h : ownPatternCompiled (PatternFormatter.construct ops pattern handlers).mPattern history) :
    ((PatternFormatter.construct ops pattern handlers).applyAll ops history).CloneAppendsSame ops := by
  obtain ⟨hc,hm⟩ := applyAll_compiledOwn ops (PatternFormatter.construct ops pattern handlers)
    history true (fun _ => rfl) h
  intro env st
  rw [format_clone ops hclone _ hc (by rw [hm]; exact construct_mPattern_ne ops pattern handlers)]

end

/-- A handler class whose objects append a fixed text and clone to themselves. -/
def textOps : CustomOps (List Char) where
  format _ text _ st := { st with dest := st.dest.append text }
  clone text := text

theorem cloneAppendsSame_of_reinstalled :
    ((PatternFormatter.construct textOps "%v %5z".toList (fun _ => none)).applyAll textOps
      [.addFlag 'z' "!".toList,.setPattern "x".toList,.setPattern "%v %05z".toList,
        .addFlag 'y' "?".toList]).CloneAppendsSame textOps :=
  cloneAppendsSame_of_ownPatternCompiled textOps (fun _ _ _ _ => rfl) _ _ _ (by decide)

/-- The clone of a formatter whose pattern was replaced prints the first pattern. -/
theorem clone_prints_first_pattern :
    ¬∀ (pattern : List Char) (handlers : Char → Option (List Char))
      (history : List (FormatterOp (List Char))),
      ((PatternFormatter.construct textOps pattern handlers).applyAll textOps history).CloneAppendsSame
        textOps := by
  intro h
  have hab := h "a".toList (fun _ => none) [.setPattern "b".toList]
    ⟨⟨Unit,fun _ => none,fun _ _ _ => []⟩,0,fun _ => 0⟩
    { msg := { mTimeStamp := 0, mLoggerName := [], mThreadId := 0, mLoc := ⟨0,[],[]⟩ }
      dest := .empty recordCapacity }
  revert hab
  decide

end Astlog
