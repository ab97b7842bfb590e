import Astlog.Pattern.Builtin
import Astlog.Sink.Sinks

/-! The record of the colour sink next to that of the file sink: the same formatter, into
a buffer that already holds the colour. -/
namespace Astlog
open InlineBuffer

/-- The characters a field appends before it is cut. -/
def FieldText.appended (x : FieldText) : ℕ := (x.pieces.map List.length).sum

/-- Whether the text behind the prefix has outgrown the inline array once the field is
appended, if it had or had not before. -/
def FieldText.spills (plen : ℕ) (spilled : Bool) (f : FormatterBuf) (x : FieldText) : Bool :=
  spilled || decide (recordCapacity < plen + (f.mSize + x.appended))

/-- The cut of a field does the same behind the prefix as in the plain record, of which `f`
is what precedes the field. -/
def FieldText.Harmless (plen : ℕ) (spilled : Bool) (f : FormatterBuf) (x : FieldText) : Prop :=
  ∀ w ∈ x.cut,
    Shifted.EraseOk plen (x.spills plen spilled f) (x.pieces.foldl InlineBuffer.append f) (w+f.mSize)

instance (plen : ℕ) (spilled : Bool) (f : FormatterBuf) (x : FieldText) :
    Decidable (x.Harmless plen spilled f) := inferInstanceAs (Decidable (∀ w ∈ x.cut, _))

/-- Every cut of a record does. -/
def HarmlessAll (plen : ℕ) : Bool → FormatterBuf → List FieldText → Prop
  | _, _, [] => True
  | spilled, f, x::xs =>
    x.Harmless plen spilled f ∧ HarmlessAll plen (x.spills plen spilled f) (x.put f) xs

def decidableHarmlessAll (plen : ℕ) :
    ∀ (xs : List FieldText) (spilled : Bool) (f : FormatterBuf),
      Decidable (HarmlessAll plen spilled f xs)
  | [], _, _ => inferInstanceAs (Decidable True)
  | x::xs, spilled, f =>
    have := decidableHarmlessAll plen xs (x.spills plen spilled f) (x.put f)
    inferInstanceAs (Decidable (x.Harmless plen spilled f ∧ _))

instance (plen : ℕ) (spilled : Bool) (f : FormatterBuf) (xs : List FieldText) :
    Decidable (HarmlessAll plen spilled f xs) := decidableHarmlessAll plen xs spilled f

section
variable {p : List Char} {spilled : Bool} {f c : FormatterBuf}

/-- Both buffers after the appends of a field, before its cut. -/
lemma shifted_pieces (h : Shifted p spilled f c) (x : FieldText) :
    Shifted p (x.spills p.length spilled f) (x.pieces.foldl InlineBuffer.append f)
      (x.pieces.foldl InlineBuffer.append c) := h.appends x.pieces

/-- A field adds the same characters to both buffers exactly when its cut is harmless. -/
lemma put_view_iff (h : Shifted p spilled f c) (x : FieldText) :
    (x.put c).view = p ++ (x.put f).view ↔ x.Harmless p.length spilled f := by
  cases hx : x.cut with
  | none =>
    rw [FieldText.put_of_not_cut hx, FieldText.put_of_not_cut hx]
    exact iff_of_true (shifted_pieces h x).view_eq fun w hw => nomatch hx.symm.trans hw
  | some w =>
    rw [FieldText.put_of_cut hx, FieldText.put_of_cut hx, h.size_eq, Nat.add_left_comm, (shifted_pieces h x).erase_view_iff]
    constructor
    · intro hok w' hw'
      obtain rfl := Option.some.inj (hx.symm.trans hw')
      exact hok
    · exact fun hok => hok w hx

lemma shifted_put (h : Shifted p spilled f c) (hp : p ≠ []) {x : FieldText}
    (hx : x.Harmless p.length spilled f) :
    Shifted p (x.spills p.length spilled f) (x.put f) (x.put c) := by
  cases hcut : x.cut with
  | none =>
    rw [FieldText.put_of_not_cut hcut, FieldText.put_of_not_cut hcut]
    exact shifted_pieces h x
  | some w =>
    rw [FieldText.put_of_cut hcut, FieldText.put_of_cut hcut, h.size_eq, Nat.add_left_comm]
    exact (shifted_pieces h x).erase hp (hx w hcut)

/-- Fields keep the buffers alike, one after the other, exactly when all cuts are harmless. -/
lemma harmlessAll_iff (h : Shifted p spilled f c) (hp : p ≠ []) (xs : List FieldText) :
    HarmlessAll p.length spilled f xs ↔ ∀ n,
      ((xs.take n).foldl FieldText.put c).view = p ++ ((xs.take n).foldl FieldText.put f).view := by
  induction xs generalizing spilled f c with
  | nil => exact iff_of_true trivial fun n => by simpa using h.view_eq
  | cons x xs ih =>
    constructor
    · intro hall n
      cases n with
      | zero => exact h.view_eq
      | succ n => exact (ih (shifted_put h hp hall.1)).mp hall.2 n
    · intro hview
      have hx : x.Harmless p.length spilled f := (put_view_iff h x).mp (hview 1)
      exact ⟨hx,(ih (shifted_put h hp hx)).mpr fun n => hview (n+1)⟩

end

section
variable (env : FormatEnv) (now : ℕ → ℤ) (pattern : List Char) (colors : ColorMap)
  (caches : ThreadCaches) (msg : LogMsg (List Char)) (h : msg.mLevel.toIndex < Level.levelMax)

def fileSinkOf : FileSink Empty := ⟨builtinFormatter pattern⟩

def colorSinkOf : AnsicolorSink Empty := ⟨colors,builtinFormatter pattern⟩

/-- What is in the buffer after the first `n` formatters, from a buffer with the text `pre`. -/
def produced (pre : List Char) (n : ℕ) : List Char :=
  (formatAll env ((builtinFormatter pattern).mFormatters.take n)
    { msg := msg, dest := InlineBuffer.append (.empty recordCapacity) pre, caches := caches }).dest.view

/-- The colour sink writes the record of the file sink in colour, and what the formatter
adds field by field does not depend on the colour. The two sinks may read different clocks. -/
structure SameRecord : Prop where
  line : ∃ record, ((fileSinkOf pattern).sinkIt noCustom env caches msg).1 = [record,eol.take 1] ∧
    ((colorSinkOf pattern colors).sinkIt noCustom { env with now := now } caches msg h).1.flatten =
      (colorSinkOf pattern colors).color msg h ++ record ++ reset ++ eol.take 1
  fields : ∀ n, produced { env with now := now } pattern caches msg
      ((colorSinkOf pattern colors).color msg h) n =
    (colorSinkOf pattern colors).color msg h ++ produced env pattern caches msg [] n

/-- The texts of the record's fields. -/
def recordFields : List FieldText :=
  fieldsOf env { msg := msg, dest := .empty recordCapacity, caches := caches }
    (builtinFormatter pattern).mFormatters

variable {env now pattern colors caches msg h}

lemma produced_eq (he : 'e' ∉ flagsOf pattern) (now : ℕ → ℤ) (pre : List Char) (n : ℕ) :
    produced { env with now := now } pattern caches msg pre n =
      (((recordFields env pattern caches msg).take n).foldl FieldText.put
        (InlineBuffer.append (.empty recordCapacity) pre)).view := by
  have hctx : SameContext { msg := msg, dest := .empty recordCapacity, caches := caches }
      { msg := msg, dest := InlineBuffer.append (.empty recordCapacity) pre, caches := caches } :=
    ⟨⟨_,_,rfl⟩,rfl⟩
  have hclock : ∀ f ∈ (builtinFormatter pattern).mFormatters.take n, f.readsClock = false :=
    fun f hf => readsClock_of_mem_builtin he (List.mem_of_mem_take hf)
  rw [produced, formatAll_dest, fieldsOf_congr hctx hclock, fieldsOf_take]
  rfl

/-- The line follows from the last of the fields. -/
lemma sameRecord_of_fields
    (hf : ∀ n, produced { env with now := now } pattern caches msg
        ((colorSinkOf pattern colors).color msg h) n =
      (colorSinkOf pattern colors).color msg h ++ produced env pattern caches msg [] n) :
    SameRecord env now pattern colors caches msg h := by
  refine ⟨⟨_,rfl,?_⟩,hf⟩
  set color := (colorSinkOf pattern colors).color msg h
  set fs := (builtinFormatter pattern).mFormatters with hfs
  have hall := hf fs.length
  rw [produced, produced, ← hfs, List.take_length, InlineBuffer.append_nil] at hall
  have hwf : (formatAll { env with now := now } fs
      { msg := msg, dest := InlineBuffer.append (.empty recordCapacity) color, caches := caches }).dest.Wf := by
    rw [formatAll_dest]
    exact FieldText.foldl_put_wf (append_wf (empty_wf _) _) _
  have hview := view_append hwf reset
  rw [hall] at hview
  change [_,eol.take 1].flatten = _
  rw [List.flatten_cons, List.flatten_singleton]
  exact congrArg (· ++ eol.take 1) hview

/-- The two sinks write the same record exactly when no colour is set for the level, or
every cut in the record is harmless behind the colour. -/
theorem sameRecord_iff (he : 'e' ∉ flagsOf pattern) :
    SameRecord env now pattern colors caches msg h ↔
      (colorSinkOf pattern colors).color msg h = [] ∨
      HarmlessAll ((colorSinkOf pattern colors).color msg h).length
        (decide (recordCapacity < ((colorSinkOf pattern colors).color msg h).length))
        (.empty recordCapacity) (recordFields env pattern caches msg) := by
  set color := (colorSinkOf pattern colors).color msg h with hcolor
  have hplain : ∀ n, produced env pattern caches msg [] n =
      (((recordFields env pattern caches msg).take n).foldl FieldText.put
        (.empty recordCapacity)).view := by
    intro n
    rw [← InlineBuffer.append_nil (.empty recordCapacity), ← produced_eq he env.now]
  have hfields : SameRecord env now pattern colors caches msg h ↔ ∀ n,
      (((recordFields env pattern caches msg).take n).foldl FieldText.put
        (InlineBuffer.append (.empty recordCapacity) color)).view =
      color ++ (((recordFields env pattern caches msg).take n).foldl FieldText.put
        (.empty recordCapacity)).view := by
    simp only [← produced_eq he now, ← hplain]
    exact ⟨fun hs => hs.fields,sameRecord_of_fields⟩
  rw [hfields]
  by_cases hc : color = []
  · refine iff_of_true (fun n => ?_) (.inl hc)
    rw [hc, InlineBuffer.append_nil, List.nil_append]
  · rw [← harmlessAll_iff (Shifted.start recordCapacity color) hc, or_iff_right hc]

/-- A system without a clock or a calendar, for patterns that use neither. -/
def idleEnv : FormatEnv := ⟨⟨Unit,fun _ => none,fun _ _ _ => []⟩,0,fun _ => 0⟩

/-- An INFO record with the given text. -/
def infoMsg (payload : List Char) : LogMsg (List Char) :=
  { mLevel := .info, mTimeStamp := 0, mLoggerName := "root".toList, mThreadId := 1
    mLoc := ⟨0,[],[]⟩, mPayload := payload }

theorem sameRecord_iff_cutLevel : 'e' ∉ flagsOf "[%1!l] %v".toList ∧
    SameRecord idleEnv idleEnv.now "[%1!l] %v".toList DefaultConfig.colorMap {} (infoMsg "hi".toList)
      (by decide) :=
  ⟨by decide,(sameRecord_iff (by decide)).mpr (.inr (by decide +kernel))⟩

/-- Behind a text of 250 characters the level is cut in the file, and not on the terminal. -/
theorem cutLevel_printed_whole :
    ¬∀ (env : FormatEnv) (now : ℕ → ℤ) (pattern : List Char) (colors : ColorMap)
      (caches : ThreadCaches) (msg : LogMsg (List Char)) (h : msg.mLevel.toIndex < Level.levelMax),
      'e' ∉ flagsOf pattern → SameRecord env now pattern colors caches msg h := by
  intro hall
  obtain ⟨record,hfile,hcolor⟩ := (hall idleEnv idleEnv.now "%v%1!l".toList DefaultConfig.colorMap {}
    (infoMsg (List.replicate 250 'a')) (by decide) (by decide)).line
  obtain ⟨rfl,-⟩ := List.cons.inj hfile
  have hlength := congrArg List.length hcolor
  revert hlength
  decide +kernel

end
end Astlog
