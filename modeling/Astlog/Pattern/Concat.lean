import Astlog.Pattern.Rendering
import Astlog.Pattern.Slices

/-! A pattern put behind another. Compilation goes through the first as if it stood alone, unless
it ends before the flag of a spec; what is shown is then what the two show one after the other,
though literal text that meets is compiled to one formatter. -/
namespace Astlog

/-- The loop of `compilePattern` leaves through its `break`: the text ends before a flag. -/
def breaks : List Char → Bool
  | [] => false
  | '%'::it =>
    match h : handlePadspec it with
    | (_,[]) => true
    | (_,_::rest) =>
      have : rest.length < it.length := by
        have hle := handlePadspec_length it
        rw [h, List.length_cons] at hle
        omega
      breaks rest
  | _::it => breaks it
termination_by it => it.length

lemma breaks_char {c : Char} (hc : c ≠ '%') (it : List Char) : breaks (c::it) = breaks it := by
  rw [breaks]
  rintro rfl
  exact hc rfl

lemma breaks_percent (s : PadText) {rest : List Char} (h : ∀ c ∈ rest.head?, s.Stops c) :
    breaks ('%'::(s.write ++ rest)) =
      match rest with
      | [] => true
      | _::rest => breaks rest := by
  have hspec := PadText.handlePadspec_write h
  rw [breaks]
  split
  next hnil =>
    rw [hspec] at hnil
    cases hnil
    rfl
  next hcons =>
    rw [hspec] at hcons
    cases hcons
    rfl

lemma itemsFrom_spec (pending : Option (List Char)) (s : PadText) {flag : Char}
    (h : s.Stops flag) (it : List Char) : itemsFrom pending ('%'::(s.write ++ flag::it)) =
      pending.toList.map .literal ++ .field s.padding flag::itemsFrom none it := by
  have hspec : handlePadspec (s.write ++ flag::it) = (s.padding, flag::it) :=
    PadText.handlePadspec_write (by rintro c ⟨⟩; exact h)
  rw [itemsFrom_percent, hspec]

/-- A text that does not break off leaves its last literal open. -/
lemma itemsFrom_append (pending : Option (List Char)) {p : List Char} (hp : breaks p = false) :
    ∃ items last, itemsFrom pending p = items ++ last.toList.map .literal ∧
      ∀ q, itemsFrom pending (p ++ q) = items ++ itemsFrom last q := by
  induction hn : p.length using Nat.strong_induction_on generalizing p pending with
  | _ n ih =>
    subst hn
    cases p with
    | nil => exact ⟨[],pending,rfl,fun q => rfl⟩
    | cons c it =>
      by_cases hc : c = '%'
      · subst hc
        obtain ⟨s,rest,rfl,hstops⟩ := PadText.exists_write it
        rw [breaks_percent s hstops] at hp
        cases rest with
        | nil => cases hp
        | cons flag rest =>
          have hflag := hstops flag rfl
          obtain ⟨items,last,hitems,happend⟩ := ih rest.length (by simp; omega) none hp rfl
          refine ⟨pending.toList.map .literal ++ .field s.padding flag::items,last,?_,fun q => ?_⟩
          · rw [itemsFrom_spec _ s hflag, hitems, List.append_assoc, List.cons_append]
          · have htext : '%'::(s.write ++ flag::rest) ++ q = '%'::(s.write ++ flag::(rest ++ q)) := by
              simp
            rw [htext, itemsFrom_spec _ s hflag, happend, List.append_assoc, List.cons_append]
      · rw [breaks_char hc] at hp
        obtain ⟨items,last,hitems,happend⟩ := ih it.length (by simp)
          (some (pending.getD [] ++ [c])) hp rfl
        refine ⟨items,last,?_,fun q => ?_⟩
        · rw [itemsFrom_char _ hc, hitems]
        · rw [List.cons_append, itemsFrom_char _ hc, happend]

/-- A text that breaks off takes a flag behind it for its own. -/
lemma itemsFrom_of_breaks (pending : Option (List Char)) {p : List Char} (hp : breaks p = true) :
    ∃ s : PadText, ∀ flag, s.Stops flag → ∀ q, itemsFrom pending (p ++ flag::q) =
      itemsFrom pending p ++ .field s.padding flag::itemsFrom none q := by
  induction hn : p.length using Nat.strong_induction_on generalizing p pending with
  | _ n ih =>
    subst hn
    cases p with
    | nil =>
      rw [breaks] at hp
      cases hp
    | cons c it =>
      by_cases hc : c = '%'
      · subst hc
        obtain ⟨s,rest,rfl,hstops⟩ := PadText.exists_write it
        rw [breaks_percent s hstops] at hp
        cases rest with
        | nil =>
          refine ⟨s,fun flag hflag q => ?_⟩
          rw [List.append_nil, List.cons_append, itemsFrom_spec _ s hflag]
          have hend := itemsFrom_percent pending (s.write ++ [])
          rw [PadText.handlePadspec_write hstops, List.append_nil] at hend
          rw [hend, List.append_nil]
        | cons flag rest =>
          obtain ⟨s',hs'⟩ := ih rest.length (by simp; omega) none hp rfl
          refine ⟨s',fun flag' hflag' q => ?_⟩
          have htext : '%'::(s.write ++ flag::rest) ++ flag'::q =
              '%'::(s.write ++ flag::(rest ++ flag'::q)) := by simp
          rw [htext, itemsFrom_spec _ s (hstops flag rfl), itemsFrom_spec _ s (hstops flag rfl),
            hs' flag' hflag', List.append_assoc, List.cons_append]
      · rw [breaks_char hc] at hp
        obtain ⟨s,hs⟩ := ih it.length (by simp) (some (pending.getD [] ++ [c])) hp rfl
        refine ⟨s,fun flag hflag q => ?_⟩
        rw [List.cons_append, itemsFrom_char _ hc, itemsFrom_char _ hc, hs flag hflag]

/-- An open literal is joined by the text that follows, or stands for itself. -/
lemma itemsFrom_some (text : List Char) (q : List Char) :
    (∃ more items, itemsFrom none q = .literal more::items ∧
      itemsFrom (some text) q = .literal (text ++ more)::items) ∨
    itemsFrom (some text) q = .literal text::itemsFrom none q := by
  cases q with
  | nil => exact .inr rfl
  | cons c it =>
    by_cases hc : c = '%'
    · exact .inr (itemsFrom_atField text (.inr ⟨it,by rw [hc]⟩))
    · obtain ⟨more,rest,hsplit,hne,hpercent,hat⟩ := exists_literal hc it
      refine .inl ⟨more,itemsFrom none rest,?_,?_⟩
      · rw [hsplit, itemsFrom_text none more _ hpercent hne, itemsFrom_atField _ hat]
        rfl
      · rw [hsplit, itemsFrom_text (some text) more _ hpercent hne, itemsFrom_atField _ hat]
        rfl

namespace InlineBuffer
variable {N : ℕ} {b b' : InlineBuffer N}

/-- Buffers that have spilled with the same text, whatever is left in their arrays. -/
structure Spilled (b b' : InlineBuffer N) : Prop where
  left : b.Wf
  right : b'.Wf
  view : b.view = b'.view
  lt : N < b.view.length

/-- The same buffer, or past the array and alike. -/
def Alike (b b' : InlineBuffer N) : Prop := b = b' ∨ Spilled b b'

lemma Alike.view (h : Alike b b') : b.view = b'.view := by
  rcases h with rfl | h
  · rfl
  · exact h.view

lemma Alike.size (h : Alike b b') : b.size = b'.size := by
  rcases h with rfl | h
  · rfl
  · change b.mSize = b'.mSize
    rw [← view_length h.left, ← view_length h.right, h.view]

lemma Spilled.append (h : Spilled b b') (d : List Char) : Spilled (b.append d) (b'.append d) := by
  refine ⟨append_wf h.left d,append_wf h.right d,?_,?_⟩
  · rw [view_append h.left, view_append h.right, h.view]
  · rw [view_append h.left, List.length_append]
    exact Nat.lt_add_right _ h.lt

lemma copyAt_append (store d e : List Char) {i : ℕ} (h : i+d.length ≤ store.length) :
    copyAt (copyAt store i d) (i+d.length) e = copyAt store i (d ++ e) := by
  have hd : (store.take i ++ d).length = i+d.length := by
    rw [List.length_append, List.length_take_of_le (by omega)]
  rw [copyAt, copyAt_take _ _ (by omega), copyAt, copyAt, List.drop_append, hd, List.drop_drop,
    List.drop_of_length_le (by omega), List.length_append]
  simp [Nat.add_assoc]

/-- Two appends and the one of both texts. -/
lemma alike_append_append (hb : b.Wf) (d e : List Char) :
    Alike (b.append (d ++ e)) ((b.append d).append e) := by
  by_cases hd : d = []
  · exact .inl (by rw [hd, List.nil_append, append_nil])
  by_cases he : e = []
  · exact .inl (by rw [he, List.append_nil, append_nil])
  by_cases ho : b.mOverflow = []
  · by_cases hfit : b.mSize+(d ++ e).length ≤ N
    · have hfit' : b.mSize+(d.length+e.length) ≤ N := by rwa [← List.length_append]
      have hcopy := copyAt_append b.mInline d e (i := b.mSize) (by rw [b.inline_length]; omega)
      refine .inl ?_
      simp [append, hd, he, ho, hcopy, hfit', Nat.add_assoc, show b.mSize+d.length ≤ N by omega]
    · refine .inr ⟨append_wf hb _,append_wf (append_wf hb _) _,?_,?_⟩
      · rw [view_append hb, view_append (append_wf hb d), view_append hb, List.append_assoc]
      · rw [view_append hb, List.length_append, view_length hb]
        omega
  · exact .inl (by simp [append, hd, he, ho])

end InlineBuffer

namespace FieldText
variable {b b' : FormatterBuf}

/-- Past the array nothing is cut. -/
lemma put_alike (h : b.Alike b') (x : FieldText) : (put b x).Alike (put b' x) := by
  rcases h with rfl | h
  · exact .inl rfl
  · have happ : ∀ (ds : List (List Char)) {b b' : FormatterBuf}, b.Spilled b' →
        (ds.foldl InlineBuffer.append b).Spilled (ds.foldl InlineBuffer.append b') := by
      intro ds
      induction ds with
      | nil => exact fun hs => hs
      | cons d ds ih => exact fun hs => ih (hs.append d)
    have hlt : recordCapacity < b.mSize := by
      rw [← InlineBuffer.view_length h.left]
      exact h.lt
    have hlt' : recordCapacity < b'.mSize := by
      rw [← InlineBuffer.view_length h.right, ← h.view]
      exact h.lt
    refine .inr ?_
    rw [put_eq, put_eq]
    cases x.cut with
    | none => exact happ x.pieces h
    | some w =>
      simp only [InlineBuffer.erase_of_le _ (show recordCapacity ≤ w+b.mSize by omega),
        InlineBuffer.erase_of_le _ (show recordCapacity ≤ w+b'.mSize by omega)]
      exact happ x.pieces h

end FieldText

/-- Two states that no formatter tells apart. -/
structure FormatState.Alike (a b : FormatState) : Prop where
  msg : a.msg = b.msg
  caches : a.caches = b.caches
  clockReads : a.clockReads = b.clockReads
  dest : a.dest.Alike b.dest

namespace FormatState.Alike
variable {env : FormatEnv} {a b : FormatState}

lemma fieldText_eq (h : a.Alike b) (f : FlagFormatter Empty) : f.fieldText env a = f.fieldText env b := by
  cases f <;> simp only [FlagFormatter.fieldText, h.msg, h.caches, h.clockReads]

lemma format (h : a.Alike b) (f : FlagFormatter Empty) :
    (f.format noCustom env a).Alike (f.format noCustom env b) := by
  refine ⟨?_,?_,?_,?_⟩
  · cases f with
    | custom c => exact c.elim
    | colorStart p => simp only [FlagFormatter.format, h.msg, h.dest.size]
    | colorStop p => simp only [FlagFormatter.format, h.msg, h.dest.size]
    | location k p mode =>
      simp only [FlagFormatter.format, h.msg]
      split
      · exact h.msg
      · rfl
    | _ => exact h.msg
  · cases f with
    | custom c => exact c.elim
    | time k p timeFormat => simp only [FlagFormatter.format, h.msg, h.caches]
    | location k p mode =>
      simp only [FlagFormatter.format, h.msg]
      split <;> exact h.caches
    | _ => exact h.caches
  · rw [f.format_clockReads, f.format_clockReads, h.clockReads]
  · rw [f.format_dest, f.format_dest, h.fieldText_eq f]
    exact FieldText.put_alike h.dest _

lemma formatAll (h : a.Alike b) (fs : List (FlagFormatter Empty)) :
    (formatAll env fs a).Alike (formatAll env fs b) := by
  induction fs generalizing a b with
  | nil => exact h
  | cons f fs ih => exact ih (h.format f)

end FormatState.Alike

/-- What a pattern shows once it is set, with no custom flags. -/
def shown (env : FormatEnv) (pattern : List Char) (st : FormatState) : FormatState :=
  ((builtinFormatter []).setPattern noCustom pattern).format noCustom env st

/-- The text is the same, and so are the colour range, the thread's caches and the clock. -/
structure SameOutcome (a b : FormatState) : Prop where
  view : a.dest.view = b.dest.view
  msg : a.msg = b.msg
  caches : a.caches = b.caches
  clockReads : a.clockReads = b.clockReads

lemma FormatState.Alike.sameOutcome {a b : FormatState} (h : a.Alike b) : SameOutcome a b :=
  ⟨h.dest.view,h.msg,h.caches,h.clockReads⟩

/-- Whatever pattern is put behind `p`, the two show what they show one after the other. -/
def Concatenates (p : List Char) : Prop :=
  ∀ (q : List Char) (env : FormatEnv) (st : FormatState), st.dest.Wf →
    SameOutcome (shown env (p ++ q) st) (shown env q (shown env p st))

section
variable {env : FormatEnv}

/-- The formatters of a list of items. -/
def builtins (items : List PatternItem) : List (FlagFormatter Empty) := items.map (builtin noCustom)

lemma shown_eq (pattern : List Char) (st : FormatState) :
    shown env pattern st = formatAll env (builtins (itemsOf pattern)) st := by
  rw [builtins, ← compilePattern_eq]
  rfl

lemma formatAll_builtins_append (items items' : List PatternItem) (st : FormatState) :
    formatAll env (builtins (items ++ items')) st =
      formatAll env (builtins items') (formatAll env (builtins items) st) := by
  rw [builtins, List.map_append]
  exact List.foldl_append

lemma formatAll_wf {st : FormatState} (h : st.dest.Wf) (fs : List (FlagFormatter Empty)) :
    (formatAll env fs st).dest.Wf := by
  rw [formatAll_dest]
  exact FieldText.foldl_put_wf h _

/-- An open literal, before the text behind it is known. -/
lemma alike_open {st : FormatState} (h : st.dest.Wf) (last : Option (List Char)) (q : List Char) :
    (formatAll env (builtins (itemsFrom last q)) st).Alike
      (formatAll env (builtins (itemsOf q)) (formatAll env (builtins (last.toList.map .literal)) st)) := by
  have hrefl : ∀ u : FormatState, u.Alike u := fun u => ⟨rfl,rfl,rfl,.inl rfl⟩
  cases last with
  | none => exact hrefl _
  | some text =>
    obtain ⟨more,items,hnone,hsome⟩ | hsome := itemsFrom_some text q
    · rw [itemsOf, hnone, hsome]
      have hjoined : FormatState.Alike { st with dest := st.dest.append (text ++ more) }
          { st with dest := (st.dest.append text).append more } :=
        ⟨rfl,rfl,rfl,InlineBuffer.alike_append_append h text more⟩
      exact hjoined.formatAll (builtins items)
    · rw [hsome]
      exact hrefl _

lemma concatenates_of_not_breaks {p : List Char} (hp : breaks p = false) : Concatenates p := by
  intro q env st hst
  obtain ⟨items,last,hitems,happend⟩ := itemsFrom_append none hp
  have hp' : itemsOf p = items ++ last.toList.map .literal := hitems
  have hpq : itemsOf (p ++ q) = items ++ itemsFrom last q := happend q
  rw [shown_eq, shown_eq, shown_eq, hp', hpq, formatAll_builtins_append, formatAll_builtins_append]
  exact (alike_open (formatAll_wf hst _) last q).sameOutcome

/-- A field does not show as a character that its text does not have. -/
lemma FieldText.view_put_ne {b : FormatterBuf} (hb : b.Wf) {x : FieldText}
    (hsize : x.wrappedSize = x.text.length) (hw : x.padInfo.mWidth ≤ maxWidth) (hne : x.text ≠ [])
    {d : Char} (hd : d ∉ x.text) : (put b x).view ≠ b.view ++ [d] := by
  intro hview
  cases hcut : x.cut with
  | none =>
    obtain ⟨s,s',hput⟩ := exists_view_put_of_uncut hcut
    have hfield : (put b x).view = b.view ++ (s ++ x.text ++ s') := hput x.text hb
    rw [hview, List.append_cancel_left_eq] at hfield
    obtain ⟨c,hc⟩ := List.exists_mem_of_ne_nil _ hne
    have hmem : c ∈ [d] := by
      rw [hfield]
      simp [hc]
    rw [List.mem_singleton.mp hmem] at hc
    exact hd hc
  | some w =>
    have hlt := lt_length_of_cut hcut hsize hw
    rw [put_of_cut hcut, pieces_of_cut hcut, List.foldl_cons, List.foldl_nil] at hview
    by_cases hin : w+b.mSize < recordCapacity
    · rw [InlineBuffer.view_erase_append hb _ hin, List.take_append_of_le_length hlt.le,
        List.append_cancel_left_eq] at hview
      exact hd (List.mem_of_mem_take (i := w) (by rw [hview]; exact List.mem_singleton_self d))
    · rw [InlineBuffer.erase_of_le _ (not_lt.mp hin), InlineBuffer.view_append hb,
        List.append_cancel_left_eq] at hview
      rw [hview] at hd
      exact hd (List.mem_singleton_self d)

/-- To compile the two patterns as one is the same exactly where the first one does not break off
before the flag of a spec. -/
theorem concatenates_iff (p : List Char) : Concatenates p ↔ breaks p = false := by
  refine ⟨fun h => ?_,concatenates_of_not_breaks⟩
  by_contra hp
  obtain ⟨s,hs⟩ := itemsFrom_of_breaks none (Bool.not_eq_false _ ▸ hp : breaks p = true)
  let env : FormatEnv := ⟨⟨Unit,fun _ => none,fun _ _ _ => []⟩,0,fun _ => 0⟩
  let st : FormatState :=
    { msg := { mTimeStamp := 0, mLoggerName := [], mThreadId := 0, mLoc := ⟨0,[],[]⟩ }
      dest := .empty recordCapacity }
  have hpq : itemsOf (p ++ ['q']) = itemsOf p ++ [.field s.padding 'q'] :=
    hs 'q' (PadText.stops_of_lt (by decide)) []
  have hwidth : s.padding.mWidth ≤ maxWidth :=
    width_of_mem_itemsLoop (show PatternItem.field s.padding 'q' ∈ itemsOf (p ++ ['q']) by simp [hpq])
  have hstart : st.dest.Wf := InlineBuffer.empty_wf _
  have hview := (h ['q'] env st hstart).view
  rw [shown_eq, shown_eq, shown_eq, hpq, formatAll_builtins_append] at hview
  set u := formatAll env (builtins (itemsOf p)) st with hu
  have hwf : u.dest.Wf := hu ▸ formatAll_wf hstart _
  -- `q` is an unknown flag in the one case, and stands for itself in the other
  have hleft : (formatAll env (builtins [.field s.padding 'q']) u).dest =
      FieldText.put u.dest ⟨padderOf s.padding,unknownText.length,s.padding,unknownText⟩ := rfl
  have hright : (formatAll env (builtins (itemsOf ['q'])) u).dest = u.dest.append ['q'] := rfl
  rw [hleft, hright, InlineBuffer.view_append hwf] at hview
  have hne : unknownText ≠ [] := by decide
  have hq : 'q' ∉ unknownText := by decide
  exact FieldText.view_put_ne hwf rfl hwidth hne hq hview

end
end Astlog
