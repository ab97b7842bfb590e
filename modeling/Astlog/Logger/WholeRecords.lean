import Astlog.Foundation.Merge
import Astlog.Logger.Default

/-! What the default logger prints. Its sink is registered twice, so each call that prints
at all prints two lines; the bytes on the console are counted against them. -/
namespace Astlog
open Foundation

/-- The console shows one line for each call that is not turned away, whole, and the lines
of a thread in the order of its calls. A line of a call is one that was formatted for it. -/
def Console.WholeRecords {M : Lockable} (calls : List (List LogCall)) (s : Console M) : Prop :=
  s.threads.map (fun t => t.records.map CallRecord.call) = calls.map (List.filter printed) ∧
  ∃ (lines : List (List (List Char))) (order : List (List Char)),
    List.Forall₂ (fun ls t => List.Forall₂ (fun line r => line ∈ r.lines) ls t.records)
      lines s.threads ∧
    Merge lines order ∧ s.bytes = order.flatten

section
variable (line : List Char) (rs : List CallRecord)

lemma map_call_addLine : (addLine line rs).map CallRecord.call = rs.map CallRecord.call := by
  induction rs with
  | nil => rfl
  | cons r rs ih =>
    cases rs with
    | nil => rfl
    | cons r' rs =>
      rw [addLine, List.map_cons, ih]
      rfl

lemma flatMap_lines_addLine {rs : List CallRecord} (h : rs ≠ []) :
    (addLine line rs).flatMap CallRecord.lines = rs.flatMap CallRecord.lines ++ [line] := by
  induction rs with
  | nil => exact absurd rfl h
  | cons r rs ih =>
    cases rs with
    | nil => simp [addLine]
    | cons r' rs =>
      rw [addLine, List.flatMap_cons, ih (List.cons_ne_nil _ _), ← List.append_assoc]
      rfl

end

namespace ConsoleThread

/-- The lines formatted by a thread. -/
def lines (t : ConsoleThread) : List (List Char) := t.records.flatMap CallRecord.lines

/-- The bytes it still has to write. -/
def unwritten (t : ConsoleThread) : List Char := t.ops.flatMap SinkOp.bytes

/-- Two lines for each call, no line empty. -/
structure TwoLines (t : ConsoleThread) : Prop where
  count : t.lines.length + t.ops.countP SinkOp.isSinkIt = 2*t.records.length
  nonempty : ∀ line ∈ t.lines, line ≠ []

end ConsoleThread

section
variable {t u : ConsoleThread} {b : List Char}

theorem countP_callOps (c : LogCall) : (callOps c).countP SinkOp.isSinkIt = 2 := by
  unfold callOps
  split <;> rfl

lemma bytes_callOps (c : LogCall) : (callOps c).flatMap SinkOp.bytes = [] := by
  unfold callOps
  split <;> rfl

/-- While something is left to format, there is a call it belongs to. -/
lemma ConsoleThread.TwoLines.records_ne {msg : LogMsg (List Char)} {ops : List SinkOp}
    (h : t.TwoLines) (hops : t.ops = .sinkIt msg::ops) : t.records ≠ [] := by
  intro hr
  have hc := h.count
  rw [hops, hr, List.countP_cons_of_pos rfl] at hc
  simp at hc

lemma ThreadMove.lines_formatted {msg : LogMsg (List Char)} {ops : List SinkOp}
    (text : List Char) (caches : ThreadCaches) (h : t.TwoLines) (hops : t.ops = .sinkIt msg::ops) :
    ConsoleThread.lines { t with
      ops := .fwrite text::.fwrite (eol.take 1)::ops
      caches := caches
      records := addLine (text ++ eol.take 1) t.records } = t.lines ++ [text ++ eol.take 1] :=
  flatMap_lines_addLine _ (h.records_ne hops)

lemma ThreadMove.twoLines (hm : ThreadMove t u b) (h : t.TwoLines) : u.TwoLines := by
  have hc := h.count
  cases hm with
  | turnedAway hops hcalls _ => exact ⟨hc,h.nonempty⟩
  | @begun c calls hops hcalls _ =>
    have hlines : (t.records ++ [(⟨c,[]⟩ : CallRecord)]).flatMap CallRecord.lines = t.lines := by
      simp [ConsoleThread.lines]
    rw [hops, List.countP_nil] at hc
    refine ⟨?_,fun line hl => h.nonempty line (hlines ▸ hl)⟩
    rw [ConsoleThread.lines, hlines, countP_callOps, List.length_append, List.length_singleton]
    omega
  | @formatted msg ops hops text caches =>
    have hlines := lines_formatted text caches h hops
    have hlen : (addLine (text ++ eol.take 1) t.records).length = t.records.length := by
      simpa using congrArg List.length (map_call_addLine (text ++ eol.take 1) t.records)
    rw [hops, List.countP_cons_of_pos rfl] at hc
    refine ⟨?_,?_⟩
    · rw [hlines, hlen, List.length_append, List.length_singleton,
        List.countP_cons_of_neg (by simp [SinkOp.isSinkIt]),
        List.countP_cons_of_neg (by simp [SinkOp.isSinkIt])]
      omega
    · rw [hlines]
      intro line hl
      obtain hl | hl := List.mem_append.mp hl
      · exact h.nonempty line hl
      · rw [List.mem_singleton.mp hl]
        simp [eol]
  | wrote hops =>
    rw [hops, List.countP_cons_of_neg (by simp [SinkOp.isSinkIt])] at hc
    exact ⟨hc,h.nonempty⟩
  | passed hops hop _ =>
    rw [hops, List.countP_cons_of_neg (by simp [hop])] at hc
    exact ⟨hc,h.nonempty⟩

/-- A move writes what was to be written, or adds a line to it. -/
lemma ThreadMove.balance (hm : ThreadMove t u b) (h : t.TwoLines) :
    b.length + u.unwritten.length + t.lines.flatten.length =
      t.unwritten.length + u.lines.flatten.length := by
  cases hm with
  | turnedAway hops hcalls _ => simp [ConsoleThread.unwritten, ConsoleThread.lines]
  | begun hops hcalls _ =>
    simp [ConsoleThread.unwritten, ConsoleThread.lines, hops, bytes_callOps]
  | formatted hops text caches =>
    rw [lines_formatted text caches h hops]
    simp [ConsoleThread.unwritten, hops, SinkOp.bytes]
    omega
  | wrote hops => simp [ConsoleThread.unwritten, ConsoleThread.lines, hops, SinkOp.bytes]
  | passed hops _ hb => simp [ConsoleThread.unwritten, ConsoleThread.lines, hops, hb]

/-- A call moves from those to come to those made. -/
lemma ThreadMove.calls_eq (hm : ThreadMove t u b) :
    u.records.map CallRecord.call ++ u.calls.filter printed =
      t.records.map CallRecord.call ++ t.calls.filter printed := by
  cases hm with
  | turnedAway hops hcalls hc => rw [hcalls, List.filter_cons_of_neg (by simp [hc])]
  | begun hops hcalls hc =>
    rw [hcalls, List.filter_cons_of_pos hc, List.map_append, List.append_assoc]
    rfl
  | formatted => rw [map_call_addLine]
  | wrote => rfl
  | passed => rfl

end

namespace Console
variable {M : Lockable} {env : FormatEnv} {s : Console M}
  {calls : List (List LogCall)} {as : List ConsoleAction}

/-- Two lines for each call, of which each byte is written or still to be written. -/
structure Balanced (ts : List ConsoleThread) (bytes : List Char) : Prop where
  twoLines : ∀ t ∈ ts, t.TwoLines
  length_eq : bytes.length + (ts.flatMap ConsoleThread.unwritten).length =
    (ts.flatMap fun t => t.lines.flatten).length

lemma balanced_run (h : run (step env) (init M calls) as = some s) :
    Balanced s.threads s.bytes := by
  refine run_invariant_of_moves (I := Balanced) ?_ h ⟨fun t ht => ?_,?_⟩
  · intro ts bytes i t u b hI ht hm
    have htwo := hI.twoLines t (List.mem_of_getElem? ht)
    have hlen := hI.length_eq
    have hun := (flatMap_set_perm ht ConsoleThread.unwritten u).length_eq
    have hl := (flatMap_set_perm ht (fun t => t.lines.flatten) u).length_eq
    have hb := hm.balance htwo
    refine ⟨forall_mem_set hI.twoLines (hm.twoLines htwo),?_⟩
    simp only [List.length_append] at hun hl ⊢
    omega
  · obtain ⟨cs,-,rfl⟩ := List.mem_map.mp ht
    exact ⟨rfl,fun line hl => nomatch hl⟩
  · simp [List.flatMap_map, ConsoleThread.unwritten, ConsoleThread.lines]

theorem calls_run (h : run (step env) (init M calls) as = some s) :
    s.threads.map (fun t => t.records.map CallRecord.call ++ t.calls.filter printed) =
      calls.map (List.filter printed) := by
  refine run_invariant_of_moves (I := fun ts _ => ts.map (fun t =>
    t.records.map CallRecord.call ++ t.calls.filter printed) = calls.map (List.filter printed)) ?_ h ?_
  · intro ts bytes i t u b hI ht hm
    rw [map_set_eq ht hm.calls_eq, hI]
  · simp [Function.comp_def]

end Console

lemma length_le_flatten {ls : List (List Char)} (h : ∀ l ∈ ls, l ≠ []) :
    ls.length ≤ ls.flatten.length := by
  have hsum := List.length_le_sum_of_one_le (ls.map List.length) fun n hn => by
    obtain ⟨l,hl,rfl⟩ := List.mem_map.mp hn
    exact List.length_pos_iff.mpr (h l hl)
  rwa [List.length_map, ← List.length_flatten] at hsum

/-- One line chosen for each call leaves a byte of every other line. -/
lemma length_chosen_le {ls : List (List Char)} {rs : List CallRecord}
    (h : List.Forall₂ (fun line r => line ∈ r.lines) ls rs)
    (hne : ∀ line ∈ rs.flatMap CallRecord.lines, line ≠ []) :
    ls.flatten.length + (rs.flatMap CallRecord.lines).length ≤
      (rs.flatMap CallRecord.lines).flatten.length + rs.length := by
  induction h with
  | nil => exact le_rfl
  | @cons line r ls rs hline h ih =>
    have hrest := ih fun x hx => hne x (by rw [List.flatMap_cons]; exact List.mem_append_right _ hx)
    obtain ⟨before,after,hr⟩ := List.append_of_mem hline
    have hothers : (before ++ after).length ≤ (before ++ after).flatten.length := by
      refine length_le_flatten fun x hx => hne x ?_
      rw [List.flatMap_cons, hr]
      simp only [List.mem_append, List.mem_cons] at hx ⊢
      tauto
    rw [List.flatMap_cons, hr]
    simp only [List.length_append, List.length_cons, List.flatten_append, List.flatten_cons]
      at hothers hrest ⊢
    omega

/-- The same for all threads, where two lines were formatted for each call. -/
lemma length_chosen_threads_le {lines : List (List (List Char))} {ts : List ConsoleThread}
    (h : List.Forall₂ (fun ls t => List.Forall₂ (fun line r => line ∈ r.lines) ls t.records)
      lines ts)
    (htwo : ∀ t ∈ ts, t.TwoLines ∧ t.ops = []) :
    lines.flatten.flatten.length + (ts.flatMap ConsoleThread.records).length ≤
      (ts.flatMap fun t => t.lines.flatten).length := by
  induction h with
  | nil => exact le_rfl
  | @cons ls t lines ts hls h ih =>
    obtain ⟨ht,hops⟩ := htwo t List.mem_cons_self
    have hrest := ih fun u hu => htwo u (List.mem_cons_of_mem _ hu)
    have hchosen := length_chosen_le hls ht.nonempty
    have hcount := ht.count
    rw [hops, List.countP_nil] at hcount
    simp only [ConsoleThread.lines, List.flatten_cons, List.flatten_append, List.length_append,
      List.flatMap_cons] at hcount hrest ⊢
    omega

namespace Console
variable {M : Lockable} {env : FormatEnv} {s : Console M} {calls : List (List LogCall)}
  {as : List ConsoleAction}

lemma length_bytes_of_done (h : run (step env) (init M calls) as = some s) (hdone : s.Done) :
    s.bytes.length = (s.threads.flatMap fun t => t.lines.flatten).length := by
  have hun : s.threads.flatMap ConsoleThread.unwritten = [] := by
    refine List.flatMap_eq_nil_iff.mpr fun t ht => ?_
    rw [ConsoleThread.unwritten, (hdone t ht).2, List.flatMap_nil]
  have hlen := (balanced_run h).length_eq
  rwa [hun, List.length_nil, Nat.add_zero] at hlen

/-- Whatever the mutex is: only a console that shows nothing shows each record once. -/
lemma not_printed_of_wholeRecords (h : run (step env) (init M calls) as = some s)
    (hdone : s.Done) (hw : s.WholeRecords calls) : ∀ cs ∈ calls, ∀ c ∈ cs, printed c = false := by
  obtain ⟨hcalls,lines,order,hlines,hmerge,hbytes⟩ := hw
  have hlen := length_bytes_of_done h hdone
  have hle := length_chosen_threads_le hlines fun t ht => ⟨(balanced_run h).twoLines t ht,(hdone t ht).2⟩
  have horder := hmerge.perm.flatten.length_eq
  rw [hbytes] at hlen
  have hnone : s.threads.flatMap ConsoleThread.records = [] :=
    List.length_eq_zero_iff.mp (by omega)
  intro cs hcs c hc
  have hmem : cs.filter printed ∈ s.threads.map fun t => t.records.map CallRecord.call := by
    rw [hcalls]
    exact List.mem_map_of_mem hcs
  obtain ⟨t,ht,hrec⟩ := List.mem_map.mp hmem
  rw [List.flatMap_eq_nil_iff.mp hnone t ht, List.map_nil] at hrec
  exact Bool.eq_false_iff.mpr (List.filter_eq_nil_iff.mp hrec.symm c hc)

lemma wholeRecords_of_not_printed (h : run (step env) (init M calls) as = some s)
    (hdone : s.Done) (hnot : ∀ cs ∈ calls, ∀ c ∈ cs, printed c = false) : s.WholeRecords calls := by
  have hcalls := calls_run h
  have hmap : s.threads.map (fun t => t.records.map CallRecord.call ++ t.calls.filter printed) =
      s.threads.map (fun t => t.records.map CallRecord.call) := by
    refine List.map_congr_left fun t ht => ?_
    rw [(hdone t ht).1, List.filter_nil, List.append_nil]
  rw [hmap] at hcalls
  have hrecords : ∀ t ∈ s.threads, t.records = [] := by
    intro t ht
    have hmem := List.mem_map_of_mem (f := fun t => t.records.map CallRecord.call) ht
    rw [hcalls] at hmem
    obtain ⟨cs,hcs,hf⟩ := List.mem_map.mp hmem
    have hnil : cs.filter printed = [] :=
      List.filter_eq_nil_iff.mpr fun c hc => Bool.eq_false_iff.mp (hnot cs hcs c hc)
    exact List.map_eq_nil_iff.mp (hf.symm.trans hnil)
  have hbytes : s.bytes = [] := by
    have hlen := length_bytes_of_done h hdone
    rw [List.flatMap_eq_nil_iff.mpr fun t ht => by simp [ConsoleThread.lines, hrecords t ht]] at hlen
    exact List.length_eq_zero_iff.mp hlen
  refine ⟨hcalls,s.threads.map fun _ => [],[],?_,.done ?_,hbytes⟩
  · rw [List.forall₂_map_left_iff, List.forall₂_same]
    intro t ht
    rw [hrecords t ht]
    exact .nil
  · simp

/-- In every complete run of the threads, the default logger prints each record once as a
whole line exactly when there is no record to print. -/
theorem wholeRecords_iff {s : Console nonMutex}
    (h : run (step env) (init nonMutex calls) as = some s) (hdone : s.Done) :
    s.WholeRecords calls ↔ ∀ cs ∈ calls, ∀ c ∈ cs, printed c = false :=
  ⟨not_printed_of_wholeRecords h hdone,wholeRecords_of_not_printed h hdone⟩

end Console

/-- A system whose clocks stand still. -/
def frozenEnv : FormatEnv :=
  ⟨⟨Unit,fun _ => some (),fun _ _ _ => "[1970-01-01] 00:00:00".toList⟩,0,fun _ => 0⟩

/-- Steps of one thread. -/
def steps (thread count : ℕ) : List ConsoleAction := List.replicate count ⟨thread,fun _ => 0⟩

/-- A schedule that lets all calls return. -/
lemma exists_done (M : Lockable) (calls : List (List LogCall)) (as : List ConsoleAction)
    (h : ((run (Console.step frozenEnv) (Console.init M calls) as).map fun s => decide s.Done) =
      some true) :
    ∃ s, run (Console.step frozenEnv) (Console.init M calls) as = some s ∧ s.Done := by
  obtain ⟨s,hs,hd⟩ := Option.map_eq_some_iff.mp h
  exact ⟨s,hs,of_decide_eq_true hd⟩

theorem wholeRecords_iff_oneCall :
    ∃ s, run (Console.step frozenEnv) (Console.init nonMutex [[greeting]]) (steps 0 17) = some s ∧
      s.Done ∧ ¬s.WholeRecords [[greeting]] := by
  obtain ⟨s,hs,hdone⟩ := exists_done nonMutex [[greeting]] (steps 0 17) (by decide +kernel)
  refine ⟨s,hs,hdone,fun hw => ?_⟩
  have hc := (Console.wholeRecords_iff hs hdone).mp hw [greeting] (by simp) greeting (by simp)
  revert hc
  decide

/-- Two INFO calls, the second text written between the first and its end of line; and both
texts come twice. -/
theorem oneLinePerCall_fails :
    ¬∀ (env : FormatEnv) (calls : List (List LogCall)) (as : List ConsoleAction)
      (s : Console nonMutex), run (Console.step env) (Console.init nonMutex calls) as = some s →
      s.Done → s.WholeRecords calls := by
  intro hall
  obtain ⟨s,hs,hdone⟩ := exists_done nonMutex [[greeting],[greeting]]
    (steps 0 4 ++ steps 1 4 ++ steps 0 13 ++ steps 1 13) (by decide +kernel)
  have hc := Console.not_printed_of_wholeRecords hs hdone (hall _ _ _ s hs hdone) [greeting] (by simp)
    greeting (by simp)
  revert hc
  decide

end Astlog
