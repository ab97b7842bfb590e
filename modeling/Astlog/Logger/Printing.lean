import Astlog.Foundation.Progress
import Astlog.Logger.WholeRecords

/-! What the default logger does print. A call that is not turned away is rendered twice, each time
in two `fwrite` calls, and the console shows the `fwrite` calls of the threads interleaved. -/
namespace Astlog
open Foundation

/-- What the `fwrite` calls of a line write. -/
def lineChunks (line : List Char) : List (List Char) := [line.dropLast,eol.take 1]

/-- What the step writes, as one piece. -/
def SinkOp.chunk : SinkOp → List (List Char)
  | fwrite b => [b]
  | _ => []

/-- The message of a call of the default logger. -/
def rootMsg (c : LogCall) : LogMsg (List Char) :=
  Logger.logmsgOf LoggerImpl.initialized.logger.mName c

/-- The colour sink makes the line of the message, at some time. -/
def Renders (env : FormatEnv) (msg : LogMsg (List Char)) (line : List Char) : Prop :=
  ∃ (caches : ThreadCaches) (now : ℕ → ℤ) (h : msg.mLevel.toIndex < Level.levelMax),
    line = (LoggerImpl.sink.sinkIt noCustom { env with now := now } caches msg h).1.flatten

/-- A call with both of its lines. -/
structure CallRecord.Full (env : FormatEnv) (r : CallRecord) : Prop where
  length_eq : r.lines.length = 2
  renders : ∀ line ∈ r.lines, Renders env (rootMsg r.call) line

namespace ConsoleThread

/-- What it has still to write, of the line in progress. -/
def pending (t : ConsoleThread) : List (List Char) := t.ops.flatMap SinkOp.chunk

/-- The pieces of all of its lines. -/
def chunks (t : ConsoleThread) : List (List Char) := t.lines.flatMap lineChunks

/-- Those it has written. -/
def written (t : ConsoleThread) : List (List Char) := t.chunks.take (t.chunks.length - t.pending.length)

/-- The call in progress, if any: of its two renderings those to come are still to be made. -/
structure InCall (env : FormatEnv) (t : ConsoleThread) (done : List CallRecord) (r : CallRecord) :
    Prop where
  records_eq : t.records = done ++ [r]
  full : ∀ d ∈ done, d.Full env
  count : r.lines.length + t.ops.countP SinkOp.isSinkIt = 2
  renders : ∀ line ∈ r.lines, Renders env (rootMsg r.call) line
  msg_eq : ∀ msg, .sinkIt msg ∈ t.ops → msg = rootMsg r.call

/-- What a thread has printed and has to print. -/
structure Printing (env : FormatEnv) (t : ConsoleThread) : Prop where
  /-- The `fwrite` calls of a line come next, before anything else is rendered. -/
  split : ∃ (bs : List (List Char)) (rest : List SinkOp),
    t.ops = bs.map .fwrite ++ rest ∧ rest.flatMap SinkOp.chunk = []
  suffix : t.pending <:+ t.chunks
  call : t.records = [] ∧ t.ops = [] ∨ ∃ done r, t.InCall env done r

end ConsoleThread

lemma chunk_flatten (op : SinkOp) : op.chunk.flatten = op.bytes := by
  cases op <;> simp [SinkOp.chunk, SinkOp.bytes]

/-- A call renders its own message. -/
lemma eq_rootMsg_of_mem {c : LogCall} {msg : LogMsg (List Char)} (h : .sinkIt msg ∈ callOps c) :
    msg = rootMsg c := by
  unfold callOps at h
  split at h <;> simpa [rootMsg] using h

lemma addLine_append (line : List Char) (done : List CallRecord) (r : CallRecord) :
    addLine line (done ++ [r]) = done ++ [{ r with lines := r.lines ++ [line] }] := by
  induction done with
  | nil => rfl
  | cons d done ih =>
    cases done with
    | nil => rfl
    | cons d' done =>
      rw [List.cons_append, List.cons_append, addLine, ← List.cons_append, ih]
      rfl

lemma Renders.eq_append {env : FormatEnv} {msg : LogMsg (List Char)} {line : List Char}
    (h : Renders env msg line) : line = line.dropLast ++ eol.take 1 := by
  obtain ⟨caches,now,hlevel,rfl⟩ := h
  simp [AnsicolorSink.sinkIt, eol]

namespace ConsoleThread
variable {env : FormatEnv} {t : ConsoleThread}

lemma written_of_eq_append {w : List (List Char)} (h : t.chunks = w ++ t.pending) : t.written = w := by
  rw [written, h, List.length_append, Nat.add_sub_cancel, List.take_left]

lemma Printing.eq_append (h : t.Printing env) : t.chunks = t.written ++ t.pending := by
  obtain ⟨w,hw⟩ := h.suffix
  rw [written_of_eq_append hw.symm, hw]

/-- Between two calls all lines are there. -/
lemma Printing.full (h : t.Printing env) (hops : t.ops = []) : ∀ r ∈ t.records, r.Full env := by
  obtain ⟨hnone,-⟩ | ⟨done,r,hcall⟩ := h.call
  · rw [hnone]
    exact fun r hr => nomatch hr
  · intro d hd
    rw [hcall.records_eq, List.mem_append, List.mem_singleton] at hd
    obtain hd | rfl := hd
    · exact hcall.full d hd
    · have hcount := hcall.count
      rw [hops, List.countP_nil] at hcount
      exact ⟨hcount,hcall.renders⟩

/-- A step other than a rendering. -/
lemma Printing.tail {op : SinkOp} {ops : List SinkOp} (h : t.Printing env) (hops : t.ops = op::ops)
    (hop : op.isSinkIt = false) :
    Printing env { t with ops := ops } ∧
      written { t with ops := ops } = t.written ++ op.chunk := by
  have hchunks : t.chunks = (t.written ++ op.chunk) ++ ops.flatMap SinkOp.chunk := by
    rw [h.eq_append, pending, hops, List.flatMap_cons, List.append_assoc]
  refine ⟨⟨?_,⟨_,hchunks.symm⟩,?_⟩,written_of_eq_append hchunks⟩
  · obtain ⟨bs,rest,hsplit,hrest⟩ := h.split
    rw [hops] at hsplit
    cases bs with
    | nil =>
      rw [List.map_nil, List.nil_append] at hsplit
      subst hsplit
      rw [List.flatMap_cons, List.append_eq_nil_iff] at hrest
      exact ⟨[],ops,rfl,hrest.2⟩
    | cons b bs =>
      rw [List.map_cons, List.cons_append] at hsplit
      cases hsplit
      exact ⟨bs,rest,rfl,hrest⟩
  · obtain ⟨-,hnil⟩ | ⟨done,r,hcall⟩ := h.call
    · exact absurd (hops.symm.trans hnil) (List.cons_ne_nil _ _)
    · have hcount := hcall.count
      rw [hops, List.countP_cons_of_neg (by simp [hop])] at hcount
      exact .inr ⟨done,r,hcall.records_eq,hcall.full,hcount,hcall.renders,fun msg hmsg =>
        hcall.msg_eq msg (hops ▸ List.mem_cons_of_mem _ hmsg)⟩

/-- A rendering: a line is there, all of it still to be written. -/
lemma Printing.render {msg : LogMsg (List Char)} {ops : List SinkOp} {line : List Char}
    (h : t.Printing env) (hops : t.ops = .sinkIt msg::ops) (hline : Renders env msg line)
    (caches : ThreadCaches) :
    let u := { t with
      ops := .fwrite line.dropLast::.fwrite (eol.take 1)::ops
      caches := caches
      records := addLine line t.records }
    Printing env u ∧ u.written = t.written := by
  intro u
  have hpending : ops.flatMap SinkOp.chunk = [] := by
    obtain ⟨bs,rest,hsplit,hrest⟩ := h.split
    rw [hops] at hsplit
    cases bs with
    | nil =>
      rw [List.map_nil, List.nil_append] at hsplit
      subst hsplit
      exact hrest
    | cons b bs => cases hsplit
  obtain ⟨-,hnil⟩ | ⟨done,r,hcall⟩ := h.call
  · exact absurd (hops.symm.trans hnil) (List.cons_ne_nil _ _)
  have hrecords : u.records = done ++ [{ r with lines := r.lines ++ [line] }] := by
    rw [← addLine_append, ← hcall.records_eq]
  have hchunks : u.chunks = t.written ++ u.pending := by
    have hold : t.chunks = t.written := by
      rw [h.eq_append, pending, hops, List.flatMap_cons, hpending]
      simp [SinkOp.chunk]
    have hnew : u.chunks = t.chunks ++ lineChunks line := by
      simp [chunks, lines, hrecords, hcall.records_eq]
    rw [hnew, hold]
    simp [u, pending, hpending, SinkOp.chunk, lineChunks]
  refine ⟨⟨⟨[line.dropLast,eol.take 1],ops,rfl,hpending⟩,⟨_,hchunks.symm⟩,.inr ⟨done,_,hrecords,hcall.full,
    ?_,?_,?_⟩⟩,written_of_eq_append hchunks⟩
  · have hcount := hcall.count
    rw [hops, List.countP_cons_of_pos rfl] at hcount
    simp only [u, List.length_append, List.length_singleton, List.countP_cons, SinkOp.isSinkIt]
    simp only [Bool.false_eq_true, if_false]
    omega
  · intro x hx
    obtain hx | hx := List.mem_append.mp hx
    · exact hcall.renders x hx
    · rw [List.mem_singleton.mp hx]
      exact hcall.msg_eq msg (by simp [hops]) ▸ hline
  · intro x hx
    exact hcall.msg_eq x (by simpa [u, hops] using Or.inr hx)

/-- A call that is begun. -/
lemma Printing.begin {c : LogCall} {calls : List LogCall} (h : t.Printing env) (hops : t.ops = []) :
    let u := { t with calls := calls, ops := callOps c, records := t.records ++ [⟨c,[]⟩] }
    Printing env u ∧ u.written = t.written := by
  intro u
  have hpending : (callOps c).flatMap SinkOp.chunk = [] := by
    unfold callOps
    split <;> rfl
  have hchunks : u.chunks = t.written ++ u.pending := by
    have hold := h.eq_append
    rw [pending, hops, List.flatMap_nil] at hold
    have hnew : u.chunks = t.chunks := by simp [u, chunks, lines]
    rw [hnew, hold, pending, hpending]
  refine ⟨⟨⟨[],callOps c,rfl,hpending⟩,⟨_,hchunks.symm⟩,.inr ⟨t.records,⟨c,[]⟩,?_⟩⟩,
    written_of_eq_append hchunks⟩
  refine ⟨rfl,h.full hops,(Nat.zero_add _).trans (countP_callOps c),
    fun _ hl => absurd hl List.not_mem_nil,?_⟩
  exact fun msg hmsg => eq_rootMsg_of_mem hmsg

end ConsoleThread

namespace Console
variable {M : Lockable} {env : FormatEnv} {s s' : Console M} {a : ConsoleAction}

/-- The console shows what the threads have written, interleaved. -/
structure Interleaved (env : FormatEnv) (s : Console M) : Prop where
  initialized : s.Initialized
  printing : ∀ t ∈ s.threads, t.Printing env
  merged : ∃ order, Merge (s.threads.map ConsoleThread.written) order ∧ s.bytes = order.flatten

/-- A thread in front of a rendering makes it. -/
lemma step_rendering {t : ConsoleThread} {msg : LogMsg (List Char)} {ops : List SinkOp}
    (ht : s.threads[a.thread]? = some t) (hops : t.ops = .sinkIt msg::ops)
    (h : s.step env a = some s') :
    ∃ line caches, Renders env msg line ∧ s' = { s with
      threads := s.threads.set a.thread { t with
        ops := .fwrite line.dropLast::.fwrite (eol.take 1)::ops
        caches := caches
        records := addLine line t.records } } := by
  rw [step, ht] at h
  simp only [hops, ConsoleThread.opStep] at h
  split at h
  · next hlevel =>
    let r := LoggerImpl.sink.sinkIt noCustom { env with now := a.now } t.caches msg hlevel
    have hchunks : r.1 = [r.1.flatten.dropLast,eol.take 1] := by
      simp [r, AnsicolorSink.sinkIt, eol]
    cases h
    refine ⟨r.1.flatten,r.2,⟨t.caches,a.now,hlevel,rfl⟩,?_⟩
    change _ = { s with threads := s.threads.set a.thread { t with
      ops := [r.1.flatten.dropLast,eol.take 1].map SinkOp.fwrite ++ ops
      caches := r.2
      records := addLine r.1.flatten t.records } }
    rw [← hchunks]
    simp only [List.append_nil]
    rfl
  · cases h

lemma Interleaved.set {t u : ConsoleThread} {i : ℕ} {c : List (List Char)} (hs : s.Interleaved env)
    (ht : s.threads[i]? = some t) (hc : c.length ≤ 1)
    (hu : u.Printing env ∧ u.written = t.written ++ c) (hinit : s'.Initialized)
    (hthreads : s'.threads = s.threads.set i u) (hbytes : s'.bytes = s.bytes ++ c.flatten) :
    s'.Interleaved env := by
  obtain ⟨hprint,hwritten⟩ := hu
  obtain ⟨order,hmerge,horder⟩ := hs.merged
  refine ⟨hinit,hthreads ▸ forall_mem_set hs.printing hprint,order ++ c,?_,?_⟩
  · rw [hthreads]
    match c, hc with
    | [], _ =>
      rw [List.append_nil] at hwritten ⊢
      rwa [map_set_eq ht hwritten]
    | [b], _ =>
      have hat : (s.threads.map ConsoleThread.written)[i]? = some t.written := by
        rw [List.getElem?_map, ht, Option.map_some]
      rw [List.map_set, hwritten]
      exact hmerge.snoc hat b
  · rw [hbytes, horder, List.flatten_append]

lemma Interleaved.step (hs : s.Interleaved env) (h : s.step env a = some s') :
    s'.Interleaved env := by
  obtain ⟨hinit,t,u,b,ht,hm,hthreads,hbytes⟩ := step_cases hs.initialized h
  have hprint := hs.printing t (List.mem_of_getElem? ht)
  cases hm with
  | @turnedAway c calls hops hcalls hc =>
    have hu : ConsoleThread.Printing env { t with calls := calls } :=
      ⟨hprint.split,hprint.suffix,hprint.call.imp_right fun ⟨done,r,h⟩ =>
        ⟨done,r,h.records_eq,h.full,h.count,h.renders,h.msg_eq⟩⟩
    exact hs.set (c := []) ht (Nat.zero_le 1) ⟨hu,(List.append_nil _).symm⟩ hinit hthreads hbytes
  | begun hops hcalls hc =>
    obtain ⟨hu,hw⟩ := hprint.begin hops
    exact hs.set (c := []) ht (Nat.zero_le 1) ⟨hu,hw.trans (List.append_nil _).symm⟩ hinit hthreads hbytes
  | @formatted msg ops hops text caches =>
    obtain ⟨line,caches',hline,rfl⟩ := step_rendering ht hops h
    obtain ⟨hu,hw⟩ := hprint.render hops hline caches'
    exact hs.set (c := []) ht (Nat.zero_le 1) ⟨hu,hw.trans (List.append_nil _).symm⟩ hinit rfl
      (List.append_nil _).symm
  | wrote hops =>
    refine hs.set ht le_rfl (hprint.tail hops rfl) hinit hthreads ?_
    rw [chunk_flatten]
    exact hbytes
  | @passed op ops hops hop hb =>
    refine hs.set ht ?_ (hprint.tail hops hop) hinit hthreads ?_
    · cases op <;> simp [SinkOp.chunk]
    · rw [chunk_flatten, hb, hbytes]

lemma interleaved_run {calls : List (List LogCall)} {as : List ConsoleAction}
    (h : run (step env) (init M calls) as = some s) : s.Interleaved env := by
  refine run_invariant (I := Interleaved env) (fun _ _ _ hs hst => hs.step hst) h ⟨rfl,?_,[],.done ?_,rfl⟩
  · intro t ht
    obtain ⟨cs,-,rfl⟩ := List.mem_map.mp ht
    exact ⟨⟨[],[],rfl,rfl⟩,List.nil_suffix,.inl ⟨rfl,rfl⟩⟩
  · intro w hw
    simp only [init, List.map_map, List.mem_map] at hw
    obtain ⟨cs,-,rfl⟩ := hw
    rfl

end Console

section Work
variable {t u : ConsoleThread} {b : List Char}

/-- The steps that a step inside the sink stands for: a rendering is followed by two `fwrite`s. -/
def SinkOp.work : SinkOp → ℕ
  | sinkIt _ => 3
  | _ => 1

/-- The steps left to a thread, at most. -/
def ConsoleThread.work (t : ConsoleThread) : ℕ := 17*t.calls.length + (t.ops.map SinkOp.work).sum

lemma ThreadMove.work_lt (hm : ThreadMove t u b) : u.work < t.work := by
  cases hm with
  | turnedAway hops hcalls hc =>
    simp only [ConsoleThread.work, hcalls, List.length_cons]
    omega
  | @begun c calls hops hcalls hc =>
    have hcall : ((callOps c).map SinkOp.work).sum ≤ 16 := by
      unfold callOps
      split <;> simp [SinkOp.work]
    simp only [ConsoleThread.work, hcalls, hops, List.length_cons, List.map_nil, List.sum_nil]
    omega
  | formatted hops text caches =>
    simp only [ConsoleThread.work, hops, List.map_cons, List.sum_cons, SinkOp.work]
    omega
  | wrote hops =>
    simp only [ConsoleThread.work, hops, List.map_cons, List.sum_cons, SinkOp.work]
    omega
  | @passed op ops hops hop hb =>
    have hwork : op.work = 1 := by
      cases op with
      | sinkIt msg => cases hop
      | _ => rfl
    simp only [ConsoleThread.work, hops, List.map_cons, List.sum_cons, hwork]
    omega

/-- The calls that the thread has to make are proper ones. -/
structure ConsoleThread.Proper (t : ConsoleThread) : Prop where
  calls : ∀ c ∈ t.calls, c.Proper
  ops : ∀ msg, .sinkIt msg ∈ t.ops → msg.mLevel ≠ .max

lemma ThreadMove.proper (hm : ThreadMove t u b) (h : t.Proper) : u.Proper := by
  cases hm with
  | turnedAway hops hcalls hc =>
    exact ⟨fun c hmem => h.calls c (hcalls ▸ List.mem_cons_of_mem _ hmem),h.ops⟩
  | @begun c calls hops hcalls hc =>
    refine ⟨fun c hmem => h.calls c (hcalls ▸ List.mem_cons_of_mem _ hmem),fun msg hmsg => ?_⟩
    rw [eq_rootMsg_of_mem hmsg]
    exact (h.calls c (hcalls ▸ List.mem_cons_self)).level
  | formatted hops text caches =>
    exact ⟨h.calls,fun msg hmsg => h.ops msg (by simpa [hops] using Or.inr hmsg)⟩
  | wrote hops => exact ⟨h.calls,fun msg hmsg => h.ops msg (hops ▸ List.mem_cons_of_mem _ hmsg)⟩
  | passed hops hop hb => exact ⟨h.calls,fun msg hmsg => h.ops msg (hops ▸ List.mem_cons_of_mem _ hmsg)⟩

end Work

namespace Console
variable {env : FormatEnv} {s s' : Console nonMutex} {a : ConsoleAction}

/-- The steps left, at most. -/
def work {M : Lockable} (s : Console M) : ℕ := (s.threads.map ConsoleThread.work).sum

/-- The statics are there, and all calls are proper ones. -/
def Ready {M : Lockable} (s : Console M) : Prop := s.Initialized ∧ ∀ t ∈ s.threads, t.Proper

lemma Ready.step (hs : s.Ready) (h : s.step env a = some s') : s'.Ready ∧ s'.work < s.work := by
  obtain ⟨hinit,t,u,b,ht,hm,hthreads,hbytes⟩ := step_cases hs.1 h
  have hproper := hs.2 t (List.mem_of_getElem? ht)
  have hsum := sum_map_set ht ConsoleThread.work u
  have hlt := hm.work_lt
  refine ⟨⟨hinit,hthreads ▸ forall_mem_set hs.2 (hm.proper hproper)⟩,?_⟩
  rw [work, work, hthreads]
  omega

/-- Nothing keeps a thread waiting: the mutex of the sink is no mutex. -/
lemma Ready.done_of_stuck (hs : s.Ready) (hstuck : Stuck (Console.step env) s) : s.Done := by
  intro t ht
  obtain ⟨i,hi⟩ := List.mem_iff_getElem?.mp ht
  have hnone := hstuck ⟨i,fun _ => 0⟩
  rw [Console.step, hi] at hnone
  cases hops : t.ops with
  | nil =>
    simp only [hops, Option.map_eq_none_iff] at hnone
    cases hcalls : t.calls with
    | nil => exact ⟨rfl,rfl⟩
    | cons c calls =>
      simp only [ConsoleThread.beginCall, hcalls] at hnone
      split at hnone <;> cases hnone
  | cons op ops =>
    simp only [hops, Option.map_eq_none_iff] at hnone
    cases op with
    | sinkIt msg =>
      have hlevel : msg.mLevel.toIndex < Level.levelMax := by
        have hne := (hs.2 t ht).ops msg (hops ▸ List.mem_cons_self)
        cases hm : msg.mLevel with
        | max => exact absurd hm hne
        | _ => decide
      rw [ConsoleThread.opStep, dif_pos hlevel] at hnone
      cases hnone
    | _ => cases hnone

/-- What a run has printed when all calls have returned: each call that was not turned away twice,
and the `fwrite` calls of the threads interleaved. -/
structure Prints {M : Lockable} (env : FormatEnv) (calls : List (List LogCall)) (s : Console M) :
    Prop where
  calls : s.threads.map (fun t => t.records.map CallRecord.call) = calls.map (List.filter printed)
  twice : ∀ t ∈ s.threads, ∀ r ∈ t.records, r.Full env
  merged : ∃ order, Merge (s.threads.map ConsoleThread.chunks) order ∧ s.bytes = order.flatten

lemma prints_of_done {M : Lockable} {s : Console M} {calls : List (List LogCall)}
    {as : List ConsoleAction} (h : run (Console.step env) (init M calls) as = some s)
    (hdone : s.Done) : s.Prints env calls := by
  have hs := interleaved_run h
  refine ⟨?_,fun t ht => (hs.printing t ht).full (hdone t ht).2,?_⟩
  · rw [← calls_run h]
    refine List.map_congr_left fun t ht => ?_
    rw [(hdone t ht).1, List.filter_nil, List.append_nil]
  · have hchunks : s.threads.map ConsoleThread.written = s.threads.map ConsoleThread.chunks := by
      refine List.map_congr_left fun t ht => ?_
      have heq := (hs.printing t ht).eq_append
      rw [ConsoleThread.pending, (hdone t ht).2, List.flatMap_nil, List.append_nil] at heq
      exact heq.symm
    rw [← hchunks]
    exact hs.merged

/-- A thread alone leaves whole lines. -/
theorem Prints.oneThread {M : Lockable} {s : Console M} {cs : List LogCall} (h : s.Prints env [cs]) :
    ∃ t, s.threads = [t] ∧ s.bytes = t.lines.flatten := by
  obtain ⟨t,ht⟩ : ∃ t, s.threads = [t] := by
    have hlen := congrArg List.length h.calls
    rw [List.length_map, List.length_map, List.length_singleton] at hlen
    exact List.length_eq_one_iff.mp hlen
  obtain ⟨order,hmerge,hbytes⟩ := h.merged
  rw [ht] at hmerge
  have hline : ∀ line ∈ t.lines, (lineChunks line).flatten = line := by
    intro line hl
    obtain ⟨r,hr,hl⟩ := List.mem_flatMap.mp hl
    have hrender := (h.twice t (by rw [ht]; exact List.mem_singleton_self t) r hr).renders line hl
    rw [lineChunks, List.flatten_cons, List.flatten_singleton]
    exact hrender.eq_append.symm
  refine ⟨t,ht,?_⟩
  have hpieces (ls : List (List Char)) : (ls.flatMap lineChunks).flatten =
      (ls.map fun line => (lineChunks line).flatten).flatten := by
    induction ls with
    | nil => rfl
    | cons line ls ih => simp [ih]
  rw [hbytes, hmerge.eq_of_singleton, ConsoleThread.chunks, hpieces, List.map_congr_left hline,
    List.map_id']

/-- The default logger always comes to an end with its calls, and then has printed what it has to. -/
structure PrintsTwice (env : FormatEnv) (calls : List (List LogCall)) (s : Console nonMutex) :
    Prop where
  bounded : ∀ as t, run (Console.step env) s as = some t → as.length + t.work ≤ s.work
  finishes : ∃ as t, run (Console.step env) s as = some t ∧ t.Done
  prints : ∀ as t, run (Console.step env) s as = some t → t.Done → t.Prints env calls

/-- Twice, and torn at most before an end of line. -/
theorem printsTwice_run {calls : List (List LogCall)} {as : List ConsoleAction}
    (hproper : ∀ cs ∈ calls, ∀ c ∈ cs, c.Proper)
    (h : run (Console.step env) (init nonMutex calls) as = some s) : s.PrintsTwice env calls := by
  have hstart : (init nonMutex calls).Ready := by
    refine ⟨rfl,fun t ht => ?_⟩
    obtain ⟨cs,hcs,rfl⟩ := List.mem_map.mp ht
    exact ⟨hproper cs hcs,nofun⟩
  have hready : s.Ready := run_invariant (fun _ _ _ hs hst => (hs.step hst).1) h hstart
  refine ⟨fun bs t hrun => run_length_le (fun _ _ _ hs hst => hs.step hst) hrun hready,?_,?_⟩
  · obtain ⟨bs,t,hrun,hstuck⟩ := exists_run_stuck (fun _ _ _ hs hst => hs.step hst) hready
    have ht : t.Ready := run_invariant (fun _ _ _ hs hst => (hs.step hst).1) hrun hready
    exact ⟨bs,t,hrun,ht.done_of_stuck hstuck⟩
  · intro bs t hrun hdone
    exact prints_of_done (run_append_eq_some.mpr ⟨s,h,hrun⟩) hdone

theorem printsTwice_twoThreads :
    ∃ s, run (Console.step frozenEnv) (init nonMutex [[greeting],[greeting]]) (steps 0 4 ++ steps 1 4) =
      some s ∧ s.PrintsTwice frozenEnv [[greeting],[greeting]] := by
  have hrun : (run (Console.step frozenEnv) (init nonMutex [[greeting],[greeting]])
      (steps 0 4 ++ steps 1 4)).isSome = true := by decide +kernel
  obtain ⟨s,hs⟩ := Option.isSome_iff_exists.mp hrun
  exact ⟨s,hs,printsTwice_run (by simp [greeting_proper]) hs⟩

end Console
end Astlog
