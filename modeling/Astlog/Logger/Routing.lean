import Astlog.Logger.SinkIt

/-! Loggers that share sinks, under any sequence of calls that move levels, add sinks and
log. What each sink receives is told from the history alone. -/
namespace Astlog

/-- A call on the logger `id`, or on a sink. -/
inductive RoutingOp
  | setLevel (id : ℕ) (level : Level)
  | setFlush (id : ℕ) (level : Level)
  | addSink (id : ℕ) (sink : SinkPtr)
  | sinkSetLevel (sink : SinkPtr) (level : Level)
  | log (id : ℕ) (c : LogCall)

/-- The loggers of a program, and the `m_level` of each sink. A plain `Logger` is the base
part of an `asyncLogger`. The program goes on after a call, so the texts of its calls fit. -/
structure Routing where
  loggers : ℕ → AsyncLogger
  levels : SinkPtr → Level

namespace Routing

/-- A member function of `Logger` on the logger `id`. -/
def onLogger (s : Routing) (id : ℕ) (f : Logger → Logger) : Routing :=
  { s with loggers := Function.update s.loggers id { s.loggers id with toLogger := f (s.loggers id).toLogger } }

/-- The state after a call. -/
def apply (s : Routing) : RoutingOp → Routing
  | .setLevel id level => s.onLogger id (·.setLevel level)
  | .setFlush id level => s.onLogger id (·.setFlush level)
  | .addSink id sink => s.onLogger id (·.addSink sink)
  | .sinkSetLevel sink level => { s with levels := Function.update s.levels sink level }
  | .log _ _ => s

/-- The calls that a call makes on sinks, if the loggers are plain ones. -/
def sinkCalls (s : Routing) : RoutingOp → List (SinkCall (List Char))
  | .log id c =>
    let l := (s.loggers id).toLogger
    (l.log l.mName (l.sinkIt s.levels) c).getD []
  | _ => []

/-- The messages it posts, if they are `asyncLogger`s with a live pool. -/
def posts (s : Routing) : RoutingOp → List (AsyncMsg (List Char))
  | .log id c =>
    let l := s.loggers id
    (l.log l.mName (l.sinkIt s.levels true) c).getD []
  | _ => []

/-- All calls on sinks of a sequence of calls. -/
def allSinkCalls (s : Routing) : List RoutingOp → List (SinkCall (List Char))
  | [] => []
  | op::ops => s.sinkCalls op ++ (s.apply op).allSinkCalls ops

/-- All posted messages. -/
def allPosts (s : Routing) : List RoutingOp → List (AsyncMsg (List Char))
  | [] => []
  | op::ops => s.posts op ++ (s.apply op).allPosts ops

section
variable (start : Routing) (past : List RoutingOp)

/-- The level of a logger: the last one set, or the one it started with. -/
def levelAt (id : ℕ) : Level :=
  (past.filterMap fun
    | .setLevel id' level => if id' = id then some level else none
    | _ => none).getLast?.getD (start.loggers id).mLevel

/-- The sinks of a logger: those it started with and those added, in order. -/
def sinksAt (id : ℕ) : List SinkPtr :=
  (start.loggers id).mSinks ++ past.filterMap fun
    | .addSink id' sink => if id' = id then some sink else none
    | _ => none

/-- The level of a sink. -/
def sinkLevelAt (k : SinkPtr) : Level :=
  (past.filterMap fun
    | .sinkSetLevel sink level => if sink = k then some level else none
    | _ => none).getLast?.getD (start.levels k)

/-- What sink `k` is to receive from a call: the message once for each registration with
the logger, if its level reaches that of the logger and that of the sink. -/
def deliveries (k : SinkPtr) : RoutingOp → List (LogMsg (List Char))
  | .log id c =>
    if c.level.atLeast (levelAt start past id) ∧ c.level.atLeast (sinkLevelAt start past k) then
      List.replicate ((sinksAt start past id).count k) (Logger.logmsgOf (start.loggers id).mName c)
    else []
  | _ => []

/-- What sink `k` is to receive from the calls that follow the past ones. -/
def allDeliveries (k : SinkPtr) (past : List RoutingOp) : List RoutingOp → List (LogMsg (List Char))
  | [] => []
  | op::ops => deliveries start past k op ++ allDeliveries k (past ++ [op]) ops

end

/-- The state is the one the past calls lead to. -/
structure Follows (start : Routing) (past : List RoutingOp) (s : Routing) : Prop where
  name : ∀ id, (s.loggers id).mName = (start.loggers id).mName
  level : ∀ id, (s.loggers id).mLevel = levelAt start past id
  sinks : ∀ id, (s.loggers id).mSinks = sinksAt start past id
  sinkLevel : ∀ k, s.levels k = sinkLevelAt start past k

lemma follows_start (start : Routing) : Follows start [] start where
  name _ := rfl
  level _ := rfl
  sinks _ := (List.append_nil _).symm
  sinkLevel _ := rfl

section
variable {start s : Routing} {past : List RoutingOp}

/-- What a call does to the name, the level and the sinks of a logger, and to the level of a
sink. -/
lemma loggers_apply (s : Routing) (op : RoutingOp) (id : ℕ) : ((s.apply op).loggers id).toLogger =
    match op with
    | .setLevel id' level =>
      if id' = id then (s.loggers id).toLogger.setLevel level else (s.loggers id).toLogger
    | .setFlush id' level =>
      if id' = id then (s.loggers id).toLogger.setFlush level else (s.loggers id).toLogger
    | .addSink id' sink =>
      if id' = id then (s.loggers id).toLogger.addSink sink else (s.loggers id).toLogger
    | _ => (s.loggers id).toLogger := by
  have hupdate : ∀ (id' : ℕ) (f : Logger → Logger), ((s.onLogger id' f).loggers id).toLogger =
      if id' = id then f (s.loggers id).toLogger else (s.loggers id).toLogger := by
    intro id' f
    simp only [onLogger, Function.update_apply]
    by_cases h : id' = id
    · simp [h]
    · simp [h, Ne.symm h]
  cases op with
  | setLevel id' level => exact hupdate id' (·.setLevel level)
  | setFlush id' level => exact hupdate id' (·.setFlush level)
  | addSink id' sink => exact hupdate id' (·.addSink sink)
  | sinkSetLevel sink level => rfl
  | log id' c => rfl

lemma levels_apply (s : Routing) (op : RoutingOp) (k : SinkPtr) : (s.apply op).levels k =
    match op with
    | .sinkSetLevel sink level => if sink = k then level else s.levels k
    | _ => s.levels k := by
  cases op with
  | sinkSetLevel sink level => simp only [apply, Function.update_apply, eq_comm]
  | _ => rfl

lemma levelAt_concat (op : RoutingOp) (id : ℕ) : levelAt start (past ++ [op]) id =
    match op with
    | .setLevel id' level => if id' = id then level else levelAt start past id
    | _ => levelAt start past id := by
  rw [levelAt, List.filterMap_append]
  cases op with
  | setLevel id' level =>
    by_cases h : id' = id
    · simp [h]
    · simp [h, levelAt]
  | _ => simp [levelAt]

lemma sinksAt_concat (op : RoutingOp) (id : ℕ) : sinksAt start (past ++ [op]) id =
    match op with
    | .addSink id' sink =>
      if id' = id then sinksAt start past id ++ [sink] else sinksAt start past id
    | _ => sinksAt start past id := by
  rw [sinksAt, List.filterMap_append]
  cases op with
  | addSink id' sink =>
    by_cases h : id' = id
    · simp [h, sinksAt]
    · simp [h, sinksAt]
  | _ => simp [sinksAt]

lemma sinkLevelAt_concat (op : RoutingOp) (k : SinkPtr) : sinkLevelAt start (past ++ [op]) k =
    match op with
    | .sinkSetLevel sink level => if sink = k then level else sinkLevelAt start past k
    | _ => sinkLevelAt start past k := by
  rw [sinkLevelAt, List.filterMap_append]
  cases op with
  | sinkSetLevel sink level =>
    by_cases h : sink = k
    · simp [h]
    · simp [h, sinkLevelAt]
  | _ => simp [sinkLevelAt]

lemma Follows.apply (h : Follows start past s) (op : RoutingOp) :
    Follows start (past ++ [op]) (s.apply op) where
  name id := by
    rw [loggers_apply, ← h.name id]
    cases op <;> dsimp only <;> (try split_ifs) <;> rfl
  level id := by
    rw [loggers_apply, levelAt_concat, ← h.level id]
    cases op <;> dsimp only <;> (try split_ifs) <;> rfl
  sinks id := by
    rw [loggers_apply, sinksAt_concat, ← h.sinks id]
    cases op <;> dsimp only <;> (try split_ifs) <;> rfl
  sinkLevel k := by rw [levels_apply, sinkLevelAt_concat, h.sinkLevel k]

end

/-- A loop over the sinks reaches sink `k` once for each registration. -/
lemma filterMap_filter_eq_replicate {β : Type} (keep : SinkPtr → Bool) (x : β) (k : SinkPtr)
    (sinks : List SinkPtr) :
    (sinks.filter keep).filterMap (fun sink => if sink = k then some x else none) =
      if keep k then List.replicate (sinks.count k) x else [] := by
  induction sinks with
  | nil => simp
  | cons sink sinks ih =>
    rw [List.count_cons, List.filter_cons]
    by_cases hsink : sink = k
    · subst hsink
      cases hk : keep sink with
      | true => simp [hk, ih, List.replicate_succ]
      | false => simpa [hk] using ih
    · cases hk : keep sink with
      | true => simpa [hk, hsink] using ih
      | false => simpa [hk, hsink] using ih

section
variable {start s : Routing} {past : List RoutingOp}

/-- A call delivers what the history says. -/
lemma sinkCalls_loggedBy (h : Follows start past s) (op : RoutingOp) (k : SinkPtr) :
    (s.sinkCalls op).filterMap (SinkCall.loggedBy k) = deliveries start past k op := by
  cases op with
  | log id c =>
    simp only [sinkCalls, deliveries, ← h.level id, ← h.sinks id, ← h.sinkLevel k, ← h.name id]
    set l := (s.loggers id).toLogger
    have hshould : l.shouldLog c.level = c.level.atLeast l.mLevel := rfl
    by_cases hlog : c.level.atLeast l.mLevel = true
    · have hloop := filterMap_filter_eq_replicate (sinkShouldLog s.levels c.level)
        (Logger.logmsgOf l.mName c) k l.mSinks
      rw [Logger.log, hshould, if_pos hlog, Option.getD_some, l.sinkIt_filterMap _ _ fun _ => rfl]
      simp only [hlog, true_and]
      exact hloop
    · rw [Logger.log, hshould, if_neg hlog, if_neg fun hc => hlog hc.1]
      rfl
  | _ => rfl

/-- The pair of a sink and a message that a call of its `log` is about. -/
def logged : SinkCall (List Char) → Option (SinkPtr × LogMsg (List Char))
  | .log sink msg => some (sink,msg)
  | .flush _ => none

/-- The other loop names the same pairs. -/
lemma posts_eq_logged (s : Routing) (op : RoutingOp) :
    (s.posts op).map (fun m => (m.mSinker,m.mMsg)) = (s.sinkCalls op).filterMap logged := by
  cases op with
  | log id c =>
    simp only [posts, sinkCalls, Logger.log]
    split
    · rw [Option.getD_some, Option.getD_some, AsyncLogger.sinkIt, if_pos rfl, List.map_map,
        Logger.sinkIt_filterMap _ _ _ fun _ => rfl]
      exact (congrFun List.filterMap_eq_map _).symm
    · rfl
  | _ => rfl

end

/-- From a state the past calls lead to. -/
lemma allSinkCalls_loggedBy {start s : Routing} {past : List RoutingOp} (h : Follows start past s)
    (k : SinkPtr) (ops : List RoutingOp) :
    (s.allSinkCalls ops).filterMap (SinkCall.loggedBy k) = start.allDeliveries k past ops := by
  induction ops generalizing s past with
  | nil => rfl
  | cons op ops ih =>
    rw [allSinkCalls, allDeliveries, List.filterMap_append, sinkCalls_loggedBy h, ih (h.apply op)]

lemma allPosts_eq_logged (s : Routing) (ops : List RoutingOp) :
    (s.allPosts ops).map (fun m => (m.mSinker,m.mMsg)) = (s.allSinkCalls ops).filterMap logged := by
  induction ops generalizing s with
  | nil => rfl
  | cons op ops ih =>
    rw [allPosts, allSinkCalls, List.map_append, List.filterMap_append, posts_eq_logged, ih]

/-- Both kinds of loggers route as the history says. -/
theorem routed (start : Routing) (ops : List RoutingOp) :
    (∀ k, (start.allSinkCalls ops).filterMap (SinkCall.loggedBy k) = start.allDeliveries k [] ops) ∧
    (start.allPosts ops).map (fun m => (m.mSinker,m.mMsg)) =
      (start.allSinkCalls ops).filterMap logged :=
  ⟨fun k => allSinkCalls_loggedBy (follows_start start) k ops,allPosts_eq_logged start ops⟩

end Routing
end Astlog
