import Astlog.Foundation.Locking
import Astlog.Logger.Threads

/-! Threads that call loggers and sinks as they please. A sink has its mutex around what it does, but
`addSink` and `setColor` take none: which calls may meet in a data race is told from the calls alone.
Loads and stores of the levels are atomic and race with nothing. -/
namespace Astlog
open Foundation

/-- The type of a sink: `ansicolorSink` or `fileSink`, over a mutex or over `NonMutex`. -/
structure SinkType where
  colored : Bool
  excludes : Bool

/-- The data members that calls share. -/
inductive SharedMember
  | mSinks (logger : ℕ)
  | mFormatter (sink : SinkPtr)
  | mColorMap (sink : SinkPtr) (index : Fin Level.levelMax)
  deriving DecidableEq

abbrev SharedMember.Value (κ : Type) : SharedMember → Type
  | mSinks _ => List SinkPtr
  | mFormatter _ => PatternFormatter κ
  | mColorMap _ _ => List Char

/-- A level proper, which indexes the colour map. -/
abbrev ProperLevel : Type := {level : Level // level.toIndex < Level.levelMax}

def ProperLevel.index (level : ProperLevel) : Fin Level.levelMax := ⟨level.1.toIndex,level.2⟩

/-- The call, where it finds these sinks in the logger. -/
def LoggerCall.over (c : LoggerCall) (sinks : List SinkPtr) : LoggerCall :=
  { c with logger := { c.logger with mSinks := sinks } }

/-- A call of a member function of a logger or a sink. -/
inductive ApiCall (sinkOf : SinkPtr → SinkType) (κ : Type)
  | log (logger : ℕ) (c : LoggerCall) (proper : c.call.level.toIndex < Level.levelMax)
  | addSink (logger : ℕ) (sink : SinkPtr)
  | empty (logger : ℕ)
  | sinkLog (sink : SinkPtr) (msg : LogMsg (List Char)) (proper : msg.mLevel.toIndex < Level.levelMax)
  | flush (sink : SinkPtr)
  | sync (sink : SinkPtr)
  | setPattern (sink : SinkPtr) (pattern : List Char)
  | setFormatter (sink : SinkPtr) (formatter : PatternFormatter κ)
  | setColor (sink : SinkPtr) (hasMap : (sinkOf sink).colored = true)
      (list : List (ProperLevel × List Char))

/-- What a thread does inside the calls. -/
abbrev ApiProg (κ : Type) : Type := LockProg SinkPtr SharedMember (SharedMember.Value κ)

section
variable (sinkOf : SinkPtr → SinkType) {κ : Type} (ops : CustomOps κ)

/-- `lock_guard<Mutex>`, around what is done up to `p`. -/
def lockGuard (k : SinkPtr) (body : ApiProg κ → ApiProg κ) (p : ApiProg κ) : ApiProg κ :=
  if (sinkOf k).excludes then .lock k (body (.unlock k p)) else body p

/-- `sinkIt` of a sink, for a record of this level. -/
def sinkItProg (k : SinkPtr) (level : ProperLevel) (p : ApiProg κ) : ApiProg κ :=
  if (sinkOf k).colored then .read (.mColorMap k level.index) fun _ => .read (.mFormatter k) fun _ => p
  else .read (.mFormatter k) fun _ => p

/-- The loop over `m_sinks` in `Logger::sinkIt`, over the sinks from its iterator on. -/
def logLoop (l : ℕ) (c : LoggerCall) (level : ProperLevel) : List SinkPtr → ApiProg κ → ApiProg κ
  | [], p => p
  | k::ks, p =>
    .read (.mSinks l) fun _ =>
      if sinkShouldLog c.levels c.call.level k then
        lockGuard sinkOf k (sinkItProg sinkOf k level) (logLoop l c level ks p)
      else logLoop l c level ks p

/-- The loop in `Logger::flush`. -/
def flushLoop (l : ℕ) : List SinkPtr → ApiProg κ → ApiProg κ
  | [], p => p
  | k::ks, p => .read (.mSinks l) fun _ => lockGuard sinkOf k id (flushLoop l ks p)

/-- What a call does before the thread goes on with `p`. -/
def ApiCall.prog : ApiCall sinkOf κ → ApiProg κ → ApiProg κ
  | log l c proper, p =>
    if c.logger.shouldLog c.call.level then
      .read (.mSinks l) fun sinks =>
        logLoop sinkOf l c ⟨_,proper⟩ sinks
          (if c.logger.shouldFlush c.call.level then
            .read (.mSinks l) fun sinks => flushLoop sinkOf l sinks p
          else p)
    else p
  | addSink l k, p => .write (.mSinks l) (· ++ [k]) p
  | empty l, p => .read (.mSinks l) fun _ => p
  | sinkLog k _ proper, p => lockGuard sinkOf k (sinkItProg sinkOf k ⟨_,proper⟩) p
  | flush k, p => lockGuard sinkOf k id p
  | sync k, p => lockGuard sinkOf k id p
  | setPattern k pattern, p =>
    lockGuard sinkOf k (.write (.mFormatter k) fun _ => .construct ops pattern fun _ => none) p
  | setFormatter k formatter, p => lockGuard sinkOf k (.write (.mFormatter k) fun _ => formatter) p
  | setColor k _ list, p =>
    list.foldr (fun entry => .write (.mColorMap k entry.1.index) fun _ => entry.2) p

/-- A thread that makes the calls in turn. -/
def threadProg (calls : List (ApiCall sinkOf κ)) : ApiProg κ := calls.foldr (ApiCall.prog sinkOf ops) .done

/-- The mutex that goes with a member. -/
def guardOf : SharedMember → Option SinkPtr
  | .mFormatter k => if (sinkOf k).excludes then some k else none
  | _ => none

variable {sinkOf ops}

section Keeps
variable {k : SinkPtr} {p : ApiProg κ} {l : ℕ} {c : LoggerCall} {level : ProperLevel}

lemma keeps_lockGuard {body : ApiProg κ → ApiProg κ}
    (hbody : ∀ {q}, q.Keeps (guardOf sinkOf) (guardOf sinkOf (.mFormatter k)) →
      (body q).Keeps (guardOf sinkOf) (guardOf sinkOf (.mFormatter k)))
    (hp : p.Keeps (guardOf sinkOf) none) :
    (lockGuard sinkOf k body p).Keeps (guardOf sinkOf) none := by
  unfold lockGuard
  split_ifs with h
  · have hguard : guardOf sinkOf (.mFormatter k) = some k := if_pos h
    rw [hguard] at hbody
    exact ⟨rfl,hbody ⟨rfl,hp⟩⟩
  · have hguard : guardOf sinkOf (.mFormatter k) = none := if_neg h
    rw [hguard] at hbody
    exact hbody hp

lemma keeps_sinkItProg (hp : p.Keeps (guardOf sinkOf) (guardOf sinkOf (.mFormatter k))) :
    (sinkItProg sinkOf k level p).Keeps (guardOf sinkOf) (guardOf sinkOf (.mFormatter k)) := by
  unfold sinkItProg
  split_ifs
  · exact ⟨.inl rfl,fun _ => ⟨.inr ⟨rfl,fun _ _ => rfl⟩,fun _ => hp⟩⟩
  · exact ⟨.inr ⟨rfl,fun _ _ => rfl⟩,fun _ => hp⟩

lemma keeps_logLoop (hp : p.Keeps (guardOf sinkOf) none) (ks : List SinkPtr) :
    (logLoop sinkOf l c level ks p).Keeps (guardOf sinkOf) none := by
  induction ks with
  | nil => exact hp
  | cons k ks ih =>
    refine ⟨.inl rfl,fun _ => ?_⟩
    split_ifs
    · exact keeps_lockGuard keeps_sinkItProg ih
    · exact ih

lemma keeps_flushLoop (hp : p.Keeps (guardOf sinkOf) none) (ks : List SinkPtr) :
    (flushLoop sinkOf l ks p).Keeps (guardOf sinkOf) none := by
  induction ks with
  | nil => exact hp
  | cons k ks ih => exact ⟨.inl rfl,fun _ => keeps_lockGuard id ih⟩

/-- Every call follows the locking rules, and gives back what it took. -/
lemma ApiCall.keeps_prog (c : ApiCall sinkOf κ) (hp : p.Keeps (guardOf sinkOf) none) :
    (c.prog sinkOf ops p).Keeps (guardOf sinkOf) none := by
  cases c with
  | log l c proper =>
    rw [prog]
    split_ifs
    · refine ⟨.inl rfl,fun _ => ?_⟩
      apply keeps_logLoop
      exact ⟨.inl rfl,fun _ => keeps_flushLoop hp _⟩
    · exact ⟨.inl rfl,fun _ => keeps_logLoop hp _⟩
    · exact hp
  | addSink l k => exact ⟨rfl,hp⟩
  | empty l => exact ⟨.inl rfl,fun _ => hp⟩
  | sinkLog k msg proper => exact keeps_lockGuard keeps_sinkItProg hp
  | flush k | sync k => exact keeps_lockGuard id hp
  | setPattern k pattern | setFormatter k formatter =>
    exact keeps_lockGuard (fun hq => ⟨rfl,hq⟩) hp
  | setColor k hasMap list =>
    rw [prog]
    induction list with
    | nil => exact hp
    | cons entry list ih => exact ⟨rfl,ih⟩

lemma keeps_threadProg (calls : List (ApiCall sinkOf κ)) :
    (threadProg sinkOf ops calls).Keeps (guardOf sinkOf) none := by
  induction calls with
  | nil => rfl
  | cons c cs ih => exact c.keeps_prog ih

end Keeps

namespace ApiCall

/-- The call changes `m_sinks` of logger `l`. -/
def AddsTo (l : ℕ) : ApiCall sinkOf κ → Prop
  | addSink l' _ => l = l'
  | _ => False

/-- It goes through `m_sinks` of logger `l`, or asks whether it is empty. -/
def ReadsSinks (l : ℕ) : ApiCall sinkOf κ → Prop
  | log l' c _ => c.logger.shouldLog c.call.level ∧ l = l'
  | empty l' => l = l'
  | _ => False

/-- It sets an entry of the colour map of sink `k`. -/
def Recolors (k : SinkPtr) (i : Fin Level.levelMax) : ApiCall sinkOf κ → Prop
  | setColor k' _ list => ∃ entry ∈ list, k = k' ∧ i = entry.1.index
  | _ => False

/-- It gives sink `k` another formatter. -/
def Reformats (k : SinkPtr) : ApiCall sinkOf κ → Prop
  | setPattern k' _ => k = k'
  | setFormatter k' _ => k = k'
  | _ => False

/-- It logs to sink `k` at a level, where the loggers have these sinks. -/
def LogsTo (sinks : ℕ → List SinkPtr) (k : SinkPtr) (i : Fin Level.levelMax) :
    ApiCall sinkOf κ → Prop
  | log l c proper =>
    (∃ msg, .log k msg ∈ (c.over (sinks l)).sinkCalls) ∧ i = ProperLevel.index ⟨_,proper⟩
  | sinkLog k' _ proper => k = k' ∧ i = ProperLevel.index ⟨_,proper⟩
  | _ => False

/-- The sinks of the loggers after the call. -/
def sinksAfter (sinks : ℕ → List SinkPtr) : ApiCall sinkOf κ → ℕ → List SinkPtr
  | addSink l k => Function.update sinks l (sinks l ++ [k])
  | _ => sinks

end ApiCall

/-- A log call reaches the sinks of the logger that let its level pass. -/
lemma LoggerCall.log_mem_sinkCalls {c : LoggerCall} {k : SinkPtr} :
    (∃ msg, .log k msg ∈ c.sinkCalls) ↔ c.logger.shouldLog c.call.level = true ∧
      k ∈ c.logger.mSinks ∧ sinkShouldLog c.levels c.call.level k = true := by
  have hlevel : (Logger.logmsgOf c.logger.mName c.call).mLevel = c.call.level := rfl
  have hflush (msg : LogMsg (List Char)) : SinkCall.log k msg ∉ c.logger.flush := by
    simp [Logger.flush]
  rw [sinkCalls, Logger.log]
  split_ifs with h
  · simp [Logger.sinkIt, hlevel, hflush, h]
  · simp [h]

section Solo
variable {k : SinkPtr} {p : ApiProg κ} {l : ℕ} {c : LoggerCall} {level : ProperLevel}
  {m : ∀ x, SharedMember.Value κ x}

/-- The reads of `sinkIt` of a sink. -/
def sinkItReads (sinkOf : SinkPtr → SinkType) (k : SinkPtr) (level : ProperLevel) :
    List (SharedMember × Bool) :=
  (if (sinkOf k).colored then [(.mColorMap k level.index,false)] else []) ++ [(.mFormatter k,false)]

lemma solo_sinkItProg :
    (sinkItProg sinkOf k level p).solo m = sinkItReads sinkOf k level ++ p.solo m := by
  unfold sinkItProg sinkItReads
  split_ifs <;> rfl

/-- The mutex does not show in what the thread accesses. -/
lemma solo_lockGuard {body : ApiProg κ → ApiProg κ}
    (hbody : (body (.unlock k p)).solo m = (body p).solo m) :
    (lockGuard sinkOf k body p).solo m = (body p).solo m := by
  unfold lockGuard
  split_ifs
  · exact hbody
  · rfl

lemma solo_guarded_sinkItProg :
    (lockGuard sinkOf k (sinkItProg sinkOf k level) p).solo m =
      sinkItReads sinkOf k level ++ p.solo m := by
  rw [solo_lockGuard, solo_sinkItProg]
  rw [solo_sinkItProg, solo_sinkItProg]
  rfl

/-- The loop reads `m_sinks` for each sink, and what those that let the level pass need. -/
lemma mem_solo_logLoop (ks : List SinkPtr) {a : SharedMember × Bool} :
    a ∈ (logLoop sinkOf l c level ks p).solo m ↔
      (ks ≠ [] ∧ a = (.mSinks l,false)) ∨
      (∃ k, (k ∈ ks ∧ sinkShouldLog c.levels c.call.level k = true) ∧ a ∈ sinkItReads sinkOf k level) ∨
      a ∈ p.solo m := by
  induction ks with
  | nil => simp [logLoop]
  | cons k ks ih =>
    rw [logLoop, LockProg.solo, List.mem_cons]
    split_ifs with hk
    · rw [solo_guarded_sinkItProg, List.mem_append, ih]
      simp only [List.mem_cons, or_and_right, exists_or, and_assoc, exists_eq_left, hk]
      grind
    · rw [ih]
      simp only [List.mem_cons, or_and_right, exists_or, and_assoc, exists_eq_left, hk]
      grind

lemma mem_solo_flushLoop (ks : List SinkPtr) {a : SharedMember × Bool} :
    a ∈ (flushLoop sinkOf l ks p).solo m ↔
      (ks ≠ [] ∧ a = (.mSinks l,false)) ∨ a ∈ p.solo m := by
  induction ks with
  | nil => simp [flushLoop]
  | cons k ks ih =>
    rw [flushLoop, LockProg.solo, List.mem_cons, solo_lockGuard rfl, id, ih]
    tauto

lemma solo_setColor (list : List (ProperLevel × List Char)) :
    ∃ m' : ∀ x, SharedMember.Value κ x, (∀ l, m' (.mSinks l) = m (.mSinks l)) ∧
      (list.foldr (fun entry => .write (.mColorMap k entry.1.index) fun _ => entry.2) p).solo m =
        list.map (fun entry => (.mColorMap k entry.1.index,true)) ++ p.solo m' := by
  induction list generalizing m with
  | nil => exact ⟨m,fun _ => rfl,rfl⟩
  | cons entry list ih =>
    obtain ⟨m',hm',hsolo⟩ := ih (m := Function.update m (.mColorMap k entry.1.index) entry.2)
    refine ⟨m',fun l => ?_,?_⟩
    · rw [hm', Function.update_of_ne (by simp)]
    · rw [List.foldr_cons, LockProg.solo, hsolo]
      rfl

lemma mem_sinkItReads {a : SharedMember × Bool} : a ∈ sinkItReads sinkOf k level ↔
    (sinkOf k).colored = true ∧ a = (.mColorMap k level.index,false) ∨ a = (.mFormatter k,false) := by
  unfold sinkItReads
  split_ifs with h <;> simp [h]

namespace ApiCall

/-- The accesses of a call, where the loggers have these sinks. -/
def Accesses (sinks : ℕ → List SinkPtr) : ApiCall sinkOf κ → SharedMember × Bool → Prop
  | log l c proper, a => c.logger.shouldLog c.call.level = true ∧ a = (.mSinks l,false) ∨
      ∃ k, (∃ msg, .log k msg ∈ (c.over (sinks l)).sinkCalls) ∧ a ∈ sinkItReads sinkOf k ⟨_,proper⟩
  | addSink l _, a => a = (.mSinks l,true)
  | empty l, a => a = (.mSinks l,false)
  | sinkLog k _ proper, a => a ∈ sinkItReads sinkOf k ⟨_,proper⟩
  | flush _, _ => False
  | sync _, _ => False
  | setPattern k _, a => a = (.mFormatter k,true)
  | setFormatter k _, a => a = (.mFormatter k,true)
  | setColor k _ list, a => ∃ entry ∈ list, a = (.mColorMap k entry.1.index,true)

lemma mem_solo_log (proper : c.call.level.toIndex < Level.levelMax) (a : SharedMember × Bool) :
    a ∈ ((log l c proper : ApiCall sinkOf κ).prog sinkOf ops p).solo m ↔
      (log l c proper : ApiCall sinkOf κ).Accesses (fun l => m (.mSinks l)) a ∨ a ∈ p.solo m := by
  have hreach (k : SinkPtr) : (∃ msg, .log k msg ∈ (c.over (m (.mSinks l))).sinkCalls) ↔
      c.logger.shouldLog c.call.level = true ∧ k ∈ m (.mSinks l) ∧
        sinkShouldLog c.levels c.call.level k = true := LoggerCall.log_mem_sinkCalls
  simp only [Accesses, hreach]
  rw [prog]
  split_ifs with h hflush
  · simp only [LockProg.solo, List.mem_cons, mem_solo_logLoop, mem_solo_flushLoop, h, true_and]
    grind
  · simp only [LockProg.solo, List.mem_cons, mem_solo_logLoop, h, true_and]
    grind
  · simp [h]

/-- What a thread accesses, alone: what the call accesses, and what it accesses from there on. -/
lemma mem_solo_prog (c : ApiCall sinkOf κ) :
    ∃ m' : ∀ x, SharedMember.Value κ x,
      (∀ l, m' (.mSinks l) = c.sinksAfter (fun l => m (.mSinks l)) l) ∧
        ∀ a, a ∈ (c.prog sinkOf ops p).solo m ↔
          c.Accesses (fun l => m (.mSinks l)) a ∨ a ∈ p.solo m' := by
  cases c with
  | log l c proper => exact ⟨m,fun _ => rfl,mem_solo_log proper⟩
  | addSink l k =>
    refine ⟨Function.update m (.mSinks l) (m (.mSinks l) ++ [k]),fun l' => ?_,fun a => List.mem_cons⟩
    by_cases hl : l' = l
    · subst hl
      rw [Function.update_self, sinksAfter, Function.update_self]
    · rw [Function.update_of_ne (by simpa using hl), sinksAfter, Function.update_of_ne hl]
  | empty l => exact ⟨m,fun _ => rfl,fun a => List.mem_cons⟩
  | sinkLog k msg proper =>
    refine ⟨m,fun _ => rfl,fun a => ?_⟩
    rw [prog, solo_guarded_sinkItProg, List.mem_append]
    rfl
  | flush k | sync k =>
    refine ⟨m,fun _ => rfl,fun a => ?_⟩
    rw [prog, solo_lockGuard rfl]
    simp [Accesses]
  | setPattern k pattern =>
    refine ⟨Function.update m (.mFormatter k) (.construct ops pattern fun _ => none),fun l => ?_,
      fun a => ?_⟩
    · exact Function.update_of_ne (by simp) _ _
    · rw [prog, solo_lockGuard rfl]
      exact List.mem_cons
  | setFormatter k formatter =>
    refine ⟨Function.update m (.mFormatter k) formatter,fun l => ?_,fun a => ?_⟩
    · exact Function.update_of_ne (by simp) _ _
    · rw [prog, solo_lockGuard rfl]
      exact List.mem_cons
  | setColor k hasMap list =>
    obtain ⟨m',hm',hsolo⟩ := solo_setColor (k := k) (p := p) (m := m) list
    refine ⟨m',hm',fun a => ?_⟩
    rw [prog, hsolo, List.mem_append, List.mem_map]
    simp only [Accesses, eq_comm]

variable {sinks : ℕ → List SinkPtr} {c : ApiCall sinkOf κ} {i : Fin Level.levelMax}

lemma accesses_mSinks_true : c.Accesses sinks (.mSinks l,true) ↔ c.AddsTo l := by
  cases c <;> simp [Accesses, AddsTo, mem_sinkItReads]

lemma accesses_mSinks_false : c.Accesses sinks (.mSinks l,false) ↔ c.ReadsSinks l := by
  cases c <;> simp [Accesses, ReadsSinks, mem_sinkItReads]

lemma accesses_mColorMap_true : c.Accesses sinks (.mColorMap k i,true) ↔ c.Recolors k i := by
  cases c <;> simp [Accesses, Recolors, mem_sinkItReads]

lemma accesses_mColorMap_false :
    c.Accesses sinks (.mColorMap k i,false) ↔ (sinkOf k).colored = true ∧ c.LogsTo sinks k i := by
  cases c with
  | log l c proper => simp [Accesses, LogsTo, mem_sinkItReads, and_left_comm]
  | sinkLog k' msg proper =>
    simp only [Accesses, LogsTo, mem_sinkItReads, Prod.mk.injEq, reduceCtorEq,
      or_false, SharedMember.mColorMap.injEq, and_true]
    constructor
    · rintro ⟨hcolored,rfl,rfl⟩
      exact ⟨hcolored,rfl,rfl⟩
    · rintro ⟨hcolored,rfl,rfl⟩
      exact ⟨hcolored,rfl,rfl⟩
  | _ => simp [Accesses, LogsTo]

lemma accesses_mFormatter_true : c.Accesses sinks (.mFormatter k,true) ↔ c.Reformats k := by
  cases c <;> simp [Accesses, Reformats, mem_sinkItReads]

lemma accesses_mFormatter_false :
    c.Accesses sinks (.mFormatter k,false) ↔ ∃ i, c.LogsTo sinks k i := by
  cases c <;> simp [Accesses, LogsTo, mem_sinkItReads]

end ApiCall
end Solo

/-- Some call of a thread is as told, where the loggers have these sinks and those that the thread
itself has added before. -/
def SomeCall (P : (ℕ → List SinkPtr) → ApiCall sinkOf κ → Prop) (sinks : ℕ → List SinkPtr) :
    List (ApiCall sinkOf κ) → Prop
  | [] => False
  | c::cs => P sinks c ∨ SomeCall P (c.sinksAfter sinks) cs

section SomeCall
variable {sinks : ℕ → List SinkPtr} {calls : List (ApiCall sinkOf κ)}

lemma someCall_const {P : ApiCall sinkOf κ → Prop} :
    SomeCall (fun _ => P) sinks calls ↔ ∃ c ∈ calls, P c := by
  induction calls generalizing sinks with
  | nil => simp [SomeCall]
  | cons c cs ih => simp [SomeCall, ih]

lemma someCall_congr {P Q : (ℕ → List SinkPtr) → ApiCall sinkOf κ → Prop}
    (h : ∀ sinks c, P sinks c ↔ Q sinks c) : SomeCall P sinks calls ↔ SomeCall Q sinks calls := by
  induction calls generalizing sinks with
  | nil => rfl
  | cons c cs ih => rw [SomeCall, SomeCall, h, ih]

lemma someCall_exists {β : Type} {P : β → (ℕ → List SinkPtr) → ApiCall sinkOf κ → Prop} :
    SomeCall (fun sinks c => ∃ b, P b sinks c) sinks calls ↔ ∃ b, SomeCall (P b) sinks calls := by
  induction calls generalizing sinks with
  | nil => simp [SomeCall]
  | cons c cs ih => simp [SomeCall, ih, exists_or]

lemma someCall_and {p : Prop} {P : (ℕ → List SinkPtr) → ApiCall sinkOf κ → Prop} :
    SomeCall (fun sinks c => p ∧ P sinks c) sinks calls ↔ p ∧ SomeCall P sinks calls := by
  induction calls generalizing sinks with
  | nil => simp [SomeCall]
  | cons c cs ih => simp [SomeCall, ih, and_or_left]

lemma mem_solo_threadProg {m : ∀ x, SharedMember.Value κ x} {a : SharedMember × Bool} :
    a ∈ (threadProg sinkOf ops calls).solo m ↔
      SomeCall (fun sinks c => c.Accesses sinks a) (fun l => m (.mSinks l)) calls := by
  induction calls generalizing m with
  | nil => simp [SomeCall, threadProg, LockProg.solo]
  | cons c cs ih =>
    obtain ⟨m',hm',hmem⟩ := c.mem_solo_prog (p := threadProg sinkOf ops cs) (m := m)
    rw [SomeCall, ← funext hm', ← ih]
    exact hmem a

end SomeCall

/-- A thread logs to sink `k` at a level. -/
def ThreadLogsTo (sinks : ℕ → List SinkPtr) (k : SinkPtr) (i : Fin Level.levelMax) :
    List (ApiCall sinkOf κ) → Prop :=
  SomeCall (fun sinks c => c.LogsTo sinks k i) sinks

/-- Thread `ds` keeps away from what thread `cs` changes: a logger that `cs` adds sinks to, a colour
that `cs` sets, and, where the sink has no mutex, a formatter that `cs` replaces. -/
structure Apart (sinks : ℕ → List SinkPtr) (cs ds : List (ApiCall sinkOf κ)) : Prop where
  mSinks : ∀ l, (∃ c ∈ cs, c.AddsTo l) → ∀ d ∈ ds, ¬d.AddsTo l ∧ ¬d.ReadsSinks l
  mColorMap : ∀ k i, (∃ c ∈ cs, c.Recolors k i) →
    (∀ d ∈ ds, ¬d.Recolors k i) ∧ ¬ThreadLogsTo sinks k i ds
  mFormatter : ∀ k, (sinkOf k).excludes = false → (∃ c ∈ cs, c.Reformats k) →
    (∀ d ∈ ds, ¬d.Reformats k) ∧ ∀ i, ¬ThreadLogsTo sinks k i ds

lemma ApiCall.Recolors.colored {c : ApiCall sinkOf κ} {k : SinkPtr} {i : Fin Level.levelMax}
    (h : c.Recolors k i) : (sinkOf k).colored = true := by
  cases c with
  | setColor k' hasMap list =>
    obtain ⟨entry,-,rfl,-⟩ := h
    exact hasMap
  | _ => exact h.elim

variable {ι : Type} {m : ∀ x, SharedMember.Value κ x} {calls : List (ApiCall sinkOf κ)}

section Members
variable {l : ℕ} {k : SinkPtr} {i : Fin Level.levelMax}

lemma mem_solo_mSinks_true : (.mSinks l,true) ∈ (threadProg sinkOf ops calls).solo m ↔
    ∃ c ∈ calls, c.AddsTo l := by
  rw [mem_solo_threadProg, someCall_congr fun _ _ => ApiCall.accesses_mSinks_true, someCall_const]

lemma mem_solo_mSinks_false : (.mSinks l,false) ∈ (threadProg sinkOf ops calls).solo m ↔
    ∃ c ∈ calls, c.ReadsSinks l := by
  rw [mem_solo_threadProg, someCall_congr fun _ _ => ApiCall.accesses_mSinks_false, someCall_const]

lemma mem_solo_mColorMap_true : (.mColorMap k i,true) ∈ (threadProg sinkOf ops calls).solo m ↔
    ∃ c ∈ calls, c.Recolors k i := by
  rw [mem_solo_threadProg, someCall_congr fun _ _ => ApiCall.accesses_mColorMap_true, someCall_const]

lemma mem_solo_mColorMap_false : (.mColorMap k i,false) ∈ (threadProg sinkOf ops calls).solo m ↔
    (sinkOf k).colored = true ∧ ThreadLogsTo (fun l => m (.mSinks l)) k i calls := by
  rw [mem_solo_threadProg, someCall_congr fun _ _ => ApiCall.accesses_mColorMap_false, someCall_and]
  rfl

lemma mem_solo_mFormatter_true : (.mFormatter k,true) ∈ (threadProg sinkOf ops calls).solo m ↔
    ∃ c ∈ calls, c.Reformats k := by
  rw [mem_solo_threadProg, someCall_congr fun _ _ => ApiCall.accesses_mFormatter_true, someCall_const]

lemma mem_solo_mFormatter_false : (.mFormatter k,false) ∈ (threadProg sinkOf ops calls).solo m ↔
    ∃ i, ThreadLogsTo (fun l => m (.mSinks l)) k i calls := by
  rw [mem_solo_threadProg, someCall_congr fun _ _ => ApiCall.accesses_mFormatter_false,
    someCall_exists]
  rfl

end Members

section Clash
variable {calls : ι → List (ApiCall sinkOf κ)}

lemma apart_of_forall_not_clash
    (h : ∀ x, ¬Locking.Clash (guardOf sinkOf) (fun i => (threadProg sinkOf ops (calls i)).solo m) x)
    {i j : ι} (hij : i ≠ j) : Apart (fun l => m (.mSinks l)) (calls i) (calls j) := by
  refine ⟨fun l hadd d hd => ⟨fun hadd' => ?_,fun hread => ?_⟩,
    fun k v hset => ⟨fun d hd hset' => ?_,fun hlog => ?_⟩,
    fun k hmtx hset => ⟨fun d hd hset' => ?_,fun v hlog => ?_⟩⟩
  · exact h (.mSinks l) ⟨rfl,i,j,hij,mem_solo_mSinks_true.mpr hadd,true,
      mem_solo_mSinks_true.mpr ⟨d,hd,hadd'⟩⟩
  · exact h (.mSinks l) ⟨rfl,i,j,hij,mem_solo_mSinks_true.mpr hadd,false,
      mem_solo_mSinks_false.mpr ⟨d,hd,hread⟩⟩
  · exact h (.mColorMap k v) ⟨rfl,i,j,hij,mem_solo_mColorMap_true.mpr hset,true,
      mem_solo_mColorMap_true.mpr ⟨d,hd,hset'⟩⟩
  · have hcolored : (sinkOf k).colored = true := hset.elim fun _ hc => hc.2.colored
    exact h (.mColorMap k v) ⟨rfl,i,j,hij,mem_solo_mColorMap_true.mpr hset,false,
      mem_solo_mColorMap_false.mpr ⟨hcolored,hlog⟩⟩
  · exact h (.mFormatter k) ⟨by simp [guardOf, hmtx],i,j,hij,mem_solo_mFormatter_true.mpr hset,true,
      mem_solo_mFormatter_true.mpr ⟨d,hd,hset'⟩⟩
  · exact h (.mFormatter k) ⟨by simp [guardOf, hmtx],i,j,hij,mem_solo_mFormatter_true.mpr hset,false,
      mem_solo_mFormatter_false.mpr ⟨v,hlog⟩⟩

lemma not_clash_of_apart
    (h : ∀ i j, i ≠ j → Apart (fun l => m (.mSinks l)) (calls i) (calls j)) (x : SharedMember) :
    ¬Locking.Clash (guardOf sinkOf) (fun i => (threadProg sinkOf ops (calls i)).solo m) x := by
  rintro ⟨hguard,i,j,hij,hi,w,hj⟩
  have hapart := h i j hij
  cases x with
  | mSinks l =>
    have hadd := mem_solo_mSinks_true.mp hi
    cases w with
    | true =>
      obtain ⟨d,hd,hadd'⟩ := mem_solo_mSinks_true.mp hj
      exact (hapart.mSinks l hadd d hd).1 hadd'
    | false =>
      obtain ⟨d,hd,hread⟩ := mem_solo_mSinks_false.mp hj
      exact (hapart.mSinks l hadd d hd).2 hread
  | mColorMap k v =>
    have hset := mem_solo_mColorMap_true.mp hi
    cases w with
    | true =>
      obtain ⟨d,hd,hset'⟩ := mem_solo_mColorMap_true.mp hj
      exact (hapart.mColorMap k v hset).1 d hd hset'
    | false => exact (hapart.mColorMap k v hset).2 (mem_solo_mColorMap_false.mp hj).2
  | mFormatter k =>
    have hmtx : (sinkOf k).excludes = false := by simpa [guardOf] using hguard
    have hset := mem_solo_mFormatter_true.mp hi
    cases w with
    | true =>
      obtain ⟨d,hd,hset'⟩ := mem_solo_mFormatter_true.mp hj
      exact (hapart.mFormatter k hmtx hset).1 d hd hset'
    | false =>
      obtain ⟨v,hlog⟩ := mem_solo_mFormatter_false.mp hj
      exact (hapart.mFormatter k hmtx hset).2 v hlog

end Clash

/-- No data race, in any run, just if each thread keeps away from what the others change. -/
theorem callsRaceFree_iff [DecidableEq ι] {calls : ι → List (ApiCall sinkOf κ)} :
    (∀ as s, run Locking.step (.init m fun i => threadProg sinkOf ops (calls i)) as = some s →
        ∀ x, ¬s.Races x) ↔
      ∀ i j, i ≠ j → Apart (fun l => m (.mSinks l)) (calls i) (calls j) := by
  have hkeeps (i : ι) : (threadProg sinkOf ops (calls i)).Keeps (guardOf sinkOf) none :=
    keeps_threadProg (calls i)
  have hraces := Locking.exists_races_iff (m := m) hkeeps
  constructor
  · intro h i j hij
    apply apart_of_forall_not_clash
    · intro x hclash
      obtain ⟨as,s,y,hrun,hrace⟩ := hraces.mpr ⟨x,hclash⟩
      exact h as s hrun y hrace
    · exact hij
  · intro h as s hrun x hrace
    obtain ⟨y,hclash⟩ := hraces.mp ⟨as,s,x,hrun,hrace⟩
    exact not_clash_of_apart h y hclash

end
end Astlog
