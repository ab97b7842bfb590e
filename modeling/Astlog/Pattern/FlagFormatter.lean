import Astlog.Pattern.Padder

/-! The formatters of the pattern flags. The C library's time functions and the clock
are parameters; the per-thread cache of the time field is explicit state. -/
namespace Astlog

/-- `localtime_r`, which can fail, and the string `strftime` leaves in a buffer of the
given size. -/
structure LibC where
  Tm : Type
  localtime : ℤ → Option Tm
  strftime : ℕ → List Char → Tm → List Char

/-- The `static thread_local` pair of one instantiation of `timeFormatter`. -/
structure TimeCache where
  lastTime : ℤ := 0
  cachedTime : List Char := []
  deriving DecidableEq

/-- The caches of a thread: each padder type instantiates its own. -/
structure ThreadCaches where
  padded : TimeCache := {}
  unpadded : TimeCache := {}
  deriving DecidableEq

namespace ThreadCaches

def get (c : ThreadCaches) : Padder → TimeCache
  | .scopedPadder => c.padded
  | .nullScopedPadder => c.unpadded

def set (c : ThreadCaches) (k : Padder) (t : TimeCache) : ThreadCaches :=
  match k with
  | .scopedPadder => { c with padded := t }
  | .nullScopedPadder => { c with unpadded := t }

end ThreadCaches

/-- What a formatter reads besides the message: the C library, the process start
`m_timeStart`, and the successive readings of `clock::now()`. -/
structure FormatEnv where
  libc : LibC
  timeStart : ℤ
  now : ℕ → ℤ

/-- What a formatter changes: the buffer, the colour range of the message (its two
`mutable` fields), the thread's caches, and how often the clock was read. -/
structure FormatState where
  msg : LogMsg (List Char)
  dest : FormatterBuf
  caches : ThreadCaches := {}
  clockReads : ℕ := 0
  deriving DecidableEq

/-- The virtual functions of a `customFormatter` subclass. -/
structure CustomOps (κ : Type) where
  format : FormatEnv → κ → PaddingInfo → FormatState → FormatState
  clone : κ → κ

/-- A compiled formatter, with the arguments of its constructor. -/
inductive FlagFormatter (κ : Type)
  | name (k : Padder) (padInfo : PaddingInfo)
  | level (k : Padder) (padInfo : PaddingInfo)
  | time (k : Padder) (padInfo : PaddingInfo) (timeFormat : List Char)
  | milliseconds (k : Padder) (padInfo : PaddingInfo)
  | timeElapsed (k : Padder) (padInfo : PaddingInfo) (unit : List Char)
  | threadId (k : Padder) (padInfo : PaddingInfo)
  | location (k : Padder) (padInfo : PaddingInfo) (mode : ℕ)
  | msg (k : Padder) (padInfo : PaddingInfo)
  | str (k : Padder) (padInfo : PaddingInfo) (text : List Char)
  | colorStart (padInfo : PaddingInfo)
  | colorStop (padInfo : PaddingInfo)
  | custom (handler : κ) (padInfo : PaddingInfo)
  deriving DecidableEq

/-- `std::to_string` of an unsigned value. -/
def toDecimal (n : ℕ) : List Char := Nat.toDigits 10 n

/-- The loop of `countDigit`; each round divides by 10000, so `t` rounds are enough. -/
def countDigitLoop : ℕ → ℕ → ℕ → ℕ
  | 0, _, count => count
  | fuel+1, t, count =>
    if t < 10 then count
    else if t < 100 then count+1
    else if t < 1000 then count+2
    else if t < 10000 then count+3
    else countDigitLoop fuel (t/10000) (count+4)

def countDigit (t : ℕ) : ℕ := countDigitLoop (t+1) t 1

/-- Conversion of a count to `uint64_t`. -/
def toUInt64 (x : ℤ) : ℕ := (x % 2^64).toNat

/-- `filename.substr(filename.rfind('/') + 1)`. -/
def baseName (filename : List Char) : List Char :=
  (filename.reverse.takeWhile (· ≠ '/')).reverse

/-- The text of `locationFormatter`, by the bits of its mode. -/
def locationText (mode : ℕ) (loc : SourceLocation) : List Char :=
  (if mode &&& 4 ≠ 0 then '[' :: baseName loc.fileName ++ [']'] else []) ++
  (if mode &&& 2 ≠ 0 then '[' :: toDecimal loc.line ++ [']'] else []) ++
  (if mode &&& 1 ≠ 0 then loc.functionName else [])

/-- The text of `millisecondsFormatter`. -/
def millisecondsText (timeStamp : ℤ) : List Char :=
  let s := toDecimal (toUInt64 (timeStamp.tdiv 1000000) % 1000)
  '.' :: List.replicate (3-s.length) '0' ++ s

/-- The count that `timeElapsedFormatter` prints, by its unit. -/
def elapsedCount (unit : List Char) (elapsed : ℤ) : ℕ :=
  if unit = "ms".toList then toUInt64 (elapsed.tdiv 1000000)
  else if unit = "s".toList then toUInt64 (elapsed.tdiv 1000000000)
  else if unit = "ns".toList then toUInt64 elapsed
  else if unit = "us".toList then toUInt64 (elapsed.tdiv 1000)
  else 0

/-- The refresh of the time cache that precedes the time field. -/
def TimeCache.refresh (libc : LibC) (timeFormat : List Char) (timeStamp : ℤ) (c : TimeCache) :
    TimeCache :=
  let seconds := timeStamp.tdiv 1000000000
  if seconds*1000000000 ≠ c.lastTime then
    { lastTime := seconds*1000000000
      cachedTime :=
        match libc.localtime seconds with
        | some tm => libc.strftime 32 timeFormat tm
        | none => c.cachedTime }
  else c

namespace FlagFormatter
variable {κ : Type}

/-- `flagFormatter::format`, by class. -/
def format (ops : CustomOps κ) (env : FormatEnv) (f : FlagFormatter κ) (st : FormatState) :
    FormatState :=
  match f with
  | name k p =>
    let text := st.msg.mLoggerName
    { st with dest := k.appendPadded text.length p text st.dest }
  | level k p =>
    let text := st.msg.mLevel.toStr
    { st with dest := k.appendPadded text.length p text st.dest }
  | time k p timeFormat =>
    let cache := (st.caches.get k).refresh env.libc timeFormat st.msg.mTimeStamp
    { st with
      caches := st.caches.set k cache
      dest := k.appendPadded 32 p cache.cachedTime st.dest }
  | milliseconds k p =>
    { st with dest := k.appendPadded 4 p (millisecondsText st.msg.mTimeStamp) st.dest }
  | timeElapsed k p unit =>
    let t := elapsedCount unit (env.now st.clockReads - env.timeStart)
    { st with
      clockReads := st.clockReads+1
      dest := k.appendPadded (countDigit t) p (toDecimal t) st.dest }
  | threadId k p =>
    let t := st.msg.mThreadId
    { st with dest := k.appendPadded (countDigit t) p (toDecimal t) st.dest }
  | location k p mode =>
    if st.msg.mLoc.line = 0 then st
    else
      let text := locationText mode st.msg.mLoc
      { st with dest := k.appendPadded text.length p text st.dest }
  | msg k p =>
    let text := st.msg.mPayload
    { st with dest := k.appendPadded text.length p text st.dest }
  | str k p text => { st with dest := k.appendPadded text.length p text st.dest }
  | colorStart _ => { st with msg := { st.msg with mColorRangeStart := st.dest.size } }
  | colorStop _ => { st with msg := { st.msg with mColorRangeStop := st.dest.size } }
  | custom h p => ops.format env h p st

end FlagFormatter
end Astlog
