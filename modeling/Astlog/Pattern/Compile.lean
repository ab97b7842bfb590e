import Astlog.Pattern.FlagFormatter

/-! `patternFormatter`: compilation of the pattern text and its formatter list. An
iterator into the pattern is the text from there to the end. -/
namespace Astlog

/-- `static_cast<size_t>(c) - '0'`. -/
def digitValue (c : Char) : ℕ := c.toNat - '0'.toNat

/-- The rest of the digits of a width, accumulated in 64-bit unsigned arithmetic. -/
def readWidth : ℕ → List Char → ℕ × List Char
  | width, [] => (width,[])
  | width, c::it =>
    if c.isDigit then readWidth ((width*10+digitValue c) % 2^64) it else (width,c::it)

/-- The side character of a pad spec, with the iterator past it. -/
def readSide : List Char → PadSide × List Char
  | '<'::it => (.left,it)
  | '^'::it => (.center,it)
  | '>'::it => (.right,it)
  | it => (.center,it)

/-- The optional truncate marker, with the iterator past it. -/
def readTruncate : List Char → Bool × List Char
  | '!'::it => (true,it)
  | it => (false,it)

def maxWidth : ℕ := 64

/-- `handlePadspec`: the padding, and the iterator past the spec. -/
def handlePadspec (it : List Char) : PaddingInfo × List Char :=
  if it = [] then ({},it)
  else
    match readSide it with
    | (_,[]) => ({},[])
    | (side,c::it) =>
      if c.isDigit then
        let width := readWidth (digitValue c) it
        let truncate := readTruncate width.2
        (.of (min width.1 maxWidth) side truncate.1,truncate.2)
      else ({},c::it)

/-- Default arguments of the formatters' constructors. -/
def defaultTimeFormat : List Char := "[%Y-%m-%d] %H:%M:%S".toList
def defaultUnit : List Char := "ms".toList
def defaultMode : ℕ := 6
def unknownText : List Char := "unkonwn formatter".toList

section
variable {κ : Type} (ops : CustomOps κ) (handlers : Char → Option κ)

/-- The formatter `handleFlag` pushes: a clone of the custom handler if there is one. -/
def handleFlag (k : Padder) (flag : Char) (padding : PaddingInfo) : FlagFormatter κ :=
  match handlers flag with
  | some h => .custom (ops.clone h) padding
  | none =>
    match flag with
    | 'n' => .name k padding
    | 'l' => .level k padding
    | 't' => .threadId k padding
    | 'v' => .msg k padding
    | 'm' => .milliseconds k padding
    | 'e' => .timeElapsed k padding defaultUnit
    | 'd' => .time k padding defaultTimeFormat
    | '^' => .colorStart padding
    | '$' => .colorStop padding
    | 's' => .location k padding defaultMode
    | _ => .str k padding unknownText

/-- The formatter of the characters displayed as they are. -/
def userCharsFormatter (text : List Char) : FlagFormatter κ := .str .nullScopedPadder {} text

/-- `if (user_chars) m_formatters.push_back(std::move(user_chars))`. -/
def pushUserChars (userChars : Option (List Char)) (formatters : List (FlagFormatter κ)) :
    List (FlagFormatter κ) :=
  match userChars with
  | some text => formatters ++ [userCharsFormatter text]
  | none => formatters

/-- The template argument `handleFlag` is instantiated with. -/
def padderOf (padding : PaddingInfo) : Padder :=
  if padding.mEnabled then .scopedPadder else .nullScopedPadder

/-- The loop of `compilePattern`. Each round moves the iterator forward, so the length
of the text is fuel enough. -/
def compileLoop : ℕ → List Char → Option (List Char) → List (FlagFormatter κ) →
    List (FlagFormatter κ)
  | 0, _, userChars, formatters => pushUserChars userChars formatters
  | _+1, [], userChars, formatters => pushUserChars userChars formatters
  | fuel+1, c::it, userChars, formatters =>
    if c = '%' then
      let formatters := pushUserChars userChars formatters
      match handlePadspec it with
      | (_,[]) => formatters
      | (padding,flag::it) =>
        compileLoop fuel it none
          (formatters ++ [handleFlag ops handlers (padderOf padding) flag padding])
    else compileLoop fuel it (some (userChars.getD [] ++ [c])) formatters

/-- `compilePattern`: the new contents of `m_formatters`. -/
def compilePattern (pattern : List Char) : List (FlagFormatter κ) :=
  compileLoop ops handlers pattern.length pattern none []

end

/-- The handler classes of a program that defines none. -/
def noCustom : CustomOps Empty := ⟨fun _ h => h.elim,Empty.elim⟩

/-- `patternFormatter`. -/
structure PatternFormatter (κ : Type) where
  mPattern : List Char
  mFormatters : List (FlagFormatter κ)
  mCustomHandlers : Char → Option κ

namespace PatternFormatter
variable {κ : Type} (ops : CustomOps κ)

/-- The constructor. -/
def construct (pattern : List Char) (customUserFlags : Char → Option κ) : PatternFormatter κ :=
  let mPattern := if pattern = [] then "  ".toList else pattern
  ⟨mPattern,compilePattern ops customUserFlags mPattern,customUserFlags⟩

/-- `add_flag`. -/
def addFlag (p : PatternFormatter κ) (flag : Char) (handler : κ) : PatternFormatter κ :=
  { p with mCustomHandlers := Function.update p.mCustomHandlers flag (some handler) }

/-- `setPattern`. -/
def setPattern (p : PatternFormatter κ) (pattern : List Char) : PatternFormatter κ :=
  { p with mFormatters := compilePattern ops p.mCustomHandlers pattern }

/-- `clone`. -/
def clone (p : PatternFormatter κ) : PatternFormatter κ :=
  construct ops p.mPattern fun flag => (p.mCustomHandlers flag).map ops.clone

/-- `format`. -/
def format (env : FormatEnv) (p : PatternFormatter κ) (st : FormatState) : FormatState :=
  p.mFormatters.foldl (fun st f => f.format ops env st) st

end PatternFormatter
end Astlog
