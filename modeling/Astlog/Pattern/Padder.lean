import Astlog.Logger.Log

/-! Padding of one field: what the padder appends around a text, and where it cuts. -/
namespace Astlog

inductive PadSide
  | left | right | center
  deriving DecidableEq, Repr

structure PaddingInfo where
  mWidth : ℕ := 0
  mSide : PadSide := .left
  mTruncate : Bool := false
  mEnabled : Bool := false
  deriving DecidableEq, Repr

/-- The three-argument constructor, which enables the padding. -/
def PaddingInfo.of (width : ℕ) (side : PadSide) (truncate : Bool) : PaddingInfo :=
  ⟨width,side,truncate,true⟩

/-- The template argument of a field's formatter. -/
inductive Padder
  | scopedPadder | nullScopedPadder
  deriving DecidableEq, Repr

/-- The blanks a padder copies from. -/
def spaces : List Char := List.replicate 64 ' '

/-- `pad_it`. -/
def padIt (count : ℤ) (dest : FormatterBuf) : FormatterBuf :=
  dest.append (spaces.take count.toNat)

/-- Conversion of a `long` to the 32-bit `int` it is stored in. -/
def toInt32 (x : ℤ) : ℤ := x.bmod (2^32)

structure ScopedPadder where
  mPadInfo : PaddingInfo
  mTruncate : ℕ
  mRemainedPadding : ℤ

namespace ScopedPadder

/-- The constructor, with the buffer it leaves. -/
def construct (wrappedSize : ℕ) (padInfo : PaddingInfo) (dest : FormatterBuf) :
    ScopedPadder × FormatterBuf :=
  let remained := toInt32 (padInfo.mWidth - wrappedSize)
  if remained ≤ 0 then (⟨padInfo,dest.size,remained⟩,dest)
  else
    match padInfo.mSide with
    | .left => (⟨padInfo,dest.size,0⟩,padIt remained dest)
    | .center =>
      let halfPad := (remained+1)/2
      let reminder := remained%2
      (⟨padInfo,dest.size,halfPad+reminder⟩,padIt halfPad dest)
    | .right => (⟨padInfo,dest.size,remained⟩,dest)

/-- The destructor. -/
def destruct (p : ScopedPadder) (dest : FormatterBuf) : FormatterBuf :=
  if 0 ≤ p.mRemainedPadding then padIt p.mRemainedPadding dest
  else if p.mPadInfo.mTruncate then dest.erase (p.mPadInfo.mWidth+p.mTruncate)
  else dest

end ScopedPadder

/-- `Padder _(wrapped_size, padinfo, dest); dest.append(text);` up to the end of the scope. -/
def Padder.appendPadded (k : Padder) (wrappedSize : ℕ) (padInfo : PaddingInfo) (text : List Char)
    (dest : FormatterBuf) : FormatterBuf :=
  match k with
  | .nullScopedPadder => dest.append text
  | .scopedPadder =>
    let p := ScopedPadder.construct wrappedSize padInfo dest
    p.1.destruct (p.2.append text)

end Astlog
