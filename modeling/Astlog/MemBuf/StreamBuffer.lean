import Astlog.MemBuf.PlainString
import Astlog.Foundation.Calls

/-! The stream buffer that writes to a record buffer. Characters go through the conversions
of `char_traits`, so they are bytes here. -/
namespace Astlog
open Foundation

/-- `traits_type::eof()`. -/
def eofInt : ℤ := -1

/-- `to_int_type`: the value as an unsigned character. -/
def toIntType (c : UInt8) : ℤ := c.toNat

/-- `to_char_type`: the low byte. -/
def toCharType (character : ℤ) : UInt8 := UInt8.ofNat (character % 256).toNat

/-- `not_eof`: the argument itself, or for EOF some other value. -/
def notEof (character : ℤ) : ℤ := if character = eofInt then 0 else character

/-- The text that bytes stand for in a record buffer. -/
def bytesText (data : List UInt8) : List Char := data.map Char.ofUInt8

namespace SmallStreamBuffer
variable {N : ℕ}

/-- `xsputn(data, size)`. -/
def xsputn (buffer : InlineBuffer N) (data : List UInt8) (size : ℤ) : InlineBuffer N × ℤ :=
  if size ≤ 0 then (buffer,0) else (buffer.append (bytesText (data.take size.toNat)),size)

/-- `overflow(character)`. -/
def overflow (buffer : InlineBuffer N) (character : ℤ) : InlineBuffer N × ℤ :=
  if character = eofInt then (buffer,notEof character)
  else (buffer.appendChar (Char.ofUInt8 (toCharType character)),character)

/-- `sputn` of the base class. -/
def sputn (buffer : InlineBuffer N) (data : List UInt8) : InlineBuffer N × ℤ :=
  xsputn buffer data data.length

/-- `sputc` of the base class. It has no put area, so every character overflows. -/
def sputc (buffer : InlineBuffer N) (c : UInt8) : InlineBuffer N × ℤ :=
  overflow buffer (toIntType c)

end SmallStreamBuffer

/-- A call on the stream buffer, or an append to the buffer behind it. -/
inductive StreamCall
  | sputn (data : List UInt8)
  | sputc (c : UInt8)
  | overflow (character : ℤ)
  | append (data : List UInt8)
  | appendView (value : List UInt8)
  | appendChar (value : UInt8)
  deriving DecidableEq

namespace StreamCall
variable {N : ℕ}

/-- The call, with what it returns, if anything. -/
def call (buffer : InlineBuffer N) : StreamCall → InlineBuffer N × Option ℤ
  | sputn data => ((SmallStreamBuffer.sputn buffer data).1,(SmallStreamBuffer.sputn buffer data).2)
  | sputc c => ((SmallStreamBuffer.sputc buffer c).1,(SmallStreamBuffer.sputc buffer c).2)
  | overflow character =>
    ((SmallStreamBuffer.overflow buffer character).1,(SmallStreamBuffer.overflow buffer character).2)
  | append data => (buffer.append (bytesText data),none)
  | appendView value => (buffer.appendView (bytesText value),none)
  | appendChar value => (buffer.appendChar (Char.ofUInt8 value),none)

/-- What the caller asked to be written. -/
def written : StreamCall → List UInt8
  | sputn data => data
  | sputc c => [c]
  | overflow character => if character = eofInt then [] else [toCharType character]
  | append data => data
  | appendView value => value
  | appendChar value => [value]

/-- A return value that reports success: all characters of a block, the character itself,
and for EOF a value that is not EOF. -/
def Succeeds : StreamCall → Option ℤ → Prop
  | sputn data, r => r = some (data.length : ℤ)
  | sputc c, r => r = some (toIntType c) ∧ r ≠ some eofInt
  | overflow character, r => r ≠ some eofInt ∧ (character ≠ eofInt → r = some character)
  | _, r => r = none

end StreamCall

/-- No character converts to EOF, 0xFF included. -/
lemma toIntType_ne_eof (c : UInt8) : toIntType c ≠ eofInt := by
  unfold toIntType eofInt
  omega

@[simp] lemma toCharType_toIntType (c : UInt8) : toCharType (toIntType c) = c := by
  have hlt := c.toNat_lt
  have hmod : ((c.toNat : ℤ) % 256).toNat = c.toNat := by omega
  rw [toCharType, toIntType, hmod, UInt8.ofNat_toNat]

section
variable {N : ℕ} {b : InlineBuffer N}

theorem overflow_eof : SmallStreamBuffer.overflow b eofInt = (b,0) := rfl

lemma overflow_of_ne {character : ℤ} (h : character ≠ eofInt) :
    SmallStreamBuffer.overflow b character =
      (b.append (bytesText [toCharType character]),character) := if_neg h

lemma sputc_eq (c : UInt8) :
    SmallStreamBuffer.sputc b c = (b.append (bytesText [c]),toIntType c) := by
  rw [SmallStreamBuffer.sputc, overflow_of_ne (toIntType_ne_eof c), toCharType_toIntType]

lemma sputn_eq (data : List UInt8) :
    SmallStreamBuffer.sputn b data = (b.append (bytesText data),(data.length : ℤ)) := by
  unfold SmallStreamBuffer.sputn SmallStreamBuffer.xsputn
  cases data with
  | nil => rfl
  | cons c data =>
    rw [if_neg (by simp only [List.length_cons]; omega), Int.toNat_natCast, List.take_length]

/-- A call extends the view by what it writes, and reports that. -/
lemma StreamCall.call_view (hb : b.Wf) (c : StreamCall) : (c.call b).1.Wf ∧
    (c.call b).1.view = b.view ++ bytesText c.written ∧ c.Succeeds (c.call b).2 := by
  cases c with
  | sputn data =>
    simp only [StreamCall.call, sputn_eq]
    exact ⟨InlineBuffer.append_wf hb _,InlineBuffer.view_append hb _,rfl⟩
  | sputc c =>
    simp only [StreamCall.call, sputc_eq]
    exact ⟨InlineBuffer.append_wf hb _,InlineBuffer.view_append hb _,rfl,
      by simpa using toIntType_ne_eof c⟩
  | overflow character =>
    by_cases he : character = eofInt
    · subst he
      simp only [StreamCall.call, overflow_eof]
      exact ⟨hb,(List.append_nil _).symm,by decide,fun h => absurd rfl h⟩
    · simp only [StreamCall.call, overflow_of_ne he, StreamCall.written, if_neg he]
      exact ⟨InlineBuffer.append_wf hb _,InlineBuffer.view_append hb _,by simpa using he,fun _ => rfl⟩
  | append data => exact ⟨InlineBuffer.append_wf hb _,InlineBuffer.view_append hb _,rfl⟩
  | appendView value => exact ⟨InlineBuffer.append_wf hb _,InlineBuffer.view_append hb _,rfl⟩
  | appendChar value => exact ⟨InlineBuffer.append_wf hb [_],InlineBuffer.view_append hb [_],rfl⟩

lemma StreamCall.calls_view (hb : b.Wf) (cs : List StreamCall) :
    (afterCalls StreamCall.call b cs).view =
        b.view ++ bytesText (cs.flatMap StreamCall.written) ∧
      List.Forall₂ StreamCall.Succeeds cs (answers StreamCall.call b cs) := by
  induction cs generalizing b with
  | nil => exact ⟨by simp [afterCalls, bytesText],.nil⟩
  | cons c cs ih =>
    obtain ⟨hwf,hview,hok⟩ := c.call_view hb
    obtain ⟨hviews,hoks⟩ := ih hwf
    refine ⟨?_,.cons hok hoks⟩
    rw [afterCalls, hviews, hview]
    simp [bytesText]

end

/-- Behind any use of the buffer: the calls add to the view what they write, in order, and
each reports success. -/
theorem streamBuffer_lossless (N : ℕ) (ops : List BufOp) (cs : List StreamCall) :
    let b := (InlineBuffer.empty N).applyAll ops
    (afterCalls StreamCall.call b cs).view =
        b.view ++ bytesText (cs.flatMap StreamCall.written) ∧
      List.Forall₂ StreamCall.Succeeds cs (answers StreamCall.call b cs) :=
  StreamCall.calls_view (InlineBuffer.applyAll_wf (InlineBuffer.empty_wf N) ops) cs

end Astlog
