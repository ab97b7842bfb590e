import Astlog.Pattern.Compile

/-! The two `sinkIt` that write a record: to a file, and to a terminal in colour. What a
sink writes is the list of its `fwrite` calls. -/
namespace Astlog

/-- `EOL`, of which one character is written. -/
def eol : List Char := "\n".toList

/-- `sink::reset`. -/
def reset : List Char := "\x1b[m".toList

/-- The colours of `defaultConfig::colorMap`. -/
def red : List Char := "\x1b[31m".toList
def green : List Char := "\x1b[32m".toList
def blue : List Char := "\x1b[34m".toList
def white : List Char := "\x1b[37m".toList
def onBlack : List Char := "\x1b[40m".toList
def onCyan : List Char := "\x1b[46m".toList
def onWhite : List Char := "\x1b[47m".toList
def yellowBold : List Char := "\x1b[33m\x1b[1m".toList

/-- `colorMap`: one entry for each level proper. -/
abbrev ColorMap : Type := Fin Level.levelMax → List Char

namespace DefaultConfig

/-- `defaultConfig::colorMap`. -/
def colorMap : ColorMap :=
  ![blue ++ onWhite,white,green ++ onCyan,yellowBold ++ onBlack,red,red ++ onWhite]

/-- `defaultConfig::formatStr`. -/
def formatStr : List Char := "%d%m %s [%t] [%l] [%n] [%e] [%v]".toList

end DefaultConfig

/-- `fileSink`, without its file. -/
structure FileSink (κ : Type) where
  mFormatter : PatternFormatter κ

/-- `ansicolorSink`, without its file. -/
structure AnsicolorSink (κ : Type) where
  mColorMap : ColorMap
  mFormatter : PatternFormatter κ

section
variable {κ : Type} (ops : CustomOps κ) (env : FormatEnv)

/-- `fileSink::sinkIt`: what its `fwrite` calls write, and the caches it leaves the thread. -/
def FileSink.sinkIt (sink : FileSink κ) (caches : ThreadCaches) (msg : LogMsg (List Char)) :
    List (List Char) × ThreadCaches :=
  let buf : FormatterBuf := .empty recordCapacity
  let st := sink.mFormatter.format ops env { msg := msg, dest := buf, caches := caches }
  ([st.dest.view,eol.take 1],st.caches)

/-- The entry of the map that the record starts with. -/
def AnsicolorSink.color (sink : AnsicolorSink κ) (msg : LogMsg (List Char))
    (h : msg.mLevel.toIndex < Level.levelMax) : List Char := sink.mColorMap ⟨msg.mLevel.toIndex,h⟩

/-- `ansicolorSink::sinkIt`, for a level that indexes the map. -/
def AnsicolorSink.sinkIt (sink : AnsicolorSink κ) (caches : ThreadCaches)
    (msg : LogMsg (List Char)) (h : msg.mLevel.toIndex < Level.levelMax) :
    List (List Char) × ThreadCaches :=
  let buffer : FormatterBuf := InlineBuffer.append (.empty recordCapacity) (sink.color msg h)
  let st := sink.mFormatter.format ops env { msg := msg, dest := buffer, caches := caches }
  ([(st.dest.append reset).view,eol.take 1],st.caches)

end
end Astlog
