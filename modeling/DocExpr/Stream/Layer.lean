import DocExpr.Stream.Documentation
import DocExpr.Stream.Text

/-!
# Layers over streams

A stream can be sent through layers, each of which makes other tokens of its tokens, in any order
and number. `Stream.ofSource` is the stream of a source text behind both kinds of layers, as it is
parsed.
-/

namespace DocExpr

/-- What a stream can be sent through. -/
inductive Layer where
  /-- Comments become documentation. -/
  | documentation
  /-- Back-ticked lines become strings. -/
  | multiline
deriving DecidableEq

namespace Stream

/-- The stream behind a layer. -/
def through (s : Stream) : Layer → Stream
  | .documentation => s.attachDocumentation
  | .multiline => s.mergeStrings

/-- The stream behind layers, of which the first is the innermost. -/
def throughAll (s : Stream) (layers : List Layer) : Stream := layers.foldl through s

/-- The layers between a source text and its parser, the innermost first. -/
def standardLayers : List Layer := [.documentation, .multiline]

/-- The stream of a source text as it is parsed. -/
def ofSource (text file : String) : Stream := (ofText text file).throughAll standardLayers

end Stream

end DocExpr
