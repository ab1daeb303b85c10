import DocExpr.Origin
import DocExpr.Text.Lines
import DocExpr.Text.Quoted
import DocExpr.Token.Kind

/-!
# Tokens

A `Token` is a piece of a source with its kind and its place. Tokens of a block hold several lines,
separated by line feeds; `Token.lines` gives the visible ones.
-/

namespace DocExpr

/-- A piece of a source. -/
structure Token where
  kind : Kind
  text : String
  origin : Origin
deriving DecidableEq

namespace Token

/-- The end of the input. -/
def eof (origin : Origin) : Token := ⟨.eof, "", origin⟩

/-- The operator that attaches documentation to what it documents. -/
def document (origin : Origin) : Token := ⟨.document, " ", origin⟩

/-- The visible lines of a token, trimmed. -/
def lines (t : Token) : List String := Text.visibleLines t.text

/-- A token on one line: its kind, its text in quotes and its place. -/
def dump (t : Token) : String :=
  t.kind.name ++ " " ++ Text.quote t.text ++ " @ " ++ t.origin.dump

@[simp] theorem kind_eof (o : Origin) : (eof o).kind = .eof := rfl

@[simp] theorem kind_document (o : Origin) : (document o).kind = .document := rfl

end Token

end DocExpr
