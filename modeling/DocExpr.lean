import DocExpr.Expr.Dump
import DocExpr.Expr.SExpr
import DocExpr.Format
import DocExpr.Layout.Script
import DocExpr.Parse.Log
import DocExpr.Proofs.Comments.Kept
import DocExpr.Proofs.Documentation
import DocExpr.Proofs.Reformat
import DocExpr.Proofs.ItemLists.RoundTrip
import DocExpr.Proofs.Literals.Kept
import DocExpr.Stream.Layer
import DocExpr.Stream.Lookahead
import DocExpr.Token.Lexeme
import DocExpr.Proofs.Lexing.Tiling
import DocExpr.Proofs.Grammar.Earliest
import DocExpr.Proofs.Stream.Conserved
import DocExpr.Proofs.LineEnds
import DocExpr.Proofs.Lexing.Grammar
import DocExpr.Proofs.Stream.Ends
import DocExpr.Proofs.Lexing.Rejoined
import DocExpr.Proofs.Stream.Operators
import DocExpr.Proofs.Lexing.Addresses
import DocExpr.Proofs.Grammar.Origins
import DocExpr.Proofs.Reports
import DocExpr.Proofs.Layout.Margins
import DocExpr.Proofs.Layout.Nested
import DocExpr.Proofs.Enclosed
import DocExpr.Proofs.Layout.NormalForm
import DocExpr.Proofs.Layout.Scopes
import DocExpr.Proofs.Layout.OneLine
import DocExpr.Proofs.Layout.Cache
import DocExpr.Proofs.SExpr
import DocExpr.Proofs.Grammar.Calls
