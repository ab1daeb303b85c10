/-!
# Origins

An `Origin` says where in a source file a token or an expression stands. Lines and columns count
from one, lengths count characters, and all three are 32-bit numbers. Origins are for diagnostics
only: the meaning of an expression does not depend on them.
-/

namespace DocExpr

/-- A place in a source file. -/
structure Origin where
  file : String
  line : UInt32
  column : UInt32
  length : UInt32
deriving DecidableEq

namespace Origin

/-- The origin of what stands in no source file. -/
def synthetic : Origin := ⟨"<synthetic>", 1, 1, 0⟩

/-- The start of a place, as diagnostics give it: `file(line,column)`. -/
def display (o : Origin) : String :=
  o.file ++ "(" ++ toString o.line.toNat ++ "," ++ toString o.column.toNat ++ ")"

/-- A place with its length: `file(line,column)+length`. -/
def dump (o : Origin) : String := o.display ++ "+" ++ toString o.length.toNat

end Origin

end DocExpr
