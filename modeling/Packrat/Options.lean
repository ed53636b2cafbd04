/-!
# Options of a parser

Neither option changes what a parser accepts or answers. Remembering results trades space for the
time of repeated attempts; tracking lines makes the line and column known to code blocks.
-/

namespace Packrat

/-- How a parser is to run. -/
structure Options where
  /-- Remember the results of rules by where they began. -/
  cache : Bool := false
  /-- Count lines and columns while parsing and hand them to code blocks. -/
  trackLines : Bool := false
  deriving DecidableEq, Repr, Inhabited

end Packrat
