import PointsTo.Text.Pattern.Parser
/-!
# Hints

What may help a user who has run into an error, told by the wording of the
error.
-/

namespace PointsTo

namespace Command

/-- Whether a text has a part that the pattern matches. -/
def mentions (text pattern : String) : Bool :=
  (Pattern.ofString? pattern).any (·.isMatch text)

/-- The hint for an error message; empty if there is none. -/
def hint (message : String) : String :=
  if mentions message "could not load program" then
    if mentions message "-: named files must be .go files: -(\\w)" then
      "all command line flags should be before the path to the Go files to analyze"
    else "make sure you have provided the right arguments for an analyzer to load a Go program"
  else if mentions message "no main/test packages|needs a main package" then
    "the pointer analysis starts from the entry points of a program; " ++
      "the path should lead to a main package"
  else if mentions message "unknown name" then
    "every method, class and pointer used in a fact file must be declared in its sections"
  else ""

end Command

end PointsTo
