import ClosureConversion.Classification.Explore
import ClosureConversion.Program

/-!
# Closure conversion

The whole pass: classify the function literals of an arena and apply the decisions to it.
-/

namespace ClosureConversion

/-- Convert an arena. With `optimize`, functions without free names are called directly. -/
def Arena.convert (a : Arena) (optimize : Bool) : Except Fault Program := do
  (← a.classify optimize).applyTo a

end ClosureConversion
