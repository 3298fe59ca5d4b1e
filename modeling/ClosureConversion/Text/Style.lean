/-!
# Styled text

Marks for a terminal. A styled text is its marks, the text, and a reset; without colours it is the
text alone.
-/

namespace ClosureConversion.Text

/-- A mark that a terminal understands. -/
inductive Mark where
  | bold
  | dim
  | red
  | green
  | yellow
  | blue
  | cyan
deriving DecidableEq, Repr

/-- The control sequence with a number. -/
def control (n : Nat) : String := s!"\x1b[{n}m"

/-- The control sequence of a mark. -/
def Mark.sequence : Mark → String
  | .bold => control 1
  | .dim => control 2
  | .red => control 31
  | .green => control 32
  | .yellow => control 33
  | .blue => control 34
  | .cyan => control 36

/-- A text with marks in front and a reset behind, if colours are on. -/
def paint (colored : Bool) (marks : List Mark) (s : String) : String :=
  if colored then String.join (marks.map Mark.sequence) ++ s ++ control 0 else s

end ClosureConversion.Text
