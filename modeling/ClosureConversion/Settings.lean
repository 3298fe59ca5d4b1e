import ClosureConversion.Toml.Document

/-!
# Settings

Two switches under the table `closure`: whether functions without free names are called directly,
and whether a converted program is verified. Both are on unless a settings file turns them off; the
command line can only turn them off. A file that says anything else is refused, and so is one that
says something twice.
-/

namespace ClosureConversion

/-- The switches of the pass. -/
structure Settings where
  /-- Call functions without free names directly. -/
  optimize : Bool
  /-- Verify a converted program. -/
  verify : Bool
deriving DecidableEq, Repr

namespace Settings

/-- Everything on. -/
def default : Settings := ⟨true, true⟩

instance : Inhabited Settings := ⟨default⟩

/-- Turn switches off. -/
def disable (s : Settings) (noOptimize noVerify : Bool) : Settings :=
  ⟨s.optimize && !noOptimize, s.verify && !noVerify⟩

/-- What a file has said so far about the two switches. -/
structure Draft where
  optimize : Option Bool
  verify : Option Bool

/-- Nothing said. -/
def Draft.empty : Draft := ⟨none, none⟩

/-- Say something about a switch that nothing has been said about. -/
def Draft.set? (d : Draft) : Toml.Path → Toml.Value → Option Draft
  | ["known_function_optimization"], .bool b =>
    if d.optimize.isNone then some { d with optimize := some b } else none
  | ["verify"], .bool b => if d.verify.isNone then some { d with verify := some b } else none
  | _, _ => none

/-- The draft of the value of `closure`: an inline table, or the switches in order. -/
def Draft.ofValue? : Toml.Value → Option Draft
  | .table entries => entries.foldlM (fun d e => d.set? e.1 e.2) empty
  | .array [] => some empty
  | .array [.bool a] => some ⟨some a, none⟩
  | .array (.bool a :: .bool b :: _) => some ⟨some a, some b⟩
  | _ => none

/-- How the table `closure` has been given so far. -/
inductive Given where
  /-- Not at all. -/
  | absent
  /-- By dotted keys, which may go on. -/
  | dotted (d : Draft)
  /-- By its header, under which its pairs follow. -/
  | headed (d : Draft)
  /-- By one value. -/
  | whole (d : Draft)

/-- What a statement adds. -/
def Given.add? : Given → Toml.Statement → Option Given
  | .absent, .pair ["closure"] value => .whole <$> Draft.ofValue? value
  | .absent, .pair ("closure" :: path) value => .dotted <$> Draft.empty.set? path value
  | .absent, .header ["closure"] => some (.headed .empty)
  | .dotted d, .pair ("closure" :: path) value => .dotted <$> d.set? path value
  | .headed d, .pair path value => .headed <$> d.set? path value
  | _, _ => none

/-- The draft behind what has been given. -/
def Given.draft : Given → Draft
  | .absent => .empty
  | .dotted d => d
  | .headed d => d
  | .whole d => d

/-- The settings of a file. -/
def parse? (text : String) : Option Settings := do
  let given ← (← Toml.parse? text).foldlM Given.add? .absent
  return ⟨given.draft.optimize.getD true, given.draft.verify.getD true⟩

end Settings

end ClosureConversion
