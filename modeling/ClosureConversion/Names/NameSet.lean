/-!
# Ordered sets of names

The names a block needs from outside are kept in the order in which they were first met, because
that order becomes the order of a capture list. `NameSet` is a list of names without repetition:
`insert` appends a new name and ignores one that is already present, `erase` closes the gap.

The view is `toList`; `toList_insert` and `toList_erase` say what each operation does to it.
-/

namespace ClosureConversion

/-- A name bound by an instruction, a parameter, or a function literal. Only equality of names
matters to the analyses, and their order to the tables. -/
abbrev Name := String

/-- A set of names in order of first insertion. -/
structure NameSet where
  /-- The names, first inserted first. -/
  toList : List Name
  /-- No name is listed twice. -/
  nodup : toList.Nodup
deriving DecidableEq, Repr

namespace NameSet

/-- The set without names. -/
def empty : NameSet := ⟨[], List.nodup_nil⟩

instance : EmptyCollection NameSet := ⟨empty⟩

instance : Inhabited NameSet := ⟨empty⟩

instance : Membership Name NameSet := ⟨fun s n => n ∈ s.toList⟩

instance (n : Name) (s : NameSet) : Decidable (n ∈ s) :=
  inferInstanceAs (Decidable (n ∈ s.toList))

/-- Whether a name belongs to the set. -/
def contains (s : NameSet) (n : Name) : Bool := decide (n ∈ s)

/-- The number of names. -/
def size (s : NameSet) : Nat := s.toList.length

/-- Whether there is no name at all. -/
def isEmpty (s : NameSet) : Bool := s.toList.isEmpty

/-- Append a name unless it is present already. -/
def insert (s : NameSet) (n : Name) : NameSet :=
  if h : n ∈ s.toList then s
  else ⟨s.toList ++ [n], by
    refine List.nodup_append.mpr ⟨s.nodup, by simp, ?_⟩
    intro a ha b hb hab
    simp only [List.mem_singleton] at hb
    exact h (hb ▸ hab ▸ ha)⟩

/-- Remove a name; the others keep their order. -/
def erase (s : NameSet) (n : Name) : NameSet :=
  ⟨s.toList.filter (· ≠ n), s.nodup.filter _⟩

/-- Insert names one after the other. -/
def insertAll (s : NameSet) (names : List Name) : NameSet := names.foldl insert s

/-- Remove every one of some names. -/
def eraseAll (s : NameSet) (names : List Name) : NameSet := names.foldl erase s

/-- The set of the names of a list, each at its first place. -/
def ofList (names : List Name) : NameSet := empty.insertAll names

/-- Membership is membership in the list. -/
theorem mem_toList {n : Name} {s : NameSet} : n ∈ s.toList ↔ n ∈ s := Iff.rfl

/-- The test decides membership. -/
@[simp] theorem contains_iff {s : NameSet} {n : Name} : s.contains n = true ↔ n ∈ s := by
  simp [contains]

/-- No names are listed in the empty set. -/
@[simp] theorem toList_empty : (∅ : NameSet).toList = [] := rfl

/-- Nothing belongs to the empty set. -/
@[simp] theorem not_mem_empty (n : Name) : n ∉ (∅ : NameSet) := List.not_mem_nil

/-- A new name goes to the end, one that is present stays where it is. -/
theorem toList_insert (s : NameSet) (n : Name) :
    (s.insert n).toList = if n ∈ s then s.toList else s.toList ++ [n] := by
  by_cases h : n ∈ s.toList
  · have : n ∈ s := h
    simp [insert, h, this]
  · have : n ∉ s := h
    simp [insert, h, this]

/-- The names that stay keep their order. -/
theorem toList_erase (s : NameSet) (n : Name) :
    (s.erase n).toList = s.toList.filter (· ≠ n) := rfl

/-- What belongs to a set after an insertion. -/
@[simp] theorem mem_insert {s : NameSet} {n m : Name} : m ∈ s.insert n ↔ m ∈ s ∨ m = n := by
  show m ∈ (s.insert n).toList ↔ _
  rw [toList_insert]
  by_cases h : n ∈ s
  · simp only [h, if_true, mem_toList]
    exact ⟨Or.inl, fun h' => h'.elim id (fun e => e ▸ h)⟩
  · simp [h, mem_toList]

/-- What belongs to a set after a removal. -/
@[simp] theorem mem_erase {s : NameSet} {n m : Name} : m ∈ s.erase n ↔ m ∈ s ∧ m ≠ n := by
  show m ∈ (s.erase n).toList ↔ _
  simp [toList_erase, mem_toList]

end NameSet

end ClosureConversion
