import ClosureConversion.Proofs.Arena.Lowering
import ClosureConversion.Proofs.Names
import ClosureConversion.Proofs.Walks

/-!
# Renaming names

A renaming is an injection `r : Name ↪ Name`. It is applied to everything that holds names: ordered
sets keep their order (`NameSet.rename`), tables with names as keys are sorted anew (`Table.rename`),
and in code the names of instructions, parameters, operands and targets of closure constructions are
replaced, while literals and external symbols stay (`Operation.rename`, `Block.rename`, `Code.rename`).

The reads of renamed code are the renamed ones, in the same order (`Code.reads_rename`), and lowering
gives renamed blocks the same numbers (`Block.number_rename`).
-/

namespace ClosureConversion

variable (r : Name ↪ Name)

/-- A renamed name is among renamed names if the name is among them. -/
theorem mem_map_name {r : Name ↪ Name} {n : Name} {names : List Name} :
    r n ∈ names.map r ↔ n ∈ names :=
  List.mem_map_of_injective r.injective

/-! ## Sets -/

namespace NameSet

/-- The names of a set replaced, in their order. -/
def rename (s : NameSet) : NameSet := ⟨s.toList.map r, s.nodup.map r.injective⟩

/-- The list of a renamed set. -/
@[simp] theorem toList_rename (s : NameSet) : (s.rename r).toList = s.toList.map r := rfl

/-- Nothing is to be renamed in the empty set. -/
@[simp] theorem rename_empty : (∅ : NameSet).rename r = ∅ := rfl

/-- A renamed name belongs to a renamed set if the name belongs to it. -/
@[simp] theorem mem_rename {s : NameSet} {n : Name} : r n ∈ s.rename r ↔ n ∈ s := mem_map_name

/-- The test for membership, renamed. -/
@[simp] theorem contains_rename (s : NameSet) (n : Name) :
    (s.rename r).contains (r n) = s.contains n := by
  rw [Bool.eq_iff_iff, contains_iff, contains_iff, mem_rename]

/-- A renamed set is empty if the set is. -/
@[simp] theorem isEmpty_rename (s : NameSet) : (s.rename r).isEmpty = s.isEmpty :=
  List.isEmpty_map

/-- Inserting a renamed name. -/
theorem rename_insert (s : NameSet) (n : Name) :
    (s.insert n).rename r = (s.rename r).insert (r n) := by
  apply eq_of_toList_eq
  rw [toList_rename, toList_insert, toList_insert]
  by_cases h : n ∈ s
  · rw [if_pos h, if_pos ((mem_rename r).mpr h), toList_rename]
  · rw [if_neg h, if_neg (mt (mem_rename r).mp h), List.map_append, toList_rename]
    rfl

/-- Removing a renamed name. -/
theorem rename_erase (s : NameSet) (n : Name) :
    (s.erase n).rename r = (s.rename r).erase (r n) := by
  apply eq_of_toList_eq
  rw [toList_rename, toList_erase, toList_erase, toList_rename, List.filter_map]
  refine congrArg _ (List.filter_congr fun m _ => ?_)
  simp only [Function.comp_apply, ne_eq, r.injective.eq_iff]

/-- Inserting renamed names. -/
theorem rename_insertAll (s : NameSet) (names : List Name) :
    (s.insertAll names).rename r = (s.rename r).insertAll (names.map r) := by
  unfold insertAll
  induction names generalizing s with
  | nil => rfl
  | cons n names ih => rw [List.foldl_cons, ih, rename_insert, List.map_cons, List.foldl_cons]

/-- Removing renamed names. -/
theorem rename_eraseAll (s : NameSet) (names : List Name) :
    (s.eraseAll names).rename r = (s.rename r).eraseAll (names.map r) := by
  unfold eraseAll
  induction names generalizing s with
  | nil => rfl
  | cons n names ih => rw [List.foldl_cons, ih, rename_erase, List.map_cons, List.foldl_cons]

/-- Adding the renamed names that are not bound. -/
theorem rename_addFree (found : NameSet) (bound names : List Name) :
    (found.addFree bound names).rename r =
      (found.rename r).addFree (bound.map r) (names.map r) := by
  unfold addFree
  rw [rename_insertAll, List.filter_map]
  refine congrArg _ (congrArg _ (List.filter_congr fun n _ => ?_))
  simp only [Function.comp_apply, mem_map_name]

end NameSet

/-! ## Tables -/

namespace Table

section Values

variable {κ α β : Type} [Ord κ]

/-- The values of a table replaced. -/
def mapValues (f : α → β) (t : Table κ α) : Table κ β :=
  ⟨t.entries.map fun e => (e.1, f e.2), t.sorted.map _ fun _ _ h => h⟩

/-- The values of a table with other values. -/
@[simp] theorem values_mapValues (f : α → β) (t : Table κ α) :
    (t.mapValues f).values = t.values.map f := by
  simp only [values, mapValues, List.map_map, Function.comp_def]

/-- What is found in a table with other values. -/
@[simp] theorem get?_mapValues (f : α → β) (t : Table κ α) (k : κ) :
    (t.mapValues f).get? k = (t.get? k).map f := by
  unfold get? mapValues
  rw [List.find?_map, Option.map_map, Option.map_map]
  rfl

variable [Std.LawfulEqOrd κ] [Std.TransOrd κ]

/-- Tables that answer alike are the same. -/
theorem ext_get? {t t' : Table κ α} (h : ∀ k, t.get? k = t'.get? k) : t = t' := by
  have hentries : t.entries = t'.entries := by
    refine eq_entries_of_mem_iff t.sorted fun e => ?_
    rw [mem_entries_iff, mem_entries_iff, h]
  obtain ⟨entries, sorted⟩ := t
  obtain rfl : entries = t'.entries := hentries
  rfl

end Values

variable {α β : Type} (f : α → β)

/-- The keys of a table renamed and its values replaced. -/
def rename (t : Table Name α) : Table Name β :=
  (∅ : Table Name β).insertAll (t.entries.map fun e => (r e.1, f e.2))

/-- Renamed keys are different. -/
theorem nodup_renamed_keys (t : Table Name α) :
    ((t.entries.map fun e => (r e.1, f e.2)).map (·.1)).Nodup := by
  rw [List.map_map, List.Nodup, List.pairwise_map]
  exact t.pairwise_key_ne.imp fun hne heq => hne (r.injective heq)

/-- The entries of a renamed table are the renamed entries. -/
theorem mem_entries_rename {t : Table Name α} {e : Name × β} :
    e ∈ (t.rename r f).entries ↔ e ∈ t.entries.map fun e => (r e.1, f e.2) :=
  mem_entries_insertAll (t.nodup_renamed_keys r f)

/-- A renamed table has the renamed entries, in an order of its own. -/
theorem entries_rename_perm (t : Table Name α) :
    (t.rename r f).entries.Perm (t.entries.map fun e => (r e.1, f e.2)) := by
  refine (List.perm_ext_iff_of_nodup ?_ ?_).mpr fun e => mem_entries_rename r f
  · exact (t.rename r f).pairwise_key_ne.imp fun hne heq => hne (congrArg Prod.fst heq)
  · exact List.Nodup.of_map _ (t.nodup_renamed_keys r f)

/-- The values of a renamed table are the same, in another order. -/
theorem values_rename_perm (t : Table Name α) : (t.rename r f).values.Perm (t.values.map f) := by
  have h := (t.entries_rename_perm r f).map (·.2)
  rw [List.map_map] at h
  rw [values, values, List.map_map]
  exact h

/-- What is found under a renamed key. -/
@[simp] theorem get?_rename (t : Table Name α) (n : Name) :
    (t.rename r f).get? (r n) = (t.get? n).map f := by
  apply Option.ext
  intro v
  rw [← mem_entries_iff, mem_entries_rename, List.mem_map, Option.map_eq_some_iff]
  constructor
  · rintro ⟨⟨m, w⟩, he, heq⟩
    obtain ⟨hm, rfl⟩ := Prod.mk.inj heq
    obtain rfl : m = n := r.injective hm
    exact ⟨w, mem_entries_iff.mp he, rfl⟩
  · rintro ⟨w, hw, rfl⟩
    exact ⟨(n, w), mem_entries_iff.mpr hw, rfl⟩

/-- A renamed table answers for renamed names only. -/
theorem get?_rename_of_notMem {t : Table Name α} {n : Name} (h : n ∉ Set.range r) :
    (t.rename r f).get? n = none := by
  rw [Option.eq_none_iff_forall_ne_some]
  intro v hv
  obtain ⟨⟨m, w⟩, -, heq⟩ := List.mem_map.mp ((mem_entries_rename r f).mp (mem_entries_iff.mpr hv))
  exact h ⟨m, (Prod.mk.inj heq).1⟩

/-- A renamed key is present if the key is. -/
@[simp] theorem contains_rename (t : Table Name α) (n : Name) :
    (t.rename r f).contains (r n) = t.contains n := by
  rw [contains, get?_rename, Option.isSome_map, contains]

/-- Nothing is to be renamed in the empty table. -/
@[simp] theorem rename_empty : (∅ : Table Name α).rename r f = ∅ := rfl

/-- An insertion overwrites the same entry under either name. -/
theorem rename_insert (t : Table Name α) (n : Name) (v : α) :
    (t.insert n v).rename r f = (t.rename r f).insert (r n) (f v) := by
  apply ext_get?
  intro k
  rw [get?_insert]
  by_cases hk : k ∈ Set.range r
  · obtain ⟨m, rfl⟩ := hk
    rw [get?_rename, get?_rename, get?_insert]
    simp only [r.injective.eq_iff]
    split <;> rfl
  · have hne : k ≠ r n := fun h => hk ⟨n, h.symm⟩
    rw [if_neg hne, get?_rename_of_notMem r f hk, get?_rename_of_notMem r f hk]

end Table

/-! ## Operations -/

namespace Operation

/-- An operation with its operands and the target of a closure construction renamed. Literals and
external symbols are no names. -/
def rename : Operation → Operation
  | .unary op child => .unary op (r child)
  | .binary op lhs rhs => .binary op (r lhs) (r rhs)
  | .ref of => .ref (r of)
  | .app callee args indirect => .app (r callee) (args.map r) indirect
  | .tuple items => .tuple (items.map r)
  | .tupleLoad source index => .tupleLoad (r source) index
  | .array size item => .array (r size) (r item)
  | .arrayOf items => .arrayOf (items.map r)
  | .arrayLoad source index => .arrayLoad (r source) (r index)
  | .arrayStore target index value => .arrayStore (r target) (r index) (r value)
  | .arrayLength of => .arrayLength (r of)
  | .makeSome of => .makeSome (r of)
  | .isSome of => .isSome (r of)
  | .derefSome of => .derefSome (r of)
  | .externalCall symbol args => .externalCall symbol (args.map r)
  | .makeClosure captures target => .makeClosure (captures.map r) (r target)
  | .nop => .nop
  | .unit => .unit
  | .bool b => .bool b
  | .int i => .int i
  | .float x => .float x
  | .str s => .str s
  | .makeNone => .makeNone
  | .external symbol => .external symbol

/-- The operands of a renamed operation are the renamed ones. -/
@[simp] theorem operands_rename (o : Operation) : (o.rename r).operands = o.operands.map r := by
  cases o <;> rfl

/-- A renamed operation needs the renamed names. -/
@[simp] theorem needs_rename (known : NameSet) (o : Operation) :
    (o.rename r).needs (known.rename r) = (o.needs known).map r := by
  cases o with
  | app callee args indirect =>
      simp only [rename, needs, NameSet.mem_rename]
      split <;> rfl
  | _ => rfl

end Operation

/-- A right-hand side renamed; the blocks it holds stay. -/
def Rhs.rename {β : Type} : Rhs β → Rhs β
  | .op o => .op (o.rename r)
  | .fn params body => .fn (params.map r) body
  | .branch cond yes no => .branch (r cond) yes no

/-! ## Blocks and code -/

/-- Code with all its names replaced; numbers stay. -/
def Code.rename : Code → Code
  | .done => .done
  | .op id ident o rest => .op id (r ident) (o.rename r) rest.rename
  | .fn id ident params blk body rest =>
    .fn id (r ident) (params.map r) blk body.rename rest.rename
  | .branch id ident cond yesBlk noBlk yes no rest =>
    .branch id (r ident) (r cond) yesBlk noBlk yes.rename no.rename rest.rename

namespace Block

/-- A block with all its names replaced. -/
def rename : Block → Block
  | .done => .done
  | .op ident o rest => .op (r ident) (o.rename r) rest.rename
  | .fn ident params body rest => .fn (r ident) (params.map r) body.rename rest.rename
  | .branch ident cond yes no rest =>
    .branch (r ident) (r cond) yes.rename no.rename rest.rename

/-- Renaming leaves the number of blocks. -/
@[simp] theorem blockCount_rename (b : Block) : (b.rename r).blockCount = b.blockCount := by
  induction b with
  | done => rfl
  | op ident o rest ih => simp only [rename, blockCount, ih]
  | fn ident params body rest ihb ih => simp only [rename, blockCount, ihb, ih]
  | branch ident cond yes no rest ihy ihn ih => simp only [rename, blockCount, ihy, ihn, ih]

/-- Renaming leaves the number of records. -/
@[simp] theorem recordCount_rename (b : Block) : (b.rename r).recordCount = b.recordCount := by
  induction b with
  | done => rfl
  | op ident o rest ih => simp only [rename, recordCount, ih]
  | fn ident params body rest ihb ih => simp only [rename, recordCount, ihb, ih]
  | branch ident cond yes no rest ihy ihn ih => simp only [rename, recordCount, ihy, ihn, ih]

/-- Renamed blocks get the same numbers. -/
theorem number_rename (b : Block) (blocks records : Nat) :
    (b.rename r).number blocks records = (b.number blocks records).rename r := by
  induction b generalizing blocks records with
  | done => rfl
  | op ident o rest ih => simp only [rename, number, Code.rename, ih]
  | fn ident params body rest ihb ih =>
      simp only [rename, number, Code.rename, blockCount_rename, recordCount_rename, ihb, ih]
  | branch ident cond yes no rest ihy ihn ih =>
      simp only [rename, number, Code.rename, blockCount_rename, recordCount_rename, ihy, ihn, ih]

end Block

/-! ## Reads -/

namespace Code

/-- The reads of renamed code are added to renamed ones. -/
theorem gatherReads_rename (found : NameSet) (c : Code) :
    (c.rename r).gatherReads (found.rename r) = (c.gatherReads found).rename r := by
  induction c generalizing found with
  | done => rfl
  | op id ident o rest ih =>
      simp only [rename, gatherReads, Operation.operands_rename, ← NameSet.rename_insertAll, ih]
  | fn id ident params blk body rest ihb ih => simp only [rename, gatherReads, ihb, ih]
  | branch id ident cond yesBlk noBlk yes no rest ihy ihn ih =>
      simp only [rename, gatherReads, ← NameSet.rename_insert, ihy, ihn, ih]

/-- The reads of renamed code are the renamed ones. -/
@[simp] theorem reads_rename (c : Code) : (c.rename r).reads = c.reads.rename r :=
  gatherReads_rename r ∅ c

/-- Renaming keeps the blocks nested in code, each renamed. -/
theorem nested_rename (c : Code) :
    (c.rename r).nested = c.nested.map fun x => (x.1, x.2.rename r) := by
  induction c with
  | done => rfl
  | op id ident o rest ih => exact ih
  | fn id ident params blk body rest ihb ih =>
      simp only [rename, nested, ihb, ih, List.map_append, List.map_cons]
  | branch id ident cond yesBlk noBlk yes no rest ihy ihn ih =>
      simp only [rename, nested, ihy, ihn, ih, List.map_append, List.map_cons]

/-- The blocks of renamed code are the renamed ones, with the same numbers. -/
theorem mem_blocks_rename {c : Code} {blk : BlockId} {x : BlockId × Code} (h : x ∈ c.blocks blk) :
    (x.1, x.2.rename r) ∈ (c.rename r).blocks blk := by
  rcases List.mem_cons.mp h with rfl | h
  · exact List.mem_cons_self
  · rw [blocks, nested_rename]
    exact List.mem_cons_of_mem _ (List.mem_map_of_mem h)

end Code

end ClosureConversion
