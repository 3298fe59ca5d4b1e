import ClosureConversion.Proofs.Arena.ListModel
import ClosureConversion.Proofs.Arena.Scripts

/-!
# The order in which lowering gives out numbers

Lowering numbers blocks from outside inwards and instructions from inside outwards. A block gets its
number before anything in it is lowered, so the blocks of the arena stand in the pre-order of the nested
block. An instruction gets its number when the blocks that it holds are complete, so it is younger than
every record in them. `Arena.InLoweringOrder` says this, and that the arena is a tree with no record left
over. It holds of the arena of every nested block (`ofBlock_inLoweringOrder`).

* The code that the arena unfolds to lists its blocks in pre-order. Each of them but the first is held by
  one place of one instruction in that list (`Code.children_perm`).
* The chains of the blocks have no record in common and are together as long as the arena, so they hold
  all of it (`WellLinked.chained_perm`).
* That instructions are younger than what they hold is true all the time (`Arena.InnerFirst`). A new block
  changes nothing about it, nor does an instruction in a block that is held by nothing. A block that is
  being lowered is held by nothing until it is complete (`InnerFirst.lower`).
-/

namespace ClosureConversion

open Relation (ReflTransGen)

/-! ## The blocks of a nested block -/

namespace Block

/-- The blocks nested in a block, at any depth, in pre-order: a block before the blocks inside it, and the
first side of a conditional with everything inside it before the second one. -/
def nested : Block → List Block
  | .done => []
  | .op _ _ rest => rest.nested
  | .fn _ _ body rest => (body :: body.nested) ++ rest.nested
  | .branch _ _ yes no rest => ((yes :: yes.nested) ++ (no :: no.nested)) ++ rest.nested

/-- A block and the blocks nested in it, in pre-order. -/
def blocks (t : Block) : List Block := t :: t.nested

/-- The instructions of a block and of the blocks nested in it. -/
def instructions (t : Block) : List (Name × Rhs Block) := t.blocks.flatMap toList

/-- The instructions of a block are its own and those of the blocks nested in it. -/
theorem instructions_eq (t : Block) : t.instructions = t.toList ++ t.nested.flatMap toList := rfl

/-- There are as many nested blocks as are counted. -/
theorem length_nested (t : Block) : t.nested.length = t.blockCount := by
  induction t with
  | done => rfl
  | op ident o rest ih => exact ih
  | fn ident params body rest ihb ih =>
      simp only [nested, blockCount, List.length_append, List.length_cons, ihb, ih]
      omega
  | branch ident cond yes no rest ihy ihn ih =>
      simp only [nested, blockCount, List.length_append, List.length_cons, ihy, ihn, ih]
      omega

/-- Lowering creates two records for each nested block and one for each instruction. -/
theorem recordCount_eq (t : Block) :
    t.recordCount = 2 * t.nested.length + t.instructions.length := by
  induction t with
  | done => rfl
  | op ident o rest ih =>
      rw [instructions_eq] at ih ⊢
      simp only [recordCount, nested, toList, List.length_append, List.length_cons, ih]
      omega
  | fn ident params body rest ihb ih =>
      rw [instructions_eq] at ihb ih ⊢
      simp only [recordCount, nested, toList, List.flatMap_append, List.flatMap_cons,
        List.length_append, List.length_cons, ihb, ih]
      omega
  | branch ident cond yes no rest ihy ihn ih =>
      rw [instructions_eq] at ihy ihn ih ⊢
      simp only [recordCount, nested, toList, List.flatMap_append, List.flatMap_cons,
        List.length_append, List.length_cons, ihy, ihn, ih]
      omega

end Block

/-! ## The blocks of code -/

namespace Code

/-- The blocks nested in code are those nested in the block that it stands for. -/
theorem map_erase_nested (c : Code) : c.nested.map (·.2.erase) = c.erase.nested := by
  induction c with
  | done => rfl
  | op id ident o rest ih => exact ih
  | fn id ident params blk body rest ihb ih =>
      simp only [nested, erase, Block.nested, List.map_append, List.map_cons, ihb, ih]
  | branch id ident cond yesBlk noBlk yes no rest ihy ihn ih =>
      simp only [nested, erase, Block.nested, List.map_append, List.map_cons, ihy, ihn, ih]

/-- The blocks of code are those of the block that it stands for. -/
theorem map_erase_blocks (c : Code) (blk : BlockId) :
    (c.blocks blk).map (·.2.erase) = c.erase.blocks :=
  congrArg (c.erase :: ·) c.map_erase_nested

/-- Code and the block that it stands for have as many instructions of their own. -/
theorem length_heads (c : Code) : c.heads.length = c.erase.toList.length := by
  induction c with
  | done => rfl
  | op id ident o rest ih => exact congrArg (· + 1) ih
  | fn id ident params blk body rest _ ih => exact congrArg (· + 1) ih
  | branch id ident cond yesBlk noBlk yes no rest _ _ ih => exact congrArg (· + 1) ih

/-- Over all blocks of code, every nested block is held exactly once. -/
theorem children_perm (c : Code) (blk : BlockId) :
    ((c.blocks blk).flatMap (·.2.children)).Perm c.nested := by
  induction c generalizing blk with
  | done => exact List.Perm.refl _
  | op id ident o rest ih => exact ih blk
  | fn id ident params blk' body rest ihb ih =>
      simp only [blocks, List.flatMap_cons] at ihb ih
      simp only [blocks, nested, children, List.flatMap_cons, List.flatMap_append, List.cons_append]
      refine List.Perm.cons _ ?_
      rw [← List.append_assoc body.children]
      exact (List.perm_append_comm_assoc ..).trans ((ihb blk').append (ih blk))
  | branch id ident cond yesBlk noBlk yes no rest ihy ihn ih =>
      simp only [blocks, List.flatMap_cons] at ihy ihn ih
      simp only [blocks, nested, children, List.flatMap_cons, List.flatMap_append, List.cons_append,
        List.append_assoc]
      refine List.Perm.cons _ (List.Perm.trans (List.Perm.cons _ ?_) List.perm_middle.symm)
      have hperm := ((ihy yesBlk).append (ihn noBlk)).append (ih blk)
      simpa only [List.append_assoc] using (List.perm_append_comm_assoc ..).trans hperm

/-- In the list of all blocks, a block stands before what is nested in it. -/
theorem blocks_sublist_of_mem_blocks {c : Code} {blk : BlockId} :
    ∀ x ∈ c.blocks blk, (x.2.blocks x.1).Sublist (c.blocks blk) :=
  blocks_induction (List.Sublist.refl _) fun _ hx _ hy =>
    ((blocks_sublist_nested hy).trans (List.sublist_cons_self _ _)).trans hx

end Code

/-! ## The records of a block -/

namespace Arena

variable {a a' : Arena} {blk child : BlockId} {b : Bounds} {id : RecordId} {i : Item} {c : Code}

/-- The records of a block, its sentinels around the instructions in its list. -/
def chained (a : Arena) (blk : BlockId) : List RecordId :=
  match a.bounds? blk with
  | some b => b.span (a.listed blk)
  | none => []

/-- The records of a block that exists are its sentinels and its list. -/
theorem chained_eq (hb : a.bounds? blk = some b) : a.chained blk = b.span (a.listed blk) := by
  rw [chained, hb]

/-- Only a block that exists has records. -/
theorem exists_bounds?_of_mem_chained (h : id ∈ a.chained blk) :
    ∃ b, a.bounds? blk = some b ∧ id ∈ b.span (a.listed blk) := by
  cases hb : a.bounds? blk with
  | none =>
      rw [chained, hb] at h
      exact absurd h List.not_mem_nil
  | some b => exact ⟨b, rfl, chained_eq hb ▸ h⟩

/-- The numbers of a block are those of its items. -/
theorem listed_eq_map_items (a : Arena) (blk : BlockId) :
    a.listed blk = (a.items blk).map (·.id) := by
  rw [items, List.map_map]
  rfl

/-- The record of an item is one of the records of its block. -/
theorem id_mem_chained (h : i ∈ a.items blk) : i.id ∈ a.chained blk := by
  obtain ⟨b, hb⟩ := exists_bounds?_of_mem_items h
  rw [chained_eq hb, Bounds.mem_span, listed_eq_map_items]
  exact .inr (.inl (List.mem_map_of_mem h))

/-- Where the bounds and the items of a block are the same, its records are. -/
theorem chained_congr (hb : a'.bounds? blk = a.bounds? blk) (hi : a'.items blk = a.items blk) :
    a'.chained blk = a.chained blk := by
  rw [chained, chained, hb, listed_eq_map_items, listed_eq_map_items, hi]

namespace WellLinked

/-- The layout of an arena is what its blocks list. -/
theorem layout (h : a.WellLinked) : Layout a a.listed := by
  obtain ⟨lists, h⟩ := h
  exact h.congr_lists h.listed_eq

/-- The records of a block are records of the arena. -/
theorem lt_size_of_mem_chained (h : a.WellLinked) (hid : id ∈ a.chained blk) :
    id < a.records.size := by
  obtain ⟨b, hb, hid⟩ := exists_bounds?_of_mem_chained hid
  exact (h.layout.linked hb).lt_size hid

/-- No record is in two chains, or twice in one. -/
theorem nodup_chained (h : a.WellLinked) :
    ((List.range a.numBlocks).flatMap a.chained).Nodup := by
  rw [List.nodup_flatMap]
  constructor
  · intro blk hblk
    obtain ⟨b, hb⟩ := exists_bounds? (List.mem_range.mp hblk)
    rw [chained_eq hb]
    exact h.layout.nodup hb
  · refine List.nodup_range.imp fun {blk blk'} hne => ?_
    rw [Function.onFun, List.disjoint_left]
    intro id hid hid'
    obtain ⟨b, hb, hid⟩ := exists_bounds?_of_mem_chained hid
    obtain ⟨b', hb', hid'⟩ := exists_bounds?_of_mem_chained hid'
    exact hne (h.layout.apart hb hb' hid hid')

/-- If the chains are together as long as the arena, no record is left over. -/
theorem chained_perm (h : a.WellLinked)
    (hlen : ((List.range a.numBlocks).flatMap a.chained).length = a.records.size) :
    ((List.range a.numBlocks).flatMap a.chained).Perm (List.range a.records.size) := by
  have hsub : (List.range a.numBlocks).flatMap a.chained ⊆ List.range a.records.size := by
    intro id hid
    obtain ⟨blk, -, hid⟩ := List.mem_flatMap.mp hid
    exact List.mem_range.mpr (h.lt_size_of_mem_chained hid)
  refine (List.subperm_of_subset h.nodup_chained hsub).perm_of_length_le ?_
  rw [hlen, List.length_range]

/-- A new block leaves the records of the others. -/
theorem chained_newBlock (h : a.WellLinked) (hne : blk ≠ a.numBlocks) :
    a.newBlock.chained blk = a.chained blk :=
  chained_congr (by rw [bounds?_newBlock, if_neg hne]) (h.items_newBlock hne)

/-- Appending to a block leaves the records of the others. -/
theorem chained_push (h : a.WellLinked) (hne : child ≠ blk) (ident : Name) (rhs : Rhs BlockId) :
    (a.push blk ident rhs).chained child = a.chained child :=
  chained_congr (bounds?_push ..) (h.items_push hne ident rhs)

/-- After a push, an item is old or has the number of the new record. -/
theorem mem_items_push (h : a.WellLinked) {x : BlockId} {ident : Name} {rhs : Rhs BlockId}
    (hi : i ∈ (a.push blk ident rhs).items x) : i ∈ a.items x ∨ i.id = a.records.size := by
  by_cases hx : x = blk
  · subst hx
    cases hb : a.bounds? x with
    | none =>
        rw [push_of_bounds?_eq_none hb] at hi
        exact .inl hi
    | some b =>
        rw [h.items_push_self hb, List.mem_append, List.mem_singleton] at hi
        exact hi.imp_right fun hi => by rw [hi]
  · rw [h.items_push hx] at hi
    exact .inl hi

end WellLinked

/-! ## Instructions are younger than what they hold -/

/-- Each instruction has a larger number than all records of the blocks that it holds. -/
def InnerFirst (a : Arena) : Prop :=
  ∀ blk, ∀ i ∈ a.items blk, ∀ child ∈ i.rhs.blocks, ∀ id ∈ a.chained child, id < i.id

/-- A block that exists and that no instruction holds. -/
structure Unheld (a : Arena) (blk : BlockId) : Prop where
  inRange : blk < a.numBlocks
  free : ∀ x, blk ∉ a.references x

/-- What is held by nothing is held by nothing new when the arena grows. -/
theorem Unheld.grown (h : a.Unheld blk) (hg : Grown a a') : a'.Unheld blk where
  inRange := h.inRange.trans_le hg.le
  free := fun x hx => h.free x (hg.old h.inRange hx)

/-- A new block is held by nothing. -/
theorem Forest.unheld_newBlock (h : a.Forest) : a.newBlock.Unheld a.numBlocks := by
  have hg : Grown a.newBlock a.newBlock := .refl h.grown_newBlock.forest
  exact ⟨hg.numBlocks_lt, h.not_mem_references hg⟩

namespace InnerFirst

/-- A new block leaves instructions younger than what they hold. -/
protected theorem newBlock (h : a.InnerFirst) (hf : a.Forest) : a.newBlock.InnerFirst := by
  intro blk i hi child hc id hid
  have hblk : blk ≠ a.numBlocks := by
    rintro rfl
    rw [hf.linked.items_newBlock_self] at hi
    exact absurd hi List.not_mem_nil
  rw [hf.linked.items_newBlock hblk] at hi
  have hlt : child < a.numBlocks := hf.inRange blk child (mem_references hi hc)
  rw [hf.linked.chained_newBlock hlt.ne] at hid
  exact h blk i hi child hc id hid

/-- An instruction that is pushed is younger than all records so far. For the other instructions nothing
changes if none of them holds the block that grows. -/
protected theorem push (h : a.InnerFirst) (hw : a.WellLinked) {ident : Name} {rhs : Rhs BlockId}
    (hblk : (a.push blk ident rhs).Unheld blk) : (a.push blk ident rhs).InnerFirst := by
  intro x i hi child hc id hid
  have hne : child ≠ blk := by
    rintro rfl
    exact hblk.free x (mem_references hi hc)
  rw [hw.chained_push hne] at hid
  rcases hw.mem_items_push hi with hi | hi
  · exact h x i hi child hc id hid
  · rw [hi]
    exact hw.lt_size_of_mem_chained hid

/-- Lowering keeps the order. The induction follows the nested block. The block that is lowered into
stays unheld, since instructions take up new blocks only. -/
protected theorem lower (h : a.InnerFirst) (hf : a.Forest) (hblk : a.Unheld blk) (t : Block) :
    (a.lower blk t).InnerFirst := by
  induction t generalizing a blk with
  | done => exact h
  | op ident o rest ih =>
      have hop : Grown a (a.push blk ident (.op o)) := hf.grown_op rfl blk ident
      exact ih (h.push hf.linked (hblk.grown hop)) hop.forest (hblk.grown hop)
  | fn ident params body rest ihb ih =>
      have hnew := hf.grown_newBlock.forest
      have hbody := hnew.lower a.numBlocks body
      have hfn := hf.grown_fn hbody blk ident params
      have hfilled := ihb (h.newBlock hf) hnew hf.unheld_newBlock
      exact ih (hfilled.push hbody.forest.linked (hblk.grown hfn)) hfn.forest (hblk.grown hfn)
  | branch ident cond yes no rest ihy ihn ih =>
      have hnew := hf.grown_newBlock.forest
      have hyes := hnew.lower a.numBlocks yes
      have hnew' := hyes.forest.grown_newBlock.forest
      have hno := hnew'.lower (a.newBlock.lower a.numBlocks yes).numBlocks no
      have hbranch := hf.grown_branch hyes hno blk ident cond
      have hfirst := ihy (h.newBlock hf) hnew hf.unheld_newBlock
      have hsecond := ihn (hfirst.newBlock hyes.forest) hnew' hyes.forest.unheld_newBlock
      exact ih (hsecond.push hno.forest.linked (hblk.grown hbranch)) hbranch.forest
        (hblk.grown hbranch)

/-- An instruction is younger than the records of all blocks nested in it, at any depth. -/
theorem lt_of_nested (h : a.InnerFirst) {inner : BlockId} (hp : ReflTransGen a.Edge child inner)
    (hi : i ∈ a.items blk) (hc : child ∈ i.rhs.blocks) (hid : id ∈ a.chained inner) : id < i.id := by
  induction hp using ReflTransGen.head_induction_on generalizing blk i with
  | refl => exact h blk i hi _ hc id hid
  | head he _ ih =>
      obtain ⟨j, hj, hmem⟩ := edge_iff.mp he
      exact (ih hj hmem).trans (h blk i hi _ hc j.id (id_mem_chained hj))

end InnerFirst

/-- The entry is held by nothing. -/
theorem Forest.unheld_entry (h : a.Forest) : a.Unheld entry := ⟨h.entry_lt, h.root⟩

/-- In the first arena there is nothing to hold anything. -/
theorem innerFirst_empty : Arena.empty.InnerFirst := by
  intro blk i hi child hc
  have hmem := mem_references hi hc
  obtain rfl : child = entry := Nat.lt_one_iff.mp (forest_empty.inRange blk child hmem)
  exact absurd hmem (forest_empty.root blk)

/-- In the arena of a nested block every instruction is younger than what it holds. -/
theorem innerFirst_ofBlock (t : Block) : (ofBlock t).InnerFirst :=
  innerFirst_empty.lower forest_empty forest_empty.unheld_entry t

/-! ## Blocks in pre-order -/

/-- The entry shows code, and the blocks of the arena are those of the code, numbered in pre-order. -/
structure Preordered (a : Arena) (c : Code) : Prop where
  shows : a.Shows entry c
  numbers : (c.blocks entry).map (·.1) = List.range a.numBlocks

/-- The arena of a nested block has a block for each of its blocks. -/
theorem numBlocks_ofBlock (t : Block) : (ofBlock t).numBlocks = t.blocks.length := by
  have h : (ofBlock t).numBlocks = 1 + t.blockCount :=
    (lower_lowered t WellLinked.empty bounds?_empty_entry).numBlocks
  rw [h, ← t.length_nested, Nat.add_comm]
  rfl

/-- The arena of a nested block has two sentinels for each block, and a record for each
instruction. -/
theorem size_ofBlock (t : Block) :
    (ofBlock t).records.size = 2 * t.blocks.length + t.instructions.length := by
  have h : (ofBlock t).records.size = 2 + t.recordCount :=
    (lower_lowered t WellLinked.empty bounds?_empty_entry).size
  rw [h, t.recordCount_eq, Block.blocks, List.length_cons]
  omega

/-- The blocks of the arena of a nested block are numbered in pre-order. -/
theorem preordered_ofBlock (t : Block) : (ofBlock t).Preordered (t.number 1 2) where
  shows := (ofBlock_unfolds t).shows
  numbers := by
    rw [numBlocks_ofBlock, Block.blocks, List.length_cons, t.length_nested, List.range_eq_range',
      List.range'_succ, ← t.map_nested_number 1 2]
    rfl

namespace Preordered

/-- To go through the blocks by their numbers is to go through the code in pre-order. -/
theorem flatMap_range {β : Type} (h : a.Preordered c) (f : BlockId → List β) :
    (List.range a.numBlocks).flatMap f = (c.blocks entry).flatMap fun x => f x.1 := by
  rw [← h.numbers, List.flatMap_map]

/-- Each number of a block is that of a block of the code. -/
theorem exists_mem_blocks (h : a.Preordered c) (hlt : blk < a.numBlocks) :
    ∃ d, (blk, d) ∈ c.blocks entry := by
  have hmem := List.mem_range.mpr hlt
  rw [← h.numbers] at hmem
  obtain ⟨⟨_, d⟩, hd, rfl⟩ := List.mem_map.mp hmem
  exact ⟨d, hd⟩

/-- A block comes before the blocks that it holds. -/
theorem lt_of_mem_references (h : a.Preordered c) (hc : child ∈ a.references blk) : blk < child := by
  obtain ⟨i, hi, -⟩ := List.mem_flatMap.mp hc
  obtain ⟨b, hb⟩ := exists_bounds?_of_mem_items hi
  obtain ⟨d, hd⟩ := h.exists_mem_blocks (bounds?_lt hb)
  rw [h.shows.references_eq hd] at hc
  obtain ⟨y, hy, rfl⟩ := List.mem_map.mp hc
  -- the block and all blocks nested in it are a part of the list of all blocks, which climbs
  have hsorted : ((d.blocks blk).map (·.1)).Pairwise (· < ·) := by
    have hall : ((c.blocks entry).map (·.1)).Pairwise (· < ·) := by
      rw [h.numbers]
      exact List.pairwise_lt_range
    exact hall.sublist ((Code.blocks_sublist_of_mem_blocks _ hd).map (·.1))
  have hmem : y ∈ d.nested := (Code.blocks_sublist_nested hy).subset List.mem_cons_self
  exact (List.pairwise_cons.mp hsorted).1 y.1 (List.mem_map_of_mem hmem)

/-- Each block but the entry is held once, the entry is not held. -/
theorem count_references (h : a.Preordered c) (hlt : blk < a.numBlocks) :
    ((List.range a.numBlocks).flatMap a.references).count blk = if blk = entry then 0 else 1 := by
  have hperm : ((List.range a.numBlocks).flatMap a.references).Perm (c.nested.map (·.1)) := by
    rw [h.flatMap_range, List.flatMap_congr fun x hx => h.shows.references_eq hx, ← List.map_flatMap]
    exact (c.children_perm entry).map (·.1)
  have hone : ((c.blocks entry).map (·.1)).count blk = 1 := by
    rw [h.numbers]
    exact List.count_eq_one_of_mem List.nodup_range (List.mem_range.mpr hlt)
  rw [Code.blocks, List.map_cons, List.count_cons] at hone
  rw [hperm.count_eq]
  by_cases hblk : blk = entry
  · rw [hblk, beq_self_eq_true, if_pos rfl] at hone
    rw [hblk, if_pos rfl]
    exact Nat.succ.inj hone
  · rw [if_neg fun he => hblk (beq_iff_eq.mp he).symm] at hone
    rw [if_neg hblk]
    exact hone

/-- A block has as many records as it has instructions, and two more. -/
theorem length_chained (h : a.Preordered c) {x : BlockId × Code} (hx : x ∈ c.blocks entry) :
    (a.chained x.1).length = x.2.erase.toList.length + 2 := by
  obtain ⟨⟨b, hb⟩, hitems⟩ := h.shows x hx
  rw [chained_eq hb, Bounds.span, List.length_cons, List.length_append, listed_eq_map_items,
    List.length_map, hitems, Code.length_heads]
  rfl

/-- All chains together have two records for each block and one for each instruction. -/
theorem length_flatMap_chained (h : a.Preordered c) :
    ((List.range a.numBlocks).flatMap a.chained).length =
      2 * c.erase.blocks.length + c.erase.instructions.length := by
  have hsum : (c.erase.blocks.map fun t => t.toList.length + 2).sum =
      2 * c.erase.blocks.length + c.erase.instructions.length := by
    rw [List.sum_map_add, List.map_const', List.sum_const_nat, Nat.mul_comm, Nat.add_comm,
      Block.instructions, List.length_flatMap]
  rw [h.flatMap_range, List.length_flatMap, List.map_congr_left fun x hx => h.length_chained hx,
    ← hsum, ← c.map_erase_blocks entry, List.map_map]
  rfl

end Preordered

/-! ## The arena of a nested block -/

/-- An arena holds a nested block in the order of lowering. -/
structure InLoweringOrder (a : Arena) (t : Block) : Prop where
  /-- There is one block for each block of `t`. -/
  numBlocks : a.numBlocks = t.blocks.length
  /-- Unfolding the entry gives `t` back. On the way it meets the blocks of `t` in pre-order, and they are
  numbered `0`, `1`, `2` and so on. -/
  preorder : ∃ c, a.code entry = .ok c ∧ c.erase = t ∧
    (c.blocks entry).map (·.2.erase) = t.blocks ∧
    (c.blocks entry).map (·.1) = List.range a.numBlocks
  /-- A block has a smaller number than the blocks that its instructions hold. -/
  outerFirst : ∀ blk, ∀ child ∈ a.references blk, blk < child
  /-- Over the lists of all blocks, each block but the entry is held exactly once, as the body of a literal
  or as a side of a conditional. The entry is not held. -/
  heldOnce : ∀ blk < a.numBlocks,
    ((List.range a.numBlocks).flatMap a.references).count blk = if blk = entry then 0 else 1
  /-- Each record stands exactly once in the chain of one block: as a sentinel or in the list between. -/
  complete : ((List.range a.numBlocks).flatMap a.chained).Perm (List.range a.records.size)
  /-- There are two records for each block and one for each instruction of `t`. -/
  size : a.records.size = 2 * a.numBlocks + t.instructions.length
  /-- An instruction has a larger number than every record of the blocks nested in it, at any depth,
  sentinels included. -/
  innerFirst : ∀ blk, ∀ i ∈ a.items blk, ∀ child ∈ i.rhs.blocks, ∀ inner,
    ReflTransGen a.Edge child inner → ∀ id ∈ a.chained inner, id < i.id

end Arena

/-- **Lowering order.** The arena of a nested block is a tree without sharing and without leftovers. Its
blocks are numbered in pre-order, and each instruction behind everything that is nested in it. -/
theorem ofBlock_inLoweringOrder (t : Block) : (Arena.ofBlock t).InLoweringOrder t := by
  have h := Arena.preordered_ofBlock t
  have herase := t.erase_number 1 2
  have hblocks := Arena.numBlocks_ofBlock t
  have hsize := Arena.size_ofBlock t
  have hlinked : (Arena.ofBlock t).WellLinked :=
    (Arena.forest_empty.lower Arena.entry t).forest.linked
  refine ⟨hblocks, ⟨t.number 1 2, ?_, herase, ?_, h.numbers⟩, ?_, ?_, ?_, ?_, ?_⟩
  · exact (Arena.ofBlock_unfolds t).code_eq List.mem_cons_self
  · rw [Code.map_erase_blocks, herase]
  · exact fun blk child hc => h.lt_of_mem_references hc
  · exact fun blk hlt => h.count_references hlt
  · refine hlinked.chained_perm ?_
    rw [h.length_flatMap_chained, herase, hsize]
  · rw [hsize, hblocks]
  · intro blk i hi child hc inner hp id hid
    exact (Arena.innerFirst_ofBlock t).lt_of_nested hp hi hc hid

/-- A literal with a conditional in its body, and a second literal behind it. -/
def Block.layered : Block :=
  .fn "f" ["x"] (.branch "r" "x" (.op "y" .unit .done) .done .done) (.fn "g" [] .done .done)

/-- Two levels of nesting: the numbers of the blocks and the records of each. -/
theorem ofBlock_inLoweringOrder_layered :
    (List.range 5).map (Arena.ofBlock .layered).references = [[1, 4], [2, 3], [], [], []] ∧
      (List.range 5).map (Arena.ofBlock .layered).chained =
        [[0, 10, 13, 1], [2, 9, 3], [4, 6, 5], [7, 8], [11, 12]] ∧
      (Arena.ofBlock .layered).InLoweringOrder .layered :=
  ⟨by decide, by decide, ofBlock_inLoweringOrder .layered⟩

end ClosureConversion
