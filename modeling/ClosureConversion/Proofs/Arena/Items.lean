import ClosureConversion.Proofs.Arena.Links

/-!
# Arenas as lists of items

Seen from outside, a block is a list of items: the record, its name and its right-hand side
(`Arena.items`). This file says what new blocks and new instructions do to these lists, in an arena
whose links are in order (`Arena.WellLinked`). Links appear in no statement about items.
-/

namespace ClosureConversion

/-- An instruction of a block: what a record holds besides its links, with its number. -/
structure Item where
  id : RecordId
  ident : Name
  rhs : Rhs BlockId
deriving DecidableEq, Repr

/-- A record as an item. -/
def Record.item (id : RecordId) (r : Record) : Item := ⟨id, r.ident, r.rhs⟩

namespace Arena

variable {a a' : Arena} {lists : BlockId → List RecordId} {blk : BlockId} {b : Bounds}
  {id j : RecordId}

/-- The item of a record. -/
def item? (a : Arena) (id : RecordId) : Option Item := (a.record? id).map (Record.item id)

/-- The instructions of a block. -/
def items (a : Arena) (blk : BlockId) : List Item := (a.list blk).map fun x => x.2.item x.1

/-! ## Items under changes of one record -/

/-- The items after one record is changed in a way that shows in its item. -/
theorem item?_modify (a : Arena) (id : RecordId) (f : Record → Record) (g : Item → Item)
    (hfg : ∀ j r, (f r).item j = g (r.item j)) (j : RecordId) :
    (a.modify id f).item? j = if j = id then (a.item? j).map g else a.item? j := by
  unfold item?
  rw [record?_modify]
  split
  · rw [Option.map_map, Option.map_map]
    exact congrArg (Option.map · _) (funext (hfg j))
  · rfl

/-- Changing links changes no item. -/
theorem item?_modify_links (a : Arena) (id : RecordId) (prev next : Record → Option RecordId)
    (j : RecordId) :
    (a.modify id fun r => ⟨r.ident, r.rhs, prev r, next r⟩).item? j = a.item? j := by
  rw [item?_modify a id (fun r => ⟨r.ident, r.rhs, prev r, next r⟩) (fun i => i) fun _ _ => rfl,
    Option.map_id']
  exact ite_self _

/-- A new block leaves the items of the records that were there. -/
theorem item?_newBlock (h : j < a.records.size) : a.newBlock.item? j = a.item? j := by
  unfold item?
  rw [record?_newBlock, if_neg (Nat.lt_succ_of_lt h).ne, if_neg h.ne]

/-- Appending adds one item and leaves the others. -/
theorem item?_push (hb : a.bounds? blk = some b) (ident : Name) (rhs : Rhs BlockId)
    (j : RecordId) :
    (a.push blk ident rhs).item? j =
      if j = a.records.size then some ⟨a.records.size, ident, rhs⟩ else a.item? j := by
  have hgrown : ∀ prev next,
      item? ⟨a.records.push ⟨ident, rhs, prev, next⟩, a.blocks⟩ j =
        if j = a.records.size then some ⟨a.records.size, ident, rhs⟩ else a.item? j := by
    intro prev next
    simp only [item?, record?, Array.getElem?_push]
    split
    next h =>
      subst h
      rfl
    next h => rfl
  simp only [push, hb]
  rw [item?_modify_links]
  split
  · rw [item?_modify_links, hgrown]
  · exact hgrown _ _

/-- Detaching changes links only: every record keeps its item. -/
theorem item?_detach (a : Arena) (id j : RecordId) : (a.detach id).item? j = a.item? j := by
  unfold detach
  split
  · rfl
  · dsimp only
    rw [item?_modify_links]
    split <;> split <;> simp only [item?_modify_links]

/-- The items after one record gets another right-hand side. -/
theorem item?_setRhs (a : Arena) (id : RecordId) (rhs : Rhs BlockId) (j : RecordId) :
    (a.setRhs id rhs).item? j =
      if j = id then (a.item? j).map ({ · with rhs := rhs }) else a.item? j :=
  item?_modify a id _ _ (fun _ _ => rfl) j

/-! ## Reading a chain -/

/-- The records of a list with their numbers. -/
def rows (a : Arena) (ids : List RecordId) : List (RecordId × Record) :=
  ids.filterMap fun id => (a.record? id).map (id, ·)

/-- The items along a list of records. -/
theorem map_item_rows (a : Arena) (ids : List RecordId) :
    (a.rows ids).map (fun x => x.2.item x.1) = ids.filterMap a.item? := by
  rw [rows, List.map_filterMap]
  refine List.filterMap_congr fun id _ => ?_
  rw [Option.map_map]
  rfl

/-- Following the links from the first record of a chain reads the chain, but for its last record. -/
theorem Linked.chain_eq {before : Option RecordId} {ids : List RecordId} {first last : RecordId}
    {fuel : Nat} (h : a.Linked before (ids ++ [last]) none) (hf : ids.length ≤ fuel)
    (hfirst : (ids ++ [last]).head? = some first) : a.chain fuel first = a.rows ids := by
  induction ids generalizing before first fuel with
  | nil =>
      obtain rfl : last = first := Option.some.inj hfirst
      obtain ⟨r, hr, hl⟩ := Option.map_eq_some_iff.mp h.1
      have hnext : r.next = none := congrArg Prod.snd hl
      cases fuel with
      | zero => rfl
      | succ fuel => simp only [chain, hr, hnext, rows, List.filterMap_nil]
  | cons id ids ih =>
      obtain rfl : id = first := Option.some.inj hfirst
      obtain ⟨r, hr, hl⟩ := Option.map_eq_some_iff.mp h.1
      obtain ⟨next, hhead⟩ : ∃ next, (ids ++ [last]).head? = some next :=
        ⟨_, List.head?_eq_some_head (by simp)⟩
      have hnext : r.next = some next := by
        have := congrArg Prod.snd hl
        rwa [List.append_eq, hhead] at this
      cases fuel with
      | zero => exact absurd hf (Nat.not_succ_le_zero _)
      | succ fuel =>
          simp only [chain, hr, hnext, rows, List.filterMap_cons, Option.map_some]
          rw [ih h.2 (Nat.le_of_succ_le_succ hf) hhead]
          rfl

/-- No chain without repetition is longer than the arena. -/
theorem Linked.length_le {before after : Option RecordId} {ids : List RecordId}
    (h : a.Linked before ids after) (hn : ids.Nodup) : ids.length ≤ a.records.size := by
  have hsub : ids ⊆ List.range a.records.size := fun id hid => List.mem_range.mpr (h.lt_size hid)
  simpa using (List.subperm_of_subset hn hsub).length_le

namespace Layout

/-- The chain of a block from one of its records on. -/
theorem listFrom_eq (h : Layout a lists) (hb : a.bounds? blk = some b) {xs ys : List RecordId}
    (hxy : lists blk = xs ++ ys) (hid : (ys ++ [b.bottom]).head? = some id) :
    a.listFrom id = a.rows ys := by
  have hlinked := h.linked hb
  have hlen := hlinked.length_le (h.nodup hb)
  rw [Bounds.span, hxy, List.append_assoc, ← List.cons_append] at hlinked hlen
  refine (linked_append.mp hlinked).2.chain_eq ?_ hid
  simp only [List.length_append] at hlen
  omega

/-- A block is what stands along its list. -/
theorem list_eq (h : Layout a lists) (hb : a.bounds? blk = some b) :
    a.list blk = a.rows (lists blk) := by
  obtain ⟨htop, -⟩ := h.linked hb
  obtain ⟨r, hr, hl⟩ := Option.map_eq_some_iff.mp htop
  obtain ⟨first, hfirst⟩ : ∃ first, (lists blk ++ [b.bottom]).head? = some first :=
    ⟨_, List.head?_eq_some_head (by simp)⟩
  have hnext : r.next = some first := by
    have := congrArg Prod.snd hl
    rwa [hfirst] at this
  have hf : a.first? blk = some first := by
    simp [first?, hb, hr, hnext]
  rw [list, hf]
  exact h.listFrom_eq hb (List.nil_append _).symm hfirst

/-- The items of a block are those along its list. -/
theorem items_eq (h : Layout a lists) (hb : a.bounds? blk = some b) :
    a.items blk = (lists blk).filterMap a.item? := by
  rw [items, h.list_eq hb, map_item_rows]

end Layout

/-! ## The items of a block -/

/-- An item has the number of its record. -/
theorem id_of_item? {i : Item} (h : a.item? id = some i) : i.id = id := by
  obtain ⟨r, -, rfl⟩ := Option.map_eq_some_iff.mp h
  rfl

/-- What a chain holds are records of the arena. -/
theorem record?_of_mem_chain {fuel : Nat} {first : RecordId} {r : Record}
    (h : (id, r) ∈ a.chain fuel first) : a.record? id = some r := by
  fun_induction chain a fuel first with
  | case1 => exact absurd h List.not_mem_nil
  | case2 => exact absurd h List.not_mem_nil
  | case3 => exact absurd h List.not_mem_nil
  | case4 fuel first r' hr next hnext ih =>
      rcases List.mem_cons.mp h with he | h
      · obtain ⟨rfl, rfl⟩ := Prod.mk.inj he
        exact hr
      · exact ih h

/-- What a block lists are records of the arena. -/
theorem record?_of_mem_list {r : Record} (h : (id, r) ∈ a.list blk) : a.record? id = some r := by
  unfold list at h
  split at h
  · exact record?_of_mem_chain h
  · exact absurd h List.not_mem_nil

/-- An item of a block is the item of its record. -/
theorem item?_of_mem_items {i : Item} (h : i ∈ a.items blk) : a.item? i.id = some i := by
  obtain ⟨⟨id, r⟩, hm, rfl⟩ := List.mem_map.mp h
  show (a.record? id).map _ = _
  rw [record?_of_mem_list hm]
  rfl

/-- A block that does not exist has no items. -/
theorem items_eq_nil (h : a.bounds? blk = none) : a.items blk = [] := by
  simp [items, list, first?, h]

/-- Only a block that exists has items. -/
theorem exists_bounds?_of_mem_items {i : Item} (h : i ∈ a.items blk) :
    ∃ b, a.bounds? blk = some b := by
  cases hb : a.bounds? blk with
  | none =>
      rw [items_eq_nil hb] at h
      exact absurd h List.not_mem_nil
  | some b => exact ⟨b, rfl⟩

/-- The links of an arena are in order: each block is a chain, and no two chains meet. -/
def WellLinked (a : Arena) : Prop := ∃ lists, Layout a lists

namespace WellLinked

/-- The first arena is well linked. -/
protected theorem empty : WellLinked Arena.empty := by
  have h : Layout ⟨#[], #[]⟩ fun _ => [] :=
    ⟨by simp [bounds?], by simp [bounds?], by simp [bounds?]⟩
  exact ⟨_, h.newBlock⟩

/-- A new block leaves an arena well linked. -/
protected theorem newBlock (h : a.WellLinked) : a.newBlock.WellLinked :=
  let ⟨_, h⟩ := h
  ⟨_, h.newBlock⟩

/-- Appending leaves an arena well linked. -/
protected theorem push (h : a.WellLinked) (blk : BlockId) (ident : Name) (rhs : Rhs BlockId) :
    (a.push blk ident rhs).WellLinked := by
  obtain ⟨lists, h⟩ := h
  cases hb : a.bounds? blk with
  | none =>
      rw [Arena.push, hb]
      exact ⟨lists, h⟩
  | some b => exact ⟨_, h.push hb ident rhs⟩

/-- A new block is empty. -/
theorem items_newBlock_self (h : a.WellLinked) : a.newBlock.items a.numBlocks = [] := by
  obtain ⟨lists, h⟩ := h
  have hb : a.newBlock.bounds? a.numBlocks = some ⟨a.records.size, a.records.size + 1⟩ := by
    rw [bounds?_newBlock, if_pos rfl]
  rw [h.newBlock.items_eq hb, Function.update_self, List.filterMap_nil]

/-- A new block leaves the items of the others. -/
theorem items_newBlock (h : a.WellLinked) (hne : blk ≠ a.numBlocks) :
    a.newBlock.items blk = a.items blk := by
  obtain ⟨lists, h⟩ := h
  have hb' : a.newBlock.bounds? blk = a.bounds? blk := by rw [bounds?_newBlock, if_neg hne]
  cases hb : a.bounds? blk with
  | none => rw [items_eq_nil hb, items_eq_nil (hb'.trans hb)]
  | some b =>
      rw [h.newBlock.items_eq (hb'.trans hb), h.items_eq hb, Function.update_of_ne hne]
      refine List.filterMap_congr fun id hid => item?_newBlock ?_
      exact (h.linked hb).lt_size (Bounds.mem_span.mpr (.inr (.inl hid)))

/-- Pushing appends an item. -/
theorem items_push_self (h : a.WellLinked) (hb : a.bounds? blk = some b) (ident : Name)
    (rhs : Rhs BlockId) :
    (a.push blk ident rhs).items blk = a.items blk ++ [⟨a.records.size, ident, rhs⟩] := by
  obtain ⟨lists, h⟩ := h
  rw [(h.push hb ident rhs).items_eq ((bounds?_push ..).trans hb), h.items_eq hb,
    Function.update_self, List.filterMap_append]
  congr 1
  · refine List.filterMap_congr fun id hid => ?_
    rw [item?_push hb, if_neg]
    exact ((h.linked hb).lt_size (Bounds.mem_span.mpr (.inr (.inl hid)))).ne
  · rw [List.filterMap_cons, item?_push hb, if_pos rfl, List.filterMap_nil]

/-- Appending to a block leaves the items of the others. -/
theorem items_push (h : a.WellLinked) {blk' : BlockId} (hne : blk' ≠ blk) (ident : Name)
    (rhs : Rhs BlockId) : (a.push blk ident rhs).items blk' = a.items blk' := by
  obtain ⟨lists, h⟩ := h
  cases hb : a.bounds? blk with
  | none => rw [Arena.push, hb]
  | some b =>
      have hbs := bounds?_push a blk ident rhs blk'
      cases hb' : a.bounds? blk' with
      | none => rw [items_eq_nil hb', items_eq_nil (hbs.trans hb')]
      | some b' =>
          rw [(h.push hb ident rhs).items_eq (hbs.trans hb'), h.items_eq hb',
            Function.update_of_ne hne]
          refine List.filterMap_congr fun id hid => ?_
          rw [item?_push hb, if_neg]
          exact ((h.linked hb').lt_size (Bounds.mem_span.mpr (.inr (.inl hid)))).ne

end WellLinked

end Arena

end ClosureConversion
