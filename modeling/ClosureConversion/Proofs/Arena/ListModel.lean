import ClosureConversion.Proofs.Arena.Paths

/-!
# An arena is a plain list for each block

`ListModel` is what an arena looks like to one who knows no links: for each record its name and its
right-hand side, for each block the list of its records. The edits have an obvious meaning there
(`ListModel.edit`): a push appends a number to a list, and a detach deletes a number from all lists.

`build_lists` says that the arena after any sequence of edits has orderly links, and that it is this
model as long as no sentinel was detached. The invariant that carries the induction is
`Arena.Tracks`: the lists of the model are the layout of the arena, and a record in no list is linked
to nothing, so that detaching it once more changes nothing.
-/

namespace ClosureConversion

/-- The contents of an arena without links. -/
structure ListModel where
  /-- The name and the right-hand side of each record. -/
  cells : List (Name × Rhs BlockId)
  /-- The records of each block. -/
  lists : List (List RecordId)
deriving DecidableEq, Repr

namespace ListModel

/-- The records of a block. A block that does not exist has none. -/
def listed (m : ListModel) (blk : BlockId) : List RecordId := m.lists[blk]?.getD []

/-- Give one record another right-hand side. -/
def setRhs (m : ListModel) (id : RecordId) (rhs : Rhs BlockId) : ListModel :=
  { m with cells := m.cells.modify id fun cell => (cell.1, rhs) }

/-- Carry out an edit. A new block takes two numbers for its sentinels, which are in no list. -/
def edit (m : ListModel) : Edit → ListModel
  | .newBlock =>
    { cells := m.cells ++ [("", .op .nop), ("", .op .nop)]
      lists := m.lists ++ [[]] }
  | .push blk ident rhs =>
    if blk < m.lists.length then
      { cells := m.cells ++ [(ident, rhs)]
        lists := m.lists.modify blk (· ++ [m.cells.length]) }
    else m
  | .detach id => { m with lists := m.lists.map (·.filter (· ≠ id)) }
  | .setRhs id rhs => m.setRhs id rhs
  | .markIndirect id =>
    match m.cells[id]?.bind (·.2.indirect?) with
    | some rhs => m.setRhs id rhs
    | none => m

/-- An empty entry block. -/
def empty : ListModel := edit ⟨[], []⟩ .newBlock

/-- The model after a sequence of edits. -/
def build (edits : List Edit) : ListModel := edits.foldl edit empty

variable {m : ListModel} {blk : BlockId}

/-- A new block has an empty list. -/
theorem listed_newBlock (m : ListModel) :
    (m.edit .newBlock).listed = Function.update m.listed m.lists.length [] := by
  funext blk
  simp only [listed, edit, Function.update_apply]
  split
  next h => simp [h]
  next h =>
    rcases Nat.lt_or_gt_of_ne h with hlt | hgt
    · rw [List.getElem?_append_left hlt]
    · rw [List.getElem?_eq_none (by simpa using hgt), List.getElem?_eq_none hgt.le]

/-- Appending adds the next number to the list of the block. -/
theorem listed_push (h : blk < m.lists.length) (ident : Name) (rhs : Rhs BlockId) :
    (m.edit (.push blk ident rhs)).listed =
      Function.update m.listed blk (m.listed blk ++ [m.cells.length]) := by
  funext blk'
  simp only [listed, edit, if_pos h, List.getElem?_modify, Function.update_apply]
  split
  next he =>
    subst he
    rw [if_pos rfl, List.getElem?_eq_getElem h]
    rfl
  next he => rw [if_neg (Ne.symm he)]; simp

/-- Detaching drops a number from all lists. -/
theorem listed_detach (m : ListModel) (id : RecordId) (blk : BlockId) :
    (m.edit (.detach id)).listed blk = (m.listed blk).filter (· ≠ id) := by
  simp only [listed, edit, List.getElem?_map]
  cases m.lists[blk]? <;> rfl

end ListModel

namespace Arena

variable {a : Arena} {m : ListModel} {blk : BlockId} {b : Bounds} {id j : RecordId}

/-- The numbers of the records of a block. -/
def listed (a : Arena) (blk : BlockId) : List RecordId := (a.list blk).map (·.1)

/-- The names of all records, listed or not. -/
def idents (a : Arena) : List Name := a.records.toList.map (·.ident)

/-- The name and the right-hand side of each record. -/
def cells (a : Arena) : List (Name × Rhs BlockId) := a.records.toList.map fun r => (r.ident, r.rhs)

/-- The cells after one record is changed in a way that shows in its cell. -/
theorem cells_modify (a : Arena) (id : RecordId) {f : Record → Record}
    {g : Name × Rhs BlockId → Name × Rhs BlockId}
    (hfg : ∀ r, ((f r).ident, (f r).rhs) = g (r.ident, r.rhs)) :
    (a.modify id f).cells = a.cells.modify id g := by
  apply List.ext_getElem?
  intro j
  simp only [cells, modify, Array.toList_modify, List.getElem?_map, List.getElem?_modify]
  cases a.records.toList[j]? with
  | none => rfl
  | some r =>
      simp only [Option.map_some, Option.map_eq_map]
      split
      · rw [hfg]
      · rfl

/-- Changing links changes no cell. -/
theorem cells_modify_links (a : Arena) (id : RecordId) (prev next : Record → Option RecordId) :
    (a.modify id fun r => ⟨r.ident, r.rhs, prev r, next r⟩).cells = a.cells :=
  (cells_modify a id fun _ => rfl).trans (List.modify_id ..)

/-- Setting a successor leaves the cells. -/
@[simp] theorem cells_linkNext (a : Arena) (place next : Option RecordId) :
    (a.linkNext place next).cells = a.cells := by
  cases place with
  | none => rfl
  | some p => exact cells_modify_links ..

/-- Setting a predecessor leaves the cells. -/
@[simp] theorem cells_linkPrev (a : Arena) (place prev : Option RecordId) :
    (a.linkPrev place prev).cells = a.cells := by
  cases place with
  | none => rfl
  | some p => exact cells_modify_links ..

/-- Appending adds a cell. -/
theorem cells_push (hb : a.bounds? blk = some b) (ident : Name) (rhs : Rhs BlockId) :
    (a.push blk ident rhs).cells = a.cells ++ [(ident, rhs)] := by
  rw [push_eq hb, cells_linkPrev, cells_linkNext]
  simp [cells]

/-- Detaching leaves the cells: the record is not freed. -/
theorem cells_detach (a : Arena) (id : RecordId) : (a.detach id).cells = a.cells := by
  by_cases h : id < a.records.size
  · obtain ⟨r, hr⟩ := exists_record? h
    rw [detach_eq hr, cells_modify_links, cells_linkPrev, cells_linkNext]
  · rw [detach_of_size_le (Nat.le_of_not_lt h)]

/-- Another right-hand side changes one cell and keeps its name. -/
theorem cells_setRhs (a : Arena) (id : RecordId) (rhs : Rhs BlockId) :
    (a.setRhs id rhs).cells = a.cells.modify id fun cell => (cell.1, rhs) :=
  cells_modify a id fun _ => rfl

/-- The numbers along a list of records are that list. -/
theorem map_fst_rows {ids : List RecordId} (h : ∀ id ∈ ids, id < a.records.size) :
    (a.rows ids).map (·.1) = ids := by
  rw [rows, List.map_filterMap]
  refine (List.filterMap_congr fun id hid => ?_).trans List.filterMap_some
  obtain ⟨r, hr⟩ := exists_record? (h id hid)
  rw [hr]
  rfl

/-- The numbers of a block are those of its layout. -/
theorem Layout.listed_eq {lists : BlockId → List RecordId} (h : Layout a lists)
    (hb : a.bounds? blk = some b) : a.listed blk = lists blk := by
  rw [listed, h.list_eq hb, map_fst_rows]
  exact fun id hid => (h.linked hb).lt_size (Bounds.mem_span.mpr (.inr (.inl hid)))

/-! ## Edits that spare the sentinels -/

/-- An edit detaches no sentinel. -/
def spares (a : Arena) : Edit → Bool
  | .detach id => a.blocks.toList.all fun b => b.top != id && b.bottom != id
  | _ => true

/-- None of the edits detaches a sentinel. -/
def sparesAll : Arena → List Edit → Bool
  | _, [] => true
  | a, e :: edits => a.spares e && (a.edit e).sparesAll edits

/-- An edit that spares the sentinels detaches none of them. -/
theorem spares_detach (h : a.spares (.detach id) = true) (hb : a.bounds? blk = some b) :
    b.top ≠ id ∧ b.bottom ≠ id := by
  have hmem : b ∈ a.blocks.toList := Array.mem_toList_iff.mpr (Array.mem_of_getElem? hb)
  simpa using List.all_eq_true.mp h b hmem

/-! ## The invariant -/

/-- An arena is laid out as a list model says, and every other record is loose. -/
structure Tracks (a : Arena) (m : ListModel) : Prop where
  layout : Layout a m.listed
  cells : a.cells = m.cells
  numBlocks : a.numBlocks = m.lists.length
  loose : ∀ {j}, (∀ {blk b}, a.bounds? blk = some b → j ∉ b.span (m.listed blk)) →
    a.next? j = none ∧ a.prev? j = none

namespace Tracks

/-- There are as many records as cells. -/
theorem size_eq (h : a.Tracks m) : a.records.size = m.cells.length := by
  rw [← h.cells, Arena.cells, List.length_map, Array.length_toList]

/-- The blocks of the model exist. -/
theorem bounds_of_lt (h : a.Tracks m) (hlt : blk < m.lists.length) :
    ∃ b, a.bounds? blk = some b :=
  Arena.exists_bounds? (Nat.lt_of_lt_of_eq hlt h.numBlocks.symm)

/-- A new block is tracked. -/
protected theorem newBlock (h : a.Tracks m) : a.newBlock.Tracks (m.edit .newBlock) where
  layout := by
    rw [ListModel.listed_newBlock, ← h.numBlocks]
    exact h.layout.newBlock
  cells := by
    simp [Arena.cells, Arena.newBlock, ListModel.edit, ← h.cells]
  numBlocks := by
    simp [ListModel.edit, h.numBlocks]
  loose := by
    intro j hj
    have hlisted := ListModel.listed_newBlock m
    rw [← h.numBlocks] at hlisted
    have hself : a.newBlock.bounds? a.numBlocks = some ⟨a.records.size, a.records.size + 1⟩ := by
      rw [bounds?_newBlock, if_pos rfl]
    have hnew := hj hself
    rw [Bounds.mem_span, not_or, not_or] at hnew
    have hold := h.loose (j := j) fun {blk b} hb => by
      have hne := (bounds?_lt hb).ne
      have hb' : a.newBlock.bounds? blk = some b := by
        rw [bounds?_newBlock, if_neg hne, hb]
      have hout := hj hb'
      rwa [hlisted, Function.update_of_ne hne] at hout
    rw [next?_newBlock, prev?_newBlock, if_neg hnew.1, if_neg hnew.2.2]
    exact hold

/-- Appending is tracked, also to a block that does not exist. -/
protected theorem push (h : a.Tracks m) (ho : a.Orderly) (blk : BlockId) (ident : Name)
    (rhs : Rhs BlockId) : (a.push blk ident rhs).Tracks (m.edit (.push blk ident rhs)) := by
  by_cases hlt : blk < m.lists.length
  · obtain ⟨b, hb⟩ := h.bounds_of_lt hlt
    have hlisted := ListModel.listed_push hlt ident rhs
    rw [← h.size_eq] at hlisted
    constructor
    · rw [hlisted]
      exact h.layout.push hb ident rhs
    · rw [cells_push hb, h.cells]
      simp [ListModel.edit, hlt]
    · rw [numBlocks_push, h.numBlocks]
      simp [ListModel.edit, hlt]
    · intro j hj
      have hold := h.loose (j := j) fun {blk' b'} hb' hmem => by
        refine hj ((bounds?_push ..).trans hb') ?_
        rw [hlisted, Function.update_apply]
        split
        next he =>
          subst he
          rw [Bounds.mem_span] at hmem ⊢
          exact hmem.imp_right (.imp_left (List.mem_append_left _))
        next => exact hmem
      have hnew := hj ((bounds?_push ..).trans hb)
      rw [hlisted, Function.update_self, Bounds.mem_span, not_or, not_or] at hnew
      have hsize : j ≠ a.records.size := by
        rintro rfl
        exact hnew.2.1 (by simp)
      have hlast := ho.prev_ne hold.1 b.bottom
      rw [next?_push hb (fun _ hl => ho.prev_lt hl), prev?_push hb (ho.lt_size hb).2, if_neg hlast,
        if_neg hsize, if_neg (Ne.symm hnew.2.2), if_neg hsize]
      exact hold
  · have hb : a.bounds? blk = none :=
      Array.getElem?_eq_none (h.numBlocks.trans_le (Nat.le_of_not_lt hlt))
    have hm : m.edit (.push blk ident rhs) = m := if_neg hlt
    rw [push_of_bounds?_eq_none hb, hm]
    exact h

/-- A detached record is gone from the list that holds it. -/
theorem detach_listed (h : a.Tracks m) (ho : a.Orderly) (hb : a.bounds? blk = some b)
    (hid : id ∈ m.listed blk) : (a.detach id).Tracks (m.edit (.detach id)) := by
  have hlists : ∀ {blk' b'}, a.bounds? blk' = some b' → (m.edit (.detach id)).listed blk' =
      Function.update m.listed blk ((m.listed blk).filter (· ≠ id)) blk' := by
    intro blk' b' hb'
    rw [ListModel.listed_detach, Function.update_apply]
    split
    next he => rw [he]
    next he =>
      refine List.filter_eq_self.mpr fun j hj => decide_eq_true ?_
      rintro rfl
      exact he (h.layout.apart hb' hb (Bounds.mem_span.mpr (.inr (.inl hj)))
        (Bounds.mem_span.mpr (.inr (.inl hid))))
  constructor
  · refine (h.layout.detach hb hid).congr_lists fun hb' => ?_
    exact hlists ((bounds?_detach ..).symm.trans hb')
  · rw [cells_detach, h.cells]
    rfl
  · rw [numBlocks_detach, h.numBlocks]
    simp [ListModel.edit]
  · intro j hj
    have hlt : id < a.records.size :=
      (h.layout.linked hb).lt_size (Bounds.mem_span.mpr (.inr (.inl hid)))
    rw [next?_detach hlt fun _ hp => ho.prev_lt hp, prev?_detach hlt fun _ hn => ho.next_lt hn]
    by_cases hj' : j = id
    · rw [if_pos hj', if_pos hj']
      exact ⟨rfl, rfl⟩
    · -- a record that is in no list now was in none before
      have hold := h.loose (j := j) fun {blk' b'} hb' hmem => by
        refine hj ((bounds?_detach ..).trans hb') ?_
        rw [ListModel.listed_detach]
        rw [Bounds.mem_span] at hmem ⊢
        exact hmem.imp_right (.imp_left fun hm => List.mem_filter.mpr ⟨hm, by simpa using hj'⟩)
      rw [if_neg hj', if_neg hj', if_neg (ho.prev_ne hold.1 id), if_neg (ho.next_ne hold.2 id)]
      exact hold

/-- A record that no block holds is linked to nothing, and detaching it changes nothing. -/
theorem detach_loose (h : a.Tracks m) (hs : a.spares (.detach id) = true)
    (hnot : ∀ {blk b}, a.bounds? blk = some b → id ∉ m.listed blk) :
    (a.detach id).Tracks (m.edit (.detach id)) := by
  obtain ⟨hnext, hprev⟩ := h.loose (j := id) fun hb hmem => by
    obtain ⟨htop, hbottom⟩ := spares_detach hs hb
    rcases Bounds.mem_span.mp hmem with he | hmem | he
    · exact htop he.symm
    · exact hnot hb hmem
    · exact hbottom he.symm
  have hm : m.edit (.detach id) = m := by
    have hlists : m.lists.map (·.filter (· ≠ id)) = m.lists := by
      apply (List.map_congr_left ?_).trans (List.map_id _)
      intro l hl
      obtain ⟨blk, hlt, rfl⟩ := List.mem_iff_getElem.mp hl
      obtain ⟨b, hb⟩ := h.bounds_of_lt hlt
      have hfresh := hnot hb
      rw [ListModel.listed, List.getElem?_eq_getElem hlt] at hfresh
      refine List.filter_eq_self.mpr fun j hj => decide_eq_true ?_
      rintro rfl
      exact hfresh hj
    rw [ListModel.edit, hlists]
  rw [detach_eq_self hnext hprev, hm]
  exact h

/-- Detaching is tracked, as long as it is no sentinel that is detached. -/
protected theorem detach (h : a.Tracks m) (ho : a.Orderly) (hs : a.spares (.detach id) = true) :
    (a.detach id).Tracks (m.edit (.detach id)) := by
  by_cases hheld : ∃ blk b, a.bounds? blk = some b ∧ id ∈ m.listed blk
  · obtain ⟨blk, b, hb, hid⟩ := hheld
    exact h.detach_listed ho hb hid
  · exact h.detach_loose hs fun hb hid => hheld ⟨_, _, hb, hid⟩

/-- Another right-hand side is tracked. -/
protected theorem setRhs (h : a.Tracks m) (id : RecordId) (rhs : Rhs BlockId) :
    (a.setRhs id rhs).Tracks (m.setRhs id rhs) where
  layout := h.layout.setRhs id rhs
  cells := by
    rw [cells_setRhs, h.cells]
    rfl
  numBlocks := h.numBlocks
  loose := fun hj => by
    rw [next?_setRhs, prev?_setRhs]
    exact h.loose hj

/-- An edit that spares the sentinels means the same in the model. -/
protected theorem edit (h : a.Tracks m) (ho : a.Orderly) {e : Edit} (hs : a.spares e = true) :
    (a.edit e).Tracks (m.edit e) := by
  cases e with
  | newBlock => exact h.newBlock
  | push blk ident rhs => exact h.push ho blk ident rhs
  | detach id => exact h.detach ho hs
  | setRhs id rhs => exact h.setRhs id rhs
  | markIndirect id =>
      have hcell : m.cells[id]?.bind (·.2.indirect?) = (a.record? id).bind (·.rhs.indirect?) := by
        rw [← h.cells, Arena.cells, List.getElem?_map, Array.getElem?_toList, Option.bind_map]
        rfl
      simp only [Arena.edit, markIndirect?, ListModel.edit, hcell]
      cases (a.record? id).bind (·.rhs.indirect?) with
      | none => exact h
      | some rhs => exact h.setRhs id rhs

/-- The first arena is tracked by the first model. -/
protected theorem empty : Tracks Arena.empty ListModel.empty := by
  have h : Tracks ⟨#[], #[]⟩ ⟨[], []⟩ := by
    refine ⟨⟨?_, ?_, ?_⟩, rfl, rfl, ?_⟩ <;> simp [bounds?, next?, prev?, record?]
  exact h.newBlock

/-- Whole runs: each edit keeps the links in order and the model in step. -/
theorem foldl_edit (h : a.Tracks m) (ho : a.Orderly) {edits : List Edit}
    (hs : a.sparesAll edits = true) :
    (edits.foldl Arena.edit a).Tracks (edits.foldl ListModel.edit m) := by
  induction edits generalizing a m with
  | nil => exact h
  | cons e edits ih =>
      rw [sparesAll, Bool.and_eq_true] at hs
      exact ih (h.edit ho hs.1) (ho.edit e) hs.2

/-! ## What is read -/

/-- What the model lists are records of the arena. -/
theorem lt_size_of_mem_listed (h : a.Tracks m) (hb : a.bounds? blk = some b)
    (hid : id ∈ m.listed blk) : id < a.records.size :=
  (h.layout.linked hb).lt_size (Bounds.mem_span.mpr (.inr (.inl hid)))

/-- The model lists something for blocks of the arena only. -/
theorem exists_bounds? (h : a.Tracks m) (hid : id ∈ m.listed blk) :
    ∃ b, a.bounds? blk = some b := by
  by_cases hlt : blk < m.lists.length
  · exact h.bounds_of_lt hlt
  · rw [ListModel.listed, List.getElem?_eq_none (Nat.le_of_not_lt hlt)] at hid
    exact absurd hid List.not_mem_nil

/-- The arena lists what the model lists. -/
theorem listed_eq (h : a.Tracks m) (blk : BlockId) : a.listed blk = m.listed blk := by
  by_cases hlt : blk < m.lists.length
  · obtain ⟨b, hb⟩ := h.bounds_of_lt hlt
    exact h.layout.listed_eq hb
  · have hb : a.bounds? blk = none :=
      Array.getElem?_eq_none (h.numBlocks.trans_le (Nat.le_of_not_lt hlt))
    rw [ListModel.listed, List.getElem?_eq_none (Nat.le_of_not_lt hlt)]
    simp [Arena.listed, list, first?, hb]

/-- No number is in the lists of two blocks. -/
theorem eq_of_mem_listed (h : a.Tracks m) {blk' : BlockId} (hid : id ∈ m.listed blk)
    (hid' : id ∈ m.listed blk') : blk = blk' := by
  obtain ⟨b, hb⟩ := h.exists_bounds? hid
  obtain ⟨b', hb'⟩ := h.exists_bounds? hid'
  exact h.layout.apart hb hb' (Bounds.mem_span.mpr (.inr (.inl hid)))
    (Bounds.mem_span.mpr (.inr (.inl hid')))

/-- No number is in a list twice. -/
theorem nodup_listed (h : a.Tracks m) (blk : BlockId) : (m.listed blk).Nodup := by
  by_cases hlt : blk < m.lists.length
  · obtain ⟨b, hb⟩ := h.bounds_of_lt hlt
    exact (List.nodup_append.mp (List.nodup_cons.mp (h.layout.nodup hb)).2).1
  · rw [ListModel.listed, List.getElem?_eq_none (Nat.le_of_not_lt hlt)]
    exact List.nodup_nil

/-- From a listed record on, one reads the rest of its list. -/
theorem listFrom_eq (h : a.Tracks m) {pre post : List RecordId}
    (hl : m.listed blk = pre ++ id :: post) : (a.listFrom id).map (·.1) = id :: post := by
  have hid : id ∈ m.listed blk := hl ▸ List.mem_append_right _ List.mem_cons_self
  obtain ⟨b, hb⟩ := h.exists_bounds? hid
  rw [h.layout.listFrom_eq hb hl rfl, map_fst_rows]
  intro j hj
  exact h.lt_size_of_mem_listed hb (hl ▸ List.mem_append_right _ hj)

end Tracks

/-- An arena looks like a list model from outside. -/
structure Lists (a : Arena) (m : ListModel) : Prop where
  cells : a.cells = m.cells
  numBlocks : a.numBlocks = m.lists.length
  listed : ∀ blk, a.listed blk = m.listed blk
  nodup : ∀ blk, (a.listed blk).Nodup
  /-- No record is in the lists of two blocks. -/
  apart : ∀ {blk blk' id}, id ∈ a.listed blk → id ∈ a.listed blk' → blk = blk'
  /-- From a listed record on, one reads the rest of the list. -/
  listFrom : ∀ {blk pre id post}, a.listed blk = pre ++ id :: post →
    (a.listFrom id).map (·.1) = id :: post
  /-- A detach takes a record out of the block that holds it and leaves the other blocks alone. -/
  detach : ∀ {blk id}, id ∈ a.listed blk →
    (a.detach id).listed blk = (a.listed blk).filter (· ≠ id) ∧
      ∀ blk', blk' ≠ blk → (a.detach id).listed blk' = a.listed blk'
  /-- A right-hand side is no part of the lists or names, -/
  setRhs : ∀ id rhs, (∀ blk, (a.setRhs id rhs).listed blk = a.listed blk) ∧
    (a.setRhs id rhs).idents = a.idents
  /-- nor is the mark of a call. -/
  markIndirect : ∀ {id a'}, a.markIndirect? id = some a' →
    (∀ blk, a'.listed blk = a.listed blk) ∧ a'.idents = a.idents

/-- The names of the records are the names of their cells. -/
theorem idents_eq (a : Arena) : a.idents = a.cells.map (·.1) := by
  simp [idents, cells]

/-- Another right-hand side keeps all names. -/
theorem idents_setRhs (a : Arena) (id : RecordId) (rhs : Rhs BlockId) :
    (a.setRhs id rhs).idents = a.idents := by
  rw [idents_eq, idents_eq, cells_setRhs]
  apply List.ext_getElem?
  intro j
  rw [List.getElem?_map, List.getElem?_map, List.getElem?_modify]
  cases a.cells[j]? with
  | none => rfl
  | some cell =>
      simp only [Option.map_some, Option.map_eq_map]
      split <;> rfl

/-- Another right-hand side keeps all lists. -/
theorem Tracks.listed_setRhs (h : a.Tracks m) (id : RecordId) (rhs : Rhs BlockId) (blk : BlockId) :
    (a.setRhs id rhs).listed blk = a.listed blk := by
  rw [(h.setRhs id rhs).listed_eq, h.listed_eq]
  rfl

/-- What is tracked looks the same from outside. -/
theorem Tracks.lists (h : a.Tracks m) (ho : a.Orderly) : a.Lists m where
  cells := h.cells
  numBlocks := h.numBlocks
  listed := h.listed_eq
  nodup := fun blk => h.listed_eq blk ▸ h.nodup_listed blk
  apart := fun hid hid' => h.eq_of_mem_listed (h.listed_eq _ ▸ hid) (h.listed_eq _ ▸ hid')
  listFrom := fun hl => h.listFrom_eq ((h.listed_eq _).symm.trans hl)
  detach := by
    intro blk id hid
    rw [h.listed_eq] at hid
    obtain ⟨b, hb⟩ := h.exists_bounds? hid
    have hd := h.detach_listed ho hb hid
    refine ⟨?_, fun blk' hne => ?_⟩
    · rw [hd.listed_eq, h.listed_eq, ListModel.listed_detach]
    · rw [hd.listed_eq, h.listed_eq, ListModel.listed_detach, List.filter_eq_self]
      intro j hj
      refine decide_eq_true ?_
      rintro rfl
      exact hne (h.eq_of_mem_listed hj hid)
  setRhs := fun id rhs => ⟨h.listed_setRhs id rhs, idents_setRhs a id rhs⟩
  markIndirect := by
    intro id a' hm
    obtain ⟨rhs, -, rfl⟩ := Option.map_eq_some_iff.mp hm
    exact ⟨h.listed_setRhs id rhs, idents_setRhs a id rhs⟩

end Arena

/-- Edits on two blocks: neighbours are detached, one of them twice, a block is emptied and filled
again, and what is marked is a call. -/
def Edit.sample : List Edit :=
  [.newBlock, .push 0 "f" (.fn ["x"] 1), .push 1 "y" (.op (.ref "x")),
    .push 0 "g" (.op (.ref "f")), .push 0 "z" (.op (.app "g" ["n"] false)), .detach 4, .detach 6,
    .detach 4, .detach 5, .push 1 "w" (.op .unit), .push 0 "v" (.op (.ref "z")),
    .setRhs 8 (.op (.ref "x")), .markIndirect 7, .markIndirect 8]

/-- **List model.** After any edits, the links are inverse to one another, and following them from
any record ends within the size of the arena. If no sentinel was detached, the arena is the list model
of the edits. -/
theorem build_lists (edits : List Edit) :
    (∀ x y, (Arena.build edits).next? x = some y ↔ (Arena.build edits).prev? y = some x) ∧
      (∀ x < (Arena.build edits).records.size, ∃ k < (Arena.build edits).records.size,
        ∃ y < (Arena.build edits).records.size,
          (Arena.build edits).follow k x = some y ∧ (Arena.build edits).next? y = none) ∧
      (Arena.empty.sparesAll edits = true →
        (Arena.build edits).Lists (ListModel.build edits)) := by
  have ho := Arena.orderly_build edits
  refine ⟨fun x y => ho.next_iff, fun x hx => ?_, fun hs => ?_⟩
  · obtain ⟨ids, hp⟩ := ho.exists_path x
    obtain ⟨y, hy, hnone, hlt⟩ := hp.follow_length
    exact ⟨ids.length, hp.length_lt ho hx, y, hlt hx ho, hy, hnone⟩
  · exact (Arena.Tracks.empty.foldl_edit .empty hs).lists ho

/-- The sample detaches no sentinel: two records are left in its first block and one in its second. -/
theorem build_lists_sample :
    Arena.empty.sparesAll Edit.sample = true ∧
      (ListModel.build Edit.sample).lists = [[7, 9], [8]] ∧
      (Arena.build Edit.sample).Lists (ListModel.build Edit.sample) :=
  ⟨by decide, by decide, (build_lists Edit.sample).2.2 (by decide)⟩

end ClosureConversion
