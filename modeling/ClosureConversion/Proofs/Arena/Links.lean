import Mathlib
import ClosureConversion.Ir.Arena

/-!
# Chains of records

What the links of an arena mean. `Arena.Linked` says that the records of a list follow one another
along the links in both directions. `Arena.Layout` says so of all blocks: `lists` gives the records
of each block between its sentinels, and no record belongs to two blocks.

The operations of the arena change the layout as one expects: `Layout.newBlock`, `Layout.push`,
`Layout.detach` and `Layout.setRhs`. Each rests on one lemma about the links after the operation,
and on the links of all other chains being untouched (`Linked.congr`).
-/

namespace ClosureConversion

namespace Arena

variable {a a' : Arena} {id j : RecordId}

/-! ## Links of a record -/

/-- The links of a record to its neighbours: the one before and the one behind. -/
def links? (a : Arena) (id : RecordId) : Option (Option RecordId × Option RecordId) :=
  (a.record? id).map fun r => (r.prev, r.next)

/-- The records after one is changed. -/
theorem record?_modify (a : Arena) (id : RecordId) (f : Record → Record) (j : RecordId) :
    (a.modify id f).record? j = if j = id then (a.record? j).map f else a.record? j := by
  simp only [record?, modify, Array.getElem?_modify, eq_comm]

/-- The links after one record is changed in a way that shows in its links. -/
theorem links?_modify (a : Arena) (id : RecordId) (f : Record → Record)
    (g : Option RecordId × Option RecordId → Option RecordId × Option RecordId)
    (hfg : ∀ r, ((f r).prev, (f r).next) = g (r.prev, r.next)) (j : RecordId) :
    (a.modify id f).links? j = if j = id then (a.links? j).map g else a.links? j := by
  unfold links?
  rw [record?_modify]
  split
  · rw [Option.map_map, Option.map_map]
    exact congrArg (Option.map · _) (funext hfg)
  · rfl

/-- Only a record of the arena has links. -/
theorem lt_size_of_links? {l : Option RecordId × Option RecordId} (h : a.links? id = some l) :
    id < a.records.size := by
  obtain ⟨r, hr, -⟩ := Option.map_eq_some_iff.mp h
  exact (Array.getElem?_eq_some_iff.mp hr).1

/-! ## Chains -/

/-- The records of a list follow one another along the links, in both directions. `before` is the
record before the first, `after` the one behind the last. -/
def Linked (a : Arena) : Option RecordId → List RecordId → Option RecordId → Prop
  | _, [], _ => True
  | before, id :: ids, after =>
    a.links? id = some (before, ids.head?.or after) ∧ a.Linked (some id) ids after

/-- A linked list in two parts: each is linked, with the end of the other next to it. -/
theorem linked_append {before after : Option RecordId} {xs ys : List RecordId} :
    a.Linked before (xs ++ ys) after ↔
      a.Linked before xs (ys.head?.or after) ∧ a.Linked (xs.getLast?.or before) ys after := by
  induction xs generalizing before with
  | nil => simp [Linked]
  | cons x xs ih =>
      have hlast : (x :: xs).getLast?.or before = xs.getLast?.or (some x) := by
        rw [List.getLast?_cons]
        cases xs.getLast? <;> rfl
      simp only [List.cons_append, Linked, List.head?_append, Option.or_assoc, ih, hlast, and_assoc]

/-- Lists stay linked as long as the links of their records stay. -/
theorem Linked.congr {before after : Option RecordId} {ids : List RecordId}
    (hl : ∀ id ∈ ids, a'.links? id = a.links? id) (h : a.Linked before ids after) :
    a'.Linked before ids after := by
  induction ids generalizing before with
  | nil => trivial
  | cons id ids ih =>
      refine ⟨(hl id List.mem_cons_self).trans h.1, ih (fun j hj => hl j ?_) h.2⟩
      exact List.mem_cons_of_mem _ hj

/-- Linked records are records of the arena. -/
theorem Linked.lt_size {before after : Option RecordId} {ids : List RecordId}
    (h : a.Linked before ids after) (hid : id ∈ ids) : id < a.records.size := by
  induction ids generalizing before with
  | nil => exact absurd hid List.not_mem_nil
  | cons j ids ih =>
      rcases List.mem_cons.mp hid with rfl | hid
      · exact lt_size_of_links? h.1
      · exact ih h.2 hid

end Arena

/-! ## Layouts -/

/-- The chain of a block: its records with the sentinels around them. -/
def Bounds.span (b : Bounds) (ids : List RecordId) : List RecordId := b.top :: (ids ++ [b.bottom])

/-- A block with its sentinels holds the sentinels and what is between them. -/
theorem Bounds.mem_span {b : Bounds} {ids : List RecordId} {id : RecordId} :
    id ∈ b.span ids ↔ id = b.top ∨ id ∈ ids ∨ id = b.bottom := by
  simp [span]

namespace Arena

/-- The block chains of an arena: `lists` are the records of each block between its sentinels. -/
structure Layout (a : Arena) (lists : BlockId → List RecordId) : Prop where
  linked : ∀ {blk b}, a.bounds? blk = some b → a.Linked none (b.span (lists blk)) none
  nodup : ∀ {blk b}, a.bounds? blk = some b → (b.span (lists blk)).Nodup
  apart : ∀ {blk b blk' b' id}, a.bounds? blk = some b → a.bounds? blk' = some b' →
    id ∈ b.span (lists blk) → id ∈ b'.span (lists blk') → blk = blk'

variable {a a' : Arena} {lists : BlockId → List RecordId} {blk : BlockId} {b : Bounds}
  {id j : RecordId}

/-- A change that touches no links keeps the layout. -/
theorem Layout.congr (h : Layout a lists) (hb : ∀ blk, a'.bounds? blk = a.bounds? blk)
    (hl : ∀ id, a'.links? id = a.links? id) : Layout a' lists where
  linked := fun hbd => (h.linked ((hb _).symm.trans hbd)).congr fun id _ => hl id
  nodup := fun hbd => h.nodup ((hb _).symm.trans hbd)
  apart := fun hbd hbd' => h.apart ((hb _).symm.trans hbd) ((hb _).symm.trans hbd')

/-- The layout is about the blocks that exist only. -/
theorem Layout.congr_lists {lists' : BlockId → List RecordId} (h : Layout a lists)
    (hl : ∀ {blk b}, a.bounds? blk = some b → lists' blk = lists blk) : Layout a lists' where
  linked := fun hb => hl hb ▸ h.linked hb
  nodup := fun hb => hl hb ▸ h.nodup hb
  apart := fun hb hb' hid hid' => h.apart hb hb' (hl hb ▸ hid) (hl hb' ▸ hid')

/-- Another right-hand side keeps the layout. -/
theorem Layout.setRhs (h : Layout a lists) (id : RecordId) (rhs : Rhs BlockId) :
    Layout (a.setRhs id rhs) lists := by
  refine h.congr (fun _ => rfl) fun j => ?_
  rw [Arena.setRhs, links?_modify a id ({ · with rhs := rhs }) (fun l => l) (fun _ => rfl),
    Option.map_id']
  exact ite_self _

/-- A change to the chain of one block. Its records are old ones of that block or new ones, and the
links of all other records are untouched. -/
theorem Layout.update (h : Layout a lists) (hb : a.bounds? blk = some b) {ids : List RecordId}
    (hbounds : ∀ blk', a'.bounds? blk' = a.bounds? blk')
    (hlinked : a'.Linked none (b.span ids) none) (hnodup : (b.span ids).Nodup)
    (hids : ∀ id ∈ ids, id ∈ lists blk ∨ a.records.size ≤ id)
    (hframe : ∀ id < a.records.size, id ∉ b.span (lists blk) → a'.links? id = a.links? id) :
    Layout a' (Function.update lists blk ids) := by
  have hcases : ∀ {blk' b'}, a'.bounds? blk' = some b' →
      (blk' = blk ∧ b' = b) ∨ (blk' ≠ blk ∧ a.bounds? blk' = some b') := by
    intro blk' b' hb'
    rw [hbounds] at hb'
    by_cases he : blk' = blk
    · exact .inl ⟨he, Option.some.inj ((he ▸ hb').symm.trans hb)⟩
    · exact .inr ⟨he, hb'⟩
  -- a record of another block is in neither the old chain nor the new one
  have hother : ∀ {blk' b' id}, blk' ≠ blk → a.bounds? blk' = some b' →
      id ∈ b'.span (lists blk') → id ∉ b.span (lists blk) ∧ id ∉ b.span ids := by
    intro blk' b' id hne hb' hid
    have hold : id ∉ b.span (lists blk) := fun hm => hne (h.apart hb' hb hid hm)
    refine ⟨hold, fun hm => ?_⟩
    rw [Bounds.mem_span] at hold hm
    rcases hm with hm | hm | hm
    · exact hold (.inl hm)
    · rcases hids id hm with hm | hm
      · exact hold (.inr (.inl hm))
      · exact absurd ((h.linked hb').lt_size hid) (Nat.not_lt.mpr hm)
    · exact hold (.inr (.inr hm))
  refine ⟨fun hb' => ?_, fun hb' => ?_, fun h₁ h₂ m₁ m₂ => ?_⟩
  · rcases hcases hb' with ⟨rfl, rfl⟩ | ⟨hne, hb'⟩
    · rwa [Function.update_self]
    · rw [Function.update_of_ne hne]
      refine (h.linked hb').congr fun id hid => ?_
      exact hframe id ((h.linked hb').lt_size hid) (hother hne hb' hid).1
  · rcases hcases hb' with ⟨rfl, rfl⟩ | ⟨hne, hb'⟩
    · rwa [Function.update_self]
    · rw [Function.update_of_ne hne]
      exact h.nodup hb'
  · rcases hcases h₁ with ⟨rfl, rfl⟩ | ⟨hne₁, h₁⟩ <;> rcases hcases h₂ with ⟨rfl, rfl⟩ | ⟨hne₂, h₂⟩
    · rfl
    · rw [Function.update_self] at m₁
      rw [Function.update_of_ne hne₂] at m₂
      exact absurd m₁ (hother hne₂ h₂ m₂).2
    · rw [Function.update_of_ne hne₁] at m₁
      rw [Function.update_self] at m₂
      exact absurd m₂ (hother hne₁ h₁ m₁).2
    · rw [Function.update_of_ne hne₁] at m₁
      rw [Function.update_of_ne hne₂] at m₂
      exact h.apart h₁ h₂ m₁ m₂

/-! ### A new block -/

/-- The sentinels of a new block are the next two records. -/
theorem bounds?_newBlock (a : Arena) (blk : BlockId) :
    a.newBlock.bounds? blk =
      if blk = a.numBlocks then some ⟨a.records.size, a.records.size + 1⟩ else a.bounds? blk := by
  rw [bounds?, newBlock, Array.getElem?_push]
  rfl

/-- The records of an arena with one more block. -/
theorem record?_newBlock (a : Arena) (j : RecordId) :
    a.newBlock.record? j =
      if j = a.records.size + 1 then some ⟨"", .op .nop, some a.records.size, none⟩
      else if j = a.records.size then some ⟨"", .op .nop, none, some (a.records.size + 1)⟩
      else a.record? j := by
  simp only [record?, newBlock, Array.getElem?_push, Array.size_push]

/-- Only numbers below the number of blocks have sentinels. -/
theorem bounds?_lt (h : a.bounds? blk = some b) : blk < a.numBlocks :=
  (Array.getElem?_eq_some_iff.mp h).1

/-- All numbers below the number of blocks have sentinels. -/
theorem exists_bounds? (h : blk < a.numBlocks) : ∃ b, a.bounds? blk = some b :=
  ⟨_, Array.getElem?_eq_getElem h⟩

/-- No list of blocks without repetition is longer than the arena has blocks. -/
theorem length_le_numBlocks {blks : List BlockId} (h : ∀ blk ∈ blks, blk < a.numBlocks)
    (hn : blks.Nodup) : blks.length ≤ a.numBlocks := by
  have hsub : blks ⊆ List.range a.numBlocks := fun blk hblk => List.mem_range.mpr (h blk hblk)
  simpa using (List.subperm_of_subset hn hsub).length_le

/-- A new block leaves the links of the records that were there. -/
theorem links?_newBlock_of_lt (h : j < a.records.size) : a.newBlock.links? j = a.links? j := by
  unfold links?
  rw [record?_newBlock, if_neg (Nat.lt_succ_of_lt h).ne, if_neg h.ne]

/-- A new block is empty; the other blocks are as before. -/
theorem Layout.newBlock (h : Layout a lists) :
    Layout a.newBlock (Function.update lists a.numBlocks []) := by
  have hcases : ∀ {blk b}, a.newBlock.bounds? blk = some b →
      (blk = a.numBlocks ∧ b = ⟨a.records.size, a.records.size + 1⟩ ∧
        Function.update lists a.numBlocks [] blk = []) ∨
      (a.bounds? blk = some b ∧ Function.update lists a.numBlocks [] blk = lists blk) := by
    intro blk b hb
    rw [bounds?_newBlock] at hb
    split at hb
    next hblk =>
      subst hblk
      exact .inl ⟨rfl, (Option.some.inj hb).symm, Function.update_self ..⟩
    next hblk => exact .inr ⟨hb, Function.update_of_ne hblk ..⟩
  have hold : ∀ {blk b id}, a.bounds? blk = some b → id ∈ b.span (lists blk) →
      id < a.records.size := fun hb hid => (h.linked hb).lt_size hid
  have hnew : ∀ {id}, id ∈ Bounds.span ⟨a.records.size, a.records.size + 1⟩ [] →
      a.records.size ≤ id := by
    intro id hid
    simp only [Bounds.span, List.nil_append, List.mem_cons, List.not_mem_nil, or_false] at hid
    rcases hid with rfl | rfl
    · exact Nat.le_refl _
    · exact Nat.le_succ _
  refine ⟨fun {blk b} hb => ?_, fun {blk b} hb => ?_, fun {blk b blk' b' id} hb hb' hid hid' => ?_⟩
  · rcases hcases hb with ⟨-, rfl, hl⟩ | ⟨hb, hl⟩
    · simp [hl, Bounds.span, Linked, links?, record?_newBlock]
    · rw [hl]
      exact (h.linked hb).congr fun id hid => links?_newBlock_of_lt (hold hb hid)
  · rcases hcases hb with ⟨-, rfl, hl⟩ | ⟨hb, hl⟩
    · simp [hl, Bounds.span]
    · rw [hl]
      exact h.nodup hb
  · rcases hcases hb with ⟨rfl, rfl, hl⟩ | ⟨hb, hl⟩
    · rcases hcases hb' with ⟨rfl, rfl, -⟩ | ⟨hb', hl'⟩
      · rfl
      · rw [hl] at hid
        rw [hl'] at hid'
        exact absurd (hold hb' hid') (Nat.not_lt.mpr (hnew hid))
    · rw [hl] at hid
      rcases hcases hb' with ⟨rfl, rfl, hl'⟩ | ⟨hb', hl'⟩
      · rw [hl'] at hid'
        exact absurd (hold hb hid) (Nat.not_lt.mpr (hnew hid'))
      · rw [hl'] at hid'
        exact h.apart hb hb' hid hid'

/-! ### A new record -/

/-- Appending leaves the sentinels of all blocks. -/
theorem bounds?_push (a : Arena) (blk : BlockId) (ident : Name) (rhs : Rhs BlockId)
    (blk' : BlockId) : (a.push blk ident rhs).bounds? blk' = a.bounds? blk' := by
  unfold push
  split
  · rfl
  · dsimp only
    split <;> rfl

/-- The links after a record is pushed: it stands between `l`, the last record so far, and the
bottom sentinel. -/
theorem links?_push (hb : a.bounds? blk = some b) {l : RecordId} {after : Option RecordId}
    (hl : a.links? b.bottom = some (some l, after)) (hlt : l < a.records.size)
    (hne : l ≠ b.bottom) (ident : Name) (rhs : Rhs BlockId) (j : RecordId) :
    (a.push blk ident rhs).links? j =
      if j = a.records.size then some (some l, some b.bottom)
      else if j = l then (a.links? l).map fun x => (x.1, some a.records.size)
      else if j = b.bottom then some (some a.records.size, after)
      else a.links? j := by
  have hbot : b.bottom < a.records.size := lt_size_of_links? hl
  have hlast : (a.record? b.bottom).bind (·.prev) = some l := by
    obtain ⟨r, hr, he⟩ := Option.map_eq_some_iff.mp hl
    rw [hr]
    exact congrArg Prod.fst he
  have hgrown : ∀ j, links? ⟨a.records.push ⟨ident, rhs, some l, some b.bottom⟩, a.blocks⟩ j =
      if j = a.records.size then some (some l, some b.bottom) else a.links? j := by
    intro j
    simp only [links?, record?, Array.getElem?_push]
    split <;> rfl
  simp only [push, hb, hlast]
  rw [links?_modify _ _ _ (fun x => (some a.records.size, x.2)) fun _ => rfl,
    links?_modify _ _ _ (fun x => (x.1, some a.records.size)) fun _ => rfl, hgrown]
  by_cases h1 : j = a.records.size
  · rw [if_neg (h1 ▸ hbot.ne'), if_neg (h1 ▸ hlt.ne'), if_pos h1, if_pos h1]
  rw [if_neg h1]
  by_cases h2 : j = l
  · subst h2
    rw [if_neg hne, if_pos rfl, if_neg h1, if_pos rfl]
  rw [if_neg h2, if_neg h2]
  by_cases h3 : j = b.bottom
  · rw [if_pos h3, if_neg h1, if_pos h3, h3, hl]
    rfl
  · rw [if_neg h3, if_neg h1, if_neg h3]

/-- A pushed record comes last in its block; the other blocks are as before. -/
theorem Layout.push (h : Layout a lists) (hb : a.bounds? blk = some b) (ident : Name)
    (rhs : Rhs BlockId) :
    Layout (a.push blk ident rhs) (Function.update lists blk (lists blk ++ [a.records.size])) := by
  obtain ⟨init, l, hinit⟩ : ∃ init l, b.top :: lists blk = init ++ [l] :=
    ⟨_, _, (List.dropLast_append_getLast (List.cons_ne_nil _ _)).symm⟩
  have hspan : b.span (lists blk) = init ++ [l, b.bottom] := by
    rw [Bounds.span, ← List.cons_append, hinit, List.append_assoc]
    rfl
  have hspan' : b.span (lists blk ++ [a.records.size]) =
      init ++ [l, a.records.size, b.bottom] := by
    rw [Bounds.span, ← List.cons_append, ← List.cons_append, hinit, List.append_assoc,
      List.append_assoc]
    rfl
  have hin : ∀ id ∈ b.span (lists blk), id < a.records.size := fun id hid =>
    (h.linked hb).lt_size hid
  have hnodup := h.nodup hb
  have hlinked := h.linked hb
  rw [hspan] at hin hnodup hlinked
  obtain ⟨hfirst, hl, hbot, -⟩ := linked_append.mp hlinked
  obtain ⟨-, hnd, hapart⟩ := List.nodup_append.mp hnodup
  have hlt : l < a.records.size := hin l (by simp)
  have hblt : b.bottom < a.records.size := hin b.bottom (by simp)
  have hne : l ≠ b.bottom := by simpa using hnd
  have hlinks := links?_push hb hbot hlt hne ident rhs
  have hframe : ∀ id < a.records.size, id ≠ l → id ≠ b.bottom →
      (a.push blk ident rhs).links? id = a.links? id := by
    intro id hlt h1 h2
    rw [hlinks, if_neg hlt.ne, if_neg h1, if_neg h2]
  refine h.update hb (bounds?_push a blk ident rhs) ?_ ?_ ?_ ?_
  · rw [hspan', linked_append]
    refine ⟨hfirst.congr fun id hid => hframe id ?_ ?_ ?_, ?_, ?_, ?_, trivial⟩
    · exact hin id (List.mem_append_left _ hid)
    · exact hapart id hid l (by simp)
    · exact hapart id hid b.bottom (by simp)
    · rw [hlinks, if_neg hlt.ne, if_pos rfl, hl]
      rfl
    · rw [hlinks, if_pos rfl]
      rfl
    · rw [hlinks, if_neg hblt.ne, if_neg hne.symm, if_pos rfl]
  · have hperm : (init ++ [l, a.records.size, b.bottom]).Perm
        (a.records.size :: (init ++ [l, b.bottom])) :=
      (List.Perm.append_left init (List.Perm.swap ..)).trans List.perm_middle
    rw [hspan', hperm.nodup_iff, List.nodup_cons]
    exact ⟨fun hm => absurd (hin _ hm) (Nat.lt_irrefl _), hnodup⟩
  · intro id hid
    rcases List.mem_append.mp hid with hid | hid
    · exact .inl hid
    · exact .inr (List.mem_singleton.mp hid).ge
  · intro id hlt hid
    rw [hspan] at hid
    refine hframe id hlt ?_ ?_
    · rintro rfl
      exact hid (by simp)
    · rintro rfl
      exact hid (by simp)

/-! ### Detaching a record -/

/-- Detaching leaves the sentinels of all blocks. -/
theorem bounds?_detach (a : Arena) (id : RecordId) (blk : BlockId) :
    (a.detach id).bounds? blk = a.bounds? blk := by
  unfold detach
  split
  · rfl
  · dsimp only
    split <;> split <;> rfl

/-- The links after a record between `p` and `n` is detached. -/
theorem links?_detach {p n : RecordId} (hid : a.links? id = some (some p, some n)) (hp : p ≠ id)
    (hn : n ≠ id) (hpn : p ≠ n) (j : RecordId) :
    (a.detach id).links? j =
      if j = id then some (none, none)
      else if j = p then (a.links? p).map fun x => (x.1, some n)
      else if j = n then (a.links? n).map fun x => (some p, x.2)
      else a.links? j := by
  obtain ⟨r, hr, hrl⟩ := Option.map_eq_some_iff.mp hid
  obtain ⟨hprev, hnext⟩ := Prod.mk.inj hrl
  simp only [detach, hr, hprev, hnext]
  rw [links?_modify _ _ _ (fun _ => (none, none)) fun _ => rfl,
    links?_modify _ _ _ (fun x => (some p, x.2)) fun _ => rfl,
    links?_modify _ _ _ (fun x => (x.1, some n)) fun _ => rfl]
  by_cases h1 : j = id
  · subst h1
    rw [if_pos rfl, if_pos rfl, if_neg hn.symm, if_neg hp.symm, hid]
    rfl
  rw [if_neg h1, if_neg h1]
  by_cases h2 : j = p
  · subst h2
    rw [if_neg hpn, if_pos rfl, if_pos rfl]
  rw [if_neg h2, if_neg h2]
  by_cases h3 : j = n
  · subst h3
    rw [if_pos rfl]
  · rw [if_neg h3, if_neg h3]

/-- A detached record is gone from its block; the other blocks are as before. -/
theorem Layout.detach (h : Layout a lists) (hb : a.bounds? blk = some b) (hid : id ∈ lists blk) :
    Layout (a.detach id) (Function.update lists blk ((lists blk).filter (· ≠ id))) := by
  obtain ⟨xs, ys, hxy⟩ := List.append_of_mem hid
  obtain ⟨init, p, hinit⟩ : ∃ init p, b.top :: xs = init ++ [p] :=
    ⟨_, _, (List.dropLast_append_getLast (List.cons_ne_nil _ _)).symm⟩
  obtain ⟨n, tl, htl⟩ : ∃ n tl, ys ++ [b.bottom] = n :: tl :=
    List.exists_cons_of_ne_nil (by simp)
  have hspan : b.span (lists blk) = init ++ p :: id :: n :: tl := by
    rw [Bounds.span, hxy, List.append_assoc, ← List.cons_append, hinit, List.cons_append, htl,
      List.append_assoc]
    rfl
  have hspan' : b.span (xs ++ ys) = init ++ p :: n :: tl := by
    rw [Bounds.span, List.append_assoc, ← List.cons_append, hinit, htl, List.append_assoc]
    rfl
  have hnodup := h.nodup hb
  have hlinked := h.linked hb
  rw [hspan] at hnodup hlinked
  obtain ⟨hfirst, hp, hthis, hn, hlast⟩ := linked_append.mp hlinked
  have hperm : (init ++ p :: id :: n :: tl).Perm (id :: (init ++ p :: n :: tl)) :=
    (List.Perm.append_left init (List.Perm.swap ..)).trans List.perm_middle
  obtain ⟨hfresh, hnodup'⟩ := List.nodup_cons.mp (hperm.nodup_iff.mp hnodup)
  obtain ⟨-, hnd, hapart⟩ := List.nodup_append.mp hnodup'
  have hfilter : (lists blk).filter (· ≠ id) = xs ++ ys := by
    have hnot : ∀ j ∈ xs ++ ys, j ≠ id := by
      rintro j hj rfl
      refine hfresh ?_
      rw [← hspan', Bounds.mem_span]
      exact .inr (.inl hj)
    rw [hxy, List.filter_append, List.filter_cons_of_neg (by simp), ← List.filter_append,
      List.filter_eq_self.mpr fun j hj => decide_eq_true (hnot j hj)]
  have hpn : p ≠ n := by
    rintro rfl
    simp at hnd
  have hlinks := links?_detach hthis (by rintro rfl; simp at hfresh) (by rintro rfl; simp at hfresh)
    hpn
  have hframe : ∀ j, j ≠ id → j ≠ p → j ≠ n → (a.detach id).links? j = a.links? j := by
    intro j h1 h2 h3
    rw [hlinks, if_neg h1, if_neg h2, if_neg h3]
  rw [hfilter]
  refine h.update hb (bounds?_detach a id) ?_ (hspan' ▸ hnodup') ?_ ?_
  · rw [hspan', linked_append]
    refine ⟨hfirst.congr fun j hj => hframe j ?_ ?_ ?_, ?_, ?_,
      hlast.congr fun j hj => hframe j ?_ ?_ ?_⟩
    · rintro rfl
      exact hfresh (List.mem_append_left _ hj)
    · exact hapart j hj p (by simp)
    · exact hapart j hj n (by simp)
    · rw [hlinks, if_neg (by rintro rfl; simp at hfresh), if_pos rfl, hp]
      rfl
    · rw [hlinks, if_neg (by rintro rfl; simp at hfresh), if_neg hpn.symm, if_pos rfl, hn]
      rfl
    · rintro rfl
      exact hfresh (by simp [hj])
    · rintro rfl
      simp [hj] at hnd
    · rintro rfl
      simp [hj] at hnd
  · intro j hj
    left
    rw [hxy]
    rcases List.mem_append.mp hj with hj | hj
    · exact List.mem_append_left _ hj
    · exact List.mem_append_right _ (List.mem_cons_of_mem _ hj)
  · intro j _ hj
    rw [hspan] at hj
    refine hframe j ?_ ?_ ?_
    · rintro rfl
      exact hj (by simp)
    · rintro rfl
      exact hj (by simp)
    · rintro rfl
      exact hj (by simp)

end Arena

end ClosureConversion
