import ClosureConversion.Proofs.Arena.Cycles
import ClosureConversion.Proofs.Arena.Lowering

/-!
# Arenas in the shape of a tree

An arena has the shape of a tree if each block that the entry leads to is held by exactly one function
literal or one side of one conditional, the entry by none (`Arena.TreeShaped`). Going back from a block
there is only one way, so two blocks that lead to the same one lie on that way
(`TreeShaped.comparable`), and none leads back to itself. Hence such an arena unfolds, and no block and
no record is met twice (`TreeShaped.exists_unfolds`, `Unfolds.nodup_ids`).
-/

namespace ClosureConversion

open Relation (TransGen ReflTransGen)

namespace Arena

variable {a : Arena} {blk blk' child b : BlockId}

/-- The blocks that the instructions of a block hold, in order. -/
def references (a : Arena) (blk : BlockId) : List BlockId := (a.items blk).flatMap (·.rhs.blocks)

/-- Edges lead to the blocks that are held. -/
theorem edge_iff_mem_references : a.Edge blk blk' ↔ blk' ∈ a.references blk := by
  rw [edge_iff, references, List.mem_flatMap]

/-- What an item holds is held by its block. -/
theorem mem_references {i : Item} (hi : i ∈ a.items blk) (hc : child ∈ i.rhs.blocks) :
    child ∈ a.references blk :=
  List.mem_flatMap.mpr ⟨i, hi, hc⟩

/-- The blocks that the entry leads to exist, and each of them is held exactly once, except for the
entry, which is not held at all. -/
structure TreeShaped (a : Arena) : Prop where
  inRange : ∀ blk, a.Reaches blk → blk < a.numBlocks
  root : ∀ blk, a.Reaches blk → entry ∉ a.references blk
  once : ∀ {blk blk' child}, a.Reaches blk → a.Reaches blk' → child ∈ a.references blk →
    child ∈ a.references blk' → blk = blk'
  single : ∀ blk, a.Reaches blk → (a.references blk).Nodup

namespace TreeShaped

/-- In a tree, only one reachable block leads to another. -/
theorem eq_of_edge (h : a.TreeShaped) (hr : a.Reaches blk) (hr' : a.Reaches blk')
    (he : a.Edge blk child) (he' : a.Edge blk' child) : blk = blk' :=
  h.once hr hr' (edge_iff_mem_references.mp he) (edge_iff_mem_references.mp he')

/-- No block leads back to itself: the way back would pass through the block that holds it, and so on
up to the entry. -/
theorem no_cycle (h : a.TreeShaped) (hr : a.Reaches blk) : ¬TransGen a.Edge blk blk := by
  induction hr with
  | entry =>
      intro hcyc
      obtain ⟨b, hp, he⟩ := TransGen.tail'_iff.mp hcyc
      exact h.root b (Reaches.entry.trans hp) (edge_iff_mem_references.mp he)
  | @step blk blk' i hr hi hmem ih =>
      intro hcyc
      have hedge : a.Edge blk blk' := edge_iff.mpr ⟨i, hi, hmem⟩
      obtain ⟨b, hp, he⟩ := TransGen.tail'_iff.mp hcyc
      obtain rfl : b = blk := h.eq_of_edge ((hr.edge hedge).trans hp) hr he hedge
      exact ih (TransGen.head' hedge hp)

/-- Of two blocks that lead to a third one, one leads to the other. -/
theorem comparable (h : a.TreeShaped) (hr : a.Reaches blk) (hr' : a.Reaches blk')
    (hp : ReflTransGen a.Edge blk b) (hp' : ReflTransGen a.Edge blk' b) :
    ReflTransGen a.Edge blk blk' ∨ ReflTransGen a.Edge blk' blk := by
  induction hp with
  | refl => exact .inr hp'
  | @tail x b hp he ih =>
      rcases hp'.cases_tail with rfl | ⟨y, hy, he'⟩
      · exact .inl (hp.tail he)
      · obtain rfl : x = y := h.eq_of_edge (hr.trans hp) (hr'.trans hy) he he'
        exact ih hy

/-- The blocks that one block holds lead to different blocks. -/
theorem eq_of_children (h : a.TreeShaped) (hr : a.Reaches blk) (he : a.Edge blk child)
    (he' : a.Edge blk blk') (hp : ReflTransGen a.Edge child b) (hp' : ReflTransGen a.Edge blk' b) :
    child = blk' := by
  have hup : ∀ {x y : BlockId}, a.Edge blk x → a.Edge blk y → ReflTransGen a.Edge x y → x = y := by
    intro x y hx hy hxy
    rcases hxy.cases_tail with rfl | ⟨z, hz, hzy⟩
    · rfl
    · obtain rfl : z = blk := h.eq_of_edge ((hr.edge hx).trans hz) hr hzy hy
      exact absurd (TransGen.head' hx hz) (h.no_cycle hr)
  rcases h.comparable (hr.edge he) (hr.edge he') hp hp' with hc | hc
  · exact hup he he' hc
  · exact (hup he' he hc).symm

/-- A tree has no cycles, and its blocks exist. -/
theorem guarded (h : a.TreeShaped) : a.Guarded where
  inRange := h.inRange
  noIfCycle := fun _ hr hcyc => h.no_cycle hr (transGen_edge hcyc)

end TreeShaped

end Arena

/-! ## Unfolding -/

namespace Code

/-- The blocks nested in code are those that it holds, each with the blocks nested in it. -/
theorem nested_eq (c : Code) : c.nested = c.children.flatMap fun y => y.2.blocks y.1 := by
  induction c with
  | done => rfl
  | op id ident o rest ih => exact ih
  | fn id ident params blk body rest _ ih =>
      simp only [nested, children, List.flatMap_cons, ih]
      rfl
  | branch id ident cond yesBlk noBlk yes no rest _ _ ih =>
      simp only [nested, children, List.flatMap_cons, ih, List.append_assoc]
      rfl

/-- The records of code, at any depth. -/
def ids : Code → List RecordId
  | .done => []
  | .op id _ _ rest => id :: rest.ids
  | .fn id _ _ _ body rest => id :: (body.ids ++ rest.ids)
  | .branch id _ _ _ _ yes no rest => id :: (yes.ids ++ (no.ids ++ rest.ids))

/-- The records of code are those of its blocks. -/
theorem ids_perm (c : Code) (blk : BlockId) :
    c.ids.Perm ((c.blocks blk).flatMap fun x => x.2.heads.map (·.id)) := by
  induction c generalizing blk with
  | done => exact List.Perm.refl _
  | op id ident o rest ih => exact (ih blk).cons id
  | fn id ident params blk' body rest ihb ih =>
      simp only [blocks, List.flatMap_cons] at ihb ih
      simp only [ids, blocks, nested, heads, List.flatMap_cons, List.flatMap_append, List.map_cons,
        List.cons_append]
      refine List.Perm.cons id ?_
      have hperm := ((ihb blk').append (ih blk)).trans (List.perm_append_comm_assoc ..)
      simpa only [List.append_assoc] using hperm
  | branch id ident cond yesBlk noBlk yes no rest ihy ihn ih =>
      simp only [blocks, List.flatMap_cons] at ihy ihn ih
      simp only [ids, blocks, nested, heads, List.flatMap_cons, List.flatMap_append, List.map_cons,
        List.cons_append]
      refine List.Perm.cons id ?_
      have hperm := (((ihy yesBlk).append (ihn noBlk)).append (ih blk)).trans
        (List.perm_append_comm_assoc ..)
      simpa only [List.append_assoc] using hperm

end Code

namespace Arena

variable {a : Arena} {blk : BlockId} {c : Code}

/-- Where code is shown, a block holds the blocks that its code holds. -/
theorem Shows.references_eq (h : a.Shows blk c) {x : BlockId × Code} (hx : x ∈ c.blocks blk) :
    a.references x.1 = x.2.children.map (·.1) := by
  rw [references, (h x hx).2, Code.map_fst_children]

/-- Where code is shown, edges lead to the blocks that it holds. -/
theorem Shows.edge_child (h : a.Shows blk c) {y : BlockId × Code} (hy : y ∈ c.children) :
    a.Edge blk y.1 := by
  rw [edge_iff_mem_references, h.references_eq List.mem_cons_self]
  exact List.mem_map_of_mem hy

/-- A block leads to the blocks of the code shown there. -/
theorem Shows.reflTransGen (h : a.Shows blk c) :
    ∀ x ∈ c.blocks blk, ReflTransGen a.Edge blk x.1 := by
  intro x hx
  refine (Code.blocks_induction (P := fun x => x ∈ c.blocks blk ∧ ReflTransGen a.Edge blk x.1)
    ⟨List.mem_cons_self, .refl⟩ ?_ x hx).2
  rintro x ⟨hx, hp⟩ y hy
  exact ⟨Code.child_mem_blocks hx hy, hp.tail ((h.of_mem_blocks hx).edge_child hy)⟩

/-- A block is not nested in itself. -/
theorem Shows.not_mem_nested (h : a.Shows blk c) : blk ∉ c.nested.map (·.1) := by
  intro hmem
  obtain ⟨x, hx, hxb⟩ := List.mem_map.mp hmem
  obtain ⟨y, hy, hx⟩ := Code.exists_child_of_mem_nested hx
  have hsub := h.of_mem_blocks (Code.child_mem_blocks List.mem_cons_self hy)
  have hp := hsub.reflTransGen x hx
  rw [hxb] at hp
  exact h.not_transGen (TransGen.head' (h.edge_child hy) hp)

/-- In an arena in the shape of a tree no block is met twice. -/
theorem TreeShaped.nodup_nested (h : a.TreeShaped) (hr : a.Reaches blk) (hs : a.Shows blk c) :
    (c.nested.map (·.1)).Nodup := by
  induction hn : c.nested.length using Nat.strong_induction_on generalizing c blk with
  | _ n ih =>
      have hchild : ∀ y ∈ c.children, a.Shows y.1 y.2 := fun y hy =>
        hs.of_mem_blocks (Code.child_mem_blocks List.mem_cons_self hy)
      rw [c.nested_eq, List.map_flatMap, List.nodup_flatMap]
      constructor
      · intro y hy
        have hlen : y.2.nested.length < n := hn ▸ (Code.blocks_sublist_nested hy).length_le
        refine List.nodup_cons.mpr ⟨(hchild y hy).not_mem_nested, ?_⟩
        exact ih _ hlen (hr.edge (hs.edge_child hy)) (hchild y hy) rfl
      · -- two blocks that are held side by side differ, so they lead to different blocks
        have hne : c.children.Pairwise fun y z => y.1 ≠ z.1 := by
          have hsingle := h.single blk hr
          rw [hs.references_eq List.mem_cons_self] at hsingle
          exact List.pairwise_map.mp hsingle
        refine hne.imp_of_mem fun {y z} hy hz hyz => ?_
        rw [Function.onFun, List.disjoint_left]
        intro b hb hb'
        obtain ⟨x, hx, rfl⟩ := List.mem_map.mp hb
        obtain ⟨x', hx', hxx⟩ := List.mem_map.mp hb'
        have hp := (hchild z hz).reflTransGen x' hx'
        rw [hxx] at hp
        exact hyz (h.eq_of_children hr (hs.edge_child hy) (hs.edge_child hz)
          ((hchild y hy).reflTransGen x hx) hp)

/-- An arena in the shape of a tree unfolds. -/
theorem TreeShaped.exists_unfolds (h : a.TreeShaped) (ho : a.Orderly) : ∃ c, a.Unfolds c := by
  obtain ⟨c, -, hs⟩ := h.guarded.exists_code (fun _ hr => h.no_cycle hr) Reaches.entry
  exact ⟨c, ho, hs, h.nodup_nested .entry hs⟩

/-- If no block is met twice, no record is. -/
theorem Unfolds.nodup_ids (h : a.Unfolds c) : c.ids.Nodup := by
  have hblocks : ((c.blocks entry).map (·.1)).Nodup :=
    List.nodup_cons.mpr ⟨h.shows.not_mem_nested, h.nodup⟩
  rw [(c.ids_perm entry).nodup_iff, List.nodup_flatMap]
  constructor
  · intro x hx
    rw [← (h.shows x hx).2]
    exact h.orderly.nodup_ids_items x.1
  · have hne : (c.blocks entry).Pairwise fun x y => x.1 ≠ y.1 := List.pairwise_map.mp hblocks
    refine hne.imp_of_mem fun {x y} hx hy hxy => ?_
    rw [Function.onFun, List.disjoint_left]
    intro id hid hid'
    obtain ⟨i, hi, rfl⟩ := List.mem_map.mp hid
    obtain ⟨j, hj, hij⟩ := List.mem_map.mp hid'
    rw [← (h.shows x hx).2] at hi
    rw [← (h.shows y hy).2] at hj
    exact hxy (h.orderly.eq_of_mem_items hi hj hij.symm)

end Arena

end ClosureConversion
