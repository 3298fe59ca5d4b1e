import ClosureConversion.Proofs.Arena.Cycles

/-!
# Unfolding from any instruction

Unfolding need not start at the entry: it may start at any instruction of any block, and go on to the
end of that block. All it takes is that the blocks the instructions lead to exist and that none of them
leads back to itself (`Arena.Grounded`). Then no block is met twice on the way down, whether through
bodies or through conditionals, so the fuel is enough and no body is entered again. A block may still be
held by several instructions.

* `Grounded.exists_codeFrom`: what stands from an instruction on unfolds to code with these
  instructions.
* `Grounded.exists_code`: the same for a whole block.
-/

namespace ClosureConversion

open Relation (TransGen ReflTransGen)

namespace Arena

variable {a : Arena} {blk : BlockId} {items : List Item}

/-- The instructions from a record to the end of its block. -/
def itemsFrom (a : Arena) (id : RecordId) : List Item := (a.listFrom id).map fun x => x.2.item x.1

/-- From an item on stand the item and the items behind it. -/
theorem Orderly.itemsFrom_eq (ho : a.Orderly) {i : Item} {pre post : List Item}
    (hi : a.items blk = pre ++ i :: post) : a.itemsFrom i.id = i :: post := by
  obtain ⟨r, next, -, hr, hitem, hnext, -, hpost⟩ := ho.listFrom_next hi
  have hnext? : a.next? i.id = some next := by simp [next?, hr, hnext]
  have hitem? : a.item? i.id = some i := by rw [item?, hr, Option.map_some, hitem]
  obtain ⟨ids, hp⟩ := ho.exists_path next
  rw [ho.listFrom_eq hp, map_item_rows] at hpost
  rw [itemsFrom, ho.listFrom_eq (.step hnext? hp), map_item_rows, List.filterMap_cons, hitem?, hpost]

/-- The blocks that instructions lead to, through bodies of literals and through conditionals. -/
def LeadsTo (a : Arena) (items : List Item) (blk : BlockId) : Prop :=
  ∃ i ∈ items, ∃ b ∈ i.rhs.blocks, ReflTransGen a.Edge b blk

/-- The blocks that instructions lead to exist, and none of them leads back to itself. -/
structure Grounded (a : Arena) (items : List Item) : Prop where
  inRange : ∀ blk, a.LeadsTo items blk → blk < a.numBlocks
  noCycle : ∀ blk, a.LeadsTo items blk → ¬TransGen a.Edge blk blk

/-- Edges lead on from what items lead to. -/
theorem LeadsTo.edge {blk' : BlockId} (h : a.LeadsTo items blk) (he : a.Edge blk blk') :
    a.LeadsTo items blk' := by
  obtain ⟨i, hi, b, hb, hpath⟩ := h
  exact ⟨i, hi, b, hb, hpath.tail he⟩

/-- Records put together are code, if everything they hold unfolds. -/
theorem exists_assemble {body : Name → BlockId → Except Fault Code}
    {branch : BlockId → Except Fault Code} {l : List (RecordId × Record)}
    (h : ∀ x ∈ l, ∀ b ∈ x.2.rhs.blocks, (∃ c, body x.2.ident b = .ok c ∧ a.Shows b c) ∧
      ∃ c, branch b = .ok c ∧ a.Shows b c) :
    ∃ c, Code.assemble body branch l = .ok c ∧ l.map (fun x => x.2.item x.1) = c.heads ∧
      ∀ y ∈ c.children, a.Shows y.1 y.2 := by
  induction l with
  | nil => exact ⟨.done, rfl, rfl, fun _ hy => absurd hy List.not_mem_nil⟩
  | cons x l ih =>
      obtain ⟨rest, hrest, hheads, hchildren⟩ := ih fun y hy => h y (List.mem_cons_of_mem _ hy)
      have hx := h x List.mem_cons_self
      obtain ⟨id, ident, rhs, prev, next⟩ := x
      cases rhs with
      | op o =>
          refine ⟨.op id ident o rest, ?_, congrArg _ hheads, hchildren⟩
          simp only [Code.assemble, hrest]
          rfl
      | fn params b =>
          obtain ⟨⟨inner, hinner, hshows⟩, -⟩ := hx b List.mem_cons_self
          refine ⟨.fn id ident params b inner rest, ?_, congrArg _ hheads, ?_⟩
          · simp only [Code.assemble, hinner, hrest]
            rfl
          · exact List.forall_mem_cons.mpr ⟨hshows, hchildren⟩
      | branch cond yes no =>
          obtain ⟨-, y, hy, hyes⟩ := hx yes List.mem_cons_self
          obtain ⟨-, n, hn, hno⟩ := hx no (List.mem_cons_of_mem _ List.mem_cons_self)
          refine ⟨.branch id ident cond yes no y n rest, ?_, congrArg _ hheads, ?_⟩
          · simp only [Code.assemble, hy, hn, hrest]
            rfl
          · exact List.forall_mem_cons.mpr ⟨hyes, List.forall_mem_cons.mpr ⟨hno, hchildren⟩⟩

namespace Grounded

/-- Every block that the instructions lead to unfolds. The fuel is enough because `path`, the blocks
on the way, has no repetition; the bodies around are among them. -/
theorem exists_unfold (hg : a.Grounded items) {fuel : Nat} {active path : List BlockId}
    (hblk : a.LeadsTo items blk)
    (hpath : ∀ b ∈ path, a.LeadsTo items b ∧ ReflTransGen a.Edge b blk) (hn : path.Nodup)
    (hactive : active ⊆ path) (hf : a.numBlocks < fuel + path.length) :
    ∃ c, a.unfold fuel active blk = .ok c ∧ a.Shows blk c := by
  induction fuel generalizing active path blk with
  | zero =>
      have hlen := length_le_numBlocks (fun b hb => hg.inRange b (hpath b hb).1) hn
      omega
  | succ fuel ih =>
      obtain ⟨bounds, hb⟩ := exists_bounds? (hg.inRange blk hblk)
      have hblock : a.requireBlock blk = .ok bounds := by
        rw [requireBlock, hb]
      have hstep : ∀ x ∈ a.list blk, ∀ b ∈ x.2.rhs.blocks,
          (∃ c, Code.enterBody (a.unfold fuel) active x.2.ident b = .ok c ∧ a.Shows b c) ∧
            ∃ c, a.unfold fuel active b = .ok c ∧ a.Shows b c := by
        intro x hx b hmem
        have he : a.Edge blk b := edge_iff.mpr ⟨_, List.mem_map_of_mem hx, hmem⟩
        have hfresh : b ∉ path := fun hin =>
          hg.noCycle b (hpath b hin).1 (TransGen.tail' (hpath b hin).2 he)
        have hpath' : ∀ b' ∈ b :: path, a.LeadsTo items b' ∧ ReflTransGen a.Edge b' b := by
          intro b' hb'
          rcases List.mem_cons.mp hb' with rfl | hb'
          · exact ⟨hblk.edge he, .refl⟩
          · exact (hpath b' hb').imp_right fun hp => hp.tail he
        have hnext : ∀ active' ⊆ b :: path, ∃ c, a.unfold fuel active' b = .ok c ∧ a.Shows b c := by
          intro active' hsub
          apply ih (hblk.edge he) hpath' (List.nodup_cons.mpr ⟨hfresh, hn⟩) hsub
          rw [List.length_cons]
          omega
        refine ⟨?_, hnext active (List.subset_cons_of_subset b hactive)⟩
        rw [Code.enterBody, if_neg fun hin => hfresh (hactive hin)]
        exact hnext (b :: active) (List.cons_subset_cons b hactive)
      obtain ⟨c, hc, hheads, hchildren⟩ := exists_assemble hstep
      refine ⟨c, ?_, .of_children hb hheads hchildren⟩
      simp only [unfold, hblock]
      exact hc

/-- Records with these instructions, put together with enough fuel. -/
theorem exists_assembled {l : List (RecordId × Record)}
    (hg : a.Grounded (l.map fun x => x.2.item x.1)) {fuel : Nat} (hf : a.numBlocks ≤ fuel) :
    ∃ c, Code.assemble (Code.enterBody (a.unfold fuel) []) (a.unfold fuel []) l = .ok c ∧
      l.map (fun x => x.2.item x.1) = c.heads ∧ ∀ y ∈ c.children, a.Shows y.1 y.2 := by
  apply exists_assemble
  intro x hx b hb
  have hlead : a.LeadsTo (l.map fun x => x.2.item x.1) b :=
    ⟨_, List.mem_map_of_mem hx, b, hb, .refl⟩
  have hstart : ∀ active ⊆ [b], ∃ c, a.unfold fuel active b = .ok c ∧ a.Shows b c := by
    intro active hsub
    apply hg.exists_unfold hlead ?_ (List.nodup_singleton b) hsub
    · rw [List.length_singleton]
      omega
    · intro b' hb'
      obtain rfl := List.mem_singleton.mp hb'
      exact ⟨hlead, .refl⟩
  exact ⟨hstart [b] (List.Subset.refl _), hstart [] (List.nil_subset _)⟩

/-- What stands from a record on unfolds to code with these instructions. -/
theorem exists_codeFrom {id : RecordId} (hg : a.Grounded (a.itemsFrom id))
    (hid : id < a.records.size) :
    ∃ c, a.codeFrom id = .ok c ∧ a.itemsFrom id = c.heads ∧ ∀ y ∈ c.children, a.Shows y.1 y.2 := by
  obtain ⟨r, hr⟩ := exists_record? hid
  have hrecord : a.requireRecord id = .ok r := by
    rw [requireRecord, hr]
  have hf : a.numBlocks ≤ a.depthBound := by
    unfold depthBound
    nlinarith
  obtain ⟨c, hc, hshown⟩ := hg.exists_assembled hf
  refine ⟨c, ?_, hshown⟩
  simp only [codeFrom, hrecord]
  exact hc

/-- A block unfolds to code with its instructions. -/
theorem exists_code (hg : a.Grounded (a.items blk)) (hblk : blk < a.numBlocks) :
    ∃ c, a.code blk = .ok c ∧ a.items blk = c.heads ∧ ∀ y ∈ c.children, a.Shows y.1 y.2 := by
  obtain ⟨bounds, hb⟩ := exists_bounds? hblk
  have hblock : a.requireBlock blk = .ok bounds := by
    rw [requireBlock, hb]
  obtain ⟨fuel, hfuel⟩ : ∃ fuel, a.depthBound = fuel + 1 := ⟨_, Nat.succ_mul _ _⟩
  have hf : a.numBlocks ≤ fuel := by
    unfold depthBound at hfuel
    nlinarith
  obtain ⟨c, hc, hshown⟩ := hg.exists_assembled hf
  refine ⟨c, ?_, hshown⟩
  simp only [code, hfuel, unfold, hblock]
  exact hc

/-- Instructions of a block that the entry leads to are grounded, if no cycle is reachable. -/
theorem of_reaches (hg : a.Guarded) (hno : ∀ b, a.Reaches b → ¬TransGen a.Edge b b)
    (hblk : a.Reaches blk) (hitems : items ⊆ a.items blk) : a.Grounded items := by
  have hreach : ∀ b, a.LeadsTo items b → a.Reaches b := by
    rintro b ⟨i, hi, b', hb', hpath⟩
    exact (hblk.edge (edge_iff.mpr ⟨i, hitems hi, hb'⟩)).trans hpath
  exact ⟨fun b hb => hg.inRange b (hreach b hb), fun b hb => hno b (hreach b hb)⟩

end Grounded

end Arena

end ClosureConversion
