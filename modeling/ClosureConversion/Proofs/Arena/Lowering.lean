import ClosureConversion.Ir.Lower
import ClosureConversion.Proofs.Arena.Unfolding
import ClosureConversion.Proofs.Scope

/-!
# Lowering

Lowering gives out numbers in a fixed order: an inner block before the instruction that holds it, and
everything in that block in between. `Block.number` is the code with these numbers. The arena of a
nested block unfolds to it (`Arena.ofBlock_unfolds`), no block is numbered twice
(`Block.nodup_nested_number`), and forgetting the numbers gives the nested block back
(`Block.erase_number`).
-/

namespace ClosureConversion

/-! ## Numbers -/

namespace Block

/-- How many blocks are nested in a block. -/
def blockCount : Block → Nat
  | .done => 0
  | .op _ _ rest => rest.blockCount
  | .fn _ _ body rest => 1 + body.blockCount + rest.blockCount
  | .branch _ _ yes no rest => 1 + yes.blockCount + (1 + no.blockCount) + rest.blockCount

/-- How many records lowering a block creates: one for each instruction, two for each nested block. -/
def recordCount : Block → Nat
  | .done => 0
  | .op _ _ rest => 1 + rest.recordCount
  | .fn _ _ body rest => 2 + body.recordCount + 1 + rest.recordCount
  | .branch _ _ yes no rest =>
    2 + yes.recordCount + (2 + no.recordCount) + 1 + rest.recordCount

/-- A block with the numbers that lowering gives it, in an arena with so many blocks and records. -/
def number (blocks records : Nat) : Block → Code
  | .done => .done
  | .op ident o rest => .op records ident o (rest.number blocks (records + 1))
  | .fn ident params body rest =>
    let id := records + 2 + body.recordCount
    .fn id ident params blocks (body.number (blocks + 1) (records + 2))
      (rest.number (blocks + 1 + body.blockCount) (id + 1))
  | .branch ident cond yes no rest =>
    let second := blocks + 1 + yes.blockCount
    let records' := records + 2 + yes.recordCount
    let id := records' + 2 + no.recordCount
    .branch id ident cond blocks second (yes.number (blocks + 1) (records + 2))
      (no.number (second + 1) (records' + 2))
      (rest.number (second + 1 + no.blockCount) (id + 1))

/-- Numbering a block and forgetting the numbers gives the block. -/
theorem erase_number (b : Block) (blocks records : Nat) : (b.number blocks records).erase = b := by
  induction b generalizing blocks records with
  | done => rfl
  | op ident o rest ih => simp only [number, Code.erase, ih]
  | fn ident params body rest ihb ih => simp only [number, Code.erase, ihb, ih]
  | branch ident cond yes no rest ihy ihn ih => simp only [number, Code.erase, ihy, ihn, ih]

/-- The numbers of a block, of what is nested in it, and of what comes next. -/
theorem cons_range'_append (s k m : Nat) :
    (s :: List.range' (s + 1) k) ++ List.range' (s + 1 + k) m = List.range' s (1 + k + m) := by
  rw [← List.range'_append_1, Nat.add_comm 1 k, List.range'_succ, Nat.add_assoc, Nat.add_comm 1 k]

/-- Nested blocks are numbered by the next numbers, in order. -/
theorem map_nested_number (b : Block) (blocks records : Nat) :
    (b.number blocks records).nested.map (·.1) = List.range' blocks b.blockCount := by
  induction b generalizing blocks records with
  | done => rfl
  | op ident o rest ih => exact ih blocks (records + 1)
  | fn ident params body rest ihb ih =>
      simp only [number, Code.nested, List.map_append, List.map_cons, ihb, ih, blockCount]
      exact cons_range'_append ..
  | branch ident cond yes no rest ihy ihn ih =>
      simp only [number, Code.nested, List.map_append, List.map_cons, ihy, ihn, ih, blockCount]
      rw [List.append_assoc, cons_range'_append, cons_range'_append, ← Nat.add_assoc]

/-- No two nested blocks get the same number. -/
theorem nodup_nested_number (b : Block) (blocks records : Nat) :
    ((b.number blocks records).nested.map (·.1)).Nodup := by
  rw [map_nested_number]
  exact List.nodup_range'

/-- Nested blocks get numbers from the given one on. -/
theorem le_of_mem_nested_number {b : Block} {blocks records : Nat} {x : BlockId × Code}
    (h : x ∈ (b.number blocks records).nested) : blocks ≤ x.1 := by
  have hmem : x.1 ∈ (b.number blocks records).nested.map (·.1) := List.mem_map_of_mem h
  rw [map_nested_number] at hmem
  exact (List.mem_range'_1.mp hmem).1

/-- A block and the blocks nested in it get numbers from its own on. -/
theorem le_of_mem_blocks_number {b : Block} {blocks records : Nat} {x : BlockId × Code}
    (h : x ∈ (b.number (blocks + 1) records).blocks blocks) : blocks ≤ x.1 := by
  rcases List.mem_cons.mp h with rfl | h
  · exact Nat.le_refl _
  · exact (Nat.le_succ _).trans (le_of_mem_nested_number h)

end Block

/-! ## What lowering does to an arena -/

namespace Arena

/-- `a'` has the blocks of `a`, and all of them but `blk` with the same items. -/
structure Extends (blk : BlockId) (a a' : Arena) : Prop where
  linked : a'.WellLinked
  bounds : ∀ {x b}, a.bounds? x = some b → a'.bounds? x = some b
  items : ∀ {x b}, a.bounds? x = some b → x ≠ blk → a'.items x = a.items x

/-- `a'` is `a` with the instructions of a nested block appended to `blk`. -/
structure Lowered (t : Block) (blk : BlockId) (a a' : Arena) : Prop extends Extends blk a a' where
  own : a'.items blk = a.items blk ++ (t.number a.numBlocks a.records.size).heads
  nested : ∀ x ∈ (t.number a.numBlocks a.records.size).nested,
    (∃ b, a'.bounds? x.1 = some b) ∧ a'.items x.1 = x.2.heads
  numBlocks : a'.numBlocks = a.numBlocks + t.blockCount
  size : a'.records.size = a.records.size + t.recordCount

variable {a a₁ a' : Arena} {blk : BlockId}

/-- Extensions one after the other. -/
theorem Extends.trans (h : Extends blk a a₁) (h' : Extends blk a₁ a') : Extends blk a a' where
  linked := h'.linked
  bounds := fun hx => h'.bounds (h.bounds hx)
  items := fun hx hne => (h'.items (h.bounds hx) hne).trans (h.items hx hne)

/-- Appending to a block extends the arena there. -/
theorem extends_push (hw : a.WellLinked) (ident : Name) (rhs : Rhs BlockId) :
    Extends blk a (a.push blk ident rhs) where
  linked := hw.push blk ident rhs
  bounds := fun hx => (bounds?_push ..).trans hx
  items := fun _ hne => hw.items_push hne ident rhs

/-- A nested block that is lowered into a new block leaves everything else alone. -/
theorem Lowered.of_newBlock {t : Block} (hw : a.WellLinked)
    (h : Lowered t a.numBlocks a.newBlock a') (blk : BlockId) :
    Extends blk a a' ∧ (∀ {b}, a.bounds? blk = some b → a'.items blk = a.items blk) ∧
      ∀ x ∈ (t.number (a.numBlocks + 1) (a.records.size + 2)).blocks a.numBlocks,
        (∃ b, a'.bounds? x.1 = some b) ∧ a'.items x.1 = x.2.heads := by
  have hold : ∀ {x b}, a.bounds? x = some b → x ≠ a.numBlocks := fun hx =>
    (bounds?_lt hx).ne
  have hbounds : ∀ {x b}, a.bounds? x = some b → a.newBlock.bounds? x = some b := by
    intro x b hx
    rw [bounds?_newBlock, if_neg (hold hx), hx]
  have hitems : ∀ {x b}, a.bounds? x = some b → a'.items x = a.items x := by
    intro x b hx
    rw [h.items (hbounds hx) (hold hx), hw.items_newBlock (hold hx)]
  refine ⟨⟨h.linked, fun hx => h.bounds (hbounds hx), fun hx _ => hitems hx⟩, hitems, ?_⟩
  intro x hx
  rcases List.mem_cons.mp hx with rfl | hx
  · refine ⟨⟨_, h.bounds (by rw [bounds?_newBlock, if_pos rfl])⟩, ?_⟩
    rw [h.own, hw.items_newBlock_self, numBlocks_newBlock, size_newBlock]
    rfl
  · refine h.nested x ?_
    rw [numBlocks_newBlock, size_newBlock]
    exact hx

/-- Blocks with known items other than `blk` keep them. -/
theorem Extends.shown (h : Extends blk a a') {x : BlockId × Code}
    (hx : (∃ b, a.bounds? x.1 = some b) ∧ a.items x.1 = x.2.heads) (hne : x.1 ≠ blk) :
    (∃ b, a'.bounds? x.1 = some b) ∧ a'.items x.1 = x.2.heads := by
  obtain ⟨⟨b, hb⟩, hitems⟩ := hx
  exact ⟨⟨b, h.bounds hb⟩, (h.items hb hne).trans hitems⟩

/-- The last step for each instruction: when the blocks it holds are filled, it is pushed, and the
rest of the block is lowered. -/
theorem Lowered.of_push {t rest : Block} {b : Bounds} {ident : Name} {rhs : Rhs BlockId}
    (filled : List (BlockId × Code)) (hb : a.bounds? blk = some b) (he : Extends blk a a₁)
    (hown : a₁.items blk = a.items blk) (h : Lowered rest blk (a₁.push blk ident rhs) a')
    (hfilled : ∀ x ∈ filled, (∃ b, a₁.bounds? x.1 = some b) ∧ a₁.items x.1 = x.2.heads)
    (hne : ∀ x ∈ filled, x.1 ≠ blk)
    (hheads : (t.number a.numBlocks a.records.size).heads =
      ⟨a₁.records.size, ident, rhs⟩ :: (rest.number a₁.numBlocks (a₁.records.size + 1)).heads)
    (hnested : (t.number a.numBlocks a.records.size).nested =
      filled ++ (rest.number a₁.numBlocks (a₁.records.size + 1)).nested)
    (hblocks : a.numBlocks + t.blockCount = a₁.numBlocks + rest.blockCount)
    (hsize : a.records.size + t.recordCount = a₁.records.size + 1 + rest.recordCount) :
    Lowered t blk a a' := by
  have hb₁ := he.bounds hb
  have hpush : Extends blk a₁ (a₁.push blk ident rhs) := extends_push he.linked ident rhs
  have hlater := hpush.trans h.toExtends
  obtain ⟨-, hrest, hrestNested, hrestBlocks, hrestSize⟩ := h
  rw [numBlocks_push, size_push hb₁] at hrest hrestNested
  rw [numBlocks_push] at hrestBlocks
  rw [size_push hb₁] at hrestSize
  refine ⟨he.trans hlater, ?_, ?_, hrestBlocks.trans hblocks.symm, hrestSize.trans hsize.symm⟩
  · rw [hrest, he.linked.items_push_self hb₁, hown, hheads, List.append_assoc]
    rfl
  · intro x hx
    rw [hnested] at hx
    rcases List.mem_append.mp hx with hx | hx
    · exact hlater.shown (hfilled x hx) (hne x hx)
    · exact hrestNested x hx

/-- Lowering appends a nested block. The induction follows the block: each block that an instruction
holds is lowered into a new block of its own first. -/
theorem lower_lowered (t : Block) {a : Arena} {blk : BlockId} {b : Bounds} (hw : a.WellLinked)
    (hb : a.bounds? blk = some b) : Lowered t blk a (a.lower blk t) := by
  induction t generalizing a blk b with
  | done =>
      refine ⟨⟨hw, fun hx => hx, fun _ _ => rfl⟩, ?_, ?_, rfl, rfl⟩
      · exact (List.append_nil _).symm
      · exact fun x hx => absurd hx List.not_mem_nil
  | op ident o rest ih =>
      have he : Extends blk a a := ⟨hw, fun hx => hx, fun _ _ => rfl⟩
      have hpush : Extends blk a (a.push blk ident (.op o)) := extends_push hw ident (.op o)
      refine Lowered.of_push [] hb he rfl (ih hpush.linked (hpush.bounds hb)) (by simp) (by simp)
        rfl rfl rfl ?_
      simp only [Block.recordCount]
      omega
  | fn ident params body rest ihb ih =>
      have hinner := ihb hw.newBlock (by rw [bounds?_newBlock, if_pos rfl])
      obtain ⟨he, hown, hfilled⟩ := hinner.of_newBlock hw blk
      have hsize := hinner.size
      have hblocks := hinner.numBlocks
      rw [size_newBlock] at hsize
      rw [numBlocks_newBlock] at hblocks
      have hpush : Extends blk _ _ := extends_push he.linked ident (.fn params a.numBlocks)
      have hrest := ih hpush.linked (hpush.bounds (he.bounds hb))
      have hblk := bounds?_lt hb
      refine Lowered.of_push _ hb he (hown hb) hrest hfilled ?_ ?_ ?_ ?_ ?_
      · exact fun x hx => (hblk.trans_le (Block.le_of_mem_blocks_number hx)).ne'
      · simp only [Block.number, Code.heads, hsize, hblocks]
      · simp only [Block.number, Code.nested, Code.blocks, hsize, hblocks]
      · simp only [Block.blockCount]
        omega
      · simp only [Block.recordCount]
        omega
  | branch ident cond yes no rest ihy ihn ih =>
      have hfirst := ihy hw.newBlock (by rw [bounds?_newBlock, if_pos rfl])
      set a₁ := a.newBlock.lower a.numBlocks yes with ha₁
      obtain ⟨he₁, hown₁, hfilled₁⟩ := hfirst.of_newBlock hw blk
      have hw₁ := he₁.linked
      have hsecond := ihn hw₁.newBlock (by rw [bounds?_newBlock, if_pos rfl])
      set a₂ := a₁.newBlock.lower a₁.numBlocks no with ha₂
      obtain ⟨he₂, hown₂, hfilled₂⟩ := hsecond.of_newBlock hw₁ blk
      have hsize₁ := hfirst.size
      have hblocks₁ := hfirst.numBlocks
      have hsize₂ := hsecond.size
      have hblocks₂ := hsecond.numBlocks
      rw [size_newBlock] at hsize₁ hsize₂
      rw [numBlocks_newBlock] at hblocks₁ hblocks₂
      have hpush : Extends blk _ _ :=
        extends_push he₂.linked ident (.branch cond a.numBlocks a₁.numBlocks)
      have hrest := ih hpush.linked (hpush.bounds (he₂.bounds (he₁.bounds hb)))
      have hblk := bounds?_lt hb
      have hne₁ : ∀ x ∈ (yes.number (a.numBlocks + 1) (a.records.size + 2)).blocks a.numBlocks,
          x.1 ≠ blk := fun x hx => (hblk.trans_le (Block.le_of_mem_blocks_number hx)).ne'
      have hne₂ : ∀ x ∈ (no.number (a₁.numBlocks + 1) (a₁.records.size + 2)).blocks a₁.numBlocks,
          x.1 ≠ blk := fun x hx =>
        ((bounds?_lt (he₁.bounds hb)).trans_le (Block.le_of_mem_blocks_number hx)).ne'
      have hfilled := List.forall_mem_append.mpr
        ⟨fun x hx => he₂.shown (hfilled₁ x hx) (hne₁ x hx), hfilled₂⟩
      refine Lowered.of_push _ hb (he₁.trans he₂) ((hown₂ (he₁.bounds hb)).trans (hown₁ hb)) hrest
        hfilled (List.forall_mem_append.mpr ⟨hne₁, hne₂⟩) ?_ ?_ ?_ ?_
      · simp only [Block.number, Code.heads, hsize₁, hsize₂, hblocks₁, hblocks₂]
      · simp only [Block.number, Code.nested, Code.blocks, hsize₁, hsize₂, hblocks₁, hblocks₂]
      · simp only [Block.blockCount]
        omega
      · simp only [Block.recordCount]
        omega

/-! ## The arena of a nested block -/

/-- Lowering is a sequence of edits. -/
protected theorem Built.lower {a : Arena} (h : a.Built) (blk : BlockId) (t : Block) :
    (a.lower blk t).Built := by
  induction t generalizing a blk with
  | done => exact h
  | op ident o rest ih => exact ih (h.edit (.push blk ident (.op o))) blk
  | fn ident params body rest ihb ih =>
      exact ih ((ihb (h.edit .newBlock) _).edit (.push blk ident (.fn params _))) blk
  | branch ident cond yes no rest ihy ihn ih =>
      exact ih ((ihn ((ihy (h.edit .newBlock) _).edit .newBlock) _).edit
        (.push blk ident (.branch cond _ _))) blk

/-- The arena of a nested block comes about by edits. -/
theorem built_ofBlock (t : Block) : (ofBlock t).Built :=
  Built.empty.lower entry t

/-- The entry of the first arena has the first two records. -/
theorem bounds?_empty_entry : Arena.empty.bounds? entry = some ⟨0, 1⟩ := rfl

/-- Unfolding the arena of a nested block gives the block back, with its numbers. -/
theorem ofBlock_unfolds (t : Block) : (ofBlock t).Unfolds (t.number 1 2) := by
  have h := lower_lowered t WellLinked.empty bounds?_empty_entry
  refine ⟨(built_ofBlock t).orderly, fun x hx => ?_, t.nodup_nested_number 1 2⟩
  rcases List.mem_cons.mp hx with rfl | hx
  · exact ⟨⟨_, h.bounds bounds?_empty_entry⟩, h.own⟩
  · exact h.nested x hx

end Arena

end ClosureConversion
