import ClosureConversion.Proofs.Arena.Trees

/-!
# Arenas that are built as trees

Lowering a nested block, and running a script that makes the blocks of an instruction together with
it, give arenas in the shape of a tree (`Arena.treeShaped_ofBlock`, `Arena.treeShaped_run`).

While the arena is built, some of its blocks are held by no instruction yet. `Arena.Forest` is what
holds all the time, of every block. `Arena.Grown` adds that the blocks that were there before are held
by nothing new. So a new block can be filled first and taken up by an instruction then, or the other
way round (`Grown.takeUp`).
-/

namespace ClosureConversion

namespace Arena

variable {a a₁ a₂ : Arena}

/-- Each block is held at most once, the entry not at all, and all blocks that are held exist. -/
structure Forest (a : Arena) : Prop where
  linked : a.WellLinked
  entry_lt : entry < a.numBlocks
  inRange : ∀ blk, ∀ child ∈ a.references blk, child < a.numBlocks
  root : ∀ blk, entry ∉ a.references blk
  once : ∀ {blk blk' child}, child ∈ a.references blk → child ∈ a.references blk' → blk = blk'
  single : ∀ blk, (a.references blk).Nodup

/-- Forests are tree shaped: what is held once at most is reached in one way. -/
theorem Forest.treeShaped (h : a.Forest) : a.TreeShaped where
  inRange := by
    intro blk hr
    induction hr with
    | entry => exact h.entry_lt
    | step _ hi hb _ => exact h.inRange _ _ (mem_references hi hb)
  root := fun blk _ => h.root blk
  once := fun _ _ => h.once
  single := fun blk _ => h.single blk

/-! ## References under single steps -/

/-- A new block holds nothing, and the others hold what they held. -/
theorem references_newBlock (hw : a.WellLinked) (x : BlockId) :
    a.newBlock.references x = a.references x := by
  unfold references
  by_cases hx : x = a.numBlocks
  · subst hx
    have hnone : a.bounds? a.numBlocks = none := Array.getElem?_eq_none (Nat.le_refl _)
    rw [hw.items_newBlock_self, items_eq_nil hnone]
  · rw [hw.items_newBlock hx]

/-- An instruction adds the blocks it holds to those of its own block, if that block exists. -/
theorem references_push (hw : a.WellLinked) (blk : BlockId) (ident : Name) (rhs : Rhs BlockId)
    (x : BlockId) :
    (a.push blk ident rhs).references x = a.references x ∨
      x = blk ∧ (a.push blk ident rhs).references x = a.references x ++ rhs.blocks := by
  unfold references
  by_cases hx : x = blk
  · subst hx
    cases hb : a.bounds? x with
    | none =>
        rw [push_of_bounds?_eq_none hb]
        exact .inl rfl
    | some b =>
        refine .inr ⟨rfl, ?_⟩
        rw [hw.items_push_self hb, List.flatMap_append, List.flatMap_singleton]
  · rw [hw.items_push hx]
    exact .inl rfl

/-! ## Growth -/

/-- `a'` is a forest with the blocks of `a` and maybe more, and the blocks of `a` are held by nothing
new. -/
structure Grown (a a' : Arena) : Prop where
  forest : a'.Forest
  le : a.numBlocks ≤ a'.numBlocks
  old : ∀ {blk child}, child < a.numBlocks → child ∈ a'.references blk → child ∈ a.references blk

namespace Grown

/-- An arena grows into itself. -/
protected theorem refl (h : a.Forest) : Grown a a := ⟨h, Nat.le_refl _, fun _ hc => hc⟩

/-- Growth upon growth. -/
theorem trans (h : Grown a a₁) (h' : Grown a₁ a₂) : Grown a a₂ where
  forest := h'.forest
  le := h.le.trans h'.le
  old := fun hlt hc => h.old hlt (h'.old (hlt.trans_le h.le) hc)

/-- An instruction may take up new blocks that nothing holds yet. -/
theorem takeUp (h : Grown a a₁) (ha : a.Forest) {rhs : Rhs BlockId}
    (hnew : ∀ child ∈ rhs.blocks, a.numBlocks ≤ child ∧ child < a₁.numBlocks ∧
      ∀ x, child ∉ a₁.references x) (hn : rhs.blocks.Nodup) (blk : BlockId) (ident : Name) :
    Grown a (a₁.push blk ident rhs) := by
  have hf := h.forest
  have href := references_push hf.linked blk ident rhs
  have hmem : ∀ {x child}, child ∈ (a₁.push blk ident rhs).references x →
      child ∈ a₁.references x ∨ x = blk ∧ child ∈ rhs.blocks := by
    intro x child hc
    rcases href x with heq | ⟨hx, heq⟩
    · exact .inl (heq ▸ hc)
    · rw [heq] at hc
      exact (List.mem_append.mp hc).imp_right fun hc => ⟨hx, hc⟩
  refine ⟨⟨hf.linked.push blk ident rhs, ?_, ?_, ?_, ?_, ?_⟩, ?_, ?_⟩
  · rw [numBlocks_push]
    exact hf.entry_lt
  · intro x child hc
    rw [numBlocks_push]
    rcases hmem hc with hc | ⟨-, hc⟩
    · exact hf.inRange x child hc
    · exact (hnew child hc).2.1
  · intro x hc
    rcases hmem hc with hc | ⟨-, hc⟩
    · exact hf.root x hc
    · exact absurd ha.entry_lt (Nat.not_lt_of_le (hnew _ hc).1)
  · intro x y child hx hy
    rcases hmem hx with hx | ⟨hxb, hc⟩
    · rcases hmem hy with hy | ⟨-, hc⟩
      · exact hf.once hx hy
      · exact absurd hx ((hnew child hc).2.2 x)
    · rcases hmem hy with hy | ⟨hyb, -⟩
      · exact absurd hy ((hnew child hc).2.2 y)
      · exact hxb.trans hyb.symm
  · intro x
    rcases href x with heq | ⟨-, heq⟩
    · rw [heq]
      exact hf.single x
    · rw [heq, List.nodup_append']
      refine ⟨hf.single x, hn, List.disjoint_left.mpr fun child hc hc' => ?_⟩
      exact (hnew child hc').2.2 x hc
  · rw [numBlocks_push]
    exact h.le
  · intro x child hlt hc
    rcases hmem hc with hc | ⟨-, hc⟩
    · exact h.old hlt hc
    · exact absurd hlt (Nat.not_lt_of_le (hnew child hc).1)

end Grown

/-- An arena grows by a new block. -/
theorem Forest.grown_newBlock (h : a.Forest) : Grown a a.newBlock := by
  have hlt : a.numBlocks < a.newBlock.numBlocks := by
    rw [numBlocks_newBlock]
    exact Nat.lt_succ_self _
  have href := references_newBlock h.linked
  refine ⟨⟨h.linked.newBlock, h.entry_lt.trans hlt, ?_, ?_, ?_, ?_⟩, hlt.le, ?_⟩
  · intro x child hc
    rw [href] at hc
    exact (h.inRange x child hc).trans hlt
  · intro x
    rw [href]
    exact h.root x
  · intro x y child hx hy
    rw [href] at hx hy
    exact h.once hx hy
  · intro x
    rw [href]
    exact h.single x
  · intro x child _ hc
    rwa [href] at hc

/-- A new block is held by nothing while the arena grows from there. -/
theorem Forest.not_mem_references (h : a.Forest) (hg : Grown a.newBlock a₁) (x : BlockId) :
    a.numBlocks ∉ a₁.references x := by
  intro hc
  have hlt : a.numBlocks < a.newBlock.numBlocks := by
    rw [numBlocks_newBlock]
    exact Nat.lt_succ_self _
  have hold := hg.old hlt hc
  rw [references_newBlock h.linked] at hold
  exact Nat.lt_irrefl _ (h.inRange x _ hold)

/-- After a new block there are more blocks. -/
theorem Grown.numBlocks_lt (h : Grown a.newBlock a₁) : a.numBlocks < a₁.numBlocks := by
  have hle := h.le
  rw [numBlocks_newBlock] at hle
  exact hle

/-- A function literal takes up the block that was made for its body. -/
theorem Forest.grown_fn (h : a.Forest) (hg : Grown a.newBlock a₁) (blk : BlockId) (ident : Name)
    (params : List Name) : Grown a (a₁.push blk ident (.fn params a.numBlocks)) := by
  refine (h.grown_newBlock.trans hg).takeUp h ?_ ?_ blk ident
  · intro child hc
    obtain rfl := List.mem_singleton.mp hc
    exact ⟨Nat.le_refl _, hg.numBlocks_lt, h.not_mem_references hg⟩
  · exact List.nodup_singleton _

/-- A conditional takes up the two blocks that were made for it. -/
theorem Forest.grown_branch (h : a.Forest) (hg : Grown a.newBlock a₁) (hg' : Grown a₁.newBlock a₂)
    (blk : BlockId) (ident cond : Name) :
    Grown a (a₂.push blk ident (.branch cond a.numBlocks a₁.numBlocks)) := by
  have hlt := hg.numBlocks_lt
  have hlt' := hg'.numBlocks_lt
  have hfirst : ∀ x, a.numBlocks ∉ a₂.references x := by
    intro x hc
    have hold := hg'.old (hlt.trans_le hg.forest.grown_newBlock.le) hc
    rw [references_newBlock hg.forest.linked] at hold
    exact h.not_mem_references hg x hold
  refine ((h.grown_newBlock.trans hg).trans (hg.forest.grown_newBlock.trans hg')).takeUp h ?_ ?_
    blk ident
  · intro child hc
    rcases List.mem_pair.mp hc with rfl | rfl
    · exact ⟨Nat.le_refl _, hlt.trans hlt', hfirst⟩
    · exact ⟨hlt.le, hlt', hg.forest.not_mem_references hg'⟩
  · exact List.nodup_cons.mpr ⟨fun hc => hlt.ne (List.mem_singleton.mp hc), List.nodup_singleton _⟩

/-- An arena grows by an instruction that holds no blocks. -/
theorem Forest.grown_op (h : a.Forest) {rhs : Rhs BlockId} (hrhs : rhs.blocks = []) (blk : BlockId)
    (ident : Name) : Grown a (a.push blk ident rhs) := by
  refine (Grown.refl h).takeUp h ?_ ?_ blk ident
  · rw [hrhs]
    exact fun _ hc => absurd hc List.not_mem_nil
  · rw [hrhs]
    exact List.nodup_nil

/-! ## Lowering and scripts -/

/-- An arena grows by lowering a nested block. -/
theorem Forest.lower (h : a.Forest) (blk : BlockId) (t : Block) : Grown a (a.lower blk t) := by
  induction t generalizing a blk with
  | done => exact .refl h
  | op ident o rest ih =>
      have hop : Grown a (a.push blk ident (.op o)) := h.grown_op rfl blk ident
      exact hop.trans (ih hop.forest blk)
  | fn ident params body rest ihb ih =>
      have hfn := h.grown_fn (ihb h.grown_newBlock.forest a.numBlocks) blk ident params
      exact hfn.trans (ih hfn.forest blk)
  | branch ident cond yes no rest ihy ihn ih =>
      have hyes := ihy h.grown_newBlock.forest a.numBlocks
      have hno := ihn hyes.forest.grown_newBlock.forest (a.newBlock.lower a.numBlocks yes).numBlocks
      have hbranch := h.grown_branch hyes hno blk ident cond
      exact hbranch.trans (ih hbranch.forest blk)

end Arena

/-- A script in which instructions hold no blocks but those that are made for them. -/
def Script.Structured : Script → Prop
  | .done => True
  | .emit _ rhs rest => rhs.blocks = [] ∧ rest.Structured
  | .fn _ _ body rest => body.Structured ∧ rest.Structured
  | .branch _ _ yes no rest => yes.Structured ∧ no.Structured ∧ rest.Structured
  | .lower _ rest => rest.Structured

namespace Arena

variable {a : Arena}

/-- An arena grows by running a structured script. -/
theorem Forest.run (h : a.Forest) {s : Script} (hs : s.Structured) (blk : BlockId) :
    Grown a (s.run a blk).1 := by
  induction s generalizing a blk with
  | done => exact .refl h
  | emit ident rhs rest ih =>
      have hop := h.grown_op hs.1 blk ident
      exact hop.trans (ih hop.forest hs.2 blk)
  | fn ident params body rest ihb ih =>
      have hfn := h.grown_fn (.refl h.grown_newBlock.forest) blk ident params
      have hbody := hfn.trans (ihb hfn.forest hs.1 a.numBlocks)
      exact hbody.trans (ih hbody.forest hs.2 blk)
  | branch ident cond yes no rest ihy ihn ih =>
      have hnew := h.grown_newBlock.forest
      have hbranch := h.grown_branch (.refl hnew) (.refl hnew.grown_newBlock.forest) blk ident cond
      rw [numBlocks_newBlock] at hbranch
      have hyes := hbranch.trans (ihy hbranch.forest hs.1 a.numBlocks)
      have hno := hyes.trans (ihn hyes.forest hs.2.1 (a.numBlocks + 1))
      exact hno.trans (ih hno.forest hs.2.2 blk)
  | lower b rest ih =>
      have hlower := h.lower blk b
      exact hlower.trans (ih hlower.forest hs blk)

/-- Running a script is a sequence of edits. -/
protected theorem Built.run (h : a.Built) (s : Script) (blk : BlockId) : (s.run a blk).1.Built := by
  induction s generalizing a blk with
  | done => exact h
  | emit ident rhs rest ih => exact ih (h.edit (.push blk ident rhs)) blk
  | fn ident params body rest ihb ih =>
      exact ih (ihb ((h.edit .newBlock).edit (.push blk ident (.fn params _))) _) blk
  | branch ident cond yes no rest ihy ihn ih =>
      refine ih (ihn (ihy ?_ _) _) blk
      exact ((h.edit .newBlock).edit .newBlock).edit (.push blk ident (.branch cond _ _))
  | lower b rest ih => exact ih (h.lower blk b) blk

/-- The first arena is a forest. -/
theorem forest_empty : Arena.empty.Forest := by
  have href : ∀ x, Arena.empty.references x = [] := by
    intro x
    have hw : WellLinked ⟨#[], #[]⟩ :=
      ⟨fun _ => [], by simp [bounds?], by simp [bounds?], by simp [bounds?]⟩
    have hnone : bounds? ⟨#[], #[]⟩ x = none := rfl
    rw [Arena.empty, references_newBlock hw, references, items_eq_nil hnone, List.flatMap_nil]
  exact ⟨.empty, Nat.zero_lt_one, by simp [href], by simp [href], by simp [href], by simp [href]⟩

/-- The arena of a nested block has the shape of a tree. -/
theorem treeShaped_ofBlock (t : Block) : (ofBlock t).TreeShaped :=
  (forest_empty.lower entry t).forest.treeShaped

/-- A structured script gives an arena in the shape of a tree. -/
theorem treeShaped_run {s : Script} (hs : s.Structured) : (s.run Arena.empty entry).1.TreeShaped :=
  (forest_empty.run hs entry).forest.treeShaped

end Arena

end ClosureConversion
